import TonNet.Cell.Slice

-- The builder a cell is written through.

namespace TonNet

open Fallible

-- The partial last byte is filled from its top bit down, and the bits past the count are zero.
structure Builder where
  data      : Bytes
  bits      : Nat
  refs      : List Cell
  bits_le   : bits ≤ maxBits
  refs_le   : refs.length ≤ maxRefs
  length_eq : data.length = (bits + 7) / 8
  padded    : ∀ i ≥ bits, data.bitAt i = false

-- A method on `&mut Builder`.
abbrev Store := Method Builder CellError

-- Sets bit `index` of the last byte, counting within that byte.
def setLast (data : Bytes) (index : Nat) : Bytes :=
  data.modify (data.length - 1) (· ||| UInt8.ofNat (1 <<< (7 - index % 8)))

theorem setLast_length (data : Bytes) (index : Nat) : (setLast data index).length = data.length := by
  simp [setLast]

theorem bitAt_setLast {data : Bytes} (index : Nat) (h : data.length = index / 8 + 1) (i : Nat) :
    (setLast data index).bitAt i = (decide (i = index) || data.bitAt i) := by
  rw [setLast, h, Nat.add_sub_cancel]
  exact Bytes.bitAt_modify (by omega) i

-- The bytes after one more bit: a fresh byte is pushed for it when the last one is full.
def pushBit (data : Bytes) (bits : Nat) (bit : Bool) : Bytes :=
  let data := if bits % 8 = 0 then data ++ [0] else data
  if bit then setLast data bits else data

theorem bitAt_append_zero (data : Bytes) (i : Nat) : (data ++ [0]).bitAt i = data.bitAt i := by
  by_cases hi : i < 8 * data.length
  case pos => exact Bytes.bitAt_append_left _ hi
  case neg =>
    obtain ⟨j, rfl⟩ := Nat.exists_eq_add_of_le (not_lt.mp hi)
    have past : data.bitAt (8 * data.length + j) = false := Bytes.bitAt_of_length_le (by omega)
    rw [Bytes.bitAt_append_right, past]
    by_cases hj : j < 8
    case pos => simp [Bytes.bitAt_singleton _ hj]
    case neg => exact Bytes.bitAt_of_length_le (by simp; omega)

theorem pushBit_length {data : Bytes} {bits : Nat} (h : data.length = (bits + 7) / 8) (bit : Bool) :
    (pushBit data bits bit).length = (bits + 1 + 7) / 8 := by
  unfold pushBit
  cases bit <;> by_cases h0 : bits % 8 = 0 <;> simp [h0, setLast_length] <;> omega

theorem bitAt_pushBit {data : Bytes} {bits : Nat} (h : data.length = (bits + 7) / 8)
    (padded : ∀ i ≥ bits, data.bitAt i = false) (bit : Bool) (i : Nat) :
    (pushBit data bits bit).bitAt i = if i = bits then bit else data.bitAt i := by
  have room : ∀ data' : Bytes, data'.length = bits / 8 + 1 → (∀ i, data'.bitAt i = data.bitAt i) →
      (if bit then setLast data' bits else data').bitAt i = if i = bits then bit else data.bitAt i := by
    intro data' hl same
    cases bit
    case false =>
      rw [if_neg Bool.false_ne_true, same]
      split
      case isTrue hi => exact padded i (by omega)
      case isFalse => rfl
    case true =>
      rw [if_pos rfl, bitAt_setLast _ hl, same]
      by_cases hi : i = bits <;> simp [hi]
  unfold pushBit
  by_cases h0 : bits % 8 = 0
  case pos => exact room _ (by simp [h0]; omega) (by simp [h0, bitAt_append_zero])
  case neg => exact room _ (by simp [h0]; omega) (by simp [h0])

namespace Builder

def new : Builder where
  data      := []
  bits      := 0
  refs      := []
  bits_le   := Nat.zero_le _
  refs_le   := Nat.zero_le _
  length_eq := rfl
  padded    := fun _ _ => Bytes.bitAt_of_length_le (Nat.zero_le _)

def bitsLeft (b : Builder) : Nat :=
  maxBits - b.bits

def refsLeft (b : Builder) : Nat :=
  maxRefs - b.refs.length

def canExtendBy (b : Builder) (bits refs : Nat) : Bool :=
  bits ≤ b.bitsLeft ∧ refs ≤ b.refsLeft

-- The builder with one more bit.
def push (b : Builder) (bit : Bool) (h : 1 ≤ b.bitsLeft) : Builder :=
  { b with
    data      := pushBit b.data b.bits bit
    bits      := b.bits + 1
    bits_le   := by
      simp only [bitsLeft] at h
      omega
    length_eq := pushBit_length b.length_eq bit
    padded    := by
      intro i hi
      rw [bitAt_pushBit b.length_eq b.padded, if_neg (by omega)]
      exact b.padded i (by omega) }

-- The builder with one more reference.
def pushRef (b : Builder) (cell : Cell) (h : b.refs.length < maxRefs) : Builder :=
  { b with
    refs    := b.refs ++ [cell]
    refs_le := by
      rw [List.length_append]
      exact h }

def roomFor (bits : Nat) : Store Unit := do
  let b ← get
  failIf (bits > b.bitsLeft) (.noRoomForBits bits b.bitsLeft)

def storeBit (bit : Bool) : Store Unit := do
  let b ← get
  if h : 1 ≤ b.bitsLeft then
    set (b.push bit h)
  else throw (.noRoomForBits 1 b.bitsLeft)

def storeUint (value bits : Nat) : Store Unit := do
  failIf (bits > 64) (.tooWide bits 64)
  failIf (bits < 64 ∧ value ≥ 2 ^ bits) (.malformed "value does not fit the requested bits")
  roomFor bits
  (List.range bits).reverse.forM fun offset => storeBit (value.testBit offset)

def storeBytes (bytes : Bytes) : Store Unit := do
  let b ← get
  let bits := bytes.length * 8
  failIf (bits > 65535) (.noRoomForBits bits b.bitsLeft)
  roomFor bits
  bytes.forM fun byte => storeUint byte.toNat 8

def storeRef (cell : Cell) : Store Unit := do
  let b ← get
  if h : b.refs.length < maxRefs then
    set (b.pushRef cell h)
  else throw (.noRoomForRefs maxRefs)

def storeSameBit (bit : Bool) (count : Nat) : Store Unit := do
  roomFor count
  (List.range count).forM fun _ => storeBit bit

-- Copies what is left of a cursor, read off it one by one.
def storeSlice (slice : Slice) : Store Unit := do
  roomFor (if slice.remainingBits ≤ 65535 then slice.remainingBits else maxBits)
  let b ← get
  failIf (slice.remainingRefs > b.refsLeft) (.noRoomForRefs maxRefs)
  let slice ← (List.range slice.remainingBits).foldlM (fun slice _ => do
    let (bit, slice) ← Method.ofExcept (Slice.loadBit.call slice)
    storeBit bit
    return slice) slice
  let _ ← (List.range slice.remainingRefs).foldlM (fun slice _ => do
    let (cell, slice) ← Method.ofExcept (Slice.loadRef.call slice)
    storeRef cell
    return slice) slice
  return ()

def bitAt (b : Builder) (index : Nat) : Bool :=
  if index ≥ b.bits then false else b.data.bitAt index

def storeBuilder (other : Builder) : Store Unit := do
  roomFor other.bits
  let b ← get
  failIf (other.refs.length > b.refsLeft) (.noRoomForRefs maxRefs)
  (List.range other.bits).forM fun index => storeBit (other.bitAt index)
  other.refs.forM storeRef

-- The stored form carries the data bits, then a set bit, then zeros. Bits past the count are
-- already zero, so setting the completion bit is the whole of it.
def closed (b : Builder) : Bytes :=
  if b.bits % 8 ≠ 0 then setLast b.data b.bits else b.data

variable [Sha256]

def finish (b : Builder) (cellType : CellType) (levelMask : Nat) : Except CellError Cell :=
  Cell.fromParts b.closed b.bits b.refs cellType levelMask

def build (b : Builder) : Except CellError Cell :=
  b.finish .ordinary (childrenMask (b.refs.map Cell.identity))

end Builder

def Slice.toBuilder (slice : Slice) : Except CellError Builder := do
  let (_, builder) ← (Builder.storeSlice slice).call .new
  return builder

end TonNet
