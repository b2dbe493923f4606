import TonNet.Cell.Basic

-- The read cursor over a cell.

namespace TonNet

open Fallible

-- `endBit` and `endRef` are one past the last bit and reference the cursor may read. A cursor never
-- runs past them, and they never run past the cell.
structure Slice where
  cell       : Cell
  bit        : Nat
  nextRef    : Nat
  endBit     : Nat
  endRef     : Nat
  bit_le     : bit ≤ endBit
  endBit_le  : endBit ≤ cell.bits
  nextRef_le : nextRef ≤ endRef
  endRef_le  : endRef ≤ cell.refs.length

-- A method on `&mut Slice`.
abbrev Load := Method Slice CellError

def Cell.parse (cell : Cell) : Slice where
  cell       := cell
  bit        := 0
  nextRef    := 0
  endBit     := cell.bits
  endRef     := cell.refs.length
  bit_le     := Nat.zero_le _
  endBit_le  := le_rfl
  nextRef_le := Nat.zero_le _
  endRef_le  := le_rfl

namespace Slice

def remainingBits (s : Slice) : Nat :=
  s.endBit - s.bit

def remainingRefs (s : Slice) : Nat :=
  s.endRef - s.nextRef

-- The cursor past `n` more bits.
def past (s : Slice) (n : Nat) (h : n ≤ s.remainingBits) : Slice :=
  { s with
    bit    := s.bit + n
    bit_le := by
      have := s.bit_le
      simp only [remainingBits] at h
      omega }

-- The cursor past one more reference.
def pastRef (s : Slice) (h : s.nextRef < s.endRef) : Slice :=
  { s with
    nextRef    := s.nextRef + 1
    nextRef_le := h }

-- The number `n` bits from `start` spell, most significant first.
def uintAt (data : Bytes) (start n : Nat) : Nat :=
  (List.range n).foldl (fun value i => value <<< 1 ||| (data.bitAt (start + i)).toNat) 0

def advance (n : Nat) : Load Nat := do
  let s ← get
  if h : n ≤ s.remainingBits then
    set (s.past n h)
    return s.bit
  else throw (.notEnoughBits n s.remainingBits)

def skipBits (n : Nat) : Load Unit := do
  let _ ← advance n
  return ()

def loadBit : Load Bool := do
  let start ← advance 1
  let s ← get
  return s.cell.data.bitAt start

-- `load_uint` and `load_uint128` differ in the width of the integer they return.
def loadUintOf (width n : Nat) : Load Nat := do
  failIf (n > width) (.tooWide n width)
  let start ← advance n
  let s ← get
  return uintAt s.cell.data start n

def loadUint (n : Nat) : Load Nat :=
  loadUintOf 64 n

def loadUint128 (n : Nat) : Load Nat :=
  loadUintOf 128 n

def loadU16 : Load Nat :=
  loadUint 16

def loadU32 : Load UInt32 := do
  let value ← loadUint 32
  return UInt32.ofNat value

def loadI32 : Load Int32 := do
  let value ← loadUint 32
  return (UInt32.ofNat value).toInt32

-- The length and the value of a variable integer. A refused value leaves the cursor before the
-- length.
def readVar (max : Nat) : Load (Nat × Nat) := do
  failIf (max < 2) (.malformed "variable integer needs a max above one")
  let lenBits := (max - 1).log2 + 1
  let start ← get
  let len ← loadUint lenBits
  let valueBits := len * 8
  let refuse (err : CellError) : Load (Nat × Nat) := do
    set start
    throw err
  if valueBits ≥ 2 ^ 32 then refuse (.tooWide len 128)
  else
    tryCatch (do
      let raw ← loadUint128 valueBits
      return (raw, valueBits)) refuse

def loadVarUint (max : Nat) : Load Nat := do
  let (raw, _) ← readVar max
  return raw

-- Whole bytes, behind those read before. A count of bytes whose count of bits is no `usize` asks for
-- more than any cell holds.
def loadBytesInto (n : Nat) (into : Bytes) : Load Bytes := do
  let s ← get
  failIf (n * 8 ≥ 2 ^ 64) (.notEnoughBits (2 ^ 64 - 1) s.remainingBits)
  let start ← advance (n * 8)
  let s ← get
  return into ++ (List.range n).map fun byte => UInt8.ofNat (uintAt s.cell.data (start + byte * 8) 8)

def loadBytes (n : Nat) : Load Bytes :=
  loadBytesInto n []

def loadRef : Load Cell := do
  let s ← get
  if h : s.nextRef < s.endRef then
    let cell ← okOr (s.cell.reference s.nextRef) .notEnoughRefs
    set (s.pastRef h)
    return cell
  else throw .notEnoughRefs

def loadMaybeRef : Load (Option Cell) := do
  if ← loadBit then
    let cell ← loadRef
    return some cell
  else
    return none

theorem uintAt_testBit (data : Bytes) (start n k : Nat) :
    (uintAt data start n).testBit k = (decide (k < n) && data.bitAt (start + (n - 1 - k))) := by
  induction n generalizing k
  case zero => simp [uintAt]
  case succ n hi =>
    have step : uintAt data start (n + 1) =
        uintAt data start n <<< 1 ||| (data.bitAt (start + n)).toNat := by
      rw [uintAt, List.range_succ, List.foldl_append]
      rfl
    rw [step, Nat.testBit_or, Nat.testBit_shiftLeft]
    cases k
    case zero =>
      rw [Nat.add_sub_cancel, Nat.sub_zero]
      cases data.bitAt (start + n) <;> simp
    case succ k =>
      have high : (data.bitAt (start + n)).toNat.testBit (k + 1) = false := by
        cases data.bitAt (start + n) <;> simp [Nat.testBit_succ]
      rw [high, Nat.add_sub_cancel, Nat.add_sub_cancel, hi]
      simp [show n - 1 - k = n - (k + 1) by omega]

section

open Method

variable {s s' : Slice}

theorem advance_ends {n start : Nat} :
    (advance n).Ends s start s' ↔ ∃ h : n ≤ s.remainingBits, s.bit = start ∧ s.past n h = s' := by
  unfold advance
  simp only [ends_bind, ends_get]
  constructor
  · rintro ⟨_, _, ⟨rfl, rfl⟩, h⟩
    split at h
    case isTrue hn =>
      simp only [ends_bind, ends_set, ends_pure] at h
      obtain ⟨_, _, rfl, rfl, rfl⟩ := h
      exact ⟨hn, rfl, rfl⟩
    case isFalse => exact absurd h ends_throw
  · rintro ⟨hn, rfl, rfl⟩
    refine ⟨s, s, ⟨rfl, rfl⟩, ?_⟩
    rw [dif_pos hn]
    exact ends_bind.mpr ⟨.unit, _, ends_set.mpr rfl, ends_pure.mpr ⟨rfl, rfl⟩⟩

theorem loadUint_ends {n value : Nat} (h : (loadUint n).Ends s value s') :
    value = uintAt s.cell.data s.bit n := by
  simp only [loadUint, loadUintOf, ends_bind, ends_failIf, ends_get, ends_pure] at h
  obtain ⟨_, _, ⟨_, rfl⟩, _, _, run, _, _, ⟨rfl, rfl⟩, rfl, rfl⟩ := h
  obtain ⟨_, rfl, rfl⟩ := advance_ends.mp run
  rfl

end

end Slice

end TonNet
