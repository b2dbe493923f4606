import TonNet.Cell.Loads

-- The stores of a builder that a message is encoded with, and how a write is undone.

namespace TonNet

open Fallible

-- The bits past `bits` of the last byte cleared.
def clearLast (data : Bytes) (bits : Nat) : Bytes :=
  data.modify (data.length - 1) (· &&& UInt8.ofNat (0xff <<< (8 - bits % 8)))

-- The bytes that hold the first `bits` bits.
def truncated (data : Bytes) (bits : Nat) : Bytes :=
  let data := data.take ((bits + 7) / 8)
  if bits % 8 ≠ 0 then clearLast data bits else data

theorem truncated_length {data : Bytes} {bits : Nat} (h : (bits + 7) / 8 ≤ data.length) :
    (truncated data bits).length = (bits + 7) / 8 := by
  unfold truncated
  split <;> simp [clearLast, h]

-- The mask keeps the top bits of a byte.
theorem testBit_mask : ∀ k < 8, ∀ i < 8,
    (UInt8.ofNat (0xff <<< (8 - k))).toNat.testBit (7 - i) = decide (i < k) := by
  decide

theorem bitAt_take (data : Bytes) (n i : Nat) :
    Bytes.bitAt (data.take n) i = (decide (i / 8 < n) && data.bitAt i) := by
  simp only [Bytes.bitAt, List.getD_eq_getElem?_getD, List.getElem?_take]
  by_cases hi : i / 8 < n <;> simp [hi]

theorem bitAt_clearLast {data : Bytes} {bits : Nat} (h : data.length = bits / 8 + 1) (i : Nat) :
    (clearLast data bits).bitAt i = (decide (i / 8 = bits / 8 → i % 8 < bits % 8) && data.bitAt i) := by
  simp only [clearLast, h, Nat.add_sub_cancel, Bytes.bitAt, List.getD_eq_getElem?_getD,
    List.getElem?_modify]
  by_cases hi : bits / 8 = i / 8
  case pos =>
    have hin : i / 8 < data.length := by omega
    have mask := testBit_mask (bits % 8) (Nat.mod_lt _ (by decide)) (i % 8) (Nat.mod_lt _ (by decide))
    simp only [hi, if_true, List.getElem?_eq_getElem hin, Option.map_eq_map, Option.map_some,
      Option.getD_some, UInt8.toNat_and, Nat.testBit_and, mask, forall_const]
    rw [Bool.and_comm]
  case neg => simp [hi, Ne.symm hi]

theorem bitAt_truncated {data : Bytes} {bits : Nat} (h : (bits + 7) / 8 ≤ data.length) (i : Nat) :
    (truncated data bits).bitAt i = (decide (i < bits) && data.bitAt i) := by
  unfold truncated
  split
  case isTrue part =>
    have length : (data.take ((bits + 7) / 8)).length = bits / 8 + 1 := by
      rw [List.length_take]
      omega
    rw [bitAt_clearLast length, bitAt_take, ← Bool.and_assoc, ← Bool.decide_and]
    congr 2
    rw [eq_iff_iff]
    omega
  case isFalse whole =>
    rw [bitAt_take]
    congr 2
    rw [eq_iff_iff]
    omega

namespace Builder

-- The low `bits` bits of a number that fits an integer of `width` bits. `store_uint` and
-- `store_uint128` differ in that width.
def storeUintOf (width value bits : Nat) : Store Unit := do
  failIf (bits > width) (.tooWide bits width)
  failIf (bits < width ∧ value ≥ 2 ^ bits) (.malformed "value does not fit the requested bits")
  roomFor bits
  (List.range bits).reverse.forM fun offset => storeBit (value.testBit offset)

def storeUint128 (value bits : Nat) : Store Unit :=
  storeUintOf 128 value bits

-- Whether a number is past the range of a signed field of `bits` bits.
def outOfField {width : Nat} (value : BitVec width) (bits : Nat) : Bool :=
  if bits = 0 then value ≠ 0
  else if bits < width then value.toInt ≥ 2 ^ (bits - 1) ∨ value.toInt < -2 ^ (bits - 1)
  else false

-- A bit vector as the signed number it spells. `store_int` and `store_int128` differ in its width.
def storeIntOf {width : Nat} (value : BitVec width) (bits : Nat) : Store Unit := do
  failIf (bits > width) (.tooWide bits width)
  failIf (outOfField value bits) (.malformed "value does not fit the requested bits")
  roomFor bits
  (List.range bits).reverse.forM fun offset => storeBit (value.toNat.testBit offset)

def storeInt (value : BitVec 64) (bits : Nat) : Store Unit :=
  storeIntOf value bits

def storeInt128 (value : BitVec 128) (bits : Nat) : Store Unit :=
  storeIntOf value bits

def storeU8 (value : UInt8) : Store Unit :=
  storeUint value.toNat 8

def storeU16 (value : UInt16) : Store Unit :=
  storeUint value.toNat 16

def storeU32 (value : UInt32) : Store Unit :=
  storeUint value.toNat 32

def storeI32 (value : Int32) : Store Unit :=
  storeInt (value.toBitVec.signExtend 64) 32

-- How many bits a number takes, none for zero.
def bitCount (n : Nat) : Nat :=
  if n = 0 then 0 else n.log2 + 1

-- The fewest bytes that hold the number, and those that hold it with its sign.
def byteLen (value : BitVec 128) : Nat :=
  if value = 0 then 0 else (bitCount value.toNat + 7) / 8

def signedByteLen (value : BitVec 128) : Nat :=
  if value = 0 then 0
  else
    -- A negative number is measured on its complement.
    let magnitudeBits := if value.toInt < 0 then bitCount (~~~value).toNat else bitCount value.toNat
    (magnitudeBits + 1 + 7) / 8

def storeVarUint (value : BitVec 128) (max : Nat) : Store Unit := do
  failIf (max < 2) (.malformed "variable integer needs a max above one")
  let lenBits := (max - 1).log2 + 1
  let bytes := byteLen value
  failIf (bytes ≥ max) (.malformed "value is too wide for this VarUInteger")
  roomFor (lenBits + bytes * 8)
  storeUint bytes lenBits
  storeUint128 value.toNat (bytes * 8)

def storeVarInt (value : BitVec 128) (max : Nat) : Store Unit := do
  failIf (max < 2) (.malformed "variable integer needs a max above one")
  let lenBits := (max - 1).log2 + 1
  let bytes := signedByteLen value
  failIf (bytes ≥ max) (.malformed "value is too wide for this VarInteger")
  roomFor (lenBits + bytes * 8)
  storeUint bytes lenBits
  storeInt128 value (bytes * 8)

def storeCoins (nanotons : BitVec 128) : Store Unit :=
  storeVarUint nanotons 16

def storeBits (bits : List Bool) : Store Unit := do
  roomFor (min bits.length 65535)
  bits.forM storeBit

-- The builder without the bits past the first `bits`.
def truncate (b : Builder) (bits : Nat) (h : bits ≤ b.bits) : Builder :=
  have fits : (bits + 7) / 8 ≤ b.data.length := by
    rw [b.length_eq]
    omega
  { b with
    data      := truncated b.data bits
    bits      := bits
    bits_le   := h.trans b.bits_le
    length_eq := truncated_length fits
    padded    := by
      intro i hi
      rw [bitAt_truncated fits]
      simp [not_lt.mpr hi] }

def truncateBits (bits : Nat) : Store Unit := do
  let b ← get
  if h : bits ≤ b.bits then set (b.truncate bits h)
  else throw (.notEnoughBits bits b.bits)

def truncateRefs (refs : Nat) : Store Unit := do
  let b ← get
  failIf (refs > b.refs.length) .notEnoughRefs
  set { b with refs := b.refs.take refs, refs_le := (List.length_take_le' ..).trans b.refs_le }

def storeMaybeRef (cell : Option Cell) : Store Unit :=
  match cell with
  | some cell => do
    let b ← get
    failIf (b.refs.length ≥ maxRefs) (.noRoomForRefs maxRefs)
    roomFor 1
    storeBit true
    storeRef cell
  | none      => storeBit false

def storeDict (dict : Dict) : Store Unit :=
  storeMaybeRef dict.root

def storeAddress (address : MsgAddress) : Store Unit :=
  match address with
  | .none                  => storeUint 0b00 2
  | .std workchain account => do
    storeUint 0b10 2
    storeBit false
    storeInt (workchain.toBitVec.signExtend 64) 8
    storeBytes account.bytes

-- Whether the payload goes inline, `ahead` bits from here.
def eitherGoesInline (payload : Cell) (ahead : Nat) : Store Bool := do
  let b ← get
  let inlineBits := ahead + 1 + payload.bits
  if b.canExtendBy inlineBits payload.refs.length then return true
  else
    failIf (b.refsLeft = 0) (.noRoomForRefs maxRefs)
    roomFor (ahead + 1)
    return false

def storeEitherWhere (payload : Cell) (inline : Bool) : Store Unit :=
  if inline then do
    storeBit false
    storeSlice payload.parse
  else do
    storeBit true
    storeRef payload

def storeEitherRef (payload : Cell) : Store Unit := do
  let inline ← eitherGoesInline payload 0
  storeEitherWhere payload inline

def storeMaybeEitherRef (payload : Option Cell) : Store Unit :=
  match payload with
  | some payload => do
    let inline ← eitherGoesInline payload 1
    storeBit true
    storeEitherWhere payload inline
  | none         => storeBit false

variable [Sha256]

-- Every pass but the first takes a byte or more.
def storeSnakeFrom : Nat → Bytes → Store Unit
  | 0, _              => throw (.malformed "a snake over no cells")
  | passes + 1, bytes => do
    let b ← get
    let take := min (b.bitsLeft / 8) bytes.length
    storeBytes (bytes.take take)
    let tail := bytes.drop take
    onlyIf (!tail.isEmpty) do
      let (_, child) ← Method.ofExcept ((storeSnakeFrom passes tail).call .new)
      let child ← Method.ofExcept child.build
      storeRef child

def storeSnake (bytes : Bytes) : Store Unit :=
  storeSnakeFrom (bytes.length + 1) bytes

end Builder

end TonNet
