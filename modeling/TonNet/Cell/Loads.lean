import TonNet.Cell.Builder
import TonNet.Cell.Dict

-- The reads of a cursor that a message is decoded with, and the windows it is cut into.

namespace TonNet

open Fallible

-- An account address, as a message carries it.
inductive MsgAddress
  | none
  | std (workchain : Int8) (account : Hash)

-- Where a payload that may be in a reference was written.
inductive EitherRef
  | inline
  | ref (cell : Cell)

namespace Slice

def isEmpty (s : Slice) : Bool :=
  s.remainingBits = 0 ∧ s.remainingRefs = 0

def canRead (s : Slice) (bits refs : Nat) : Bool :=
  bits ≤ s.remainingBits ∧ refs ≤ s.remainingRefs

def loadU8 : Load UInt8 := do
  let value ← loadUint 8
  return UInt8.ofNat value

-- The low `bits` bits of a number as a signed one. `i64` and `i128` are bit vectors here.
def signExtend (width raw bits : Nat) : BitVec width :=
  if bits = 0 then 0
  else
    let pad := width - bits
    (BitVec.ofNat width raw <<< pad).sshiftRight pad

def loadInt (n : Nat) : Load (BitVec 64) := do
  failIf (n > 64) (.tooWide n 64)
  if n = 0 then return 0
  else
    let raw ← loadUint n
    return signExtend 64 raw n

def loadInt128 (n : Nat) : Load (BitVec 128) := do
  let raw ← loadUint128 n
  return signExtend 128 raw n

def loadVarInt (max : Nat) : Load (BitVec 128) := do
  let (raw, bits) ← readVar max
  return signExtend 128 raw bits

def loadCoins : Load Nat :=
  loadVarUint 16

def loadBits (n : Nat) : Load (List Bool) := do
  let start ← advance n
  let s ← get
  return (List.range n).map fun i => s.cell.data.bitAt (start + i)

def loadDict (keyBits : Nat) : Load Dict := do
  let root ← loadMaybeRef
  Method.ofExcept (Dict.fromRoot root keyBits)

def preloadUint (n : Nat) : Load Nat := do
  let s ← get
  Method.ofExcept ((loadUint n).value s)

def preloadBit : Load Bool := do
  let s ← get
  Method.ofExcept (loadBit.value s)

def peekRef : Load Cell := do
  let s ← get
  failIf (s.nextRef ≥ s.endRef) .notEnoughRefs
  okOr (s.cell.reference s.nextRef) .notEnoughRefs

-- The cursor past `n` more references.
def pastRefs (s : Slice) (n : Nat) (h : n ≤ s.remainingRefs) : Slice :=
  { s with
    nextRef    := s.nextRef + n
    nextRef_le := by
      have := s.nextRef_le
      simp only [remainingRefs] at h
      omega }

def skipRefs (n : Nat) : Load Unit := do
  let s ← get
  if h : n ≤ s.remainingRefs then set (s.pastRefs n h)
  else throw .notEnoughRefs

def skipBitsAndRefs (bits refs : Nat) : Load Unit := do
  let s ← get
  if hb : bits ≤ s.remainingBits then
    if hr : refs ≤ s.remainingRefs then set ((s.past bits hb).pastRefs refs hr)
    else throw .notEnoughRefs
  else throw (.notEnoughBits bits s.remainingBits)

-- The cursor over a part of what is left.
def window (s : Slice) (skipBits bits skipRefs refs : Nat) (hb : skipBits + bits ≤ s.remainingBits)
    (hr : skipRefs + refs ≤ s.remainingRefs) : Slice where
  cell       := s.cell
  bit        := s.bit + skipBits
  nextRef    := s.nextRef + skipRefs
  endBit     := s.bit + skipBits + bits
  endRef     := s.nextRef + skipRefs + refs
  bit_le     := Nat.le_add_right ..
  endBit_le  := by
    have := s.bit_le
    have := s.endBit_le
    simp only [remainingBits] at hb
    omega
  nextRef_le := Nat.le_add_right ..
  endRef_le  := by
    have := s.nextRef_le
    have := s.endRef_le
    simp only [remainingRefs] at hr
    omega

-- The largest `usize`, which a sum that does not fit one is reported as.
def maxUsize : Nat :=
  2 ^ 64 - 1

def subslice (s : Slice) (skipBits bits skipRefs refs : Nat) : Except CellError Slice := do
  failIf (skipBits + bits > maxUsize) (.notEnoughBits maxUsize s.remainingBits)
  if hb : skipBits + bits ≤ s.remainingBits then
    failIf (skipRefs + refs > maxUsize) .notEnoughRefs
    if hr : skipRefs + refs ≤ s.remainingRefs then return s.window skipBits bits skipRefs refs hb hr
    else throw .notEnoughRefs
  else throw (.notEnoughBits (skipBits + bits) s.remainingBits)

def loadSlice (bits refs : Nat) : Load Slice := do
  let s ← get
  let window ← Method.ofExcept (s.subslice 0 bits 0 refs)
  skipBitsAndRefs bits refs
  return window

def loadAddress : Load MsgAddress := do
  match ← loadUint 2 with
  | 0b00 => return .none
  | 0b10 =>
    let anycast ← loadBit
    failIf anycast (.malformed "anycast address is not supported")
    let workchain ← loadInt 8
    let bytes ← loadBytes 32
    let account ← okOr (Hash.ofBytes? bytes) (.malformed "address is not thirty-two bytes")
    return .std (.ofBitVec (workchain.setWidth 8)) account
  | _    => throw (.malformed "external and variable addresses are not supported")

def loadEitherRef : Load EitherRef := do
  if ← loadBit then
    let cell ← loadRef
    return .ref cell
  else return .inline

def loadMaybeEitherRef : Load (Option EitherRef) := do
  if ← loadBit then
    let arm ← loadEitherRef
    return some arm
  else return none

-- The whole bytes that are left, behind those read before, and the cell that is chained to them.
def loadLink (into : Bytes) : Load (Bytes × Option Cell) := do
  let s ← get
  let into ← loadBytesInto (s.remainingBits / 8) into
  if s.remainingRefs > 0 then
    let cell ← loadRef
    return (into, some cell)
  else return (into, none)

-- Every pass goes one reference down.
def loadChain : Nat → Option Cell → Bytes → Except CellError Bytes
  | _, none, into               => return into
  | 0, some _, _                => throw .notEnoughRefs
  | passes + 1, some cell, into => do
    let ((into, next), _) ← (loadLink into).call cell.parse
    loadChain passes next into

def loadSnakeInto (into : Bytes) : Load Bytes := do
  let (into, next) ← loadLink into
  Method.ofExcept (loadChain (next.elim 0 fun cell => cell.subcells.length) next into)

def loadSnake : Load Bytes :=
  loadSnakeInto []

-- The order of what two cursors have left. No bit is read twice.
def compareFrom : Nat → Slice → Slice → Ordering
  | 0, _, _                  => .eq
  | passes + 1, here, there =>
    match loadBit.call here, loadBit.call there with
    | .ok (this, here), .ok (that, there) =>
      if this = that then compareFrom passes here there else compare this that
    | .ok _, .error _    => .gt
    | .error _, .ok _    => .lt
    | .error _, .error _ => .eq

def compareBits (s other : Slice) : Ordering :=
  compareFrom (s.remainingBits + 1) s other

def bitsEqual (s other : Slice) : Bool :=
  s.compareBits other = .eq

def countLeadingFrom (bit : Bool) : Nat → Slice → Nat
  | 0, _              => 0
  | passes + 1, probe =>
    match loadBit.call probe with
    | .ok (seen, probe) => if seen = bit then countLeadingFrom bit passes probe + 1 else 0
    | .error _          => 0

def countLeading (s : Slice) (bit : Bool) : Nat :=
  countLeadingFrom bit (s.remainingBits + 1) s

def countTrailing (s : Slice) (bit : Bool) : Nat :=
  ((List.range s.remainingBits).takeWhile fun run =>
    s.cell.data.bitAt (s.bit + s.remainingBits - 1 - run) = bit).length

def toCell [Sha256] (slice : Slice) : Except CellError Cell := do
  let builder ← slice.toBuilder
  builder.build

end Slice

end TonNet
