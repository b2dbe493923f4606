import TonNet.Cell.Slice

-- Looking a key up in a dictionary: a tree of cells in which every edge carries a label, the run of
-- bits that all keys below it share.

namespace TonNet

open Fallible

-- A lookup tells what the dictionary shows apart from what a proof left out of it.
inductive Lookup (α : Type)
  | found (value : α)
  | absent
  | pruned
deriving DecidableEq

structure DictEntry where
  cell      : Cell
  bitOffset : Nat

def DictEntry.slice (entry : DictEntry) : Except CellError Slice := do
  let (_, slice) ← (Slice.skipBits entry.bitOffset).call entry.cell.parse
  return slice

abbrev Label := List Bool

def Label.push (label : Label) (bit : Bool) : Except CellError Label := do
  failIf (label.length ≥ maxBits) .labelTooLong
  return label ++ [bit]

-- How many bits a count up to `max` takes.
def boundedWidth (max : Nat) : Nat :=
  if max = 0 then 0 else max.log2 + 1

-- What the header of a label announces: bits that follow, or one bit repeated.
inductive Run
  | spelled (len : Nat)
  | repeated (value : Bool) (len : Nat)
deriving DecidableEq

-- The set bits up to the first clear one, of which there may be `room` more.
def unaryLength (room len : Nat) : Load Nat := do
  if ← Slice.loadBit then
    match room with
    | 0        => throw .labelTooLong
    | room + 1 => unaryLength room (len + 1)
  else return len

def readRun (max : Nat) : Load Run := do
  if !(← Slice.loadBit) then
    let len ← unaryLength max 0
    return .spelled len
  else if !(← Slice.loadBit) then
    let len ← Slice.loadUint (boundedWidth max)
    failIf (len > max) .labelTooLong
    return .spelled len
  else
    let value ← Slice.loadBit
    let len ← Slice.loadUint (boundedWidth max)
    failIf (len > max) .labelTooLong
    return .repeated value len

-- The label of `count` bits, each of them from `next`.
def writeBits (next : Load Bool) (count : Nat) : Load Label :=
  (List.range count).foldlM (fun (label : Label) _ => do Method.ofExcept (label.push (← next))) []

def readLabel (max : Nat) : Load Label := do
  match ← readRun max with
  | .spelled count        => writeBits Slice.loadBit count
  | .repeated value count => writeBits (pure value) count

def keyOf (key : Bytes) (keyBits : Nat) : Except CellError (List Bool) := do
  failIf (key.length < (keyBits + 7) / 8) (.keyLength (key.length * 8) keyBits)
  return (List.range keyBits).map key.bitAt

-- Where a label and the rest of a key first disagree.
def diverges : Label → List Bool → Option Nat
  | bit :: label, expected :: key =>
    if expected ≠ bit then some 0 else (diverges label key).map (· + 1)
  | _, _                          => none

def noBranch : CellError :=
  .malformed "dictionary fork without both branches"

section

variable {ε : Type} (readExtra : Load ε) (bits : List Bool)

-- The walk down to a key. Every pass but the last takes a bit of the key, so no more passes are
-- needed than it has bits left, and one.
def lookupFrom : Nat → Cell → Nat → Nat → Except CellError (Lookup (ε × DictEntry))
  | 0, _, _, _                              => throw noBranch
  | passes + 1, node, remaining, consumed => do
    if node.isExotic then return .pruned
    else
      let (label, slice) ← (readLabel remaining).call node.parse
      if (diverges label (bits.drop consumed)).isSome then return .absent
      else
        let consumed := consumed + label.length
        let remaining := remaining - label.length
        if remaining = 0 then
          let (extra, slice) ← readExtra.call slice
          return .found (extra, ⟨node, node.bits - slice.remainingBits⟩)
        else
          let branch := (bits.getD consumed false).toNat
          let node ← okOr (node.reference branch) noBranch
          lookupFrom passes node (remaining - 1) (consumed + 1)

def lookup (root : Option Cell) (keyBits : Nat) : Except CellError (Lookup (ε × DictEntry)) :=
  match root with
  | none      => return .absent
  | some root => lookupFrom readExtra bits (keyBits + 1) root keyBits 0

end

structure Dict where
  root    : Option Cell
  keyBits : Nat

namespace Dict

def fromRoot (root : Option Cell) (keyBits : Nat) : Except CellError Dict := do
  failIf (keyBits > maxBits) (.malformed "dictionary key wider than a cell")
  return ⟨root, keyBits⟩

-- A plain dictionary keeps nothing next to its labels.
def get (dict : Dict) (key : Bytes) : Except CellError (Lookup DictEntry) := do
  let bits ← keyOf key dict.keyBits
  match ← lookup (pure ()) bits dict.root dict.keyBits with
  | .found (_, entry) => return .found entry
  | .absent           => return .absent
  | .pruned           => return .pruned

end Dict

end TonNet
