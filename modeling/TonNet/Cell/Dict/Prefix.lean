import TonNet.Cell.Dict.Shape

-- The prefix-code dictionary: keys of any width up to a bound, none of them the beginning of another.
-- A bit past the label tells a fork from a leaf.

namespace TonNet

open Fallible

structure PfxDict where
  root       : Option Cell
  keyBits    : Nat
  keyBits_le : keyBits ≤ maxBits

-- The stored key that is a prefix of a query, by its length, and the value under it.
structure PfxMatch where
  matched : Nat
  entry   : DictEntry

structure PfxDictIter where
  stack : List Shape.Pending
  done  : Bool

-- What is left of a subtree without a key.
inductive Removal
  | notFound
  | gone
  | rebuilt (cell : Cell)

-- A label read into a vector, which has no bound of its own.
def readLabelVec (max : Nat) : Load (List Bool) := do
  match ← readRun max with
  | .spelled count        => (List.replicate count Slice.loadBit).mapM id
  | .repeated value count => return List.replicate count value

namespace PfxDict

def noBitsLeft : CellError :=
  .malformed "a prefix-code fork with no key bits left"

def fromRoot (root : Option Cell) (keyBits : Nat) : Except CellError PfxDict :=
  if h : keyBits ≤ maxBits then return ⟨root, keyBits, h⟩
  else throw (.malformed "dictionary key wider than a cell")

def new (keyBits : Nat) : Except CellError PfxDict :=
  fromRoot none keyBits

def pfxKeyOf (key : Bytes) (keyLen max : Nat) : Except CellError (List Bool) := do
  failIf (keyLen > max) (.malformed "prefix key wider than the dictionary")
  failIf (key.length < (keyLen + 7) / 8) (.keyLength (key.length * 8) keyLen)
  return (List.range keyLen).map key.bitAt

-- Every pass but the last takes a bit of the key.
def getFrom (bits : List Bool) : Nat → Cell → Nat → Nat → Except CellError (Lookup DictEntry)
  | 0, _, _, _                            => throw noBranch
  | passes + 1, node, remaining, consumed => do
    if node.isExotic then return .pruned
    else
      let (label, slice) ← (readLabel remaining).call node.parse
      let ahead := bits.drop consumed
      if (diverges label ahead).isSome ∨ ahead.length < label.length then return .absent
      else
        let consumed := consumed + label.length
        let (isFork, slice) ← Slice.loadBit.call slice
        let below := remaining - label.length
        if !isFork then
          if consumed = bits.length then return .found ⟨node, node.bits - slice.remainingBits⟩
          else return .absent
        else
          failIf (below = 0) noBitsLeft
          if consumed = bits.length then return .absent
          else
            let branch := (bits.getD consumed false).toNat
            let node ← okOr (node.reference branch) noBranch
            getFrom bits passes node (below - 1) (consumed + 1)

def get (dict : PfxDict) (key : Bytes) (keyLen : Nat) : Except CellError (Lookup DictEntry) := do
  let bits ← pfxKeyOf key keyLen dict.keyBits
  match dict.root with
  | none      => return .absent
  | some root => getFrom bits (dict.keyBits + 1) root dict.keyBits 0

-- The same descent, which stops at whatever leaf it gets to.
def lookupPrefixFrom (bits : List Bool) : Nat → Cell → Nat → Nat → Except CellError (Option PfxMatch)
  | 0, _, _, _                            => throw noBranch
  | passes + 1, node, remaining, consumed => do
    failIf node.isExotic .pruned
    let (label, slice) ← (readLabel remaining).call node.parse
    let ahead := bits.drop consumed
    if (diverges label ahead).isSome ∨ ahead.length < label.length then return none
    else
      let consumed := consumed + label.length
      let (isFork, slice) ← Slice.loadBit.call slice
      let below := remaining - label.length
      if !isFork then return some ⟨consumed, node, node.bits - slice.remainingBits⟩
      else
        failIf (below = 0) noBitsLeft
        if consumed = bits.length then return none
        else
          let branch := (bits.getD consumed false).toNat
          let node ← okOr (node.reference branch) noBranch
          lookupPrefixFrom bits passes node (below - 1) (consumed + 1)

def lookupPrefix (dict : PfxDict) (key : Bytes) (keyLen : Nat) :
    Except CellError (Option PfxMatch) := do
  let bits ← pfxKeyOf key keyLen dict.keyBits
  match dict.root with
  | none      => return none
  | some root => lookupPrefixFrom bits (dict.keyBits + 1) root dict.keyBits 0

def iter (dict : PfxDict) : PfxDictIter where
  stack := dict.root.elim [] fun root => [(root, [], dict.keyBits)]
  done  := false

variable [Sha256]

def leafCell (key : List Bool) (remaining : Nat) (value : Builder) : Except CellError Cell := do
  let (_, cell) ← (do
    storeLabel key remaining
    Builder.storeBit false
    Builder.storeBuilder value : Store Unit).call .new
  cell.build

def forkCell (label : List Bool) (remaining : Nat) (left right : Cell) : Except CellError Cell := do
  let (_, cell) ← (do
    storeLabel label remaining
    Builder.storeBit true
    Builder.storeRef left
    Builder.storeRef right : Store Unit).call .new
  cell.build

def rebuildFork (label : List Bool) (remaining : Nat) (node : Cell) (branch : Nat) (child : Cell) :
    Except CellError Cell := do
  let sibling ← okOr (node.reference (1 - branch)) noBranch
  let (left, right) := if branch = 0 then (child, sibling) else (sibling, child)
  forkCell label remaining left right

def split (node : Cell) (remaining : Nat) (label : List Bool) (index : Nat) (key : List Bool)
    (value : Builder) : Except CellError Cell := do
  let childWidth := remaining - index - 1
  let (_, kept) ← (do
    storeLabel (label.drop (index + 1)) childWidth
    let (_, slice) ← Method.ofExcept ((skipLabel remaining).call node.parse)
    Builder.storeSlice slice : Store Unit).call .new
  let kept ← kept.build
  let fresh ← leafCell (key.drop (index + 1)) childWidth value
  let (left, right) := if label.getD index false then (fresh, kept) else (kept, fresh)
  forkCell (label.take index) remaining left right

-- A call below has fewer bits of the key left.
def insert (value : Builder) : Nat → Cell → Nat → List Bool → Except CellError Cell
  | 0, _, _, _                       => throw noBranch
  | passes + 1, node, remaining, key => do
    failIf node.isExotic .pruned
    let (label, slice) ← (readLabelVec remaining).call node.parse
    match diverges label key with
    | some index => split node remaining label index key value
    | none       =>
      failIf (key.length < label.length) (.malformed "a prefix-code key is a prefix of a stored key")
      let (isFork, _) ← Slice.loadBit.call slice
      let below := remaining - label.length
      let tail := key.drop label.length
      if !isFork then
        if tail.isEmpty then leafCell label remaining value
        else throw (.malformed "a stored prefix-code key is a prefix of this key")
      else
        failIf tail.isEmpty (.malformed "a prefix-code key is a prefix of a stored key")
        failIf (below = 0) noBitsLeft
        let branch := (tail.getD 0 false).toNat
        let child ← okOr (node.reference branch) noBranch
        let child ← insert value passes child (below - 1) (tail.drop 1)
        rebuildFork label remaining node branch child

-- The fork's branch `survivor`, under the whole run of bits down to it.
def collapse (node : Cell) (remaining : Nat) (label : List Bool) (survivor : Nat) :
    Except CellError Cell := do
  let sibling ← okOr (node.reference survivor) noBranch
  failIf sibling.isExotic .pruned
  let below := remaining - label.length
  failIf (below = 0) noBitsLeft
  let (siblingLabel, slice) ← (readLabel (below - 1)).call sibling.parse
  let (_, merged) ← (do
    storeLabel (label ++ [decide (survivor = 1)] ++ siblingLabel) remaining
    Builder.storeSlice slice : Store Unit).call .new
  merged.build

def removeFrom : Nat → Cell → Nat → List Bool → Except CellError Removal
  | 0, _, _, _                       => throw noBranch
  | passes + 1, node, remaining, key => do
    failIf node.isExotic .pruned
    let (label, slice) ← (readLabelVec remaining).call node.parse
    if (diverges label key).isSome ∨ key.length < label.length then return .notFound
    else
      let (isFork, _) ← Slice.loadBit.call slice
      let below := remaining - label.length
      let tail := key.drop label.length
      if !isFork then
        if tail.isEmpty then return .gone else return .notFound
      else
        failIf (below = 0) noBitsLeft
        if tail.isEmpty then return .notFound
        else
          let branch := (tail.getD 0 false).toNat
          let child ← okOr (node.reference branch) noBranch
          match ← removeFrom passes child (below - 1) (tail.drop 1) with
          | .notFound      => return .notFound
          | .gone          =>
            let cell ← collapse node remaining label (1 - branch)
            return .rebuilt cell
          | .rebuilt child =>
            let cell ← rebuildFork label remaining node branch child
            return .rebuilt cell

def set (key : Bytes) (keyLen : Nat) (value : Builder) : Method PfxDict CellError Unit := do
  let dict ← MonadState.get
  let bits ← Method.ofExcept (pfxKeyOf key keyLen dict.keyBits)
  let root ← Method.ofExcept <|
    match dict.root with
    | none      => leafCell bits dict.keyBits value
    | some root => insert value (dict.keyBits + 1) root dict.keyBits bits
  MonadState.set { dict with root := some root }

def remove (key : Bytes) (keyLen : Nat) : Method PfxDict CellError Bool := do
  let dict ← MonadState.get
  let bits ← Method.ofExcept (pfxKeyOf key keyLen dict.keyBits)
  match dict.root with
  | none      => return false
  | some root =>
    match ← Method.ofExcept (removeFrom (dict.keyBits + 1) root dict.keyBits bits) with
    | .notFound      => return false
    | .gone          =>
      MonadState.set { dict with root := none }
      return true
    | .rebuilt cell  =>
      MonadState.set { dict with root := some cell }
      return true

end PfxDict

namespace PfxDictIter

-- Every pass but the last replaces the first entry by the two below it, as in the plain walk.
def stepFrom : Nat → Method (List Shape.Pending) CellError (Option (Bytes × Nat × DictEntry))
  | 0          => throw noBranch
  | passes + 1 => do
    match ← get with
    | []                              => return none
    | (node, front, remaining) :: rest =>
      set rest
      failIf node.isExotic .pruned
      let (label, slice) ← Method.ofExcept ((readLabel remaining).call node.parse)
      let (isFork, slice) ← Method.ofExcept (Slice.loadBit.call slice)
      let key ← Method.ofExcept (front.extend label)
      if !isFork then return some (pack key, key.length, ⟨node, node.bits - slice.remainingBits⟩)
      else
        let below := remaining - label.length
        failIf (below = 0) PfxDict.noBitsLeft
        [1, 0].forM fun branch => do
          let child ← okOr (node.reference branch) noBranch
          let key ← Method.ofExcept (key.push (branch = 1))
          modify ((child, key, below - 1) :: ·)
        stepFrom passes

def step : Method (List Shape.Pending) CellError (Option (Bytes × Nat × DictEntry)) := do
  let stack ← get
  stepFrom ((stack.head?.elim 0 fun (_, _, remaining) => remaining) + 1)

def next (iter : PfxDictIter) :
    Option (Except CellError (Bytes × Nat × DictEntry)) × PfxDictIter :=
  if iter.done then (none, iter)
  else
    match step.outcome iter.stack with
    | (.ok (some item), stack) => (some (.ok item), { iter with stack })
    | (.ok none, stack)        => (none, { stack, done := true })
    | (.error e, stack)        => (some (.error e), { stack, done := true })

def collect : Nat → PfxDictIter → List (Except CellError (Bytes × Nat × DictEntry))
  | 0, _             => []
  | passes + 1, iter =>
    match iter.next with
    | (some item, iter) => item :: collect passes iter
    | (none, _)         => []

-- What it yields when it is run until it stops.
def items (iter : PfxDictIter) : List (Except CellError (Bytes × Nat × DictEntry)) :=
  iter.collect ((iter.stack.map fun (node, _, _) => node.subcells.length).sum + 2)

end PfxDictIter

end TonNet
