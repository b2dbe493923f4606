import Mathlib.Data.Bool.Basic
import Mathlib.Data.List.Lex
import Mathlib.Data.List.Sort
import TonNet.Cell.Builder
import TonNet.Cell.Dict

-- Changing, building and walking a dictionary, once for every kind of node: a plain node carries
-- nothing between its label and its value, an augmented one a summary of what is below it.

namespace TonNet

open Fallible

def Label.extend (label : Label) (run : List Bool) : Except CellError Label :=
  run.foldlM Label.push label

def skipLabel (max : Nat) : Load Unit := do
  match ← readRun max with
  | .spelled count => Slice.skipBits count
  -- A repeated run spells its bits nowhere, so there is nothing to step over.
  | .repeated _ _  => return ()

def storeRun (run : List Bool) : Store Unit := do
  let b ← get
  let count := min run.length 65535
  failIf (!b.canExtendBy count 0) (.noRoomForBits count b.bitsLeft)
  run.forM Builder.storeBit

-- The shortest of the three forms of a label, and of two that are as short the one first tried.
def storeLabel (label : List Bool) (max : Nat) : Store Unit := do
  let len := min label.length 65535
  failIf (len > max) .labelTooLong
  let width := boundedWidth max
  let short := 2 * len + 2
  let long := 2 + width + len
  let first := label.getD 0 false
  let repeated := if label.tail.all (· == first) then 3 + width else 2 ^ 32 - 1
  if short ≤ long ∧ short ≤ repeated then
    Builder.storeBit false
    Builder.storeSameBit true len
    Builder.storeBit false
    storeRun label
  else if long ≤ repeated then
    Builder.storeUint 0b10 2
    Builder.storeUint len width
    storeRun label
  else
    Builder.storeUint 0b11 2
    Builder.storeBit first
    Builder.storeUint len width

-- The bits as bytes, the last byte filled from its top bit down.
def pack (bits : List Bool) : Bytes :=
  (List.range bits.length).foldl (fun out index =>
    if bits.getD index false then
      out.modify (index / 8) (· ||| UInt8.ofNat (1 <<< (7 - index % 8)))
    else out) (List.replicate ((bits.length + 7) / 8) 0)

def checkKeyBits (keyBits : Nat) : Except CellError Unit :=
  failIf (keyBits > maxBits) (.malformed "dictionary key wider than a cell")

-- The summary a node carries, read back off the cell.
def extraOf {ε : Type} (readExtra : Load ε) (node : Cell) (max : Nat) : Except CellError ε := do
  failIf node.isExotic .pruned
  (do skipLabel max; readExtra : Load ε).value node.parse

-- What a node carries between its label and its value, and what a fork does over its children.
structure Shape (ε : Type) where
  readExtra  : Load ε
  writeExtra : ε → Store Unit
  checkFork  : Load Unit
  forkExtra  : Cell → Cell → Nat → Except CellError ε

namespace Shape

-- What a leaf holds.
structure Entry (ε : Type) where
  extra : ε
  value : Builder

-- One fork on the path down.
structure Step where
  node      : Cell
  label     : Label
  remaining : Nat
  branch    : Nat

def Step.below (step : Step) : Nat :=
  step.remaining - step.label.length - 1

-- Where a descent stopped. The path begins with the fork it went through last.
structure Walk where
  path      : List Step
  node      : Cell
  label     : Label
  remaining : Nat
  consumed  : Nat
  diverged  : Option Nat

variable {ε : Type} (shape : Shape ε)

section Descend

variable (bits : List Bool)

-- Every pass but the last takes a bit of the key, as in a lookup.
def descendFrom : Nat → List Step → Cell → Nat → Nat → Except CellError Walk
  | 0, _, _, _, _                               => throw noBranch
  | passes + 1, path, node, remaining, consumed => do
    -- A change that fell inside a pruned branch would have to invent what it replaced.
    failIf node.isExotic .pruned
    let (label, slice) ← (readLabel remaining).call node.parse
    let diverged := diverges label (bits.drop consumed)
    if diverged.isSome ∨ label.length = remaining then
      return { path, node, label, remaining, consumed, diverged }
    else
      let _ ← shape.checkFork.call slice
      let branch := (bits.getD (consumed + label.length) false).toNat
      let child ← okOr (node.reference branch) noBranch
      descendFrom passes ({ node, label, remaining, branch } :: path) child
        (remaining - (label.length + 1)) (consumed + (label.length + 1))

def descend (root : Cell) (keyBits : Nat) : Except CellError Walk :=
  shape.descendFrom bits (keyBits + 1) [] root keyBits 0

end Descend

-- The entries a walk has still to go through, each under the bits that lead to it. The next one is
-- the first.
abbrev Pending := Cell × Label × Nat

def packEntry (node : Cell) (key : Label) (extra : ε) (slice : Slice) : Bytes × ε × DictEntry :=
  (pack key, extra, ⟨node, node.bits - slice.remainingBits⟩)

-- Every pass but the last replaces the first entry by the two below it, which have fewer bits of the
-- key left.
def walkFrom :
    Nat → Method (List Pending) CellError (Option (Bytes × ε × DictEntry))
  | 0          => throw noBranch
  | passes + 1 => do
    match ← get with
    | []                              => return none
    | (node, front, remaining) :: rest =>
      set rest
      failIf node.isExotic .pruned
      let (label, slice) ← Method.ofExcept ((readLabel remaining).call node.parse)
      let key ← Method.ofExcept (front.extend label)
      if label.length = remaining then
        let (extra, slice) ← Method.ofExcept (shape.readExtra.call slice)
        return some (packEntry node key extra slice)
      else
        let below := remaining - label.length - 1
        -- The right branch goes on first so the left one comes off first.
        [1, 0].forM fun branch => do
          let child ← okOr (node.reference branch) noBranch
          let key ← Method.ofExcept (key.push (branch = 1))
          modify ((child, key, below) :: ·)
        walkFrom passes

def walkStep : Method (List Pending) CellError (Option (Bytes × ε × DictEntry)) := do
  let stack ← get
  shape.walkFrom ((stack.head?.elim 0 fun (_, _, remaining) => remaining) + 1)

end Shape

structure DictIter where
  stack : List Shape.Pending
  done  : Bool

namespace DictIter

variable {ε : Type} (shape : Shape ε)

def new (root : Option Cell) (keyBits : Nat) : DictIter where
  stack := root.elim [] fun root => [(root, [], keyBits)]
  done  := false

def next (iter : DictIter) :
    Option (Except CellError (Bytes × ε × DictEntry)) × DictIter :=
  if iter.done then (none, iter)
  else
    match shape.walkStep.outcome iter.stack with
    | (.ok (some item), stack) => (some (.ok item), { iter with stack })
    | (.ok none, stack)        => (none, { stack, done := true })
    | (.error e, stack)        => (some (.error e), { stack, done := true })

-- The items of an iterator that is asked at most `passes` times.
def collect : Nat → DictIter → List (Except CellError (Bytes × ε × DictEntry))
  | 0, _             => []
  | passes + 1, iter =>
    match iter.next shape with
    | (some item, iter) => item :: collect passes iter
    | (none, _)         => []

-- Every item but an error comes from a cell of its own, so it is asked often enough.
def items (iter : DictIter) : List (Except CellError (Bytes × ε × DictEntry)) :=
  iter.collect shape ((iter.stack.map fun (node, _, _) => node.subcells.length).sum + 2)

end DictIter

-- How many of the next `remaining` bits two keys share.
def sharedBits (first last : List Bool) (depth remaining : Nat) : Nat :=
  ((List.range remaining).takeWhile fun i => first[depth + i]? == last[depth + i]?).length

namespace Shape

variable [Sha256] {ε : Type} (shape : Shape ε)

def leaf (key : List Bool) (entry : Entry ε) (max : Nat) : Except CellError Cell := do
  let (_, cell) ← (do
    storeLabel key max
    shape.writeExtra entry.extra
    Builder.storeBuilder entry.value : Store Unit).call .new
  cell.build

-- A fork over two children, which is put together the same way wherever one is built.
def fork (label : List Bool) (left right : Cell) (remaining below : Nat) : Except CellError Cell := do
  let (_, cell) ← (do
    storeLabel label remaining
    let extra ← Method.ofExcept (shape.forkExtra left right below)
    shape.writeExtra extra
    Builder.storeRef left
    Builder.storeRef right : Store Unit).call .new
  cell.build

def Step.rebuild (step : Step) (child : Cell) : Except CellError Cell := do
  let sibling ← okOr (step.node.reference (1 - step.branch)) noBranch
  let (left, right) := if step.branch = 0 then (child, sibling) else (sibling, child)
  shape.fork step.label left right step.remaining step.below

def rebuild (path : List Step) (child : Cell) : Except CellError Cell :=
  path.foldlM (fun child step => step.rebuild shape child) child

-- The node's edge cut at bit `index`, where the key leaves it.
def split (node : Cell) (label : Label) (index remaining : Nat) (key : List Bool) (entry : Entry ε) :
    Except CellError Cell := do
  let below := remaining - index - 1
  let (_, kept) ← (do
    storeLabel (label.drop (index + 1)) below
    let (_, slice) ← Method.ofExcept ((skipLabel remaining).call node.parse)
    Builder.storeSlice slice : Store Unit).call .new
  let kept ← kept.build
  let fresh ← shape.leaf (key.drop (index + 1)) entry below
  -- The bit they disagree on is the old node's, so the new leaf takes the other branch.
  let (left, right) := if label.getD index false then (fresh, kept) else (kept, fresh)
  shape.fork (label.take index) left right remaining below

-- The other branch of a fork, under the whole run of bits the two edges used to spell out.
def collapse (parent : Step) : Except CellError Cell := do
  let sibling ← okOr (parent.node.reference (1 - parent.branch)) noBranch
  failIf sibling.isExotic .pruned
  let label ← parent.label.push (parent.branch = 0)
  let (below, slice) ← (readLabel parent.below).call sibling.parse
  let label ← label.extend below
  let (_, merged) ← (do
    storeLabel label parent.remaining
    Builder.storeSlice slice : Store Unit).call .new
  merged.build

-- The new root of a dictionary with an entry set.
def setRoot (root : Option Cell) (keyBits : Nat) (bits : List Bool) (entry : Entry ε) :
    Except CellError Cell :=
  match root with
  | none      => shape.leaf bits entry keyBits
  | some root => do
    let walk ← shape.descend bits root keyBits
    let tail := bits.drop walk.consumed
    let bottom ←
      match walk.diverged with
      | some index => shape.split walk.node walk.label index walk.remaining tail entry
      | none       => shape.leaf tail entry walk.remaining
    shape.rebuild walk.path bottom

-- The new root of a dictionary with an entry removed, and nothing where there is no such entry.
def removeRoot (root : Option Cell) (keyBits : Nat) (bits : List Bool) :
    Except CellError (Option (Option Cell)) :=
  match root with
  | none      => return none
  | some root => do
    let walk ← shape.descend bits root keyBits
    if walk.diverged.isSome then return none
    else
      match walk.path with
      | []             => return some none
      | parent :: path =>
        let merged ← collapse parent
        let root ← shape.rebuild path merged
        return some (some root)

-- One node over a run of sorted entries. Every node below has fewer bits of the key left.
def buildRun : Nat → List (List Bool × Entry ε) → Nat → Nat → Except CellError Cell
  | 0, _, _, _                          => throw noBranch
  | passes + 1, items, depth, remaining =>
    match items.head?, items.getLast? with
    | some first, some last =>
      let shared := sharedBits first.1 last.1 depth remaining
      -- The run is one key, and the last of its entries is the one the leaf takes.
      if shared = remaining then shape.leaf (last.1.drop depth) last.2 remaining
      else do
        -- The keys part at the bit past the label. In a sorted run the cleared bits come first.
        let next := depth + shared
        let low := items.takeWhile fun item => item.1[next]? == some false
        let high := items.dropWhile fun item => item.1[next]? == some false
        let below := remaining - shared - 1
        let left ← buildRun passes low (next + 1) below
        let right ← buildRun passes high (next + 1) below
        shape.fork ((first.1.drop depth).take shared) left right remaining below
    | _, _ => throw (.malformed "a dictionary node over no entries")

def buildAll (keyBits : Nat) (items : List (Bytes × Entry ε)) : Except CellError (Option Cell) := do
  checkKeyBits keyBits
  let keyed ← items.mapM fun (key, entry) => do
    let bits ← keyOf key keyBits
    return (bits, entry)
  if keyed.isEmpty then return none
  else
    let sorted := keyed.insertionSort fun left right => left.1 ≤ right.1
    let root ← shape.buildRun (keyBits + 1) sorted 0 keyBits
    return some root

-- Checks the summary of every fork whose children are both there against the one they combine to.
def validateNode : Nat → Cell → Nat → Except CellError Unit
  | 0, _, _                      => throw noBranch
  | passes + 1, node, remaining => do
    if node.isExotic then return ()
    else
      let (label, _) ← (readLabel remaining).call node.parse
      if label.length = remaining then return ()
      else
        let below := remaining - label.length - 1
        let left ← okOr (node.reference 0) noBranch
        let right ← okOr (node.reference 1) noBranch
        onlyIf (!left.isExotic ∧ !right.isExotic) do
          let expected ← shape.fork label left right remaining below
          failIf (expected.reprHash ≠ node.reprHash)
            (.malformed "augmented fork summary disagrees with its children")
        validateNode passes left below
        validateNode passes right below

def validateTree (root : Option Cell) (keyBits : Nat) : Except CellError Unit :=
  match root with
  | none      => return ()
  | some root => shape.validateNode (keyBits + 1) root keyBits

end Shape

-- `retain`, by what a dictionary yields and how a key is removed from it. `keep` may change what it
-- captures from one entry to the next.
def retainOver {δ α σ : Type} (items : δ → List (Except CellError (Bytes × α)))
    (remove : Bytes → Method δ CellError Bool) (keep : Bytes → α → StateM σ Bool) (captured : σ) :
    Method δ CellError Unit := do
  let dict ← get
  let (toRemove, _) ← Method.ofExcept <| (items dict).foldlM (fun (toRemove, captured) item => do
    let (key, entry) ← item
    let (kept, captured) := (keep key entry).run captured
    return (if kept then toRemove else toRemove ++ [key], captured)) ([], captured)
  toRemove.forM fun key => do
    let _ ← remove key

end TonNet
