import TonNet.Cell.Merkle

-- Merkle updates: two trees by hash, each cut down to what changed, and rebuilding the new one from
-- a base that holds the old.

namespace TonNet

open Fallible

-- Where an update holds the hashes and the depths of its two trees.
def oldHash : Nat := 1
def newHash : Nat := oldHash + 32
def oldDepth : Nat := newHash + 32
def newDepth : Nat := oldDepth + 2

-- `HashMap<[u8; 32], Cell>`. An entry stands before the ones it replaces.
abbrev CellMap := List (Hash × Cell)

def CellMap.add (map : CellMap) (cell : Cell) : CellMap :=
  (cell.hash, cell) :: map

def CellMap.holds (map : CellMap) (hash : Hash) : Bool :=
  (map.lookup hash).isSome

-- One side of an update against what the update states of it.
def validateSide (update : Cell) (side hashAt depthAt : Nat) : Except CellError Unit := do
  let content ← okOr (update.reference side) (.malformed "merkle update is missing a side")
  let storedHash ← okOr (Hash.ofBytes? ((update.data.drop hashAt).take 32))
    (.malformed "merkle update has no hash")
  failIf (storedHash ≠ content.hash) (.malformed "merkle update does not stand for its content")
  let storedDepth ← okOr (depthOf? ((update.data.drop depthAt).take 2))
    (.malformed "merkle update has no depth")
  failIf (storedDepth ≠ content.depth)
    (.malformed "merkle update depth does not match its content")

def validateUpdate (update : Cell) : Except CellError Unit := do
  failIf (update.cellType ≠ .merkleUpdate) (.malformed "not a merkle update")
  validateSide update 0 oldHash oldDepth
  validateSide update 1 newHash newDepth

-- The cells of a tree by their level-zero hash, from the top down. A cell met under a hash that is
-- taken is left to `again`, and nothing below it is looked at.
mutual
def collect (shown : Cell → Bool) (again : CellMap → Cell → CellMap) : Cell → CellMap → CellMap
  | tree@⟨_, _, refs, _, _⟩, into =>
    if shown tree then
      if into.holds tree.hash then again into tree
      else collectRefs shown again refs (into.add tree)
    else into
def collectRefs (shown : Cell → Bool) (again : CellMap → Cell → CellMap) :
    List Cell → CellMap → CellMap
  | [], into            => into
  | child :: rest, into => collectRefs shown again rest (collect shown again child into)
end

-- Every cell, a pruned branch too. The first one met under a hash stays.
def indexByHash (tree : Cell) (into : CellMap) : CellMap :=
  collect (fun _ => true) (fun into _ => into) tree into

-- Every ordinary cell. The last one met under a hash stays.
def revealedCells (tree : Cell) (into : CellMap) : CellMap :=
  collect (fun cell => cell.cellType = .ordinary) CellMap.add tree into

variable [Sha256]

-- Rebuilds the ordinary cells of a tree, over what each exotic cell among them is exchanged for.
mutual
def exchange (exotic : Cell → Except CellError Cell) : Cell → Except CellError Cell
  | node@⟨_, _, refs, cellType, _⟩ =>
    if cellType = .ordinary then do
      let (_, builder) ←
        (do Builder.storeBitsOf node; exchangeRefs exotic refs : Store Unit).call .new
      builder.build
    else exotic node
def exchangeRefs (exotic : Cell → Except CellError Cell) : List Cell → Store Unit
  | []            => pure ()
  | child :: rest => do
    let exchanged ← Method.ofExcept (exchange exotic child)
    Builder.storeRef exchanged
    exchangeRefs exotic rest
end

-- What stands on the new side for a cell of the base, or for itself.
def graftExotic (base : CellMap) (node : Cell) : Except CellError Cell :=
  match node.cellType with
  | .prunedBranch     => okOr (base.lookup node.hash)
    (.malformed "merkle update prunes a subtree the base does not hold")
  | .libraryReference => return node
  | _                 => throw (.malformed "a merkle update rebuilds no merkle cell nested inside it")

def graft (base : CellMap) (node : Cell) : Except CellError Cell :=
  exchange (graftExotic base) node

-- A branch that the other update reveals is put in its place.
def spliceExotic (revealed : CellMap) (node : Cell) : Except CellError Cell :=
  match node.cellType with
  | .prunedBranch => return (revealed.lookup node.hash).getD node
  | _             => throw (.malformed "combining a merkle update over an unexpected exotic cell")

def spliceRevealed (revealed : CellMap) (node : Cell) : Except CellError Cell :=
  exchange (spliceExotic revealed) node

-- The old side of the update is not read: the base is the tree it stands for.
def mayApply (base update : Cell) : Except CellError (Option Cell) := do
  failIf (update.cellType ≠ .merkleUpdate) (.malformed "only a merkle update can be applied")
  let storedOld ← okOr (Hash.ofBytes? ((update.data.drop oldHash).take 32))
    (.malformed "merkle update has no old hash")
  if storedOld ≠ base.hash then return none
  else
    let new ← okOr (update.reference 1) (.malformed "merkle update has no new side")
    let rebuilt ← graft (indexByHash base []) new
    let storedNew ← okOr (Hash.ofBytes? ((update.data.drop newHash).take 32))
      (.malformed "merkle update has no new hash")
    failIf (storedNew ≠ rebuilt.hash) (.malformed "merkle update did not rebuild its new hash")
    return some rebuilt

def applyUpdate (base update : Cell) : Except CellError Cell := do
  okOr (← mayApply base update) (.malformed "merkle update does not apply to this base")

def combineUpdates (first second : Cell) : Except CellError Cell := do
  validateUpdate first
  validateUpdate second
  let firstOld ← okOr (first.reference 0) (.malformed "merkle update is missing a side")
  let firstNew ← okOr (first.reference 1) (.malformed "merkle update is missing a side")
  let secondOld ← okOr (second.reference 0) (.malformed "merkle update is missing a side")
  let secondNew ← okOr (second.reference 1) (.malformed "merkle update is missing a side")
  failIf (firstNew.hash ≠ secondOld.hash) (.malformed
    "merkle updates do not chain: the first's new tree is not the second's old")
  let oldSide ← spliceRevealed (revealedCells secondOld []) firstOld
  let newSide ← spliceRevealed (revealedCells firstNew []) secondNew
  createUpdate oldSide newSide

end TonNet
