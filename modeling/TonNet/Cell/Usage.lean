import Mathlib.Data.Finset.Basic
import TonNet.Cell.Merkle

-- A tree whose read cells are marked, to be pruned down to what was read.

namespace TonNet

open Fallible

-- The mask of a branch that stands in for a subtree under one Merkle cell.
def prunedAtLevelOne : Nat := 0b001

structure UsageTree where
  root    : Cell
  used    : Finset Hash
  tracing : Bool

-- Marks every cell on the first path to the target, and says whether there is one.
mutual
def markPathTo (target : Hash) : Cell → Finset Hash → Bool × Finset Hash
  | node@⟨_, _, refs, _, _⟩, used =>
    if node.reprHash = target then (true, insert target used)
    else
      match markPathIn target refs used with
      | (true, used)  => (true, insert node.reprHash used)
      | (false, used) => (false, used)
def markPathIn (target : Hash) : List Cell → Finset Hash → Bool × Finset Hash
  | [], used            => (false, used)
  | child :: rest, used =>
    match markPathTo target child used with
    | (true, used)  => (true, used)
    | (false, used) => markPathIn target rest used
end

namespace UsageTree

def new (root : Cell) : UsageTree :=
  ⟨root, {root.reprHash}, true⟩

def mark (tree : UsageTree) (cell : Cell) : UsageTree :=
  { tree with used := insert cell.reprHash tree.used }

def touched (tree : UsageTree) (cell : Cell) : Bool :=
  cell.reprHash ∈ tree.used

def markPath (tree : UsageTree) (cell : Cell) : Bool × UsageTree :=
  let (found, used) := markPathTo cell.reprHash tree.root tree.used
  (found, { tree with used })

def setTracing (tree : UsageTree) (on : Bool) : UsageTree :=
  { tree with tracing := on }

-- Runs a read that marks nothing, and then traces again if it did before.
def withoutTracing {α : Type} (tree : UsageTree) (read : UsageTree → α × UsageTree) :
    α × UsageTree :=
  let (out, after) := read (tree.setTracing false)
  (out, after.setTracing tree.tracing)

-- Reads a cell, marking it unless tracing is off.
def note (tree : UsageTree) (cell : Cell) : Slice × UsageTree :=
  (cell.parse, if tree.tracing then tree.mark cell else tree)

def combine (tree other : UsageTree) : Except CellError UsageTree := do
  failIf (tree.root.reprHash ≠ other.root.reprHash)
    (.malformed "combining usage recorded over different trees")
  return { tree with used := tree.used ∪ other.used }

end UsageTree

-- The pruned-branch tag, the mask, carried in the data too, and what the branch answers with.
def Builder.storeBranch (cell : Cell) : Store Unit := do
  storeUint 0x01 8
  storeUint prunedAtLevelOne 8
  storeBytes cell.hash.bytes
  storeUint cell.depth.toNat 16

variable [Sha256]

-- The branch that stands in for a cell at level zero.
def prunedBranch (cell : Cell) : Except CellError Cell := do
  let (_, builder) ← (Builder.storeBranch cell).call .new
  builder.finish .prunedBranch prunedAtLevelOne

-- A kept cell keeps its own data, and each child it did not keep is stood in for.
mutual
def pruneCell (keep : Finset Hash) : Cell → Except CellError Cell
  | cell@⟨_, _, refs, _, _⟩ =>
    if cell.reprHash ∉ keep then prunedBranch cell
    else do
      failIf cell.isExotic (.malformed "a proof skeleton keeps only ordinary cells")
      let (_, builder) ← (do Builder.storeBitsOf cell; pruneRefs keep refs : Store Unit).call .new
      builder.build
def pruneRefs (keep : Finset Hash) : List Cell → Store Unit
  | []            => pure ()
  | child :: rest => do
    let pruned ← Method.ofExcept (pruneCell keep child)
    Builder.storeRef pruned
    pruneRefs keep rest
end

namespace UsageTree

def prune (tree : UsageTree) : Except CellError Cell :=
  pruneCell tree.used tree.root

def prove (tree : UsageTree) : Except CellError Cell := do
  let pruned ← tree.prune
  createProof pruned

end UsageTree

end TonNet
