import TonNet.Cell.Usage
import TonNet.Lib.Reading

-- The clients of a usage tree: readings that load every cell through `note`, and what else a client may
-- do with the tree between them.

namespace TonNet

namespace Cell

-- What a cell answers at level zero while its references stay closed.
structure Face where
  cellType : CellType
  bits     : Nat
  data     : Bytes
  hash     : Hash
  depth    : UInt16
  refs     : List (Hash × UInt16)
deriving DecidableEq

def face (c : Cell) : Face where
  cellType := c.cellType
  bits     := c.bits
  data     := c.data
  hash     := c.hash
  depth    := c.depth
  refs     := c.refs.map fun r => (r.hash, r.depth)

def view : View Cell Face where
  child := reference
  face  := face

-- A reading of the tree below a cell, which nobody records.
def read {α : Type} (root : Cell) (reading : Reading Face α) : α × List Cell :=
  view.run root reading []

end Cell

-- What a client may do with a tree it records. Two readings of a session may answer in the same type
-- without loss, by a sum.
inductive Action (α : Type)
  | read (reading : Reading Cell.Face α)
  | readQuietly (reading : Reading Cell.Face α)
  | setTracing (on : Bool)
  | mark (cell : Cell)
  | markPath (cell : Cell)
  | combine (other : UsageTree)

def Action.isQuiet {α : Type} : Action α → Bool
  | .readQuietly _ => true
  | _              => false

namespace UsageTree

variable {α : Type}

-- The reading that `View.run` does, with every cell loaded through `note`.
def readFrom : Reading Cell.Face α → (opened : List Cell) → UsageTree → α × UsageTree
  | .answer a, _, tree              => (a, tree)
  | .look place next, opened, tree =>
    match Cell.view.find tree.root opened place with
    | none      => readFrom (next none) opened tree
    | some cell =>
      let (slice, tree) := tree.note cell
      readFrom (next (some slice.cell.face)) (opened ++ [cell]) tree

def read (tree : UsageTree) (reading : Reading Cell.Face α) : α × UsageTree :=
  readFrom reading [] tree

-- What a client has got so far: the tree, and the readings it made while tracing was on, each with
-- its answer.
structure Record (α : Type) where
  tree  : UsageTree
  noted : List (Reading Cell.Face α × α)

def act (record : Record α) : Action α → Record α
  | .read reading        =>
    let (answer, tree) := record.tree.read reading
    { tree, noted := if record.tree.tracing then record.noted ++ [(reading, answer)] else record.noted }
  | .readQuietly reading => { record with tree := (record.tree.withoutTracing (·.read reading)).2 }
  | .setTracing on       => { record with tree := record.tree.setTracing on }
  | .mark cell           => { record with tree := record.tree.mark cell }
  | .markPath cell       => { record with tree := (record.tree.markPath cell).2 }
  -- A refused combination changes nothing.
  | .combine other       => { record with tree := (record.tree.combine other).toOption.getD record.tree }

def session (root : Cell) (actions : List (Action α)) : Record α :=
  actions.foldl act ⟨new root, []⟩

end UsageTree

end TonNet
