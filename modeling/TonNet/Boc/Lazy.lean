import TonNet.Boc.Plan
import Mathlib.Data.List.Sort

-- Reading a bag once, then building its cells when they are asked for, and keeping them.

namespace TonNet

open Fallible

-- A bag's cells as they were read, before any of them is built.
structure RawCells where
  cells   : List RawCell
  payload : Bytes

def readCells (header : Header) : Read RawCells := do
  let r ← get
  let cells ← readRaw header
  let _ ← Method.ofExcept (heights cells header.count)
  return ⟨cells, r.bytes⟩

-- The cells built so far, and for each cell the walk that last reached it.
structure Build where
  built      : List (Option Cell)
  seen       : List Nat
  generation : Nat
  kept       : Nat
  builds     : Nat

namespace Build

def new (count : Nat) : Build where
  built      := List.replicate count none
  seen       := List.replicate count 0
  generation := 0
  kept       := 0
  builds     := 0

def keep (state : Build) (position : Nat) (cell : Cell) : Build :=
  { state with
    built  := state.built.set position (some cell)
    kept   := match state.built[position]? with
      | some none => state.kept + 1
      | _         => state.kept
    builds := state.builds + 1
  }

def get (state : Build) (index : Nat) : Option Cell :=
  state.built[index]?.join

-- A generation that wrapped would read the mark of an older walk as one of its own.
def openWalk (state : Build) : Build :=
  if state.generation + 1 < 2 ^ 32 then { state with generation := state.generation + 1 }
  else { state with seen := state.seen.map fun _ => 0, generation := 1 }

end Build

-- One cell popped off the stack: a cell not built and not yet met in this walk is marked, and what it
-- names is pushed. The pair is the cells met and the stack.
def visit (raw : RawCells) (generation position : Nat) (order rest : List Nat) :
    Method Build CellError (List Nat × List Nat) := do
  let state ← get
  if state.built[position]?.join.isSome then
    return (order, rest)
  else
    match state.seen[position]? with
    | none      => return (order, rest)
    | some mark =>
      if mark = generation then
        return (order, rest)
      else do
        set { state with seen := state.seen.set position generation }
        let rawCell ← okOr raw.cells[position]? .badReference
        return (order ++ [position], rawCell.refs.reverse ++ rest)

-- A walk meets a cell once and follows each of its references once, so there are never more passes
-- than references, and one for the cell it starts from.
def walk (raw : RawCells) (generation : Nat) :
    (passes : Nat) → (order stack : List Nat) → Method Build CellError (List Nat)
  | 0, order, _                         => return order
  | _ + 1, order, []                    => return order
  | passes + 1, order, position :: rest => do
    let (order, stack) ← visit raw generation position order rest
    walk raw generation passes order stack

def RawCells.passes (raw : RawCells) : Nat :=
  1 + (raw.cells.map fun rawCell => rawCell.refs.length).sum

variable [Sha256]

def buildNext (raw : RawCells) (lowest : Lowest) (position : Nat) : Method Build CellError Lowest := do
  let rawCell ← okOr raw.cells[position]? .badReference
  let state ← get
  match buildOne rawCell raw.payload state.built with
  | .ok (some cell) => do
    set (state.keep position cell)
    return lowest
  | .ok none        => return lowest
  | .error error    => return lowest.record position error

-- References point forward, so a cell comes after all that it names when the order is descending.
def buildAt (raw : RawCells) (index : Nat) : Method Build CellError Cell := do
  failIf (index ≥ raw.cells.length) .badReference
  let state ← get
  match state.get index with
  | some cell => return cell
  | none      =>
    set state.openWalk
    let order ← walk raw state.openWalk.generation raw.passes [] [index]
    let lowest ← (order.insertionSort (· ≤ ·)).reverse.foldlM (buildNext raw) {}
    Method.ofExcept lowest.intoResult
    let state ← get
    okOr (state.get index) .badReference

-- One cell of the bag and what it reaches. Nothing is kept.
def buildCell (header : Header) (index : Nat) : Read Cell := do
  failIf (index ≥ header.count) .badReference
  let raw ← readCells header
  Method.ofExcept ((buildAt raw index).value (.new header.count))

def BocView.cell (view : BocView) (index : Nat) : Except CellError Cell :=
  (buildCell view.header index).value ⟨view.bytes, view.header.bodyOffset⟩

-- A bag read once, with its cells built on demand and kept.
structure LazyBoc where
  header : Header
  raw    : RawCells
  build  : Build

namespace LazyBoc

def openWith (bytes : Bytes) (options : ParseOptions) : Except CellError LazyBoc := do
  let header ← Method.value (readHeader bytes options) ⟨bytes, 0⟩
  let raw ← Method.value (readCells header) ⟨bytes, header.bodyOffset⟩
  return ⟨header, raw, .new header.count⟩

-- The cells kept stay in the reader, so the build is what a call changes.
def cell (boc : LazyBoc) (index : Nat) : Method Build CellError Cell :=
  buildAt boc.raw index

def root (boc : LazyBoc) (n : Nat) : Method Build CellError Cell := do
  let index ← okOr boc.header.rootList[n]? .badReference
  boc.cell index

def roots (boc : LazyBoc) : Method Build CellError (List Cell) :=
  boc.header.rootList.mapM boc.cell

def prewarm (boc : LazyBoc) (indices : List Nat) : Method Build CellError Unit :=
  indices.forM fun index => do
    let _ ← boc.cell index

end LazyBoc

-- Opening a bag and building its roots.
def lazyRoots (bytes : Bytes) : Except CellError (List Cell) := do
  let boc ← LazyBoc.openWith bytes {}
  boc.roots.value boc.build

end TonNet
