import TonNet.Lib.PostOrder
import TonNet.Boc.Parse

-- Writing a cell graph out as a bag of cells.

namespace TonNet

open Fallible

-- The number of bytes needed to hold a `u64`, at least one.
def byteWidth (value : Nat) : Nat :=
  let bits := if value = 0 then 0 else value.log2 + 1
  max ((bits + 7) / 8) 1

-- The low bytes of a `u64`, big-endian.
def pushBe (value width : Nat) : Bytes :=
  (Bytes.be 8 value).drop (8 - width)

-- The position of each cell by its identity. A later cell of one identity takes the place of an
-- earlier one.
def indexOf (order : List Cell) (hash : Hash) : Option Nat :=
  (order.zipIdx.reverse.find? fun (cell, _) => cell.reprHash = hash).map Prod.snd

-- Every cell reachable from the roots, each before the cells it references, and the positions of
-- those. The walk meets a cell at most as often as the trees hold it.
def topological (roots : List Cell) : Except CellError (List Cell × List (List Nat)) := do
  let passes := (roots.map fun root => 2 * root.subcells.length).sum
  let emitted := PostOrder.run Cell.refs Cell.reprHash passes (roots.map .visit) ∅ []
  let order := emitted.reverse
  let children ← order.mapM fun cell => cell.refs.mapM fun child =>
    okOr (indexOf order child.reprHash) (.malformed "a reference was not reachable")
  return (order, children)

-- The two descriptor bytes as a bag stores them, with the whole level mask.
def Cell.storedDescriptors (c : Cell) : UInt8 × UInt8 :=
  (.ofNat (refsDescriptor c.refs.length c.isExotic c.levelMask 3), .ofNat (bitsDescriptor c.bits))

def Identity.writeStored (identity : Identity) : Bytes :=
  (List.range identity.count).flatMap (fun index => (identity.hash index).elim [] Hash.bytes) ++
  (List.range identity.count).flatMap (fun index => (identity.depth index).elim [] depthBytes)

structure BocOptions where
  index        : Bool := false
  crc32c       : Bool := true
  storedHashes : Bool := false

def writeCell (options : BocOptions) (refSize : Nat) (cell : Cell) (refs : List Nat) : Bytes :=
  let (d1, d2) := cell.storedDescriptors
  [if options.storedHashes then d1 ||| .ofNat withHashes else d1, d2] ++
  (if options.storedHashes then cell.identity.writeStored else []) ++
  cell.data ++
  refs.flatMap (pushBe · refSize)

-- The cells one after the other, and where each of them ends.
def writeCells (options : BocOptions) (refSize : Nat) (cells : List (Cell × List Nat)) :
    Bytes × List Nat :=
  cells.foldl (fun (body, offsets) (cell, refs) =>
    let body := body ++ writeCell options refSize cell refs
    (body, offsets ++ [body.length])) ([], [])

-- The flags byte carries the index and checksum choices in its top two bits and the reference size
-- in its low three.
def flagsByte (options : BocOptions) (refSize : Nat) : UInt8 :=
  let flags := UInt8.ofNat refSize
  let flags := if options.index then flags ||| 0x80 else flags
  if options.crc32c then flags ||| 0x40 else flags

-- `u32::to_le_bytes`
def toLe (value : UInt32) : Bytes :=
  (Bytes.be 4 value.toNat).reverse

def serializeBocWith (roots : List Cell) (options : BocOptions) : Except CellError Bytes := do
  failIf roots.isEmpty (.header "root count")
  let (order, children) ← topological roots
  let count := order.length
  failIf (count > maxCells) (.tooManyCells maxCells)
  let refSize := byteWidth count
  let (body, offsets) := writeCells options refSize (order.zip children)
  let offsetSize := byteWidth body.length
  let rootList ← roots.mapM fun root =>
    okOr (indexOf order root.reprHash) (.malformed "a root was not reachable")
  let out :=
    magic ++ [flagsByte options refSize, .ofNat offsetSize] ++
    pushBe count refSize ++
    pushBe roots.length refSize ++
    -- no absent cells
    pushBe 0 refSize ++
    pushBe body.length offsetSize ++
    rootList.flatMap (pushBe · refSize) ++
    (if options.index then offsets.flatMap (pushBe · offsetSize) else []) ++
    body
  return if options.crc32c then out ++ toLe (crc32c out) else out

end TonNet
