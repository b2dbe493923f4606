import TonNet.Boc.Serialize

-- Writing a bag of cells in pieces.

namespace TonNet

open Fallible

-- About how many bytes go into one chunk of cells.
def chunkTarget : Nat := 16 * 1024

def Identity.storedLen (identity : Identity) : Nat :=
  identity.count * (32 + 2)

inductive Phase
  | header
  | body
  | crc
  | done
deriving DecidableEq

structure BocChunks where
  order        : List Cell
  children     : List (List Nat)
  refSize      : Nat
  header       : Option Bytes
  crcEnabled   : Bool
  storedHashes : Bool
  runningCrc   : UInt32
  cursor       : Nat
  phase        : Phase

-- The length of the cells, and where each of them ends, before any of them is written.
def measureCells (options : BocOptions) (refSize : Nat) (cells : List (Cell × List Nat)) : Nat × List Nat :=
  cells.foldl (fun (bodyLen, offsets) (cell, refs) =>
    let stored := if options.storedHashes then cell.identity.storedLen else 0
    let bodyLen := bodyLen + (2 + stored + cell.data.length + refs.length * refSize)
    (bodyLen, offsets ++ [bodyLen])) (0, [])

def serializeBocChunksWith (roots : List Cell) (options : BocOptions) : Except CellError BocChunks := do
  failIf roots.isEmpty (.header "root count")
  let (order, children) ← topological roots
  let count := order.length
  failIf (count > maxCells) (.tooManyCells maxCells)
  let refSize := byteWidth count
  let (bodyLen, offsets) := measureCells options refSize (order.zip children)
  let offsetSize := byteWidth bodyLen
  let rootList ← roots.mapM fun root =>
    okOr (indexOf order root.reprHash) (.malformed "a root was not reachable")
  let header :=
    magic ++ [flagsByte options refSize, .ofNat offsetSize] ++
    pushBe count refSize ++
    pushBe roots.length refSize ++
    pushBe 0 refSize ++
    pushBe bodyLen offsetSize ++
    rootList.flatMap (pushBe · refSize) ++
    (if options.index then offsets.flatMap (pushBe · offsetSize) else [])
  return {
    order, children, refSize
    header       := some header
    crcEnabled   := options.crc32c
    storedHashes := options.storedHashes
    runningCrc   := crc32cUpdate crc32cInit header
    cursor       := 0
    phase        := .header
  }

namespace BocChunks

def cellAt (b : BocChunks) (cursor : Nat) : Bytes :=
  match b.order[cursor]?, b.children[cursor]? with
  | some cell, some refs => writeCell { storedHashes := b.storedHashes } b.refSize cell refs
  | _, _                 => []

-- The cells from the cursor on until the chunk is full. Every pass takes one.
def gather (b : BocChunks) : (passes cursor : Nat) → (chunk : Bytes) → Nat × Bytes
  | 0, cursor, chunk          => (cursor, chunk)
  | passes + 1, cursor, chunk =>
    if cursor < b.order.length ∧ chunk.length < chunkTarget then
      b.gather passes (cursor + 1) (chunk ++ b.cellAt cursor)
    else
      (cursor, chunk)

-- The loop comes round once more at most, when the last cell has been written.
def nextFrom : (passes : Nat) → BocChunks → Option Bytes × BocChunks
  | 0, b          => (none, b)
  | passes + 1, b =>
    match b.phase with
    | .header => (b.header, { b with phase := .body, header := none })
    | .body   =>
      if b.cursor ≥ b.order.length then
        nextFrom passes { b with phase := if b.crcEnabled then .crc else .done }
      else
        let (cursor, chunk) := b.gather (b.order.length - b.cursor) b.cursor []
        (some chunk, { b with cursor, runningCrc := crc32cUpdate b.runningCrc chunk })
    | .crc    => (some (toLe (~~~b.runningCrc)), { b with phase := .done })
    | .done   => (none, b)

def next (b : BocChunks) : Option Bytes × BocChunks :=
  nextFrom 2 b

end BocChunks

end TonNet
