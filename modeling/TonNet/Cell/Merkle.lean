import TonNet.Cell.Builder
import TonNet.Cell.Slice

-- The exotic cells that cover a tree by hash, and rebuilding a cell over other references.

namespace TonNet

open Fallible

-- Where a Merkle cell holds the hash and the depth of the tree it covers.
def coveredHash : Nat := 1
def coveredDepth : Nat := coveredHash + 32

-- Copies a cell's bits, read off it one by one.
def Builder.storeBitsOf (cell : Cell) : Store Unit :=
  (List.range cell.bits).forM fun i => storeBit (cell.data.bitAt i)

-- What a cell covering the given trees is written with: every hash, then every depth, then the trees
-- themselves.
def Builder.storeCovered (tag : UInt8) (covered : List Cell) : Store Unit := do
  storeUint tag.toNat 8
  covered.forM fun cell => storeBytes cell.hash.bytes
  covered.forM fun cell => storeUint cell.depth.toNat 16
  covered.forM storeRef

def virtualize (proof : Cell) : Except CellError Cell := do
  failIf (proof.cellType ≠ .merkleProof) (.malformed "only a merkle proof can be virtualized")
  let content ← okOr (proof.reference 0) (.malformed "merkle proof holds no content")
  let claimedHash ← okOr (Hash.ofBytes? ((proof.data.drop coveredHash).take 32))
    (.malformed "merkle proof has no root hash")
  failIf (claimedHash ≠ content.hash) (.malformed "merkle proof does not stand for its content")
  let claimedDepth ← okOr (depthOf? ((proof.data.drop coveredDepth).take 2))
    (.malformed "merkle proof has no depth")
  failIf (claimedDepth ≠ content.depth)
    (.malformed "merkle proof depth does not match its content")
  return content

variable [Sha256]

-- A cell of a Merkle kind standing for the given trees, one level up from what it covers.
def coveringCell (kind : CellType) (covered : List Cell) : Except CellError Cell := do
  let tag ← okOr kind.tag (.malformed "an ordinary cell cannot cover a tree")
  covered.forM fun cell =>
    failIf cell.isExotic (.malformed "a merkle cell stands for an ordinary tree")
  let mask := childrenMask (covered.map Cell.identity)
  let (_, builder) ← (Builder.storeCovered tag covered).call .new
  builder.finish kind (mask >>> 1)

def createProof (content : Cell) : Except CellError Cell :=
  coveringCell .merkleProof [content]

def createUpdate (old new : Cell) : Except CellError Cell :=
  coveringCell .merkleUpdate [old, new]

def rebuildWithRefs (cell : Cell) (refs : List Cell) : Except CellError Cell := do
  failIf cell.isExotic (.malformed "only an ordinary cell rebuilds with new references")
  let (_, builder) ← (do Builder.storeBitsOf cell; refs.forM Builder.storeRef : Store Unit).call .new
  builder.build

end TonNet
