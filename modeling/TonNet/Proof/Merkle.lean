import TonNet.Cell.Basic
import TonNet.Tlb.Error

-- Checking a Merkle proof against a root hash that is already trusted.

namespace TonNet

open Fallible

-- Where a Merkle proof holds the hash and the depth it claims to stand for.
def merkleHash : Nat := 1
def merkleDepth : Nat := 33

def verifyMerkleProof (cell : Cell) (expectedRoot : Hash) : Except BlockError Cell := do
  failIf (cell.cellType ≠ .merkleProof) .notAMerkleProof
  let stored ← okOr (Hash.ofBytes? ((cell.data.drop merkleHash).take 32))
    (.malformed "merkle proof without a root hash")
  failIf (stored ≠ expectedRoot) .proofNotAnchored
  let content ← okOr (cell.reference 0) (.malformed "merkle proof without content")
  failIf (content.hash ≠ expectedRoot) .proofInconsistent
  -- The depth is hashed into the parent next to the hash, so it is checked too.
  let depth ← okOr (depthOf? ((cell.data.drop merkleDepth).take 2))
    (.malformed "merkle proof without a depth")
  failIf (depth ≠ content.depth) .proofInconsistent
  return content

-- The first proof among the roots that names the hash is the one that is checked.
def rootedAt (roots : List Cell) (expectedRoot : Hash) : Except BlockError Cell :=
  match roots with
  | []            => throw .proofNotAnchored
  | root :: roots =>
    if root.cellType = .merkleProof ∧
        Hash.ofBytes? ((root.data.drop merkleHash).take 32) = some expectedRoot then
      verifyMerkleProof root expectedRoot
    else rootedAt roots expectedRoot

theorem verifyMerkleProof_eq_ok {cell content : Cell} {expectedRoot : Hash} :
    verifyMerkleProof cell expectedRoot = .ok content ↔
      cell.cellType = .merkleProof ∧ (cell.data.drop merkleHash).take 32 = expectedRoot.bytes ∧
      cell.reference 0 = some content ∧ content.hash = expectedRoot ∧
      depthOf? ((cell.data.drop merkleDepth).take 2) = some content.depth := by
  simp only [verifyMerkleProof, failIf_bind_eq_ok, okOr_bind_eq_ok, pure_eq_ok, ne_eq, not_not,
    Hash.ofBytes?_eq_some]
  constructor
  · rintro ⟨kind, _, stored, rfl, _, first, hash, _, depth, rfl, rfl⟩
    exact ⟨kind, stored, first, hash, depth⟩
  · rintro ⟨kind, stored, first, hash, depth⟩
    exact ⟨kind, _, stored, rfl, content, first, hash, _, depth, rfl, rfl⟩

end TonNet
