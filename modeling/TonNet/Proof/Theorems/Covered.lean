import TonNet.Boc.Theorems.Parse
import TonNet.Proof.Account
import TonNet.Tlb.Theorems.Same

-- What two proofs rooted at one hash can show. The strings hashed to parse the bags are the ones
-- SHA-256 has to tell apart.

namespace TonNet

open Fallible

variable [Sha256]

def bagStrings (bag : Bytes) : List Bytes :=
  match parseBoc bag with
  | .ok roots => roots.flatMap Cell.hashed
  | .error _  => []

-- The roots of a bag that was parsed.
structure Parsed (strings : List Bytes) (roots : List Cell) : Prop where
  wf  : ∀ root ∈ roots, root.WellFormed
  sub : ∀ root ∈ roots, root.hashed ⊆ strings

variable {strings : List Bytes}

theorem parsed_of_parseBoc {bag : Bytes} {roots : List Cell} (h : parseBoc bag = .ok roots)
    (hs : bagStrings bag ⊆ strings) : Parsed strings roots where
  wf := parseBocWith_wellFormed h
  sub root hr := by
    refine fun _ hb => hs ?_
    rw [bagStrings, h]
    exact List.mem_flatMap.mpr ⟨root, hr, hb⟩

theorem parseBoc_agree {bag bag' : Bytes} (hs : bagStrings bag ⊆ strings)
    (hs' : bagStrings bag' ⊆ strings) :
    Agree (fun roots roots' => Parsed strings roots ∧ Parsed strings roots') (parseBoc bag)
      (parseBoc bag') :=
  fun _ _ h h' => ⟨parsed_of_parseBoc h hs, parsed_of_parseBoc h' hs'⟩

-- The content of a proof lies below a root of the bag and has the hash that was asked for.
structure Covers (strings : List Bytes) (rootHash : Hash) (content : Cell) : Prop where
  wf   : content.WellFormed
  sub  : content.hashed ⊆ strings
  hash : content.hash = rootHash

theorem Covers.same {rootHash : Hash} {c c' : Cell} (h : Covers strings rootHash c)
    (h' : Covers strings rootHash c') : Same strings c c' :=
  ⟨h.wf, h'.wf, h.sub, h'.sub, h.hash.trans h'.hash.symm⟩

variable {roots roots' : List Cell} {rootHash : Hash}

theorem verifyMerkleProof_covers {root content : Cell} (p : Parsed strings roots)
    (hr : root ∈ roots) (h : verifyMerkleProof root rootHash = .ok content) :
    Covers strings rootHash content := by
  have ⟨_, _, first, hash, _⟩ := verifyMerkleProof_eq_ok.mp h
  have mem : content ∈ root.refs := List.mem_of_getElem? first
  exact ⟨(p.wf root hr).refs content mem,
    fun _ hb => p.sub root hr (Cell.hashed_subset_of_mem mem hb), hash⟩

theorem rootedAt_covers {content : Cell} (p : Parsed strings roots)
    (h : rootedAt roots rootHash = .ok content) : Covers strings rootHash content := by
  induction roots
  case nil => exact absurd h throw_ne_ok
  case cons root roots hi =>
    rw [rootedAt] at h
    split at h
    case isTrue => exact verifyMerkleProof_covers p List.mem_cons_self h
    case isFalse =>
      refine hi ⟨?_, ?_⟩ h
      · exact fun r hr => p.wf r (List.mem_cons_of_mem _ hr)
      · exact fun r hr => p.sub r (List.mem_cons_of_mem _ hr)

theorem rootedAt_agree (p : Parsed strings roots) (p' : Parsed strings roots') :
    Agree (Same strings) (rootedAt roots rootHash) (rootedAt roots' rootHash) :=
  fun _ _ h h' => (rootedAt_covers p h).same (rootedAt_covers p' h')

theorem verifyBlockState_agree (cf : CollisionFree strings) (p : Parsed strings roots)
    (p' : Parsed strings roots') :
    Agree (· = ·) (verifyBlockState roots rootHash) (verifyBlockState roots' rootHash) := by
  refine (rootedAt_agree p p').bind fun _ _ s => (Block.fromCell_agree s).bind fun _ _ s => ?_
  exact Block.newStateHash_agree cf s

theorem verifyShardState_agree (p : Parsed strings roots) (p' : Parsed strings roots') :
    Agree (fun state state' => Shown strings state.cell state'.cell)
      (verifyShardState roots rootHash) (verifyShardState roots' rootHash) :=
  (rootedAt_agree p p').bind fun _ _ s => ShardState.fromCell_agree s

theorem coveredBlock_agree {proof proof' : Bytes} (hs : bagStrings proof ⊆ strings)
    (hs' : bagStrings proof' ⊆ strings) :
    Agree (fun block block' => Shown strings block.cell block'.cell)
      (coveredBlock proof rootHash) (coveredBlock proof' rootHash) := by
  refine (lift_agree (parseBoc_agree hs hs')).bind fun roots roots' ⟨p, p'⟩ => ?_
  refine Agree.bind (V := fun r r' => r ∈ roots ∧ r' ∈ roots') ?_ fun root root' ⟨hr, hr'⟩ => ?_
  · exact .okOr fun _ _ h h' => ⟨List.mem_of_head? h, List.mem_of_head? h'⟩
  have contents : Agree (Same strings) (verifyMerkleProof root rootHash)
      (verifyMerkleProof root' rootHash) :=
    fun _ _ h h' => (verifyMerkleProof_covers p hr h).same (verifyMerkleProof_covers p' hr' h')
  exact contents.bind fun _ _ s => Block.fromCell_agree s

end TonNet
