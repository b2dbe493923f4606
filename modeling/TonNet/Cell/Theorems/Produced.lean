import TonNet.Boc.Theorems.Parse
import TonNet.Cell.Produced
import TonNet.Cell.Theorems.Reveal
import TonNet.Cell.Theorems.Usage

-- Whatever way a cell was come by it is well formed, and its representation hash is its identity.

namespace TonNet

open Fallible Method

namespace Cell

variable {c c' : Cell} {level : Nat}

-- From level three up a cell answers with its own hash.
theorem reprHash_eq_hashAt (hm : c.levelMask < 8) (hl : 3 ≤ level) : c.reprHash = c.hashAt level := by
  have own := appliedMask_openedAt hm 3
  rw [openedAt, appliedMask_of_three_le le_rfl] at own
  apply hashAt_congr
  rw [Cell.level, own, appliedMask_of_three_le hl]

variable [Sha256] {strings : List Bytes}

theorem eq_of_reprHash_eq (cf : CollisionFree strings) (h : c.WellFormed) (h' : c'.WellFormed)
    (hs : c.hashed ⊆ strings) (hs' : c'.hashed ⊆ strings) (heq : c.reprHash = c'.reprHash) :
    c = c' := by
  induction c generalizing c'
  case node c hi =>
    rw [reprHash_eq_hashAt h.sound.mask_lt le_rfl, reprHash_eq_hashAt h'.sound.mask_lt le_rfl] at heq
    have shown (d : Cell) : d.RevealedAt 3 := fun _ => appliedMask_of_three_le le_rfl
    have m := matches_of_hashAt_eq cf h h' hs hs' (shown c) (shown c') heq
    have refs : c.refs = c'.refs := by
      rw [← List.forall₂_eq_eq_eq]
      refine m.refs.imp_mem fun r hr r' hr' ⟨hash, _⟩ => ?_
      have wf := h.refs r hr
      have wf' := h'.refs r' hr'
      rw [← reprHash_eq_hashAt wf.sound.mask_lt (Nat.le_add_right ..),
        ← reprHash_eq_hashAt wf'.sound.mask_lt (Nat.le_add_right ..)] at hash
      exact hi r hr wf wf' (fun _ hb => hs (hashed_subset_of_mem hr hb))
        (fun _ hb => hs' (hashed_subset_of_mem hr' hb)) hash
    have mask : c.levelMask = c'.levelMask := by
      have := m.applied
      rwa [appliedMask_of_three_le le_rfl, appliedMask_of_three_le le_rfl] at this
    -- The identity is computed from everything else.
    have identity : c.identity = c'.identity := by
      have := h.sound.summary
      rw [m.data, m.bits, m.cellType, refs, mask, h'.sound.summary] at this
      exact (Except.ok.inj this).symm
    cases c
    cases c'
    exact Cell.mk.injEq .. ▸ ⟨m.data, m.bits, refs, m.cellType, identity⟩

end Cell

section

variable [Sha256]

theorem rebuildWithRefs_wellFormed {cell c : Cell} {refs : List Cell}
    (h : ∀ r ∈ refs, r.WellFormed) (hc : rebuildWithRefs cell refs = .ok c) : c.WellFormed := by
  rw [rebuildWithRefs, failIf_bind_eq_ok, bind_eq_ok] at hc
  have ⟨_, (_, b), run, build⟩ := hc
  have stored := (Builder.storeBitsOf_refs cell).bind fun _ _ =>
    Yields.forM fun r hr => Builder.storeRef_refs (h r hr)
  have ⟨_, wf⟩ := stored (by simp) (call_eq_ok.mp run)
  have ⟨p, hp, wf, _⟩ := b.build_ok wf
  exact Except.ok.inj (hp.symm.trans build) ▸ wf

theorem coveringCell_wellFormed {kind : CellType} {covered : List Cell} {c : Cell}
    (hk : kind.isMerkle) (hn : kind.expectedRefs = some covered.length)
    (h : ∀ r ∈ covered, r.WellFormed) (hc : coveringCell kind covered = .ok c) : c.WellFormed := by
  obtain ⟨tag, ht, ordinary⟩ : ∃ tag, kind.tag = some tag ∧ ∀ r ∈ covered, r.isExotic = false := by
    rw [coveringCell, okOr_bind_eq_ok] at hc
    obtain ⟨tag, ht, hc⟩ := hc
    obtain ⟨_, exotic, _⟩ := bind_eq_ok.mp hc
    exact ⟨tag, ht, fun r hr => by simpa using forM_eq_ok.mp exotic r hr⟩
  obtain ⟨p, hp, wf, _⟩ := coveringCell_ok ht hk hn ordinary h
  exact Except.ok.inj (hp.symm.trans hc) ▸ wf

theorem Produced.wellFormed {c : Cell} (h : Produced c) : c.WellFormed := by
  induction h
  case parsed parse root => exact parseBocWith_wellFormed parse _ root
  case reference held holder => exact holder.refs _ held
  case built builder _ _ build refs =>
    have ⟨p, hp, wf, _⟩ := builder.build_ok refs
    exact Except.ok.inj (hp.symm.trans build) ▸ wf
  case rebuilt rebuild _ refs => exact rebuildWithRefs_wellFormed refs rebuild
  case proof create content =>
    exact coveringCell_wellFormed rfl rfl (by simpa using content) create
  case update create old new =>
    exact coveringCell_wellFormed rfl rfl (by simpa using ⟨old, new⟩) create
  case pruned prune root =>
    have ⟨p, hp, wf, _⟩ := pruneCell_ok root (keepable_of_pruneCell prune)
    exact Except.ok.inj (hp.symm.trans prune) ▸ wf

theorem soleRoot_produced {bytes : Bytes} {root : Cell} (h : soleRoot bytes = some root) :
    Produced root :=
  .parsed (soleRoot_eq_some.mp h) List.mem_cons_self

theorem produced_eq_iff {c c' : Cell} (h : Produced c) (h' : Produced c')
    (cf : CollisionFree (c.hashed ++ c'.hashed)) :
    (c.reprHash = c'.reprHash ↔ c = c') ∧ (c.same c' = true ↔ c = c') ∧
      ∀ tree : UsageTree, tree.touched c' = false → ((tree.mark c).touched c' = true ↔ c = c') := by
  have key : c.reprHash = c'.reprHash ↔ c = c' :=
    ⟨Cell.eq_of_reprHash_eq cf h.wellFormed h'.wellFormed (List.subset_append_left ..)
      (List.subset_append_right ..), congrArg _⟩
  refine ⟨key, by simp [Cell.same, key], fun tree untouched => ?_⟩
  have untouched : c'.reprHash ∉ tree.used := by simpa [UsageTree.touched] using untouched
  rw [UsageTree.touched, UsageTree.mark, decide_eq_true_iff, Finset.mem_insert, eq_comm, key]
  exact or_iff_left untouched

end

section LeafTree

-- A cell over one leaf, as a bag and as it is built.
def leafTreeBag : Bytes :=
  .be 17 0xb5ee9c72010102010006000102ab010000

def storeLeafTree (leaf : Cell) : Store Unit := do
  [true, false, true, false, true, false, true, true].forM Builder.storeBit
  Builder.storeRef leaf

attribute [local instance] Sha256.standard

theorem produced_eq_iff_leafTree :
    ∃ leaf b c c', Builder.new.build = .ok leaf ∧ (storeLeafTree leaf).Ends .new () b ∧ b.build = .ok c ∧
      soleRoot leafTreeBag = some c' ∧ CollisionFree (c.hashed ++ c'.hashed) ∧
      c.reprHash = c'.reprHash ∧ c = c' := by
  have seen : (Builder.new.build.toOption.bind fun leaf => ((storeLeafTree leaf).call .new).toOption.bind fun run =>
      run.2.build.toOption.bind fun c => (soleRoot leafTreeBag).map fun c' =>
        (decide (CollisionFree (c.hashed ++ c'.hashed)), decide (c.reprHash = c'.reprHash))) =
          some (true, true) := by
    decide +kernel
  simp only [Option.bind_eq_some_iff, Option.map_eq_some_iff, toOption_eq_some, Prod.mk.injEq,
    decide_eq_true_eq] at seen
  obtain ⟨leaf, bare, ⟨_, b⟩, run, c, built, c', parsed, cf, same⟩ := seen
  have stored := call_eq_ok.mp run
  have held : ∀ r ∈ b.refs, Produced r :=
    (((Yields.forM fun _ _ => Builder.storeBit_refs _).bind fun _ _ =>
      Builder.storeRef_refs (.built (by simp) bare)) (by simp) stored).right
  exact ⟨leaf, b, c, c', bare, stored, built, parsed, cf, same,
    (produced_eq_iff (.built held built) (soleRoot_produced parsed) cf).left.mp same⟩

end LeafTree

end TonNet
