import TonNet.Cell.Theorems.Builder
import TonNet.Cell.Theorems.Cut
import TonNet.Cell.Theorems.StandIn

-- Copies of a tree with subtrees replaced by the branches that stand for them, and what is stored from
-- a copy next to what is stored from the tree.

namespace TonNet

open Fallible Method

namespace Cell

-- `copy` is `full` with some subtrees replaced by pruned branches, under `depth` Merkle cells. A branch
-- answers for its subtree at the levels that are seen through those.
inductive Thinned : (depth : Nat) → (copy full : Cell) → Prop
  | same {depth : Nat} (c : Cell) : Thinned depth c c
  | cut {depth : Nat} {copy full : Cell} (kind : copy.cellType = .prunedBranch)
    (alike : copy.Alike full depth) : Thinned depth copy full
  | kept {depth : Nat} {copy full : Cell} (np : copy.cellType ≠ .prunedBranch)
    (cellType : copy.cellType = full.cellType) (bits : copy.bits = full.bits) (data : copy.data = full.data)
    (length : copy.refs.length = full.refs.length)
    (refs : ∀ (i : Nat) (r r' : Cell), copy.refs[i]? = some r → full.refs[i]? = some r' →
      Thinned (depth + copy.cellType.childLevelShift) r r') : Thinned depth copy full

variable {copy full c c' : Cell} {depth : Nat}

theorem Thinned.of_forall₂ (np : copy.cellType ≠ .prunedBranch) (cellType : copy.cellType = full.cellType)
    (bits : copy.bits = full.bits) (data : copy.data = full.data)
    (refs : List.Forall₂ (Thinned (depth + copy.cellType.childLevelShift)) copy.refs full.refs) :
    Thinned depth copy full :=
  .kept np cellType bits data refs.length_eq fun _ _ _ => refs.at_index

variable [Sha256]

theorem Thinned.alike (t : Thinned depth copy full) (wf : copy.WellFormed) (wf' : full.WellFormed) :
    copy.Alike full depth := by
  induction copy generalizing full depth
  case node copy hi =>
    rcases t with _ | ⟨_, alike⟩ | ⟨np, cellType, bits, data, length, refs⟩
    · exact .refl copy depth
    · exact alike
    · refine Over.alike ⟨cellType, bits, data, List.forall₂_iff_get.mpr ⟨length, fun i lt lt' => ?_⟩⟩ wf wf' np
      have related := refs i _ _ (List.getElem?_eq_getElem lt) (List.getElem?_eq_getElem lt')
      exact hi _ (List.getElem_mem lt) related (wf.refs _ (List.getElem_mem lt)) (wf'.refs _ (List.getElem_mem lt'))

-- A copy as the crate can hold it.
structure Copy (copy full : Cell) : Prop where
  wellFormed  : copy.WellFormed
  wellFormed' : full.WellFormed
  thinned     : Thinned 0 copy full

namespace Copy

theorem refl (wf : c.WellFormed) : Copy c c :=
  ⟨wf, wf, .same c⟩

theorem hash (h : Copy copy full) : copy.hash = full.hash :=
  (h.thinned.alike h.wellFormed h.wellFormed').hash 0 le_rfl

theorem refs_refl {refs : List Cell} (wf : ∀ r ∈ refs, r.WellFormed) : List.Forall₂ Copy refs refs :=
  List.forall₂_same.mpr fun r mem => refl (wf r mem)

-- The references of a node that is no Merkle cell stand under as many of those as it does.
theorem kept (h : Copy copy full) (ordinary : copy.isExotic = false) : Kept Copy copy full := by
  have kind : copy.cellType = .ordinary := by simpa [isExotic] using ordinary
  rcases h.thinned with _ | ⟨pruned, _⟩ | ⟨_, cellType, bits, data, length, refs⟩
  · exact ⟨rfl, rfl, rfl, refs_refl h.wellFormed.refs⟩
  · cases kind.symm.trans pruned
  · rw [kind] at refs
    refine ⟨cellType, bits, data, List.forall₂_iff_get.mpr ⟨length, fun i lt lt' => ?_⟩⟩
    exact ⟨h.wellFormed.refs _ (List.getElem_mem lt), h.wellFormed'.refs _ (List.getElem_mem lt'),
      refs i _ _ (List.getElem?_eq_getElem lt) (List.getElem?_eq_getElem lt')⟩

theorem copies : Copies Copy := by
  intro copy full h
  cases exotic : copy.isExotic
  case true => exact .inl rfl
  case false => exact .inr (h.kept exotic)

end Copy

-- A subtree exchanged for a branch that stands for it makes a copy.
theorem replaceAt_thinned {s branch : Cell} {path : List Nat} (wf : c.WellFormed) (hb : branch.WellFormed)
    (kind : branch.cellType = .prunedBranch) (hp : c.at? path = some s)
    (alike : branch.Alike s (depth + c.merklesOn path)) :
    ∃ c', c.replaceAt path branch = .ok c' ∧ c'.WellFormed ∧ Thinned depth c' c := by
  induction path generalizing c depth
  case nil =>
    obtain rfl := Option.some_inj.mp hp
    exact ⟨branch, rfl, hb, .cut kind alike⟩
  case cons i path hi =>
    obtain ⟨r, hr, hs⟩ := Option.bind_eq_some_iff.mp hp
    rw [merklesOn, hr, Option.elim_some, ← Nat.add_assoc] at alike
    obtain ⟨r', replaced, wf', thinned⟩ := hi (wf.refs r (List.mem_of_getElem? hr)) hs alike
    have np := wf.sound.not_pruned_of_reference hr
    have sub : ∀ x ∈ c.refs.set i r', x.WellFormed := fun x hx =>
      (List.mem_or_eq_of_mem_set hx).elim (wf.refs x) (· ▸ wf')
    obtain ⟨c', built, wf', identity, parts⟩ := withRefs_ok wf np List.length_set sub
    refine ⟨c', ?_, wf', ?_⟩
    · rw [replaceAt, okOr_bind_eq_ok]
      exact ⟨r, hr, bind_eq_ok.mpr ⟨r', replaced, built⟩⟩
    · subst parts
      refine .of_forall₂ np rfl rfl rfl (List.Forall₂.flip ?_)
      exact List.forall₂_set .same hr thinned

theorem Copy.of_standIn {root s branch root' : Cell} {path : List Nat} (wf : root.WellFormed)
    (hp : root.at? path = some s) (few : root.merklesOn path ≤ 2)
    (stands : s.standIn (root.merklesOn path) = .ok branch) (replaced : root.replaceAt path branch = .ok root') :
    Copy root' root := by
  have ⟨_, stands', hb, _, kind, alike⟩ := standIn_ok (wf.at? hp) few
  obtain rfl := Except.ok.inj (stands.symm.trans stands')
  rw [← Nat.zero_add (root.merklesOn path)] at alike
  have ⟨_, replaced', wf', thinned⟩ := replaceAt_thinned wf hb kind hp alike.symm
  obtain rfl := Except.ok.inj (replaced.symm.trans replaced')
  exact ⟨wf', wf, thinned⟩

end Cell

namespace Builder

-- Two builders of the same bits over related references.
structure Parallel (R : Cell → Cell → Prop) (b b' : Builder) : Prop where
  data : b.data = b'.data
  bits : b.bits = b'.bits
  refs : List.Forall₂ R b.refs b'.refs

variable {R : Cell → Cell → Prop} {X : CellError → Prop} {b b' : Builder}

namespace Parallel

theorem new : Parallel R .new .new :=
  ⟨rfl, rfl, .nil⟩

theorem bitsLeft (h : b.Parallel R b') : b.bitsLeft = b'.bitsLeft := by
  rw [Builder.bitsLeft, Builder.bitsLeft, h.bits]

theorem refsLeft (h : b.Parallel R b') : b.refsLeft = b'.refsLeft := by
  rw [Builder.refsLeft, Builder.refsLeft, h.refs.length_eq]

theorem canExtendBy (h : b.Parallel R b') (bits refs : Nat) :
    b.canExtendBy bits refs = b'.canExtendBy bits refs := by
  unfold Builder.canExtendBy
  rw [h.bitsLeft, h.refsLeft]

theorem closed (h : b.Parallel R b') : b.closed = b'.closed := by
  rw [Builder.closed, Builder.closed, h.bits, h.data]

-- What is built from the two is a copy and its tree.
theorem build [Sha256] (h : b.Parallel Cell.Copy b') : Echoes X Cell.Copy b.build b'.build := by
  have sound (r : Cell) (mem : r ∈ b.refs) : r.WellFormed := by
    have ⟨_, _, copy⟩ := h.refs.flip.exists_mem mem
    exact copy.wellFormed
  have sound' (r : Cell) (mem : r ∈ b'.refs) : r.WellFormed := by
    have ⟨_, _, copy⟩ := h.refs.exists_mem mem
    exact copy.wellFormed'
  have ⟨c, built, wf, _, _, parts⟩ := b.build_ok sound
  have ⟨c', built', wf', _, _, parts'⟩ := b'.build_ok sound'
  rw [built, built']
  refine .ends ⟨wf, wf', ?_⟩
  subst parts parts'
  exact .of_forall₂ nofun rfl h.bits h.closed (h.refs.imp fun _ _ copy => copy.thinned)

end Parallel

theorem roomFor_lockstep (bits : Nat) :
    Lockstep X (Parallel R) (fun _ _ => True) (roomFor bits) (roomFor bits) := by
  refine Lockstep.get.bind fun b b' h => ?_
  rw [h.bitsLeft]
  exact (Lockstep.failIf Iff.rfl _).mono fun _ _ _ => trivial

theorem storeBit_lockstep (bit : Bool) :
    Lockstep X (Parallel R) (fun _ _ => True) (storeBit bit) (storeBit bit) := by
  refine Lockstep.get.bind fun b b' h => ?_
  have same : 1 ≤ b.bitsLeft ↔ 1 ≤ b'.bitsLeft := by rw [h.bitsLeft]
  by_cases room : 1 ≤ b.bitsLeft
  case neg =>
    rw [dif_neg room, dif_neg (same.not.mp room), h.bitsLeft]
    exact .throw _
  case pos =>
    rw [dif_pos room, dif_pos (same.mp room)]
    exact fun _ _ _ => .ends ⟨trivial, congrArg₂ (pushBit · · bit) h.data h.bits, congrArg (· + 1) h.bits, h.refs⟩

theorem storeRef_lockstep {cell cell' : Cell} (related : R cell cell') :
    Lockstep X (Parallel R) (fun _ _ => True) (storeRef cell) (storeRef cell') := by
  refine Lockstep.get.bind fun b b' h => ?_
  have same : b.refs.length < maxRefs ↔ b'.refs.length < maxRefs := by rw [h.refs.length_eq]
  by_cases room : b.refs.length < maxRefs
  case neg =>
    rw [dif_neg room, dif_neg (same.not.mp room)]
    exact .throw _
  case pos =>
    rw [dif_pos room, dif_pos (same.mp room)]
    exact fun _ _ _ => .ends ⟨trivial, h.data, h.bits, List.rel_append h.refs (.cons related .nil)⟩

theorem forM_lockstep {α β : Type} {V : α → β → Prop} {f : α → Store Unit} {g : β → Store Unit} {l : List α}
    {m : List β} (h : List.Forall₂ V l m)
    (step : ∀ ⦃a c⦄, V a c → Lockstep X (Parallel R) (fun _ _ => True) (f a) (g c)) :
    Lockstep X (Parallel R) (fun _ _ => True) (l.forM f) (m.forM g) := by
  induction h
  case nil => exact .pure trivial
  case cons here _ hi => exact (step here).bind fun _ _ _ => hi

theorem forM_same {α : Type} {f : α → Store Unit} (l : List α)
    (step : ∀ a, Lockstep X (Parallel R) (fun _ _ => True) (f a) (f a)) :
    Lockstep X (Parallel R) (fun _ _ => True) (l.forM f) (l.forM f) :=
  forM_lockstep (V := (· = ·)) (List.forall₂_refl l) fun a _ e => e ▸ step a

theorem storeUint_lockstep (value bits : Nat) :
    Lockstep X (Parallel R) (fun _ _ => True) (storeUint value bits) (storeUint value bits) :=
  (Lockstep.failIf Iff.rfl _).bind fun _ _ _ => (Lockstep.failIf Iff.rfl _).bind fun _ _ _ =>
    (roomFor_lockstep bits).bind fun _ _ _ => forM_same _ fun _ => storeBit_lockstep _

theorem storeSameBit_lockstep (bit : Bool) (count : Nat) :
    Lockstep X (Parallel R) (fun _ _ => True) (storeSameBit bit count) (storeSameBit bit count) :=
  (roomFor_lockstep count).bind fun _ _ _ => forM_same _ fun _ => storeBit_lockstep bit

theorem storeBuilder_lockstep {other : Builder} (refs : List.Forall₂ R other.refs other.refs) :
    Lockstep X (Parallel R) (fun _ _ => True) (storeBuilder other) (storeBuilder other) := by
  refine (roomFor_lockstep _).bind fun _ _ _ => Lockstep.get.bind fun b b' h => ?_
  rw [h.refsLeft]
  refine (Lockstep.failIf Iff.rfl _).bind fun _ _ _ => ?_
  refine (forM_same _ fun _ => storeBit_lockstep _).bind fun _ _ _ => ?_
  exact forM_lockstep refs fun _ _ => storeRef_lockstep

-- The cursors of the two loops stay at the same place.
theorem storeSlice_lockstep {s s' : Slice} (h : s.Parallel R s') :
    Lockstep X (Parallel R) (fun _ _ => True) (storeSlice s) (storeSlice s') := by
  have refsLeft {s s' : Slice} (h : s.Parallel R s') : s.remainingRefs = s'.remainingRefs := by
    rw [Slice.remainingRefs, Slice.remainingRefs, h.endRef, h.nextRef]
  unfold storeSlice
  rw [h.remainingBits]
  refine (roomFor_lockstep _).bind fun _ _ _ => Lockstep.get.bind fun b b' hb => ?_
  rw [hb.refsLeft, refsLeft h]
  refine (Lockstep.failIf Iff.rfl _).bind fun _ _ _ => ?_
  refine Lockstep.bind (V := Slice.Parallel R) (.foldlM _ h fun s s' _ h => ?_) fun s s' h => ?_
  · refine (Lockstep.ofExcept (Slice.loadBit_lockstep h)).bind ?_
    rintro ⟨bit, _⟩ ⟨_, _⟩ ⟨rfl, rest⟩
    exact (storeBit_lockstep bit).bind fun _ _ _ => .pure rest
  · rw [refsLeft h]
    refine Lockstep.bind (V := Slice.Parallel R) (.foldlM _ h fun s s' _ h => ?_) fun _ _ _ => .pure trivial
    refine (Lockstep.ofExcept (Slice.loadRef_lockstep h)).bind ?_
    rintro ⟨_, _⟩ ⟨_, _⟩ ⟨cell, rest⟩
    exact (storeRef_lockstep cell).bind fun _ _ _ => .pure rest

end Builder

end TonNet
