import TonNet.Cell.Update
import TonNet.Cell.Theorems.Usage
import TonNet.Cell.Theorems.Produced

-- Applying an update: the new tree is rebuilt over what its exotic cells are exchanged for, and the
-- hash that is checked in the end leaves no choice in it.

namespace TonNet

open Fallible Method

section Exchange

variable [Sha256] {exotic : Cell → Except CellError Cell} {c p : Cell} {l qs : List Cell}
  {b b' : Builder}

theorem exchange_eq (exotic : Cell → Except CellError Cell) (c : Cell) :
    exchange exotic c =
      if c.cellType = .ordinary then (do
        let (_, builder) ←
          (do Builder.storeBitsOf c; exchangeRefs exotic c.refs : Store Unit).call .new
        builder.build)
      else exotic c := by
  cases c
  rw [exchange]

theorem exchangeRefs_ends (all : List.Forall₂ (fun r q => exchange exotic r = .ok q) l qs)
    (room : b.refs.length + l.length ≤ maxRefs) :
    ∃ b', (exchangeRefs exotic l).Ends b () b' ∧ b'.refs = b.refs ++ qs ∧ b'.toBits = b.toBits := by
  induction all generalizing b
  case nil => exact ⟨b, by simp [exchangeRefs], by simp, rfl⟩
  case cons r q l qs here _ hi =>
    simp only [List.length_cons] at room
    have below : b.refs.length < maxRefs := by omega
    have ⟨b', ends, refs, bits⟩ := hi (b := b.pushRef q below) (by simp [Builder.pushRef]; omega)
    refine ⟨b', ?_, ?_, bits⟩
    · rw [exchangeRefs]
      simp only [ends_bind, ends_ofExcept]
      exact ⟨q, b, ⟨here, rfl⟩, (), _, Builder.storeRef_ends q below, ends⟩
    · rw [refs, Builder.pushRef, List.append_assoc]
      rfl

theorem exchangeRefs_ok (h : (exchangeRefs exotic l).Ends b () b') :
    ∃ qs, List.Forall₂ (fun r q => exchange exotic r = .ok q) l qs := by
  induction l generalizing b
  case nil => exact ⟨[], .nil⟩
  case cons r l hi =>
    rw [exchangeRefs] at h
    simp only [ends_bind, ends_ofExcept] at h
    obtain ⟨q, _, ⟨here, _⟩, _, _, _, rest⟩ := h
    obtain ⟨qs, all⟩ := hi rest
    exact ⟨q :: qs, .cons here all⟩

-- An ordinary cell comes to itself over what its references come to.
theorem exchange_rebuild (h : c.Sound) (kind : c.cellType = .ordinary)
    (all : List.Forall₂ (fun r q => exchange exotic r = .ok q) c.refs qs)
    (wf : ∀ q ∈ qs, q.WellFormed) :
    ∃ p, exchange exotic c = .ok p ∧ p.WellFormed ∧
      ∃ identity, p = ⟨c.data, c.bits, qs, .ordinary, identity⟩ := by
  have ⟨b₁, h₁, a₁⟩ := Builder.storeBitsOf_ends (b := .new) c (by simpa using h.bits_le)
  have room : b₁.refs.length + c.refs.length ≤ maxRefs := by
    rw [a₁.refs]
    simpa using h.refs_le
  have ⟨b₂, h₂, refs₂, bits₂⟩ := exchangeRefs_ends all room
  rw [a₁.refs] at refs₂
  obtain rfl : b₂.refs = qs := refs₂
  have ⟨p, hp, wf, shape⟩ := Builder.rebuild_ok h (bits₂.trans (by rw [a₁.toBits]; rfl)) wf
  refine ⟨p, ?_, wf, shape⟩
  rw [exchange_eq, if_pos kind, bind_eq_ok]
  exact ⟨((), b₂), call_eq_ok.mpr (ends_bind.mpr ⟨(), b₁, h₁, h₂⟩), hp⟩

theorem exchange_refs (kind : c.cellType = .ordinary) (ok : exchange exotic c = .ok p) :
    ∃ qs, List.Forall₂ (fun r q => exchange exotic r = .ok q) c.refs qs := by
  rw [exchange_eq, if_pos kind, bind_eq_ok] at ok
  have ⟨_, run, _⟩ := ok
  have ⟨_, _, _, loop⟩ := ends_bind.mp (call_eq_ok.mp run)
  exact exchangeRefs_ok loop

-- What becomes of an ordinary cell.
structure Rebuilt (exotic : Cell → Except CellError Cell) (c p : Cell) : Prop where
  wf   : p.WellFormed
  kind : p.cellType = .ordinary
  data : p.data = c.data
  bits : p.bits = c.bits
  refs : List.Forall₂ (fun r q => exchange exotic r = .ok q) c.refs p.refs

-- An exchange whose exotic cells are exchanged for well-formed ones.
variable (hx : ∀ c p, c.WellFormed → exotic c = .ok p → p.WellFormed)

include hx in
theorem exchange_wellFormed (h : c.WellFormed) (ok : exchange exotic c = .ok p) : p.WellFormed := by
  induction c generalizing p
  case node c hi =>
    by_cases kind : c.cellType = .ordinary
    case pos =>
      have ⟨qs, all⟩ := exchange_refs kind ok
      have wf : ∀ q ∈ qs, q.WellFormed := by
        intro q hq
        have ⟨r, hr, here⟩ := all.exists_mem hq
        exact hi r hr (h.refs r hr) here
      have ⟨_, ok', wf', _⟩ := exchange_rebuild h.sound kind all wf
      cases ok.symm.trans ok'
      exact wf'
    case neg =>
      rw [exchange_eq, if_neg kind] at ok
      exact hx c p h ok

include hx in
theorem rebuilt_of_exchange (h : c.WellFormed) (kind : c.cellType = .ordinary)
    (ok : exchange exotic c = .ok p) : Rebuilt exotic c p := by
  have ⟨qs, all⟩ := exchange_refs kind ok
  have wf : ∀ q ∈ qs, q.WellFormed := by
    intro q hq
    have ⟨r, hr, here⟩ := all.exists_mem hq
    exact exchange_wellFormed hx (h.refs r hr) here
  have ⟨_, ok', wf', _, shape⟩ := exchange_rebuild h.sound kind all wf
  cases ok.symm.trans ok'
  subst shape
  exact ⟨wf', rfl, rfl, rfl, all⟩

end Exchange

section Collect

variable {shown : Cell → Bool} {again : CellMap → Cell → CellMap} {into : CellMap} {tree : Cell}

theorem collectRefs_eq (shown : Cell → Bool) (again : CellMap → Cell → CellMap) (l : List Cell)
    (into : CellMap) : collectRefs shown again l into =
      l.foldl (fun into child => collect shown again child into) into := by
  induction l generalizing into
  case nil => rw [collectRefs, List.foldl_nil]
  case cons child l hi => rw [collectRefs, hi, List.foldl_cons]

theorem collect_eq (shown : Cell → Bool) (again : CellMap → Cell → CellMap) (tree : Cell)
    (into : CellMap) : collect shown again tree into =
      if shown tree then
        if into.holds tree.hash then again into tree
        else tree.refs.foldl (fun into child => collect shown again child into) (into.add tree)
      else into := by
  cases tree
  rw [collect, collectRefs_eq]

theorem CellMap.holds_iff {map : CellMap} {hash : Hash} :
    map.holds hash = true ↔ ∃ c, (hash, c) ∈ map := by
  rw [CellMap.holds, List.lookup_isSome_iff]
  constructor
  · rintro ⟨⟨_, c⟩, mem, same⟩
    exact ⟨c, LawfulBEq.eq_of_beq same ▸ mem⟩
  · exact fun ⟨c, mem⟩ => ⟨_, mem, beq_self_eq_true hash⟩

theorem CellMap.mem_of_lookup {map : CellMap} {hash : Hash} {c : Cell}
    (h : map.lookup hash = some c) : (hash, c) ∈ map := by
  have ⟨_, _, split, _⟩ := List.lookup_eq_some_iff.mp h
  rw [split]
  simp

theorem CellMap.holds_add {map : CellMap} {hash : Hash} {c : Cell} :
    (map.add c).holds hash = true ↔ hash = c.hash ∨ map.holds hash = true := by
  rw [holds_iff, holds_iff, CellMap.add]
  simp only [List.mem_cons, Prod.mk.injEq, exists_or, exists_and_left, exists_eq, and_true]

-- What may be done about a cell whose hash is taken: it may become the entry under that hash.
structure Renews (again : CellMap → Cell → CellMap) : Prop where
  entries : ∀ into c, again into c ⊆ into.add c
  holds   : ∀ into c hash, into.holds c.hash = true →
    ((again into c).holds hash = true ↔ into.holds hash = true)

theorem renews_first : Renews fun into _ => into where
  entries := fun _ _ => List.subset_cons_self ..
  holds   := fun _ _ _ _ => Iff.rfl

theorem renews_last : Renews CellMap.add where
  entries := fun _ _ => List.Subset.refl _
  holds   := fun into c hash taken => by
    rw [CellMap.holds_add]
    exact ⟨fun h => h.elim (fun same => same ▸ taken) id, .inr⟩

-- The entries of a map are cells of the tree it was collected from.
theorem mem_collect (renews : Renews again) : ∀ entry ∈ collect shown again tree into,
    entry ∈ into ∨ ∃ d ∈ tree.subcells, shown d ∧ entry = (d.hash, d) := by
  induction tree generalizing into
  case node tree hi =>
    rw [collect_eq]
    have added (entry : Hash × Cell) (here : shown tree = true) (h : entry ∈ into.add tree) :
        entry ∈ into ∨ ∃ d ∈ tree.subcells, shown d ∧ entry = (d.hash, d) := by
      obtain rfl | old := List.mem_cons.mp h
      · exact .inr ⟨tree, tree.self_mem_subcells, here, rfl⟩
      · exact .inl old
    split_ifs with here taken
    · exact fun entry h => added entry here (renews.entries into tree h)
    · refine List.foldlRecOn (motive := fun map => ∀ entry ∈ map, entry ∈ into ∨
        ∃ d ∈ tree.subcells, shown d ∧ entry = (d.hash, d)) tree.refs _
        (fun entry => added entry here) fun map held r hr entry h => ?_
      obtain old | ⟨d, mem, new⟩ := hi r hr entry h
      · exact held entry old
      · exact .inr ⟨d, Cell.mem_subcells.mpr (.inr ⟨r, hr, mem⟩), new⟩
    · exact fun _ => .inl

-- Every hash that is held, the pending ones apart, is that of a cell of the tree whose references
-- were looked at.
def Entered (shown : Cell → Bool) (root : Cell) (pending : List Hash) (map : CellMap) : Prop :=
  ∀ hash, map.holds hash = true → hash ∈ pending ∨
    ∃ x ∈ root.subcells, x.hash = hash ∧ shown x = true ∧
      ∀ r ∈ x.refs, shown r = true → map.holds r.hash = true

structure Collected (shown : Cell → Bool) (root : Cell) (pending : List Hash) (into : CellMap)
    (trees : List Cell) (map : CellMap) : Prop where
  covers : Entered shown root pending map
  mono   : ∀ hash, into.holds hash = true → map.holds hash = true
  held   : ∀ r ∈ trees, shown r = true → map.holds r.hash = true

theorem collected_foldl {root : Cell} {pending : List Hash} {l : List Cell}
    (each : ∀ r ∈ l, ∀ into, Entered shown root pending into →
      Collected shown root pending into [r] (collect shown again r into))
    (h : Entered shown root pending into) : Collected shown root pending into l
      (l.foldl (fun into child => collect shown again child into) into) := by
  induction l generalizing into
  case nil => exact ⟨h, fun _ => id, by simp⟩
  case cons r l hi =>
    have here := each r (by simp) into h
    have rest := hi (fun r hr => each r (by simp [hr])) here.covers
    refine ⟨rest.covers, fun hash old => rest.mono hash (here.mono hash old), fun s hs shows => ?_⟩
    obtain rfl | hs := List.mem_cons.mp hs
    · exact rest.mono _ (here.held s (by simp) shows)
    · exact rest.held s hs shows

theorem collected {root : Cell} {pending : List Hash} (renews : Renews again)
    (inside : ∀ d ∈ tree.subcells, d ∈ root.subcells) (h : Entered shown root pending into) :
    Collected shown root pending into [tree] (collect shown again tree into) := by
  induction tree generalizing into pending
  case node tree hi =>
    rw [collect_eq]
    split_ifs with here taken
    · have same (hash : Hash) := renews.holds into tree hash taken
      refine ⟨fun hash held => ?_, fun hash => (same hash).mpr, ?_⟩
      · refine (h hash ((same hash).mp held)).imp_right fun ⟨x, mem, is, shows, refs⟩ => ?_
        exact ⟨x, mem, is, shows, fun r hr shows => (same _).mpr (refs r hr shows)⟩
      · exact fun r hr _ => (same _).mpr (List.mem_singleton.mp hr ▸ taken)
    · have start : Entered shown root (tree.hash :: pending) (into.add tree) := by
        intro hash held
        obtain rfl | old := CellMap.holds_add.mp held
        · exact .inl List.mem_cons_self
        · refine (h hash old).imp (List.mem_cons_of_mem _) fun ⟨x, mem, is, shows, refs⟩ => ?_
          exact ⟨x, mem, is, shows, fun r hr shows => CellMap.holds_add.mpr (.inr (refs r hr shows))⟩
      have done := collected_foldl (fun r hr into h => hi r hr (fun d hd => inside d
        (Cell.mem_subcells.mpr (.inr ⟨r, hr, hd⟩))) h) start
      refine ⟨fun hash held => ?_, fun hash old => ?_, fun r hr _ => ?_⟩
      · obtain pends | read := done.covers hash held
        · obtain rfl | pends := List.mem_cons.mp pends
          · exact .inr ⟨tree, inside tree tree.self_mem_subcells, rfl, here, done.held⟩
          · exact .inl pends
        · exact .inr read
      · exact done.mono hash (CellMap.holds_add.mpr (.inr old))
      · rw [List.mem_singleton.mp hr]
        exact done.mono _ (CellMap.holds_add.mpr (.inl rfl))
    · exact ⟨h, fun _ => id, by simp [here]⟩

end Collect

section Whole

variable {c c' d p : Cell}

theorem Cell.subcells_trans {e : Cell} (h : d ∈ c.subcells) (h' : e ∈ d.subcells) :
    e ∈ c.subcells := by
  induction c
  case node c hi =>
    obtain rfl | ⟨r, hr, h⟩ := mem_subcells.mp h
    · exact h'
    · exact mem_subcells.mpr (.inr ⟨r, hr, hi r hr h⟩)

-- A tree of ordinary cells and library references.
def Cell.Whole (c : Cell) : Prop :=
  ∀ d ∈ c.subcells, d.cellType = .ordinary ∨ d.cellType = .libraryReference

namespace Cell

instance (c : Cell) : Decidable c.Whole :=
  inferInstanceAs (Decidable (∀ d ∈ c.subcells, _ ∨ _))

theorem whole_iff : c.Whole ↔
    (c.cellType = .ordinary ∨ c.cellType = .libraryReference) ∧ ∀ r ∈ c.refs, r.Whole := by
  constructor
  · intro w
    exact ⟨w c c.self_mem_subcells, fun r hr d hd => w d (mem_subcells.mpr (.inr ⟨r, hr, hd⟩))⟩
  · rintro ⟨kind, refs⟩ d hd
    obtain rfl | ⟨r, hr, hd⟩ := mem_subcells.mp hd
    · exact kind
    · exact refs r hr d hd

theorem Whole.subcell (w : c.Whole) (h : d ∈ c.subcells) : d.Whole :=
  fun _ he => w _ (subcells_trans h he)

variable [Sha256] {strings : List Bytes}

-- Nothing in such a tree stands above level zero.
theorem Whole.levelMask (w : c.Whole) (h : c.WellFormed) : c.levelMask = 0 := by
  induction c
  case node c hi =>
    have ⟨kind, refs⟩ := whole_iff.mp w
    have zero : childrenMask (c.refs.map identity) = 0 :=
      List.foldlRecOn (motive := (· = 0)) (c.refs.map identity) _ rfl fun acc none r hr => by
        have ⟨d, hd, here⟩ := List.mem_map.mp hr
        have below : r.levelMask = 0 := here ▸ hi d hd (refs d hd) (h.refs d hd)
        rw [none, below]
        rfl
    rw [h.sound.impliedMask_eq]
    obtain kind | kind := kind
    · rw [kind]
      exact zero
    · rw [kind]
      rfl

theorem Whole.eq_of_hash_eq (cf : CollisionFree strings) (w : c.Whole) (w' : c'.Whole)
    (h : c.WellFormed) (h' : c'.WellFormed) (hs : c.hashed ⊆ strings) (hs' : c'.hashed ⊆ strings)
    (same : c.hash = c'.hash) : c = c' := by
  refine eq_of_reprHash_eq cf h h' hs hs' ?_
  rw [reprHash, reprHash, level, level, w.levelMask h, w'.levelMask h']
  exact same

theorem Whole.eq_of_mem {root : Cell} (w : root.Whole) (h : root.WellFormed)
    (cf : CollisionFree root.hashed) (hc : c ∈ root.subcells) (hc' : c' ∈ root.subcells)
    (same : c.hash = c'.hash) : c = c' :=
  (w.subcell hc).eq_of_hash_eq cf (w.subcell hc') (h.subcells c hc) (h.subcells c' hc')
    (hashed_subset_of_mem_subcells hc) (hashed_subset_of_mem_subcells hc') same

end Cell

variable [Sha256] {base : CellMap}

theorem graftExotic_wellFormed (held : ∀ e ∈ base, e.2.WellFormed) (c p : Cell) (h : c.WellFormed)
    (ok : graftExotic base c = .ok p) : p.WellFormed := by
  rw [graftExotic] at ok
  split at ok
  case h_1 => exact held _ (CellMap.mem_of_lookup (okOr_eq_ok.mp ok))
  case h_2 => exact pure_eq_ok.mp ok ▸ h
  case h_3 => cases ok

theorem graft_whole (held : ∀ e ∈ base, e.2.WellFormed ∧ e.2.Whole) (h : c.WellFormed)
    (ok : graft base c = .ok p) : p.Whole := by
  have hx := graftExotic_wellFormed fun e he => (held e he).left
  induction c generalizing p
  case node c hi =>
    by_cases kind : c.cellType = .ordinary
    case pos =>
      have r := rebuilt_of_exchange hx h kind ok
      refine Cell.whole_iff.mpr ⟨.inl r.kind, fun q hq => ?_⟩
      have ⟨s, hs, here⟩ := r.refs.exists_mem hq
      exact hi s hs (h.refs s hs) here
    case neg =>
      rw [graft, exchange_eq, if_neg kind, graftExotic] at ok
      split at ok
      case h_1 => exact (held _ (CellMap.mem_of_lookup (okOr_eq_ok.mp ok))).right
      case h_2 library =>
        obtain rfl := pure_eq_ok.mp ok
        refine Cell.whole_iff.mpr ⟨.inr library, ?_⟩
        simp [h.sound.refs_eq_nil (by rw [library]; rfl)]
      case h_3 => cases ok

end Whole

section Apply

variable [Sha256] {base update new : Cell}

-- The base is compared first, and only for the tree the update starts from is the rest looked at.
theorem mayApply_eq_ok {result : Option Cell} : mayApply base update = .ok result ↔
    update.cellType = .merkleUpdate ∧ ∃ old, (update.data.drop oldHash).take 32 = old.bytes ∧
      (old ≠ base.hash ∧ result = none ∨ old = base.hash ∧
        ∃ side new, update.reference 1 = some side ∧ graft (indexByHash base []) side = .ok new ∧
          (update.data.drop newHash).take 32 = new.hash.bytes ∧ result = some new) := by
  rw [mayApply, failIf_bind_eq_ok, not_not]
  refine and_congr_right fun _ => ?_
  simp only [okOr_bind_eq_ok, Hash.ofBytes?_eq_some]
  refine exists_congr fun old => and_congr_right fun _ => ?_
  by_cases other : old = base.hash
  case pos =>
    rw [if_neg (not_not.mpr other), okOr_bind_eq_ok]
    simp only [bind_eq_ok (x := graft _ _), okOr_bind_eq_ok, failIf_bind_eq_ok, pure_eq_ok,
      Hash.ofBytes?_eq_some, not_not]
    constructor
    · rintro ⟨side, held, new, ok, _, stored, rfl, rfl⟩
      exact .inr ⟨other, side, new, held, ok, stored, rfl⟩
    · rintro (⟨apart, _⟩ | ⟨_, side, new, held, ok, stored, rfl⟩)
      · exact absurd other apart
      · exact ⟨side, held, new, ok, new.hash, stored, rfl, rfl⟩
  case neg =>
    rw [if_pos other, pure_eq_ok]
    simp [other, eq_comm]

theorem mayApply_eq_some : mayApply base update = .ok (some new) ↔
    update.cellType = .merkleUpdate ∧ (update.data.drop oldHash).take 32 = base.hash.bytes ∧
    ∃ side, update.reference 1 = some side ∧ graft (indexByHash base []) side = .ok new ∧
      (update.data.drop newHash).take 32 = new.hash.bytes := by
  rw [mayApply_eq_ok]
  refine and_congr_right fun _ => ?_
  simp

theorem applyUpdate_eq_ok : applyUpdate base update = .ok new ↔
    mayApply base update = .ok (some new) := by
  rw [applyUpdate, bind_eq_ok]
  simp only [okOr_eq_ok]
  constructor
  · rintro ⟨_, ok, rfl⟩
    exact ok
  · intro ok
    exact ⟨_, ok, rfl⟩

-- The entries that a base gives for grafting are its own cells.
omit [Sha256] in
theorem mem_indexByHash {entry : Hash × Cell} (h : entry ∈ indexByHash base []) :
    entry.2 ∈ base.subcells ∧ entry.1 = entry.2.hash := by
  obtain old | ⟨d, hd, _, rfl⟩ := mem_collect renews_first entry h
  · cases old
  · exact ⟨hd, rfl⟩

theorem applyUpdate_whole (wf : base.WellFormed) (whole : base.Whole) (wfu : update.WellFormed)
    (ok : applyUpdate base update = .ok new) : new.WellFormed ∧ new.Whole := by
  have ⟨_, _, side, held, ok, _⟩ := mayApply_eq_some.mp (applyUpdate_eq_ok.mp ok)
  have wfs := wfu.refs side (List.mem_of_getElem? held)
  have entries (e : Hash × Cell) (he : e ∈ indexByHash base []) : e.2.WellFormed ∧ e.2.Whole :=
    have ⟨mem, _⟩ := mem_indexByHash he
    ⟨wf.subcells _ mem, whole.subcell mem⟩
  exact ⟨exchange_wellFormed (graftExotic_wellFormed fun e he => (entries e he).left) wfs ok,
    graft_whole entries wfs ok⟩

-- Whatever two senders attached, an update that applies leaves the tree its new hash names.
theorem applyUpdate_unique {update' new' : Cell} (wf : base.WellFormed) (whole : base.Whole)
    (wfu : update.WellFormed) (wfu' : update'.WellFormed)
    (stored : (update.data.drop newHash).take 32 = (update'.data.drop newHash).take 32)
    (ok : applyUpdate base update = .ok new) (ok' : applyUpdate base update' = .ok new')
    (cf : CollisionFree (new.hashed ++ new'.hashed)) :
    new = new' ∧ ∀ d ∈ new.subcells, d.cellType ≠ .prunedBranch := by
  have ⟨wfn, wn⟩ := applyUpdate_whole wf whole wfu ok
  have ⟨wfn', wn'⟩ := applyUpdate_whole wf whole wfu' ok'
  have ⟨_, _, _, _, _, named⟩ := mayApply_eq_some.mp (applyUpdate_eq_ok.mp ok)
  have ⟨_, _, _, _, _, named'⟩ := mayApply_eq_some.mp (applyUpdate_eq_ok.mp ok')
  have same : new.hash = new'.hash :=
    Hash.ext (named.symm.trans (stored.trans named'))
  refine ⟨wn.eq_of_hash_eq cf wn' wfn wfn' (List.subset_append_left ..)
    (List.subset_append_right ..) same, fun d hd pruned => ?_⟩
  have := wn d hd
  simp [pruned] at this

end Apply

section Copies

variable {allowed : Cell → Prop} {copy full : Cell}

-- `copy` is `full` with some subtrees, all of them allowed, replaced by branches that stand for them.
inductive Cell.PrunedTo (allowed : Cell → Prop) : Cell → Cell → Prop
  | cut {copy full : Cell} (kind : copy.cellType = .prunedBranch) (hash : copy.hash = full.hash)
    (depth : copy.depth = full.depth) (may : allowed full) : PrunedTo allowed copy full
  | kept {copy full : Cell} (cellType : copy.cellType = full.cellType) (bits : copy.bits = full.bits)
    (data : copy.data = full.data) (refs : List.Forall₂ (PrunedTo allowed) copy.refs full.refs) :
    PrunedTo allowed copy full

theorem Cell.PrunedTo.mono {allowed' : Cell → Prop} (p : PrunedTo allowed copy full)
    (h : ∀ d, allowed d → allowed' d) : PrunedTo allowed' copy full := by
  induction copy generalizing full
  case node copy hi =>
    cases p
    case cut kind may hash depth => exact .cut kind hash depth (h full may)
    case kept cellType bits data refs =>
      exact .kept cellType bits data (refs.imp_mem fun r hr r' _ related => hi r hr related)

theorem Cell.PrunedTo.refl (allowed : Cell → Prop) (c : Cell) : PrunedTo allowed c c := by
  induction c
  case node c hi => exact .kept rfl rfl rfl (List.forall₂_same.mpr hi)

-- What a marked tree is pruned to is a copy of it.
theorem Pruning.prunedTo {keep : Finset Hash} {root c p : Cell} (h : Pruning keep c p)
    (inside : ∀ d ∈ c.subcells, d ∈ root.subcells) :
    Cell.PrunedTo (fun d => d ∈ root.subcells ∧ d.reprHash ∉ keep) p c := by
  induction h
  case cut c p out kind _ _ hash depth =>
    exact .cut kind hash depth ⟨inside c c.self_mem_subcells, out⟩
  case kept c p _ kind kind_eq bits data length_eq _ hi =>
    refine .kept (kind_eq.trans kind.symm) bits data
      (List.forall₂_iff_get.mpr ⟨length_eq, fun i lt lt' => ?_⟩)
    exact hi i _ _ (List.getElem?_eq_getElem lt') (List.getElem?_eq_getElem lt) fun d hd =>
      inside d (Cell.mem_subcells.mpr (.inr ⟨_, List.getElem_mem lt', hd⟩))

variable [Sha256]

-- A copy answers at level zero as the tree does.
theorem Cell.PrunedTo.alike (p : PrunedTo allowed copy full) (wf : copy.WellFormed)
    (wf' : full.WellFormed) (whole : full.Whole) : copy.Alike full 0 := by
  induction copy generalizing full
  case node copy hi =>
    cases p
    case cut kind may hash depth =>
      refine ⟨by simp, fun l hl => ?_, fun l hl => ?_⟩
      · rw [Nat.le_zero.mp hl]
        exact hash
      · rw [Nat.le_zero.mp hl]
        exact depth
    case kept cellType bits data refs =>
      have ⟨kind, rest⟩ := whole_iff.mp whole
      rw [← cellType] at kind
      have shift : copy.cellType.childLevelShift = 0 := by
        obtain kind | kind := kind <;> rw [kind] <;> rfl
      have covers : copy.Over full 0 := by
        refine ⟨cellType, bits, data, refs.imp_mem fun r hr r' hr' related => ?_⟩
        rw [shift]
        exact hi r hr related (wf.refs r hr) (wf'.refs r' hr') (rest r' hr')
      exact covers.alike wf wf' (by rintro pruned; simp [pruned] at kind)

-- Grafting from a base that holds what was cut gives the tree back.
theorem graft_copy {base : CellMap} (held : ∀ s, allowed s → base.lookup s.hash = some s)
    (p : Cell.PrunedTo allowed copy full) (wf : copy.WellFormed) (wf' : full.WellFormed)
    (whole : full.Whole) : graft base copy = .ok full := by
  induction copy generalizing full
  case node copy hi =>
    cases p
    case cut kind may hash depth =>
      rw [graft, exchange_eq, if_neg (by simp [kind]), graftExotic, kind]
      simp only
      rw [hash, held full may]
      rfl
    case kept cellType bits data refs =>
      have ⟨kind, rest⟩ := Cell.whole_iff.mp whole
      obtain kind | kind := kind
      · have all : List.Forall₂ (fun r q => exchange (graftExotic base) r = .ok q) copy.refs full.refs :=
          refs.imp_mem fun r hr r' hr' related =>
            hi r hr related (wf.refs r hr) (wf'.refs r' hr') (rest r' hr')
        have ⟨p, ok, wfp, _, shape⟩ :=
          exchange_rebuild wf.sound (cellType.trans kind) all wf'.refs
        rw [graft, ok]
        subst shape
        exact congrArg _ (wfp.ext wf' kind.symm bits data rfl (by simp))
      · rw [graft, exchange_eq, if_neg (by simp [cellType, kind]), graftExotic, cellType, kind]
        have leaf : copy.refs = full.refs := by
          rw [wf.sound.refs_eq_nil (by rw [cellType, kind]; rfl),
            wf'.sound.refs_eq_nil (by rw [kind]; rfl)]
        exact congrArg _ (wf.ext wf' cellType bits data leaf (by simp [cellType, kind]))

-- With distinct hashes for distinct cells, a base is found under the hashes of all its cells.
theorem lookup_indexByHash {base s : Cell} (wf : base.WellFormed) (whole : base.Whole)
    (cf : CollisionFree base.hashed) (mem : s ∈ base.subcells) :
    (indexByHash base []).lookup s.hash = some s := by
  have done : Collected (fun _ => true) base [] [] [base] (indexByHash base []) :=
    collected renews_first (fun _ => id) nofun
  have holds {c : Cell} (hc : c ∈ base.subcells)
      (held : CellMap.holds (indexByHash base []) c.hash = true) (ms : s ∈ c.subcells) :
      CellMap.holds (indexByHash base []) s.hash = true := by
    induction c
    case node c hi =>
      obtain rfl | ⟨r, hr, below⟩ := Cell.mem_subcells.mp ms
      · exact held
      · obtain none | ⟨x, hx, same, _, refs⟩ := done.covers c.hash held
        · cases none
        · obtain rfl := whole.eq_of_mem wf cf hx hc same
          refine hi r hr ?_ (refs r hr rfl) below
          exact Cell.subcells_trans hc (Cell.mem_subcells.mpr (.inr ⟨r, hr, r.self_mem_subcells⟩))
  have held := holds base.self_mem_subcells (done.held base (by simp) rfl) mem
  have ⟨c, found⟩ := Option.isSome_iff_exists.mp held
  have ⟨hc, named⟩ := mem_indexByHash (CellMap.mem_of_lookup found)
  exact found.trans (congrArg some (whole.eq_of_mem wf cf hc mem named.symm))

-- An update stores the hashes of its two sides and then their depths.
theorem createUpdate_ok {old new : Cell} (wf : old.WellFormed) (wf' : new.WellFormed)
    (kind : old.cellType = .ordinary) (kind' : new.cellType = .ordinary) :
    ∃ u, createUpdate old new = .ok u ∧ u.cellType = .merkleUpdate ∧ u.refs = [old, new] ∧
      (u.data.drop oldHash).take 32 = old.hash.bytes ∧
      (u.data.drop newHash).take 32 = new.hash.bytes ∧
      (u.data.drop oldDepth).take 2 = depthBytes old.depth ∧
      (u.data.drop newDepth).take 2 = depthBytes new.depth := by
  have pair : CellType.merkleUpdate.expectedRefs = some [old, new].length := rfl
  have ⟨u, ok, _, _, identity, shape⟩ := coveringCell_ok rfl rfl pair
    (by simp [Cell.isExotic, kind, kind']) (by simp [wf, wf'])
  refine ⟨u, ok, by rw [shape], by rw [shape], ?_⟩
  have data : u.data = [0x04] ++ (old.hash.bytes ++ (new.hash.bytes ++
      (depthBytes old.depth ++ depthBytes new.depth))) := by
    rw [shape]
    simp [coveringBody]
  have part (front field rest : Bytes) {n k : Nat} (start : front.length = n)
      (length : field.length = k) (split : u.data = front ++ (field ++ rest)) :
      (u.data.drop n).take k = field := by
    rw [split, List.drop_left' start, List.take_left' length]
  refine ⟨part [0x04] _ _ rfl old.hash.length_eq data,
    part ([0x04] ++ old.hash.bytes) _ (depthBytes old.depth ++ depthBytes new.depth) ?_
      new.hash.length_eq ?_,
    part ([0x04] ++ old.hash.bytes ++ new.hash.bytes) _ (depthBytes new.depth) ?_
      (depthBytes_length _) ?_,
    part ([0x04] ++ old.hash.bytes ++ new.hash.bytes ++ depthBytes old.depth) _ [] ?_
      (depthBytes_length _) ?_⟩
  all_goals simp [data, Hash.length_eq, depthBytes_length, newHash, oldHash, oldDepth, newDepth]

omit [Sha256] in
theorem validateSide_eq_ok {update : Cell} {side hashAt depthAt : Nat} :
    validateSide update side hashAt depthAt = .ok () ↔ ∃ content,
      update.reference side = some content ∧
      (update.data.drop hashAt).take 32 = content.hash.bytes ∧
      (update.data.drop depthAt).take 2 = depthBytes content.depth := by
  simp only [validateSide, okOr_bind_eq_ok, failIf_bind_eq_ok, failIf_eq_ok, ne_eq, not_not,
    Hash.ofBytes?_eq_some, depthOf?_eq_some]
  constructor
  · rintro ⟨content, held, _, hash, rfl, _, depth, rfl⟩
    exact ⟨content, held, hash, depth⟩
  · rintro ⟨content, held, hash, depth⟩
    exact ⟨content, held, _, hash, rfl, _, depth, rfl⟩

omit [Sha256] in
theorem validateUpdate_eq_ok {update : Cell} : validateUpdate update = .ok () ↔
    update.cellType = .merkleUpdate ∧ validateSide update 0 oldHash oldDepth = .ok () ∧
      validateSide update 1 newHash newDepth = .ok () := by
  rw [validateUpdate, failIf_bind_eq_ok, bind_eq_ok, not_not]
  exact and_congr_right fun _ => ⟨fun ⟨_, old, new⟩ => ⟨old, new⟩, fun ⟨old, new⟩ => ⟨(), old, new⟩⟩

-- Over a tree `old` of ordinary cells, an update to `new` may withhold what `old` has already.
theorem createUpdate_applies {old new oldSide newSide : Cell} (wfo : old.WellFormed)
    (wfn : new.WellFormed) (wfs : oldSide.WellFormed) (wfs' : newSide.WellFormed)
    (ordinary : ∀ d ∈ old.subcells, d.cellType = .ordinary)
    (ordinary' : ∀ d ∈ new.subcells, d.cellType = .ordinary)
    (copy : Cell.PrunedTo (fun _ => True) oldSide old)
    (copy' : Cell.PrunedTo (· ∈ old.subcells) newSide new)
    (root : oldSide.cellType = .ordinary) (root' : newSide.cellType = .ordinary)
    (cf : CollisionFree old.hashed) :
    ∃ update, createUpdate oldSide newSide = .ok update ∧ validateUpdate update = .ok () ∧
      applyUpdate old update = .ok new ∧
      ∀ base : Cell, base.hash ≠ old.hash → mayApply base update = .ok none := by
  have whole : old.Whole := fun d hd => .inl (ordinary d hd)
  have whole' : new.Whole := fun d hd => .inl (ordinary' d hd)
  have alike := copy.alike wfs wfo whole
  have alike' := copy'.alike wfs' wfn whole'
  have hash : oldSide.hash = old.hash := alike.hash 0 le_rfl
  have hash' : newSide.hash = new.hash := alike'.hash 0 le_rfl
  have ⟨update, ok, kind, refs, stored, stored', deep, deep'⟩ := createUpdate_ok wfs wfs' root root'
  have first : update.reference 0 = some oldSide := by rw [Cell.reference, refs]; rfl
  have second : update.reference 1 = some newSide := by rw [Cell.reference, refs]; rfl
  refine ⟨update, ok, ?_, applyUpdate_eq_ok.mpr (mayApply_eq_some.mpr ?_), fun base apart => ?_⟩
  · exact validateUpdate_eq_ok.mpr ⟨kind, validateSide_eq_ok.mpr ⟨_, first, stored, deep⟩,
      validateSide_eq_ok.mpr ⟨_, second, stored', deep'⟩⟩
  · refine ⟨kind, hash ▸ stored, newSide, second, ?_, hash' ▸ stored'⟩
    exact graft_copy (fun s => lookup_indexByHash wfo whole cf) copy' wfs' wfn whole'
  · refine mayApply_eq_ok.mpr ⟨kind, oldSide.hash, stored, .inl ⟨fun same => apart ?_, rfl⟩⟩
    rw [← same, hash]

end Copies

section TwoSenders

-- A tree of two cells, and two updates from it to another root over the same child. The second one
-- withholds the child.
def pairBag : Bytes :=
  .be 18 0xb5ee9c720101020100070001021101000255

def wholeUpdateBag : Bytes :=
  .be 44 0xb5ee9c72010104010054000a8a04c74d7781b867b9fbc2d4fbe1b1704b0a352c2914c3ac8cf59b3dcb6688e6 ++
  .be 44 0x190a865f98910c9451c989bb48dc42adbfb2da13ef401abc8d2cc8d3fd25062da29900010001020101022203 ++
  .be 7 0x01021103000255

def prunedUpdateBag : Bytes :=
  .be 44 0xb5ee9c7201010501007a000a8a04c74d7781b867b9fbc2d4fbe1b1704b0a352c2914c3ac8cf59b3dcb6688e6 ++
  .be 44 0x190a865f98910c9451c989bb48dc42adbfb2da13ef401abc8d2cc8d3fd25062da29900010001030121022202 ++
  .be 44 0x28480101f1236692370b9ffebf8acbf3f6dbec7f76462f24a12aa37a412f8f19266faf780000010211040002 ++
  .be 1 0x55

attribute [local instance] Sha256.standard

def sendersRun : Option (Bool × Bool × Bool) := do
  let base ← soleRoot pairBag
  let update ← soleRoot wholeUpdateBag
  let update' ← soleRoot prunedUpdateBag
  let new ← (applyUpdate base update).toOption
  let new' ← (applyUpdate base update').toOption
  return (decide base.Whole,
    (update.data.drop newHash).take 32 = (update'.data.drop newHash).take 32,
    Sha2.distinct [] (new.hashed ++ new'.hashed))

theorem applyUpdate_unique_twoSenders : ∃ base update update' new new',
    soleRoot pairBag = some base ∧ soleRoot wholeUpdateBag = some update ∧
    soleRoot prunedUpdateBag = some update' ∧ applyUpdate base update = .ok new ∧
    applyUpdate base update' = .ok new' ∧ new = new' := by
  have run : sendersRun = some (true, true, true) := by decide +kernel
  simp only [sendersRun, Option.bind_eq_bind, Option.bind_eq_some_iff, toOption_eq_some,
    Option.pure_def, Option.some_inj, Prod.mk.injEq, decide_eq_true_eq] at run
  obtain ⟨base, hb, update, hu, update', hu', new, ok, new', ok', whole, stored, cf⟩ := run
  exact ⟨base, update, update', new, new', hb, hu, hu', ok, ok',
    (applyUpdate_unique (soleRoot_produced hb).wellFormed whole (soleRoot_produced hu).wellFormed
      (soleRoot_produced hu').wellFormed stored ok ok'
      (collisionFree_of_distinct cf)).left⟩

-- A root put over the first tree, which its update withholds altogether.
def growthRun : Option (Bool × Bool × Bool) := do
  let old ← soleRoot pairBag
  let new ← (Builder.new.pushRef old (by decide)).build.toOption
  return (decide (∀ d ∈ old.subcells, d.cellType = .ordinary), Sha2.distinct [] old.hashed,
    decide (old.reprHash ≠ new.reprHash))

theorem createUpdate_applies_growth : ∃ old new newSide update, soleRoot pairBag = some old ∧
    new.refs = [old] ∧ (UsageTree.new new).prune = .ok newSide ∧
    createUpdate old newSide = .ok update ∧ applyUpdate old update = .ok new := by
  have run : growthRun = some (true, true, true) := by decide +kernel
  simp only [growthRun, Option.bind_eq_bind, Option.bind_eq_some_iff, toOption_eq_some,
    Option.pure_def, Option.some_inj, Prod.mk.injEq, decide_eq_true_eq] at run
  obtain ⟨old, parsed, new, built, ordinary, cf, apart⟩ := run
  have wf := (soleRoot_produced parsed).wellFormed
  obtain ⟨_, built', wf', _, _, shape⟩ :=
    (Builder.new.pushRef old (by decide)).build_ok (by simp [Builder.pushRef, wf])
  obtain rfl := Except.ok.inj (built.symm.trans built')
  have refs : new.refs = [old] := by rw [shape]; rfl
  have kind : new.cellType = .ordinary := by rw [shape]
  have inside (d : Cell) (hd : d ∈ new.subcells) : d = new ∨ d ∈ old.subcells := by
    simpa [refs] using Cell.mem_subcells.mp hd
  have keepable : Keepable {new.reprHash} new :=
    .kept (Finset.mem_singleton_self _) kind (by simpa [refs] using .cut (by simpa using apart))
  obtain ⟨newSide, ok, wfs, pruning, _⟩ := pruneCell_ok wf' keepable
  have copy : Cell.PrunedTo (· ∈ old.subcells) newSide new :=
    (pruning.prunedTo fun _ => id).mono fun d gone =>
      (inside d gone.1).resolve_left fun same => gone.2 (same ▸ Finset.mem_singleton_self _)
  have root : newSide.cellType = .ordinary := by
    cases pruning
    case cut out _ _ _ _ _ => exact absurd (Finset.mem_singleton_self _) out
    case kept => assumption
  have ordinary' (d : Cell) (hd : d ∈ new.subcells) : d.cellType = .ordinary :=
    (inside d hd).elim (fun same => same ▸ kind) (ordinary d)
  obtain ⟨update, created, _, applied, _⟩ := createUpdate_applies wf wf' wf wfs ordinary ordinary'
    (.refl _ old) copy (ordinary old old.self_mem_subcells) root (collisionFree_of_distinct cf)
  exact ⟨old, new, newSide, update, parsed, refs, ok, created, applied⟩

end TwoSenders

end TonNet
