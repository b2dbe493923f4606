import TonNet.Cell.Theorems.Alike
import TonNet.Cell.Theorems.Merkle

-- Pruning a tree to its marked cells: when it succeeds, and what it leaves.

namespace TonNet

open Fallible Method

-- A tree whose marked cells, down to the first unmarked one on each path, are all ordinary.
inductive Keepable (keep : Finset Hash) : Cell → Prop
  | cut {c : Cell} (out : c.reprHash ∉ keep) : Keepable keep c
  | kept {c : Cell} (marked : c.reprHash ∈ keep) (kind : c.cellType = .ordinary)
      (refs : ∀ r ∈ c.refs, Keepable keep r) : Keepable keep c

-- What pruning leaves of a tree: kept cells as they were, and a branch for every other child.
inductive Pruning (keep : Finset Hash) : Cell → Cell → Prop
  | cut {c p : Cell} (out : c.reprHash ∉ keep) (kind : p.cellType = .prunedBranch)
      (mask : p.levelMask = prunedAtLevelOne) (leaf : p.refs = []) (hash : p.hash = c.hash)
      (depth : p.depth = c.depth) : Pruning keep c p
  | kept {c p : Cell} (marked : c.reprHash ∈ keep) (kind : c.cellType = .ordinary)
      (kind_eq : p.cellType = .ordinary) (bits : p.bits = c.bits) (data : p.data = c.data)
      (length_eq : p.refs.length = c.refs.length)
      (refs : ∀ i r q, c.reference i = some r → p.reference i = some q → Pruning keep r q) :
      Pruning keep c p

namespace Cell

-- A path down to a cell through marked cells only, both ends included.
def KeptAt (marked : Cell → Prop) (c : Cell) : List Nat → Cell → Prop
  | [], d        => marked c ∧ c = d
  | i :: path, d => marked c ∧ ∃ r, c.reference i = some r ∧ r.KeptAt marked path d

namespace KeptAt

variable {P Q : Cell → Prop} {c d : Cell} {path : List Nat}

theorem marked (h : c.KeptAt P path d) : P c := by
  cases path
  case nil => exact h.left
  case cons => exact h.left

theorem last_marked (h : c.KeptAt P path d) : P d := by
  induction path generalizing c
  case nil => exact h.right ▸ h.left
  case cons i path hi =>
    have ⟨_, r, _, h⟩ := h
    exact hi h

theorem imp (hpq : ∀ d ∈ c.subcells, P d → Q d) (h : c.KeptAt P path d) : c.KeptAt Q path d := by
  induction path generalizing c
  case nil => exact ⟨hpq c (self_mem_subcells c) h.left, h.right⟩
  case cons i path hi =>
    have ⟨hc, r, hr, h⟩ := h
    refine ⟨hpq c (self_mem_subcells c) hc, r, hr, hi (fun d hd => hpq d ?_) h⟩
    exact mem_subcells.mpr (.inr ⟨r, List.mem_of_getElem? hr, hd⟩)

theorem at? (h : c.KeptAt P path d) : c.at? path = some d := by
  induction path generalizing c
  case nil => rw [Cell.at?, h.right]
  case cons i path hi =>
    obtain ⟨_, r, hr, h⟩ := h
    exact Option.bind_eq_some_iff.mpr ⟨r, hr, hi h⟩

end KeptAt

end Cell

variable {keep : Finset Hash} {c p : Cell}

theorem keepable_of_keptAt
    (h : ∀ path d, c.KeptAt (·.reprHash ∈ keep) path d → d.cellType = .ordinary) :
    Keepable keep c := by
  induction c
  case node c hi =>
    by_cases marked : c.reprHash ∈ keep
    case neg => exact .cut marked
    case pos =>
      refine .kept marked (h [] c ⟨marked, rfl⟩) fun r hr => hi r hr fun path d hd => ?_
      have ⟨i, hi⟩ := List.mem_iff_getElem?.mp hr
      exact h (i :: path) d ⟨marked, r, hi, hd⟩

-- A tree cut down to the marked cells its root reaches through marked cells.
structure Skeleton (marked : Cell → Prop) (root p : Cell) : Prop where
  kept : ∀ path c, root.KeptAt marked path c → ∃ q, p.at? path = some q ∧
    q.cellType = .ordinary ∧ q.bits = c.bits ∧ q.data = c.data ∧ q.refs.length = c.refs.length
  cut  : ∀ path c i r, root.KeptAt marked path c → c.reference i = some r → ¬marked r →
    ∃ b, p.at? (path ++ [i]) = some b ∧ b.cellType = .prunedBranch ∧ b.hash = r.hash ∧
      b.depth = r.depth
  only : ∀ path q, p.at? path = some q → (∃ c, root.KeptAt marked path c) ∨
    ∃ front i c r, path = front ++ [i] ∧ root.KeptAt marked front c ∧ c.reference i = some r ∧
      ¬marked r

theorem Skeleton.congr {P Q : Cell → Prop} {root p : Cell}
    (h : ∀ c ∈ root.subcells, P c ↔ Q c) (s : Skeleton P root p) : Skeleton Q root p := by
  have back {path : List Nat} {c : Cell} (hc : root.KeptAt Q path c) : root.KeptAt P path c :=
    hc.imp fun d hd => (h d hd).mpr
  have child {path : List Nat} {i : Nat} {c r : Cell} (hc : root.at? path = some c)
      (hr : c.reference i = some r) : r ∈ root.subcells := by
    refine Cell.mem_subcells_iff_at?.mpr ⟨path ++ [i], ?_⟩
    rw [Cell.at?_append, hc, Option.bind_some, Cell.at?, hr]
    rfl
  constructor
  case kept => exact fun path c hc => s.kept path c (back hc)
  case cut =>
    intro path c i r hc hr out
    exact s.cut path c i r (back hc) hr (mt (h r (child hc.at? hr)).mp out)
  case only =>
    intro path q hq
    cases s.only path q hq
    case inl found =>
      obtain ⟨c, hc⟩ := found
      exact .inl ⟨c, hc.imp fun d hd => (h d hd).mp⟩
    case inr found =>
      obtain ⟨front, i, c, r, hp, hc, hr, out⟩ := found
      refine .inr ⟨front, i, c, r, hp, hc.imp fun d hd => (h d hd).mp, hr, ?_⟩
      exact mt (h r (child hc.at? hr)).mpr out

namespace Pruning

theorem child {i : Nat} {r : Cell} (h : Pruning keep c p) (marked : c.reprHash ∈ keep)
    (hr : c.reference i = some r) : ∃ q, p.reference i = some q ∧ Pruning keep r q := by
  cases h
  case cut out _ _ _ _ _ => exact absurd marked out
  case kept length_eq refs =>
    have hlt := (List.getElem?_eq_some_iff.mp hr).1
    have hq := List.getElem?_eq_getElem (length_eq ▸ hlt)
    exact ⟨_, hq, refs i r _ hr hq⟩

theorem kept_at {path : List Nat} {d : Cell} (h : Pruning keep c p)
    (hk : c.KeptAt (·.reprHash ∈ keep) path d) : ∃ q, p.at? path = some q ∧ Pruning keep d q := by
  induction path generalizing c p
  case nil =>
    obtain ⟨_, rfl⟩ := hk
    exact ⟨p, rfl, h⟩
  case cons i path hi =>
    have ⟨marked, r, hr, hk⟩ := hk
    have ⟨q, hq, h⟩ := h.child marked hr
    have ⟨q', hq', h'⟩ := hi h hk
    exact ⟨q', Option.bind_eq_some_iff.mpr ⟨q, hq, hq'⟩, h'⟩

theorem only_at {path : List Nat} {q : Cell} (h : Pruning keep c p) (marked : c.reprHash ∈ keep)
    (hq : p.at? path = some q) :
    (∃ d, c.KeptAt (·.reprHash ∈ keep) path d) ∨
      ∃ front i d r, path = front ++ [i] ∧ c.KeptAt (·.reprHash ∈ keep) front d ∧
        d.reference i = some r ∧ r.reprHash ∉ keep := by
  induction path generalizing c p
  case nil => exact .inl ⟨c, marked, rfl⟩
  case cons i path hi =>
    have ⟨p', hp', hq⟩ := Option.bind_eq_some_iff.mp hq
    cases h
    case cut out _ _ _ _ _ => exact absurd marked out
    case kept length_eq refs =>
      have hlt := (List.getElem?_eq_some_iff.mp hp').1
      have hr := List.getElem?_eq_getElem (length_eq ▸ hlt)
      have h := refs i _ _ hr hp'
      by_cases inner : (c.refs[i]).reprHash ∈ keep
      case pos =>
        cases hi h inner hq
        case inl found =>
          have ⟨d, hd⟩ := found
          exact .inl ⟨d, marked, _, hr, hd⟩
        case inr found =>
          have ⟨front, j, d, r, hp, hd, hr', out⟩ := found
          exact .inr ⟨i :: front, j, d, r, by rw [hp]; rfl, ⟨marked, _, hr, hd⟩, hr', out⟩
      case neg =>
        cases h
        case kept inside _ _ _ _ _ _ => exact absurd inside inner
        case cut leaf _ _ =>
          cases path
          case nil => exact .inr ⟨[], i, c, _, rfl, ⟨marked, rfl⟩, hr, inner⟩
          case cons j path => simp [Cell.at?, Cell.reference, leaf] at hq

theorem skeleton (h : Pruning keep c p) (marked : c.reprHash ∈ keep) :
    Skeleton (·.reprHash ∈ keep) c p := by
  constructor
  case kept =>
    intro path d hd
    have ⟨q, hq, h⟩ := h.kept_at hd
    cases h
    case cut out _ _ _ _ _ => exact absurd hd.last_marked out
    case kept kind_eq bits data length_eq _ => exact ⟨q, hq, kind_eq, bits, data, length_eq⟩
  case cut =>
    intro path d i r hd hr out
    have ⟨q, hq, h⟩ := h.kept_at hd
    have ⟨b, hb, h⟩ := h.child hd.last_marked hr
    have here : p.at? (path ++ [i]) = some b := by
      rw [Cell.at?_append, hq, Option.bind_some, Cell.at?, hb]
      rfl
    cases h
    case kept inside _ _ _ _ _ _ => exact absurd inside out
    case cut kind _ _ hash depth => exact ⟨b, here, kind, hash, depth⟩
  case only => exact fun path q => h.only_at marked

end Pruning

-- What a search that marks its way leaves behind: no mark is lost, it finds the target exactly when
-- the searched cells hold it, and then the way to it is marked.
structure Traced (target : Hash) (searched : List Cell) (used : Finset Hash)
    (result : Bool × Finset Hash) : Prop where
  grows : used ⊆ result.2
  found : result.1 = true ↔ ∃ c ∈ searched, ∃ d ∈ c.subcells, d.reprHash = target
  way   : result.1 = true → ∃ (i : Nat) (c : Cell) (path : List Nat) (d : Cell),
    searched[i]? = some c ∧ c.KeptAt (·.reprHash ∈ result.2) path d ∧ d.reprHash = target

theorem markPathTo_eq (target : Hash) (c : Cell) (used : Finset Hash) :
    markPathTo target c used =
      if c.reprHash = target then (true, insert target used)
      else
        match markPathIn target c.refs used with
        | (true, used)  => (true, insert c.reprHash used)
        | (false, used) => (false, used) := by
  cases c
  exact markPathTo.eq_1 ..

theorem markPathIn_traced {target : Hash} {l : List Cell}
    (hl : ∀ c ∈ l, ∀ used, Traced target [c] used (markPathTo target c used)) (used : Finset Hash) :
    Traced target l used (markPathIn target l used) := by
  induction l generalizing used
  case nil =>
    rw [markPathIn]
    exact ⟨Finset.Subset.refl _, by simp, by simp⟩
  case cons c l hi =>
    have here := hl c List.mem_cons_self used
    rw [markPathIn]
    rcases hm : markPathTo target c used with ⟨_ | _, used₁⟩
    case false =>
      rw [hm] at here
      have rest := hi (fun c hc => hl c (List.mem_cons_of_mem _ hc)) used₁
      have absent : ¬∃ d ∈ c.subcells, d.reprHash = target := by
        have := here.found
        simpa using this
      constructor
      case grows => exact here.grows.trans rest.grows
      case found =>
        rw [rest.found]
        simp only [List.exists_mem_cons_iff, absent, false_or]
      case way =>
        intro h
        have ⟨i, x, path, d, hx, hd⟩ := rest.way h
        exact ⟨i + 1, x, path, d, hx, hd⟩
    case true =>
      rw [hm] at here
      have ⟨x, hx, d, hd⟩ := here.found.mp rfl
      have ⟨i, y, path, e, hy, he⟩ := here.way rfl
      constructor
      case grows => exact here.grows
      case found =>
        refine iff_of_true rfl ⟨c, List.mem_cons_self, d, ?_⟩
        exact List.mem_singleton.mp hx ▸ hd
      case way =>
        intro _
        have := List.mem_singleton.mp (List.mem_of_getElem? hy)
        exact ⟨0, c, path, e, rfl, this ▸ he⟩

theorem markPathTo_traced (target : Hash) (c : Cell) :
    ∀ used, Traced target [c] used (markPathTo target c used) := by
  induction c
  case node c hi =>
    intro used
    rw [markPathTo_eq]
    by_cases own : c.reprHash = target
    case pos =>
      rw [if_pos own]
      constructor
      case grows => exact Finset.subset_insert ..
      case found =>
        refine iff_of_true rfl ⟨c, List.mem_cons_self, c, Cell.self_mem_subcells c, own⟩
      case way =>
        exact fun _ => ⟨0, c, [], c, rfl, ⟨own ▸ Finset.mem_insert_self .., rfl⟩, own⟩
    case neg =>
      rw [if_neg own]
      have below := markPathIn_traced hi used
      rcases hm : markPathIn target c.refs used with ⟨_ | _, used₁⟩ <;> rw [hm] at below
      case false =>
        constructor
        case grows => exact below.grows
        case found =>
          have := below.found
          simp only [Bool.false_eq_true, false_iff] at this ⊢
          rintro ⟨x, hx, d, hd, ht⟩
          obtain rfl := List.mem_singleton.mp hx
          cases Cell.mem_subcells.mp hd
          case inl e => exact own (e ▸ ht)
          case inr e =>
            have ⟨r, hr, hd⟩ := e
            exact this ⟨r, hr, d, hd, ht⟩
        case way => nofun
      case true =>
        have grown : used₁ ⊆ insert c.reprHash used₁ := Finset.subset_insert ..
        have ⟨r, hr, d, hd, ht⟩ := below.found.mp rfl
        have ⟨i, x, path, e, hx, he, et⟩ := below.way rfl
        constructor
        case grows => exact below.grows.trans grown
        case found =>
          refine iff_of_true rfl ⟨c, List.mem_cons_self, d, ?_, ht⟩
          exact Cell.mem_subcells.mpr (.inr ⟨r, hr, hd⟩)
        case way =>
          intro _
          refine ⟨0, c, i :: path, e, rfl, ⟨Finset.mem_insert_self .., x, hx, ?_⟩, et⟩
          exact he.imp fun d _ hd => grown hd

namespace UsageTree

-- A tree with its root and further cells marked.
def marking (root : Cell) (marks : List Cell) : UsageTree :=
  marks.foldl mark (new root)

theorem mem_used_foldl_mark {tree : UsageTree} {marks : List Cell} {h : Hash} :
    h ∈ (marks.foldl mark tree).used ↔ h ∈ tree.used ∨ ∃ m ∈ marks, m.reprHash = h := by
  induction marks generalizing tree
  case nil => simp
  case cons m marks hi =>
    rw [List.foldl_cons, hi, mark, Finset.mem_insert, List.exists_mem_cons_iff, eq_comm]
    exact or_assoc.trans or_left_comm

theorem root_foldl_mark (tree : UsageTree) (marks : List Cell) :
    (marks.foldl mark tree).root = tree.root := by
  induction marks generalizing tree
  case nil => rfl
  case cons m marks hi => exact hi (tree.mark m)

theorem mem_used_marking {root : Cell} {marks : List Cell} {h : Hash} :
    h ∈ (marking root marks).used ↔ ∃ m ∈ root :: marks, m.reprHash = h := by
  rw [marking, mem_used_foldl_mark, List.exists_mem_cons_iff, new, Finset.mem_singleton, eq_comm]

end UsageTree

variable [Sha256]

theorem pruneCell_eq (keep : Finset Hash) (c : Cell) :
    pruneCell keep c =
      if c.reprHash ∉ keep then prunedBranch c
      else (do
        failIf c.isExotic (.malformed "a proof skeleton keeps only ordinary cells")
        let (_, builder) ←
          (do Builder.storeBitsOf c; pruneRefs keep c.refs : Store Unit).call .new
        builder.build) := by
  cases c
  rw [pruneCell]

-- A builder that copied a cell's bits builds that cell over its own references.
theorem Builder.rebuild_ok {b : Builder} (h : c.Sound)
    (hb : b.toBits = (List.range c.bits).map c.data.bitAt) (hr : ∀ r ∈ b.refs, r.WellFormed) :
    ∃ p, b.build = .ok p ∧ p.WellFormed ∧
      ∃ identity, p = ⟨c.data, c.bits, b.refs, .ordinary, identity⟩ := by
  have ⟨p, hp, wf, _, identity, shape⟩ := b.build_ok hr
  have bits : b.bits = c.bits := by
    have := congrArg List.length hb
    simpa using this
  have data : b.closed = c.data := by
    refine (bits ▸ b.closed_tagged).ext h.tagged fun i hi => ?_
    rw [b.bitAt_closed (by omega)]
    rw [toBits, bits] at hb
    exact List.map_inj_left.mp hb i (List.mem_range.mpr hi)
  exact ⟨p, hp, wf, identity, by rw [shape, data, bits]⟩

-- The loop over the children stores what each of them is pruned to.
theorem pruneRefs_ends {R : Cell → Cell → Prop} {b : Builder} (l : List Cell)
    (hl : ∀ r ∈ l, ∃ q, pruneCell keep r = .ok q ∧ R r q)
    (h : b.refs.length + l.length ≤ maxRefs) :
    ∃ b' qs, (pruneRefs keep l).Ends b () b' ∧ b'.refs = b.refs ++ qs ∧ List.Forall₂ R l qs ∧
      b'.toBits = b.toBits := by
  induction l generalizing b
  case nil => exact ⟨b, [], by simp [pruneRefs], by simp, .nil, rfl⟩
  case cons r l hi =>
    simp only [List.length_cons] at h
    have ⟨q, hq, hR⟩ := hl r List.mem_cons_self
    have hlt : b.refs.length < maxRefs := by omega
    have ⟨b', qs, he, refs, hqs, bits⟩ := hi (b := b.pushRef q hlt)
      (fun r hr => hl r (List.mem_cons_of_mem _ hr)) (by simp [Builder.pushRef]; omega)
    refine ⟨b', q :: qs, ?_, ?_, .cons hR hqs, bits⟩
    · rw [pruneRefs]
      simp only [ends_bind, ends_ofExcept]
      exact ⟨q, b, ⟨hq, rfl⟩, (), _, Builder.storeRef_ends q hlt, he⟩
    · rw [refs, Builder.pushRef, List.append_assoc]
      rfl

theorem pruneRefs_ok {l : List Cell} {b b' : Builder} (h : (pruneRefs keep l).Ends b () b') :
    ∀ r ∈ l, ∃ q, pruneCell keep r = .ok q := by
  induction l generalizing b
  case nil => exact fun _ hr => absurd hr List.not_mem_nil
  case cons r l hi =>
    rw [pruneRefs] at h
    simp only [ends_bind, ends_ofExcept] at h
    obtain ⟨q, _, ⟨hq, _⟩, _, _, _, rest⟩ := h
    exact List.forall_mem_cons.mpr ⟨⟨q, hq⟩, hi rest⟩

theorem keepable_of_pruneCell (h : pruneCell keep c = .ok p) : Keepable keep c := by
  induction c generalizing p
  case node c hi =>
    rw [pruneCell_eq] at h
    split at h
    case isTrue out => exact .cut out
    case isFalse marked =>
      rw [failIf_bind_eq_ok, bind_eq_ok] at h
      obtain ⟨ordinary, ⟨_, b⟩, run, _⟩ := h
      obtain ⟨_, _, _, rest⟩ := ends_bind.mp (call_eq_ok.mp run)
      refine .kept (not_not.mp marked) (by simpa [Cell.isExotic] using ordinary) fun r hr => ?_
      obtain ⟨q, hq⟩ := pruneRefs_ok rest r hr
      exact hi r hr hq

theorem prunedBranch_spec (c : Cell) :
    ∃ p, prunedBranch c = .ok p ∧ p.WellFormed ∧ p.cellType = .prunedBranch ∧
      p.levelMask = prunedAtLevelOne ∧ p.refs = [] ∧ c.Alike p 0 := by
  have ⟨p, hp, wf, mask, identity, shape⟩ := prunedBranch_ok c
  have kind : p.cellType = .prunedBranch := by rw [shape]
  have data : p.data = branchBody c := by rw [shape]
  have ⟨hash, depth⟩ : p.hashAt 0 = c.hash ∧ p.depthAt 0 = c.depth :=
    wf.sound.answers_of_storedBody kind (by simp [mask]) data (by simp)
  refine ⟨p, hp, wf, kind, mask, by rw [shape], by simp, ?_, ?_⟩
  · exact fun l hl => Nat.le_zero.mp hl ▸ hash.symm
  · exact fun l hl => Nat.le_zero.mp hl ▸ depth.symm

-- The hash a proof reproduces survives, because a parent sees no difference below it.
theorem pruneCell_ok (h : c.WellFormed) (hk : Keepable keep c) :
    ∃ p, pruneCell keep c = .ok p ∧ p.WellFormed ∧ Pruning keep c p ∧ c.Alike p 0 := by
  induction c
  case node c hi =>
    rw [pruneCell_eq]
    cases hk
    case cut out =>
      have ⟨p, hp, wf, kind, mask, leaf, alike⟩ := prunedBranch_spec c
      refine ⟨p, by rw [if_pos out, hp], wf, ?_, alike⟩
      exact .cut out kind mask leaf (alike.hash 0 le_rfl).symm (alike.depth 0 le_rfl).symm
    case kept marked kind refs =>
      have ⟨b₁, h₁, a₁⟩ := Builder.storeBitsOf_ends (b := .new) c (by simpa using h.sound.bits_le)
      have room : b₁.refs.length + c.refs.length ≤ maxRefs := by
        rw [a₁.refs]
        simpa using h.sound.refs_le
      have ⟨b₂, qs, h₂, refs₂, hqs, bits₂⟩ := pruneRefs_ends (b := b₁) c.refs
        (fun r hr => hi r hr (h.refs r hr) (refs r hr)) room
      rw [a₁.refs] at refs₂
      obtain rfl : b₂.refs = qs := refs₂
      have wfs : ∀ q ∈ b₂.refs, q.WellFormed := by
        intro q hq
        have ⟨i, hi⟩ := List.mem_iff_getElem?.mp hq
        have ⟨r, _, wf, _⟩ := hqs.exists_left hi
        exact wf
      have ⟨p, hp, wf, identity, shape⟩ := Builder.rebuild_ok h.sound
        (bits₂.trans (by rw [a₁.toBits]; rfl)) wfs
      have covers : c.Over p 0 := by
        refine ⟨by rw [shape, kind], by rw [shape], by rw [shape], ?_⟩
        rw [shape, kind]
        exact hqs.imp fun _ _ q => q.right.right
      refine ⟨p, ?_, wf, ?_, covers.alike h wf (by simp [kind])⟩
      · rw [if_neg (not_not.mpr marked), failIf_bind_eq_ok, bind_eq_ok]
        refine ⟨by simp [Cell.isExotic, kind], ((), b₂), call_eq_ok.mpr ?_, hp⟩
        exact ends_bind.mpr ⟨(), b₁, h₁, h₂⟩
      · refine .kept marked kind (by rw [shape]) (by rw [shape]) (by rw [shape]) ?_ ?_
        · rw [shape, hqs.length_eq]
        · intro i r q hr hq
          rw [shape] at hq
          exact (hqs.at_index hr hq).right.left

end TonNet
