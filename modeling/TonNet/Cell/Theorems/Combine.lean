import TonNet.Cell.Theorems.Update

-- Two updates as one: where splicing what each of them reveals carries the whole change, and where
-- it does not.

namespace TonNet

open Fallible Method

section Copies

variable [Sha256] {allowed : Cell → Prop} {c d copy full : Cell} {strings : List Bytes}

theorem Cell.WellFormed.subcells_exotic (wf : c.WellFormed) (leaf : c.cellType.expectedRefs = some 0)
    (h : d ∈ c.subcells) : d = c := by
  obtain rfl | ⟨r, hr, _⟩ := mem_subcells.mp h
  · rfl
  · simp [wf.sound.refs_eq_nil leaf] at hr

-- A cell of a copy is a copy of a cell of the tree.
theorem Cell.PrunedTo.subcell (p : PrunedTo allowed copy full) (wf : copy.WellFormed)
    (h : d ∈ copy.subcells) : ∃ s ∈ full.subcells, PrunedTo allowed d s := by
  induction copy generalizing full
  case node copy hi =>
    obtain rfl | ⟨r, hr, h⟩ := mem_subcells.mp h
    · exact ⟨full, full.self_mem_subcells, p⟩
    · cases p
      case cut kind _ _ _ => simp [wf.sound.refs_eq_nil (by rw [kind]; rfl)] at hr
      case kept cellType bits data refs =>
        have ⟨r', hr', related⟩ := refs.flip.exists_mem hr
        have ⟨s, hs, copied⟩ := hi r hr related (wf.refs r hr) h
        exact ⟨s, mem_subcells.mpr (.inr ⟨r', hr', hs⟩), copied⟩

-- A cell that answers at level zero as a whole tree does is a copy of it. Only at the root is the
-- depth not part of a hash that is compared.
theorem Cell.prunedTo_of_hash_eq (cf : CollisionFree strings) (wf : c.WellFormed)
    (wf' : full.WellFormed) (whole : full.Whole) (hs : c.hashed ⊆ strings)
    (hs' : full.hashed ⊆ strings) (hash : c.hash = full.hash)
    (depth : c.cellType = .prunedBranch → c.depth = full.depth) :
    PrunedTo (fun _ => True) c full := by
  induction c generalizing full
  case node c hi =>
    by_cases kind : c.cellType = .prunedBranch
    case pos => exact .cut kind hash (depth kind) trivial
    case neg =>
      have ⟨kind', rest⟩ := whole_iff.mp whole
      have shown' : full.RevealedAt 0 := fun pruned => by simp [pruned] at kind'
      have m := matches_of_hashAt_eq cf wf wf' hs hs' (fun pruned => absurd pruned kind) shown' hash
      have shift : c.cellType.childLevelShift = 0 := by
        rw [m.cellType]
        obtain kind' | kind' := kind' <;> rw [kind'] <;> rfl
      refine .kept m.cellType m.bits m.data (m.refs.imp_mem fun r hr r' hr' ⟨hash, depth⟩ => ?_)
      rw [shift] at hash depth
      exact hi r hr (wf.refs r hr) (wf'.refs r' hr') (rest r' hr')
        (fun _ h => hs (hashed_subset_of_mem hr h)) (fun _ h => hs' (hashed_subset_of_mem hr' h))
        hash fun _ => depth

-- What a graft put in the place of a branch is an entry of the base.
theorem prunedTo_of_graft {base : CellMap} (wf : copy.WellFormed) (wf' : full.WellFormed)
    (whole : full.Whole) (p : Cell.PrunedTo (fun _ => True) copy full)
    (held : ∀ e ∈ base, e.2.WellFormed) (ok : graft base copy = .ok full) :
    Cell.PrunedTo (fun s => (s.hash, s) ∈ base) copy full := by
  induction copy generalizing full
  case node copy hi =>
    cases p
    case cut _ kind hash depth =>
      rw [graft, exchange_eq, if_neg (by simp [kind]), graftExotic, kind] at ok
      have mem := CellMap.mem_of_lookup (okOr_eq_ok.mp ok)
      exact .cut kind hash depth (hash ▸ mem)
    case kept cellType bits data refs =>
      obtain ⟨kind, rest⟩ := Cell.whole_iff.mp whole
      obtain kind | kind := kind
      · have r := rebuilt_of_exchange (graftExotic_wellFormed held) wf (cellType.trans kind) ok
        refine .kept cellType bits data
          (List.forall₂_iff_get.mpr ⟨refs.length_eq, fun i lt lt' => ?_⟩)
        have hr := List.get_mem copy.refs ⟨i, lt⟩
        have hr' := List.get_mem full.refs ⟨i, lt'⟩
        exact hi _ hr (wf.refs _ hr) (wf'.refs _ hr') (rest _ hr')
          ((List.forall₂_iff_get.mp refs).right i lt lt')
          ((List.forall₂_iff_get.mp r.refs).right i lt lt')
      · have leaf : copy.refs = [] := wf.sound.refs_eq_nil (by rw [cellType, kind]; rfl)
        have leaf' : full.refs = [] := wf'.sound.refs_eq_nil (by rw [kind]; rfl)
        refine .kept cellType bits data ?_
        rw [leaf, leaf']
        exact .nil

end Copies

section Splice

theorem mem_revealedCells {side : Cell} {entry : Hash × Cell} (h : entry ∈ revealedCells side []) :
    entry.2 ∈ side.subcells ∧ entry.2.cellType = .ordinary ∧ entry.1 = entry.2.hash := by
  obtain old | ⟨d, hd, shown, rfl⟩ := mem_collect renews_last entry h
  · cases old
  · exact ⟨hd, of_decide_eq_true shown, rfl⟩

variable [Sha256] {revealed : CellMap} {allowed : Cell → Prop} {c d p copy full : Cell}

-- What stands in the place of a pruned branch after splicing.
def CellMap.spliced (revealed : CellMap) (branch : Cell) : Cell :=
  (revealed.lookup branch.hash).getD branch

theorem spliceRevealed_pruned (kind : c.cellType = .prunedBranch) :
    spliceRevealed revealed c = .ok (revealed.spliced c) := by
  rw [spliceRevealed, exchange_eq, if_neg (by simp [kind]), spliceExotic, kind]
  rfl

theorem spliceExotic_wellFormed (held : ∀ e ∈ revealed, e.2.WellFormed) (c p : Cell)
    (h : c.WellFormed) (ok : spliceExotic revealed c = .ok p) : p.WellFormed := by
  rw [spliceExotic] at ok
  split at ok
  case h_1 =>
    obtain rfl := pure_eq_ok.mp ok
    cases found : revealed.lookup c.hash
    case none => exact h
    case some x => exact held _ (CellMap.mem_of_lookup found)
  case h_2 => cases ok

theorem pruned_of_splice (exotic : c.cellType ≠ .ordinary)
    (ok : spliceRevealed revealed c = .ok p) : c.cellType = .prunedBranch := by
  rw [spliceRevealed, exchange_eq, if_neg exotic, spliceExotic] at ok
  split at ok
  case h_1 pruned => exact pruned
  case h_2 => cases ok

-- Splicing a copy, when what stands in the place of each branch is a copy of what it stood for.
theorem splice_copy (wf : copy.WellFormed) (wf' : full.WellFormed) (whole : full.Whole)
    (shown : ∀ d ∈ copy.subcells, d.cellType ≠ .libraryReference)
    (swap : ∀ d ∈ copy.subcells, ∀ s ∈ full.subcells, d.cellType = .prunedBranch →
      d.hash = s.hash → d.depth = s.depth →
      (revealed.spliced d).WellFormed ∧ Cell.PrunedTo allowed (revealed.spliced d) s)
    (p : Cell.PrunedTo (fun _ => True) copy full) :
    ∃ q, spliceRevealed revealed copy = .ok q ∧ q.WellFormed ∧ Cell.PrunedTo allowed q full := by
  induction copy generalizing full
  case node copy hi =>
    cases p
    case cut _ kind hash depth =>
      exact ⟨_, spliceRevealed_pruned kind, swap copy copy.self_mem_subcells full
        full.self_mem_subcells kind hash depth⟩
    case kept cellType bits data refs =>
      have ⟨kind, rest⟩ := Cell.whole_iff.mp whole
      rw [← cellType] at kind
      replace kind := kind.resolve_right (shown copy copy.self_mem_subcells)
      have each := refs.imp_mem fun r hr r' hr' related =>
        hi r hr (wf.refs r hr) (wf'.refs r' hr') (rest r' hr')
          (fun d hd => shown d (Cell.mem_subcells.mpr (.inr ⟨r, hr, hd⟩)))
          (fun d hd s hs => swap d (Cell.mem_subcells.mpr (.inr ⟨r, hr, hd⟩)) s
            (Cell.mem_subcells.mpr (.inr ⟨r', hr', hs⟩))) related
      have ⟨qs, all, copies⟩ := each.exists_between
      have ⟨q, ok, wfq, _, shape⟩ := exchange_rebuild wf.sound kind all fun q hq => by
        have ⟨_, _, wf, _⟩ := copies.flip.exists_mem hq
        exact wf
      refine ⟨q, ok, wfq, ?_⟩
      subst shape
      exact .kept (kind.symm.trans cellType) bits data (copies.imp fun _ _ h => h.right)

-- Splicing stops at a library reference.
theorem shown_of_splice (wf : c.WellFormed) (held : ∀ e ∈ revealed, e.2.WellFormed)
    (ok : spliceRevealed revealed c = .ok p) : ∀ d ∈ c.subcells, d.cellType ≠ .libraryReference := by
  induction c generalizing p
  case node c hi =>
    intro d hd
    by_cases kind : c.cellType = .ordinary
    case pos =>
      obtain rfl | ⟨r, hr, hd⟩ := Cell.mem_subcells.mp hd
      · simp [kind]
      · have b := rebuilt_of_exchange (spliceExotic_wellFormed held) wf kind ok
        have ⟨q, _, here⟩ := b.refs.flip.exists_mem hr
        exact hi r hr (wf.refs r hr) here d hd
    case neg =>
      have pruned := pruned_of_splice kind ok
      simp [wf.subcells_exotic (by rw [pruned]; rfl) hd, pruned]

-- A branch that is not revealed stays.
theorem mem_of_splice (wf : c.WellFormed) (held : ∀ e ∈ revealed, e.2.WellFormed)
    (ok : spliceRevealed revealed c = .ok p) (hd : d ∈ c.subcells)
    (pruned : d.cellType = .prunedBranch) (hidden : revealed.lookup d.hash = none) :
    d ∈ p.subcells := by
  induction c generalizing p
  case node c hi =>
    by_cases kind : c.cellType = .ordinary
    case pos =>
      obtain rfl | ⟨r, hr, hd⟩ := Cell.mem_subcells.mp hd
      · simp [pruned] at kind
      · have b := rebuilt_of_exchange (spliceExotic_wellFormed held) wf kind ok
        have ⟨q, hq, here⟩ := b.refs.flip.exists_mem hr
        exact Cell.mem_subcells.mpr (.inr ⟨q, hq, hi r hr (wf.refs r hr) here hd⟩)
    case neg =>
      obtain rfl := wf.subcells_exotic (by rw [pruned_of_splice kind ok]; rfl) hd
      rw [spliceRevealed_pruned pruned, CellMap.spliced, hidden] at ok
      cases ok
      exact Cell.self_mem_subcells _

-- Grafting needs the base to hold every branch there is.
theorem holds_of_graft {base : CellMap} (wf : c.WellFormed) (held : ∀ e ∈ base, e.2.WellFormed)
    (ok : graft base c = .ok p) (hd : d ∈ c.subcells) (pruned : d.cellType = .prunedBranch) :
    ∃ s, (d.hash, s) ∈ base := by
  induction c generalizing p
  case node c hi =>
    by_cases kind : c.cellType = .ordinary
    case pos =>
      obtain rfl | ⟨r, hr, hd⟩ := Cell.mem_subcells.mp hd
      · simp [pruned] at kind
      · have b := rebuilt_of_exchange (graftExotic_wellFormed held) wf kind ok
        have ⟨q, _, here⟩ := b.refs.flip.exists_mem hr
        exact hi r hr (wf.refs r hr) here hd
    case neg =>
      rw [graft, exchange_eq, if_neg kind, graftExotic] at ok
      split at ok
      case h_1 same =>
        obtain rfl := wf.subcells_exotic (by rw [same]; rfl) hd
        exact ⟨p, CellMap.mem_of_lookup (okOr_eq_ok.mp ok)⟩
      case h_2 library =>
        obtain rfl := wf.subcells_exotic (by rw [library]; rfl) hd
        simp [pruned] at library
      case h_3 => cases ok

-- The root of a spliced side.
theorem splice_root (ordinary : ∀ e ∈ revealed, e.2.cellType = .ordinary ∧ e.2.WellFormed)
    (wf : c.WellFormed) (ok : spliceRevealed revealed c = .ok p) :
    p.cellType = .ordinary ↔ c.cellType = .ordinary ∨ revealed.holds c.hash = true := by
  by_cases kind : c.cellType = .ordinary
  case pos =>
    have b := rebuilt_of_exchange (spliceExotic_wellFormed fun e he => (ordinary e he).right) wf kind ok
    exact iff_of_true b.kind (.inl kind)
  case neg =>
    rw [spliceRevealed_pruned (pruned_of_splice kind ok), CellMap.spliced] at ok
    cases ok
    rw [CellMap.holds, or_iff_right kind]
    cases found : revealed.lookup c.hash
    case none => simpa using kind
    case some x => simpa using (ordinary _ (CellMap.mem_of_lookup found)).left

-- A cell of the tree between two updates is revealed by the first one, or the base has it already.
theorem revealed_or_held {base mid side s : Cell} (wf : side.WellFormed) (wf' : mid.WellFormed)
    (whole : mid.Whole) (cf : CollisionFree mid.hashed)
    (copy : Cell.PrunedTo (· ∈ base.subcells) side mid) (hs : s ∈ mid.subcells)
    (kind : s.cellType = .ordinary) :
    (revealedCells side []).holds s.hash = true ∨ s ∈ base.subcells := by
  have done : Collected (fun c => decide (c.cellType = .ordinary)) side [] [] [side]
      (revealedCells side []) :=
    collected renews_last (fun _ => id) nofun
  -- A cell that a copy shows is looked at, one it does not show is the base's, and a library
  -- reference has no cells below it.
  have found {r r' : Cell} (wfr : r.WellFormed) (hr' : r' ∈ mid.subcells)
      (related : Cell.PrunedTo (· ∈ base.subcells) r r') (hs : s ∈ r'.subcells)
      (held : r.cellType = .ordinary → (revealedCells side []).holds r.hash = true) :
      (revealedCells side []).holds r'.hash = true ∨ r' ∈ base.subcells := by
    have hash : r.hash = r'.hash :=
      (related.alike wfr (wf'.subcells r' hr') (whole.subcell hr')).hash 0 le_rfl
    cases related
    case cut _ may _ _ => exact .inr may
    case kept cellType _ _ _ =>
      obtain shown | library := whole r' hr'
      · exact .inl (hash ▸ held (cellType.trans shown))
      · have leaf := (wf'.subcells r' hr').subcells_exotic (by rw [library]; rfl) hs
        simp [leaf, library] at kind
  have main {t : Cell} (ht : t ∈ mid.subcells) (hs : s ∈ t.subcells)
      (found' : (revealedCells side []).holds t.hash = true ∨ t ∈ base.subcells) :
      (revealedCells side []).holds s.hash = true ∨ s ∈ base.subcells := by
    induction t
    case node t hi =>
      obtain found' | old := found'
      case inr => exact .inr (Cell.subcells_trans old hs)
      obtain rfl | ⟨r', hr', hs⟩ := Cell.mem_subcells.mp hs
      · exact .inl found'
      obtain none | ⟨x, hx, named, shown, refs⟩ := done.covers t.hash found'
      · cases none
      have ⟨t', ht', copied⟩ := copy.subcell wf hx
      have wfx := wf.subcells x hx
      have hash := (copied.alike wfx (wf'.subcells t' ht') (whole.subcell ht')).hash 0 le_rfl
      obtain rfl := whole.eq_of_mem wf' cf ht ht' (named.symm.trans hash)
      cases copied
      case cut kind _ _ _ => simp [kind] at shown
      case kept refs' =>
        have ⟨r, hr, related⟩ := refs'.exists_mem hr'
        have inside := Cell.subcells_trans ht
          (Cell.mem_subcells.mpr (.inr ⟨r', hr', r'.self_mem_subcells⟩))
        exact hi r' hr' inside hs (found (wfx.refs r hr) inside related hs fun shown =>
          refs r hr (decide_eq_true shown))
  exact main mid.self_mem_subcells hs (found wf mid.self_mem_subcells copy hs fun shown =>
    done.held side (by simp) (decide_eq_true shown))

end Splice

section Combine

variable [Sha256] {base mid new first second side other full : Cell} {allowed : Cell → Prop}
  {strings : List Bytes}

-- A side that the other update completes: no library reference is shown in it, and its root is shown
-- by one of the two.
structure Joins (revealed : CellMap) (side : Cell) : Prop where
  shown : ∀ d ∈ side.subcells, d.cellType ≠ .libraryReference
  root  : side.cellType = .ordinary ∨ revealed.holds side.hash = true

instance (revealed : CellMap) (side : Cell) : Decidable (Joins revealed side) :=
  decidable_of_iff (_ ∧ _) ⟨fun ⟨shown, root⟩ => ⟨shown, root⟩, fun h => ⟨h.shown, h.root⟩⟩

-- What it takes for two updates to combine: the sides join, and the library references between the
-- two that the second one withholds are in the base.
structure Combinable (base mid first second : Cell) : Prop where
  old  : ∀ side ∈ first.reference 0, ∀ other ∈ second.reference 0,
    Joins (revealedCells other []) side
  new  : ∀ side ∈ second.reference 1, ∀ other ∈ first.reference 1,
    Joins (revealedCells other []) side
  held : ∀ side ∈ second.reference 1, ∀ d ∈ side.subcells, d.cellType = .prunedBranch →
    ∀ s ∈ mid.subcells, s.cellType = .libraryReference → s.hash = d.hash → s ∈ base.subcells

-- An update that applied and stands for its sides: these are copies of the two trees.
structure Transition (base mid update old side : Cell) : Prop where
  first  : update.reference 0 = some old
  second : update.reference 1 = some side
  start  : old.hash = base.hash
  result : side.hash = mid.hash
  grafts : graft (indexByHash base []) side = .ok mid

theorem transition (valid : validateUpdate first = .ok ()) (ok : applyUpdate base first = .ok mid) :
    ∃ old side, Transition base mid first old side := by
  have ⟨_, left, right⟩ := validateUpdate_eq_ok.mp valid
  have ⟨old, held, hash, _⟩ := validateSide_eq_ok.mp left
  have ⟨side, held', hash', _⟩ := validateSide_eq_ok.mp right
  have ⟨_, stored, _, again, grafts, stored'⟩ := mayApply_eq_some.mp (applyUpdate_eq_ok.mp ok)
  obtain rfl := Option.some_inj.mp (held'.symm.trans again)
  exact ⟨old, side, held, held', Hash.ext (hash.symm.trans stored),
    Hash.ext (hash'.symm.trans stored'), grafts⟩

-- What one update reveals of the tree in the middle is a copy of what has that hash in any tree.
theorem revealed_copy {x s : Cell} (cf : CollisionFree strings) (wf : other.WellFormed)
    (wf' : mid.WellFormed) (whole : mid.Whole) (hs' : mid.hashed ⊆ strings)
    (copy : other.cellType ≠ .prunedBranch → Cell.PrunedTo allowed other mid)
    (found : (revealedCells other []).lookup s.hash = some x) (wfs : s.WellFormed)
    (wholes : s.Whole) (hs : s.hashed ⊆ strings) :
    s.cellType = .ordinary ∧ Cell.PrunedTo allowed x s := by
  have ⟨hx, kind, named⟩ := mem_revealedCells (CellMap.mem_of_lookup found)
  have shown : other.cellType ≠ .prunedBranch := fun pruned => by
    have := wf.subcells_exotic (by rw [pruned]; rfl) hx
    simp_all
  have ⟨t, ht, copied⟩ := (copy shown).subcell wf hx
  have wfx := wf.subcells x hx
  have wft := wf'.subcells t ht
  have hash : x.hash = t.hash := (copied.alike wfx wft (whole.subcell ht)).hash 0 le_rfl
  obtain rfl : t = s := (whole.subcell ht).eq_of_hash_eq cf wholes wft wfs
    (fun _ h => hs' (Cell.hashed_subset_of_mem_subcells ht h)) hs (hash.symm.trans named.symm)
  refine ⟨?_, copied⟩
  cases copied
  case cut pruned _ _ _ => exact absurd (kind.symm.trans pruned) (by simp)
  case kept cellType _ _ _ => exact cellType.symm.trans kind

-- A side that joins is spliced to a copy of its tree.
theorem splice_side {revealed : CellMap} (cf : CollisionFree strings) (wf : side.WellFormed)
    (wf' : full.WellFormed) (whole : full.Whole) (hs : side.hashed ⊆ strings)
    (hs' : full.hashed ⊆ strings) (hash : side.hash = full.hash) (joins : Joins revealed side)
    (ordinary : ∀ e ∈ revealed, e.2.cellType = .ordinary ∧ e.2.WellFormed)
    (found : ∀ s ∈ full.subcells, ∀ x, revealed.lookup s.hash = some x →
      Cell.PrunedTo allowed x s)
    (stays : ∀ d ∈ side.subcells, ∀ s ∈ full.subcells, d.cellType = .prunedBranch →
      d.hash = s.hash → revealed.lookup s.hash = none → allowed s) :
    ∃ q, spliceRevealed revealed side = .ok q ∧ q.WellFormed ∧ q.cellType = .ordinary ∧
      Cell.PrunedTo allowed q full := by
  by_cases kind : side.cellType = .prunedBranch
  case pos =>
    have held := joins.root.resolve_left (by simp [kind])
    have ⟨x, found'⟩ := Option.isSome_iff_exists.mp held
    have ⟨shown, wfx⟩ := ordinary _ (CellMap.mem_of_lookup found')
    refine ⟨x, ?_, wfx, shown, found full full.self_mem_subcells x (hash ▸ found')⟩
    rw [spliceRevealed_pruned kind, CellMap.spliced, found']
    rfl
  case neg =>
    have copy := Cell.prunedTo_of_hash_eq cf wf wf' whole hs hs' hash (absurd · kind)
    have swap (d : Cell) (hd : d ∈ side.subcells) (s : Cell) (hs : s ∈ full.subcells)
        (pruned : d.cellType = .prunedBranch) (same : d.hash = s.hash) (depth : d.depth = s.depth) :
        (revealed.spliced d).WellFormed ∧ Cell.PrunedTo allowed (revealed.spliced d) s := by
      rw [CellMap.spliced, same]
      cases hidden : revealed.lookup s.hash
      case some x => exact ⟨(ordinary _ (CellMap.mem_of_lookup hidden)).right, found s hs x hidden⟩
      case none =>
        exact ⟨wf.subcells d hd, .cut pruned same depth (stays d hd s hs pruned same hidden)⟩
    have ⟨q, ok, wfq, copied⟩ := splice_copy wf wf' whole joins.shown swap copy
    exact ⟨q, ok, wfq, (splice_root ordinary wf ok).mpr joins.root, copied⟩

theorem combineUpdates_eq_ok {u old side old' side' : Cell} (valid : validateUpdate first = .ok ())
    (valid' : validateUpdate second = .ok ()) (t : Transition base mid first old side)
    (t' : Transition mid new second old' side') :
    combineUpdates first second = .ok u ↔ ∃ oldSide newSide,
      spliceRevealed (revealedCells old' []) old = .ok oldSide ∧
      spliceRevealed (revealedCells side []) side' = .ok newSide ∧
      createUpdate oldSide newSide = .ok u := by
  have chain : side.hash = old'.hash := t.result.trans t'.start.symm
  rw [combineUpdates, valid, ok_bind, valid', ok_bind, t.first, t.second, t'.first, t'.second]
  simp only [okOr, pure_bind]
  rw [failIf_bind_of_not (not_not.mpr chain)]
  simp only [bind_eq_ok]
  constructor
  · rintro ⟨o, spliced, n, spliced', created⟩
    exact ⟨o, n, spliced, spliced', created⟩
  · rintro ⟨o, n, spliced, spliced', created⟩
    exact ⟨o, spliced, n, spliced', created⟩

-- A covering cell refuses an exotic side.
theorem ordinary_of_createUpdate {old new u : Cell} (ok : createUpdate old new = .ok u) :
    old.cellType = .ordinary ∧ new.cellType = .ordinary := by
  rw [createUpdate, coveringCell] at ok
  simp only [okOr, CellType.tag, pure_bind, List.forM, bind_assoc] at ok
  obtain ⟨shown, ok⟩ := failIf_bind_eq_ok.mp ok
  obtain ⟨shown', _⟩ := failIf_bind_eq_ok.mp ok
  simpa [Cell.isExotic] using And.intro shown shown'

-- Two updates that apply in turn, with the strings hashed for all the cells among some that do not
-- collide.
structure InTurn (strings : List Bytes) (base mid new old side old' side' : Cell) : Prop where
  cf    : CollisionFree strings
  wf    : ∀ c ∈ [base, mid, new, old, side, old', side'], c.WellFormed
  whole : ∀ c ∈ [base, mid, new], c.Whole
  hs    : ∀ c ∈ [base, mid, new, old, side, old', side'], c.hashed ⊆ strings

namespace InTurn

variable {old side old' side' c d : Cell}
  (h : InTurn strings base mid new old side old' side')

theorem entries (wf : other.WellFormed) : ∀ e ∈ revealedCells other [],
    e.2.cellType = .ordinary ∧ e.2.WellFormed := fun _ he =>
  have ⟨mem, kind, _⟩ := mem_revealedCells he
  ⟨kind, wf.subcells _ mem⟩

theorem indexed (wf : base.WellFormed) : ∀ e ∈ indexByHash base [], e.2.WellFormed := fun _ he =>
  wf.subcells _ (mem_indexByHash he).left

include h

-- Cells of the three trees are told apart by their hashes.
theorem eq_of_hash_eq {t t' s s' : Cell} (ht : t ∈ [base, mid, new]) (ht' : t' ∈ [base, mid, new])
    (hs : s ∈ t.subcells) (hs' : s' ∈ t'.subcells) (same : s.hash = s'.hash) : s = s' := by
  have all {t : Cell} (ht : t ∈ [base, mid, new]) : t ∈ [base, mid, new, old, side, old', side'] := by
    simp only [List.mem_cons, List.not_mem_nil] at ht ⊢
    tauto
  have sub {t s : Cell} (ht : t ∈ [base, mid, new]) (hs : s ∈ t.subcells) : s.hashed ⊆ strings :=
    fun _ hx => h.hs t (all ht) (Cell.hashed_subset_of_mem_subcells hs hx)
  exact ((h.whole t ht).subcell hs).eq_of_hash_eq h.cf ((h.whole t' ht').subcell hs')
    ((h.wf t (all ht)).subcells s hs) ((h.wf t' (all ht')).subcells s' hs') (sub ht hs) (sub ht' hs')
    same

-- The new side of the first update withholds only what the base has.
theorem side_copy (t : Transition base mid first old side) (shown : side.cellType ≠ .prunedBranch) :
    Cell.PrunedTo (· ∈ base.subcells) side mid := by
  have copy := Cell.prunedTo_of_hash_eq h.cf (h.wf side (by simp)) (h.wf mid (by simp))
    (h.whole mid (by simp)) (h.hs side (by simp)) (h.hs mid (by simp)) t.result (absurd · shown)
  have grafted := prunedTo_of_graft (h.wf side (by simp)) (h.wf mid (by simp))
    (h.whole mid (by simp)) copy (indexed (h.wf base (by simp))) t.grafts
  exact grafted.mono fun s mem => (mem_indexByHash mem).left

theorem old_copy (t' : Transition mid new second old' side')
    (shown : old'.cellType ≠ .prunedBranch) : Cell.PrunedTo (fun _ => True) old' mid :=
  Cell.prunedTo_of_hash_eq h.cf (h.wf old' (by simp)) (h.wf mid (by simp)) (h.whole mid (by simp))
    (h.hs old' (by simp)) (h.hs mid (by simp)) t'.start (absurd · shown)

-- Splicing gave a side each, and a library reference between the two that the second one withholds
-- is still withheld by the new side.
theorem combinable {u : Cell} (t : Transition base mid first old side)
    (t' : Transition mid new second old' side') {oldSide newSide : Cell}
    (spliced : spliceRevealed (revealedCells old' []) old = .ok oldSide)
    (spliced' : spliceRevealed (revealedCells side []) side' = .ok newSide)
    (created : createUpdate oldSide newSide = .ok u) (applied : applyUpdate base u = .ok new) :
    Combinable base mid first second := by
  obtain ⟨kind, kind'⟩ := ordinary_of_createUpdate created
  obtain ⟨wfo, wfs, wfo', wfs'⟩ : old.WellFormed ∧ side.WellFormed ∧ old'.WellFormed ∧
      side'.WellFormed := ⟨h.wf _ (by simp), h.wf _ (by simp), h.wf _ (by simp), h.wf _ (by simp)⟩
  have shown := fun e he => (entries wfo' e he).right
  have shown' := fun e he => (entries wfs e he).right
  refine ⟨?_, ?_, ?_⟩
  · intro x hx y hy
    obtain rfl := Option.some_inj.mp (t.first.symm.trans hx)
    obtain rfl := Option.some_inj.mp (t'.first.symm.trans hy)
    exact ⟨shown_of_splice wfo shown spliced, (splice_root (entries wfo') wfo spliced).mp kind⟩
  · intro x hx y hy
    obtain rfl := Option.some_inj.mp (t'.second.symm.trans hx)
    obtain rfl := Option.some_inj.mp (t.second.symm.trans hy)
    exact ⟨shown_of_splice wfs' shown' spliced', (splice_root (entries wfs) wfs' spliced').mp kind'⟩
  · intro x hx d hd pruned s hs library same
    obtain rfl := Option.some_inj.mp (t'.second.symm.trans hx)
    have hidden : (revealedCells side []).lookup d.hash = none := by
      cases found : (revealedCells side []).lookup d.hash
      case none => rfl
      case some x =>
        obtain ⟨ordinary, _⟩ := revealed_copy h.cf wfs (h.wf mid (by simp)) (h.whole mid (by simp))
          (h.hs mid (by simp)) (h.side_copy t) (same ▸ found) ((h.wf mid (by simp)).subcells s hs)
          ((h.whole mid (by simp)).subcell hs)
          fun _ hx => h.hs mid (by simp) (Cell.hashed_subset_of_mem_subcells hs hx)
        exact absurd (ordinary.symm.trans library) (by simp)
    have stays := mem_of_splice wfs' shown' spliced' hd pruned hidden
    have wfn := exchange_wellFormed (spliceExotic_wellFormed shown') wfs' spliced'
    have wfold := exchange_wellFormed (spliceExotic_wellFormed shown) wfo spliced
    obtain ⟨_, again, _, refs, _⟩ := createUpdate_ok wfold wfn kind kind'
    obtain rfl := Except.ok.inj (created.symm.trans again)
    obtain ⟨_, _, _, here, grafts, _⟩ := mayApply_eq_some.mp (applyUpdate_eq_ok.mp applied)
    obtain rfl : newSide = _ := by simpa [Cell.reference, refs] using here
    obtain ⟨s', mem⟩ := holds_of_graft wfn (indexed (h.wf base (by simp))) grafts stays pruned
    obtain ⟨inside, named⟩ := mem_indexByHash mem
    exact h.eq_of_hash_eq (by simp) (by simp) hs inside (same.trans named) ▸ inside

-- What the second new side withholds and the first does not show, the base has.
theorem stays (t : Transition base mid first old side) (t' : Transition mid new second old' side')
    (c : Combinable base mid first second) {s : Cell} (hd : d ∈ side'.subcells)
    (hs : s ∈ new.subcells) (pruned : d.cellType = .prunedBranch) (same : d.hash = s.hash)
    (hidden : (revealedCells side []).lookup s.hash = none) : s ∈ base.subcells := by
  have ⟨s', mem⟩ := holds_of_graft (h.wf side' (by simp)) (indexed (h.wf mid (by simp))) t'.grafts hd
    pruned
  have ⟨inside, named⟩ := mem_indexByHash mem
  obtain rfl : s' = s := h.eq_of_hash_eq (by simp) (by simp) inside hs (named.symm.trans same)
  obtain ordinary | library := h.whole mid (by simp) s' inside
  case inr => exact c.held side' t'.second d hd pruned s' inside library same.symm
  by_cases shown : side.cellType = .prunedBranch
  case pos =>
    -- The first update changes nothing: the tree in the middle is a cell of the base.
    have grafts := t.grafts
    rw [graft, exchange_eq, if_neg (by simp [shown]), graftExotic, shown] at grafts
    have held := (mem_indexByHash (CellMap.mem_of_lookup (okOr_eq_ok.mp grafts))).left
    exact Cell.subcells_trans held inside
  case neg =>
    have found := revealed_or_held (h.wf side (by simp)) (h.wf mid (by simp)) (h.whole mid (by simp))
      (h.cf.subset (h.hs mid (by simp))) (h.side_copy t shown) inside ordinary
    exact found.resolve_left (by simp [CellMap.holds, hidden])

theorem combines (t : Transition base mid first old side)
    (t' : Transition mid new second old' side') (c : Combinable base mid first second) :
    ∃ oldSide newSide u, spliceRevealed (revealedCells old' []) old = .ok oldSide ∧
      spliceRevealed (revealedCells side []) side' = .ok newSide ∧
      createUpdate oldSide newSide = .ok u ∧ applyUpdate base u = .ok new := by
  have ⟨wfb, wfm, wfn⟩ : base.WellFormed ∧ mid.WellFormed ∧ new.WellFormed :=
    ⟨h.wf _ (by simp), h.wf _ (by simp), h.wf _ (by simp)⟩
  have ⟨whole, wholem, wholen⟩ : base.Whole ∧ mid.Whole ∧ new.Whole :=
    ⟨h.whole _ (by simp), h.whole _ (by simp), h.whole _ (by simp)⟩
  have below {t s : Cell} (ht : t ∈ [base, mid, new, old, side, old', side'])
      (hs : s ∈ t.subcells) : s.hashed ⊆ strings := fun _ hx =>
    h.hs t ht (Cell.hashed_subset_of_mem_subcells hs hx)
  have ⟨oldSide, spliced, wfo, kind, copy⟩ := splice_side h.cf (h.wf old (by simp)) wfb whole
    (h.hs old (by simp)) (h.hs base (by simp)) t.start (c.old old t.first old' t'.first)
    (entries (h.wf old' (by simp)))
    (fun s hs x found => (revealed_copy h.cf (h.wf old' (by simp)) wfm wholem (h.hs mid (by simp))
      (h.old_copy t') found (wfb.subcells s hs) (whole.subcell hs) (below (by simp) hs)).right)
    (fun _ _ _ _ _ _ _ => trivial)
  have ⟨newSide, spliced', wfs, kind', copy'⟩ := splice_side h.cf (h.wf side' (by simp)) wfn wholen
    (h.hs side' (by simp)) (h.hs new (by simp)) t'.result (c.new side' t'.second side t.second)
    (entries (h.wf side (by simp)))
    (fun s hs x found => (revealed_copy h.cf (h.wf side (by simp)) wfm wholem (h.hs mid (by simp))
      (h.side_copy t) found (wfn.subcells s hs) (wholen.subcell hs) (below (by simp) hs)).right)
    (fun d hd s hs pruned same hidden => h.stays t t' c hd hs pruned same hidden)
  have ⟨u, created, type, refs, stored, stored', _⟩ := createUpdate_ok wfo wfs kind kind'
  refine ⟨oldSide, newSide, u, spliced, spliced', created, applyUpdate_eq_ok.mpr ?_⟩
  have same : oldSide.hash = base.hash := (copy.alike wfo wfb whole).hash 0 le_rfl
  have same' : newSide.hash = new.hash := (copy'.alike wfs wfn wholen).hash 0 le_rfl
  have held : ∀ s ∈ base.subcells, (indexByHash base []).lookup s.hash = some s := fun s hs =>
    lookup_indexByHash wfb whole (h.cf.subset (h.hs base (by simp))) hs
  exact mayApply_eq_some.mpr ⟨type, same ▸ stored, newSide, by simp [Cell.reference, refs],
    graft_copy held copy' wfs wfn wholen, same' ▸ stored'⟩

end InTurn

-- The update of both applies wherever the two do in turn, to the same tree, exactly when they can be
-- joined.
theorem combineUpdates_applies (wf : base.WellFormed) (whole : base.Whole) (wfu : first.WellFormed)
    (wfu' : second.WellFormed) (valid : validateUpdate first = .ok ())
    (valid' : validateUpdate second = .ok ()) (ok : applyUpdate base first = .ok mid)
    (ok' : applyUpdate mid second = .ok new)
    (cf : CollisionFree ([base, mid, new, first, second].flatMap Cell.hashed)) :
    (∃ update, combineUpdates first second = .ok update ∧ applyUpdate base update = .ok new) ↔
      Combinable base mid first second := by
  have ⟨old, side, t⟩ := transition valid ok
  have ⟨old', side', t'⟩ := transition valid' ok'
  have ⟨wfm, wholem⟩ := applyUpdate_whole wf whole wfu ok
  have ⟨wfn, wholen⟩ := applyUpdate_whole wfm wholem wfu' ok'
  have within {c : Cell} (h : c ∈ [base, mid, new, first, second]) :
      c.hashed ⊆ [base, mid, new, first, second].flatMap Cell.hashed := fun _ hx =>
    List.mem_flatMap.mpr ⟨c, h, hx⟩
  have below {c d : Cell} {i : Nat} (h : c ∈ [base, mid, new, first, second])
      (hd : c.reference i = some d) : d.hashed ⊆ [base, mid, new, first, second].flatMap Cell.hashed :=
    List.Subset.trans (Cell.hashed_subset_of_mem (List.mem_of_getElem? hd)) (within h)
  have inTurn : InTurn _ base mid new old side old' side' := {
    cf
    wf    := by
      simp only [List.forall_mem_cons]
      exact ⟨wf, wfm, wfn, wfu.refs _ (List.mem_of_getElem? t.first),
        wfu.refs _ (List.mem_of_getElem? t.second), wfu'.refs _ (List.mem_of_getElem? t'.first),
        wfu'.refs _ (List.mem_of_getElem? t'.second), nofun⟩
    whole := by
      simp only [List.forall_mem_cons]
      exact ⟨whole, wholem, wholen, nofun⟩
    hs    := by
      simp only [List.forall_mem_cons]
      exact ⟨within (by simp), within (by simp), within (by simp), below (by simp) t.first,
        below (by simp) t.second, below (by simp) t'.first, below (by simp) t'.second, nofun⟩
  }
  constructor
  case mp =>
    intro ⟨u, combined, applied⟩
    have ⟨_, _, spliced, spliced', created⟩ := (combineUpdates_eq_ok valid valid' t t').mp combined
    exact inTurn.combinable t t' spliced spliced' created applied
  case mpr =>
    intro c
    have ⟨oldSide, newSide, u, spliced, spliced', created, applied⟩ := inTurn.combines t t' c
    exact ⟨u, (combineUpdates_eq_ok valid valid' t t').mpr
      ⟨oldSide, newSide, spliced, spliced', created⟩, applied⟩

end Combine

section Linking

-- A cell, an update of it to a root over a library reference, and two updates from there: to another
-- root over the same reference and to one without it.
def seedBag : Bytes :=
  .be 14 0xb5ee9c7201010101000300000211

def linkingBag : Bytes :=
  .be 44 0xb5ee9c72010104010073000a8a041ac97f19d66d5555108388ac4ec24629e50d22fa054ef83c87600c4e57a9 ++
  .be 44 0x90205748947f75c9de7cad799364272ab9c4f5bd7ecc8a0b74a496a819ef1554c33000000001030101022202 ++
  .be 38 0x0842020102030405060708090a0b0c0d0e0f101112131415161718191a1b1c1d1e1f20000211

def keepingBag : Bytes :=
  .be 44 0xb5ee9c72010104010074000a8a045748947f75c9de7cad799364272ab9c4f5bd7ecc8a0b74a496a819ef1554 ++
  .be 44 0xc33067bb2316912ac2fc74da0a2fe107f2e08c3361c87a7f02f9f129a62fa2ad9ff600010001020101023303 ++
  .be 39 0x010222030842020102030405060708090a0b0c0d0e0f101112131415161718191a1b1c1d1e1f20

def droppingBag : Bytes :=
  .be 44 0xb5ee9c72010104010073000a8a045748947f75c9de7cad799364272ab9c4f5bd7ecc8a0b74a496a819ef1554 ++
  .be 44 0xc3301923ba32a23e9017904bc83aeb0c678370b887763f6f38ffd4d7c6360c0121ad00010000020100024401 ++
  .be 38 0x0222030842020102030405060708090a0b0c0d0e0f101112131415161718191a1b1c1d1e1f20

attribute [local instance] Sha256.standard

-- The hypotheses above, whether each side joins, that the last side withholds nothing, and what
-- combining says.
def linkingRun (bag : Bytes) : Option (Bool × Bool × Bool × Bool × Except CellError Bool) := do
  let base ← soleRoot seedBag
  let first ← soleRoot linkingBag
  let second ← soleRoot bag
  let mid ← (applyUpdate base first).toOption
  let new ← (applyUpdate mid second).toOption
  return (decide base.Whole, decide (validateUpdate first = .ok ()),
    decide (validateUpdate second = .ok ()),
    Sha2.distinct [] ([base, mid, new, first, second].flatMap Cell.hashed),
    (combineUpdates first second).map fun _ => decide (
      (∀ side ∈ first.reference 0, ∀ other ∈ second.reference 0,
        Joins (revealedCells other []) side) ∧
      (∀ side ∈ second.reference 1, ∀ other ∈ first.reference 1,
        Joins (revealedCells other []) side) ∧
      ∀ side ∈ second.reference 1, ∀ d ∈ side.subcells, d.cellType ≠ .prunedBranch))

theorem combineUpdates_applies_dropping : ∃ base first second mid new update,
    soleRoot seedBag = some base ∧ soleRoot linkingBag = some first ∧
    soleRoot droppingBag = some second ∧ applyUpdate base first = .ok mid ∧
    applyUpdate mid second = .ok new ∧ combineUpdates first second = .ok update ∧
    applyUpdate base update = .ok new := by
  have run : linkingRun droppingBag = some (true, true, true, true, .ok true) := by decide +kernel
  simp only [linkingRun, Option.bind_eq_bind, Option.bind_eq_some_iff, toOption_eq_some,
    Option.pure_def, Option.some_inj, Prod.mk.injEq, decide_eq_true_eq] at run
  obtain ⟨base, hb, first, hf, second, hs, mid, ok, new, ok', whole, valid, valid', cf, joined⟩ := run
  have ⟨_, _, joins⟩ := map_eq_ok.mp joined
  have ⟨old, side, shown⟩ := of_decide_eq_true joins
  have ⟨update, combined, applied⟩ := (combineUpdates_applies (soleRoot_produced hb).wellFormed whole
    (soleRoot_produced hf).wellFormed (soleRoot_produced hs).wellFormed valid valid' ok ok'
    (collisionFree_of_distinct cf)).mpr
    ⟨old, side, fun side here d hd pruned => absurd pruned (shown side here d hd)⟩
  exact ⟨base, first, second, mid, new, update, hb, hf, hs, ok, ok', combined, applied⟩

-- With the reference kept the two updates still apply in turn, and do not combine.
theorem combineUpdates_refuses_keeping : ∃ base first second mid new,
    soleRoot seedBag = some base ∧ soleRoot linkingBag = some first ∧
    soleRoot keepingBag = some second ∧ base.Whole ∧ validateUpdate first = .ok () ∧
    validateUpdate second = .ok () ∧ applyUpdate base first = .ok mid ∧
    applyUpdate mid second = .ok new ∧
    CollisionFree ([base, mid, new, first, second].flatMap Cell.hashed) ∧
    combineUpdates first second = .error
      (.malformed "combining a merkle update over an unexpected exotic cell") := by
  have run : linkingRun keepingBag = some (true, true, true, true, .error
      (.malformed "combining a merkle update over an unexpected exotic cell")) := by decide +kernel
  simp only [linkingRun, Option.bind_eq_bind, Option.bind_eq_some_iff, toOption_eq_some,
    Option.pure_def, Option.some_inj, Prod.mk.injEq, decide_eq_true_eq] at run
  obtain ⟨base, hb, first, hf, second, hs, mid, ok, new, ok', whole, valid, valid', cf, failed⟩ := run
  refine ⟨base, first, second, mid, new, hb, hf, hs, whole, valid, valid', ok, ok', collisionFree_of_distinct cf, ?_⟩
  cases combined : combineUpdates first second
  case ok => simp [combined, Except.map] at failed
  case error e => simpa [combined, Except.map] using failed

end Linking

end TonNet
