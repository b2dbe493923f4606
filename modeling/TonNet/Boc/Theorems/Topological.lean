import TonNet.Boc.Serialize
import TonNet.Cell.Theorems.Produced
import Mathlib.Data.Set.Card

-- The order a bag stores its cells in: each of them once, and before the cells it references.

namespace TonNet

open Fallible

namespace Cell

-- How many references the longest path down from a cell follows.
mutual
def height : Cell → Nat
  | ⟨_, _, refs, _, _⟩ => heightOf refs
def heightOf : List Cell → Nat
  | []         => 0
  | c :: cells => max (c.height + 1) (heightOf cells)
end

theorem heightOf_le {cells : List Cell} {n : Nat} : heightOf cells ≤ n ↔ ∀ c ∈ cells, c.height < n := by
  induction cells
  case nil => simp [heightOf]
  case cons hi => simp [heightOf, hi]

theorem height_le {c : Cell} {n : Nat} : c.height ≤ n ↔ ∀ r ∈ c.refs, r.height < n := by
  cases c
  exact heightOf_le

-- The cells under a list of roots, themselves among them.
def Under (roots : List Cell) (c : Cell) : Prop :=
  ∃ root ∈ roots, c ∈ root.subcells

-- How many different cells there are under a list of roots.
noncomputable def distinct (roots : List Cell) : Nat :=
  {c | Under roots c}.ncard

variable {roots : List Cell} {c r : Cell}

theorem Under.ref (h : Under roots c) (mem : r ∈ c.refs) : Under roots r := by
  have ⟨root, hroot, path⟩ := h
  have ⟨front, hp⟩ := mem_subcells_iff_at?.mp path
  have ⟨i, hi⟩ := List.mem_iff_getElem?.mp mem
  refine ⟨root, hroot, mem_subcells_iff_at?.mpr ⟨front ++ [i], ?_⟩⟩
  simp [at?_append, hp, at?, reference, hi]

theorem Under.height_le {n : Nat} (u : Under roots c)
    (shallow : ∀ root ∈ roots, root.height ≤ n) : c.height ≤ n := by
  have ⟨root, mem, path⟩ := u
  have le := shallow root mem
  clear u mem shallow
  induction root
  case node root hi =>
    cases mem_subcells.mp path
    case inl e => exact e ▸ le
    case inr path =>
      have ⟨r, hr, path⟩ := path
      exact hi r hr path (Cell.height_le.mp le r hr).le

theorem under_iff_mem : Under roots c ↔ c ∈ roots.flatMap subcells := by
  simp [Under]

-- A list that has the roots and the references of all that it has has everything under the roots.
theorem Under.mem {cells : List Cell} (h : Under roots c) (rooted : roots ⊆ cells)
    (closed : ∀ c ∈ cells, c.refs ⊆ cells) : c ∈ cells := by
  have ⟨root, hroot, path⟩ := h
  have mem := rooted hroot
  clear h hroot rooted
  induction root
  case node root hi =>
    cases mem_subcells.mp path
    case inl e => exact e ▸ mem
    case inr path =>
      have ⟨r, hr, path⟩ := path
      exact hi r hr path (closed root mem hr)

open Classical in
theorem distinct_eq {cells : List Cell} (once : cells.Nodup) (all : ∀ c, c ∈ cells ↔ Under roots c) :
    distinct roots = cells.length := by
  have : {c | Under roots c} = ↑cells.toFinset := by
    ext c
    simp [all]
  rw [distinct, this, Set.ncard_coe_finset, List.toFinset_card_of_nodup once]

open Classical in
theorem distinct_le {cells : List Cell} (all : ∀ c, Under roots c → c ∈ cells) :
    distinct roots ≤ cells.length := by
  have sub : {c | Under roots c} ⊆ ↑cells.toFinset := fun c h => by simpa using all c h
  calc distinct roots ≤ (↑cells.toFinset : Set Cell).ncard :=
        Set.ncard_le_ncard sub (Finset.finite_toSet _)
    _ = cells.toFinset.card := Set.ncard_coe_finset _
    _ ≤ cells.length := cells.toFinset_card_le

end Cell

section

variable [Sha256] {roots : List Cell} {order : List Cell}

-- Roots whose cells can be told apart by their hashes.
structure Told (roots : List Cell) : Prop where
  wellFormed : ∀ root ∈ roots, root.WellFormed
  free       : CollisionFree (roots.flatMap Cell.hashed)

namespace Told

variable (t : Told roots) {c c' : Cell}

include t

theorem under (h : Cell.Under roots c) : c.WellFormed ∧ c.hashed ⊆ roots.flatMap Cell.hashed := by
  have ⟨root, mem, path⟩ := h
  refine ⟨(t.wellFormed root mem).subcells c path, fun s hs => ?_⟩
  exact List.mem_flatMap.mpr ⟨root, mem, Cell.hashed_subset_of_mem_subcells path hs⟩

theorem inj (h : Cell.Under roots c) (h' : Cell.Under roots c') (same : c.reprHash = c'.reprHash) :
    c = c' :=
  Cell.eq_of_reprHash_eq t.free (t.under h).1 (t.under h').1 (t.under h).2 (t.under h').2 same

theorem keyed : PostOrder.Keyed Cell.refs Cell.reprHash (fun c => c.subcells.length) (Cell.Under roots) where
  inj    := fun _ _ h h' => t.inj h h'
  closed := fun _ h _ mem => h.ref mem
  weight := by
    intro c
    rw [Cell.subcells_eq, List.length_cons, List.length_flatMap]
    omega

end Told

-- The order of a bag: every cell under the roots once, and before the cells it references.
structure Ordered (roots order : List Cell) : Prop where
  once  : order.Nodup
  all   : ∀ c, c ∈ order ↔ Cell.Under roots c
  later : ∀ i c, order[i]? = some c → ∀ r ∈ c.refs, ∃ j, order[j]? = some r ∧ i < j ∧ j < order.length

theorem Told.ordered (t : Told roots) {passes : Nat}
    (enough : (roots.map fun root => 2 * root.subcells.length).sum ≤ passes) :
    Ordered roots
      (PostOrder.run Cell.refs Cell.reprHash passes (roots.map .visit) ∅ []).reverse := by
  have o := t.keyed.sorts (fun root mem => ⟨root, mem, root.self_mem_subcells⟩) enough
  generalize PostOrder.run Cell.refs Cell.reprHash passes (roots.map .visit) ∅ [] = emitted at o
  constructor
  case once => exact List.nodup_reverse.mpr o.once
  case all =>
    intro c
    rw [List.mem_reverse]
    exact ⟨o.within c, fun h => h.mem o.roots fun _ => o.closed⟩
  case later =>
    intro i c here r hr
    have ⟨j, there, lt⟩ := o.listed.later here hr
    exact ⟨j, there, lt, (List.getElem?_eq_some_iff.mp there).1⟩

omit [Sha256] in
theorem Ordered.index_unique (o : Ordered roots order) {i j : Nat} {c : Cell}
    (hi : order[i]? = some c) (hj : order[j]? = some c) : i = j :=
  have ⟨lt, _⟩ := List.getElem?_eq_some_iff.mp hi
  (List.getElem?_inj lt o.once).mp (hi.trans hj.symm)

theorem Ordered.indexOf_eq (o : Ordered roots order) (t : Told roots) {i : Nat} {c : Cell}
    (here : order[i]? = some c) : indexOf order c.reprHash = some i := by
  have mem : (c, i) ∈ order.zipIdx.reverse := by
    rw [List.mem_reverse, List.mem_zipIdx_iff_getElem?]
    exact here
  obtain ⟨⟨c', j⟩, found⟩ : ∃ hit, order.zipIdx.reverse.find? (fun hit =>
      hit.1.reprHash = c.reprHash) = some hit := by
    rw [← Option.isSome_iff_exists, List.find?_isSome]
    exact ⟨(c, i), mem, by simp⟩
  have same : c'.reprHash = c.reprHash := by simpa using List.find?_some found
  have there : order[j]? = some c' := by
    have := List.mem_of_find?_eq_some found
    rwa [List.mem_reverse, List.mem_zipIdx_iff_getElem?] at this
  obtain rfl := t.inj ((o.all c').mp (List.mem_of_getElem? there))
    ((o.all c).mp (List.mem_of_getElem? here)) same
  exact (congrArg (Option.map Prod.snd) found).trans (congrArg some (o.index_unique there here))

-- The positions of a list of cells that the order has.
theorem Ordered.positions (o : Ordered roots order) (t : Told roots) (cells : List Cell)
    (sub : cells ⊆ order) (e : CellError) : ∃ indices,
      (cells.mapM fun c => (okOr (indexOf order c.reprHash) e : Except CellError Nat)) = .ok indices ∧
      List.Forall₂ (fun c j => order[j]? = some c) cells indices := by
  have each (c : Cell) (mem : c ∈ cells) :
      ∃ j, indexOf order c.reprHash = some j ∧ order[j]? = some c := by
    have ⟨j, here⟩ := List.getElem?_of_mem (sub mem)
    exact ⟨j, o.indexOf_eq t here, here⟩
  have ⟨indices, run⟩ := mapM_ok fun c mem =>
    have ⟨j, found, _⟩ := each c mem
    ⟨j, (okOr_eq_ok (ε := CellError) (e := e)).mpr found⟩
  refine ⟨indices, run, (forall₂_of_mapM_eq_ok run).imp_mem fun c mem j _ found => ?_⟩
  have ⟨j', found', here⟩ := each c mem
  obtain rfl := Option.some_inj.mp ((okOr_eq_ok.mp found).symm.trans found')
  exact here

theorem Told.topological_ok (t : Told roots) :
    ∃ order children, topological roots = .ok (order, children) ∧ Ordered roots order ∧
      List.Forall₂ (fun c refs => List.Forall₂ (fun r j => order[j]? = some r) c.refs refs)
        order children := by
  have o := t.ordered le_rfl
  simp only [topological]
  generalize (PostOrder.run Cell.refs Cell.reprHash _ (roots.map .visit) ∅ []).reverse = order at o ⊢
  have each (c : Cell) (mem : c ∈ order) := o.positions t c.refs
    (fun r hr => (o.all r).mpr (((o.all c).mp mem).ref hr)) (.malformed "a reference was not reachable")
  obtain ⟨children, run⟩ := mapM_ok fun c mem => (each c mem).imp fun _ => And.left
  refine ⟨order, children, by rw [run]; rfl, o,
    (forall₂_of_mapM_eq_ok run).imp_mem fun c mem refs _ found => ?_⟩
  obtain ⟨refs', found', all⟩ := each c mem
  obtain rfl := Except.ok.inj (found.symm.trans found')
  exact all

-- A reference of a cell stands behind it, wherever it stands.
omit [Sha256] in
theorem Ordered.before (o : Ordered roots order) {i j : Nat} {c r : Cell} (here : order[i]? = some c)
    (mem : r ∈ c.refs) (there : order[j]? = some r) : i < j := by
  have ⟨k, there', lt, _⟩ := o.later i c here r mem
  exact o.index_unique there there' ▸ lt

theorem topological_sorts (produced : ∀ root ∈ roots, Produced root)
    (free : CollisionFree (roots.flatMap Cell.hashed)) :
    ∃ order children, topological roots = .ok (order, children) ∧
      (∀ c ∈ order, Cell.Under roots c) ∧
      (∀ c, Cell.Under roots c → ∃! i : Nat, order[i]?.map Cell.reprHash = some c.reprHash) ∧
      (∀ (i j : Nat) (c : Cell), order[i]? = some c → ∀ r ∈ c.refs, order[j]?.map Cell.reprHash = some r.reprHash → i < j) ∧
      children.length = order.length ∧
      ∀ (i : Nat) (c : Cell) (indices : List Nat), order[i]? = some c → children[i]? = some indices →
        List.Forall₂ (fun r j => order[j]? = some r ∧ i < j) c.refs indices := by
  have told : Told roots := ⟨fun root mem => (produced root mem).wellFormed, free⟩
  have ⟨order, children, sorted, o, named⟩ := told.topological_ok
  -- a place that holds the hash of a cell under the roots holds the cell
  have held {i : Nat} {c : Cell} (under : Cell.Under roots c)
      (same : order[i]?.map Cell.reprHash = some c.reprHash) : order[i]? = some c := by
    have ⟨c', here, hash⟩ := Option.map_eq_some_iff.mp same
    rw [here, told.inj ((o.all c').mp (List.mem_of_getElem? here)) under hash]
  refine ⟨order, children, sorted, fun c => (o.all c).mp, fun c under => ?_, ?_, named.length_eq.symm, ?_⟩
  · have ⟨i, here⟩ := List.getElem?_of_mem ((o.all c).mpr under)
    refine ⟨i, by dsimp only; rw [here]; rfl, fun j there => ?_⟩
    exact o.index_unique (held under there) here
  · intro i j c here r mem there
    have under := ((o.all c).mp (List.mem_of_getElem? here)).ref mem
    exact o.before here mem (held under there)
  · intro i c indices here children
    have refs := named.at_index here children
    exact refs.imp_mem fun r mem j _ there => ⟨there, o.before here mem there⟩

end

section Repeated

-- A cell over the empty one, twice, as two roots, and the empty one as a third.
def repeatedBag : Bytes :=
  .be 19 0xb5ee9c72010102030006000001020001010000

attribute [local instance] Sha256.standard

def repeatedRun : Option (Bool × List (List Nat)) := do
  let roots ← (parseBoc repeatedBag).toOption
  let (_, children) ← (topological roots).toOption
  return (decide (CollisionFree (roots.flatMap Cell.hashed)), children)

theorem topological_sorts_repeatedBag : ∃ roots order, parseBoc repeatedBag = .ok roots ∧
    topological roots = .ok (order, [[1, 1], []]) ∧
      ∀ c, Cell.Under roots c → ∃! i : Nat, order[i]?.map Cell.reprHash = some c.reprHash := by
  have run : repeatedRun = some (true, [[1, 1], []]) := by decide +kernel
  simp only [repeatedRun, Option.bind_eq_bind, Option.bind_eq_some_iff, toOption_eq_some, Option.pure_def,
    Option.some_inj, Prod.mk.injEq, Prod.exists, decide_eq_true_eq] at run
  obtain ⟨roots, parsed, order, _, sorted, free, rfl⟩ := run
  have ⟨_, _, sorted', _, once, _⟩ := topological_sorts (fun _ mem => .parsed parsed mem) free
  obtain ⟨rfl, rfl⟩ := Prod.mk.inj (Except.ok.inj (sorted.symm.trans sorted'))
  exact ⟨roots, order, parsed, sorted, once⟩

end Repeated

end TonNet
