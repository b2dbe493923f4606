import TonNet.Boc.Plan
import TonNet.Boc.Theorems.Parse
import TonNet.Boc.Theorems.Waves
import TonNet.Lib.Settle
import Mathlib.Data.List.Nodup

-- The order in which a bag's cells are finalized, and the number of workers that do it, make no
-- difference to what comes of it.

namespace TonNet

open Fallible Method Settle

-- What `read_raw` holds the references of a bag's cells to.
structure Forward (raw : List RawCell) (count : Nat) : Prop where
  length : raw.length = count
  refs   : ∀ index rawCell, raw[index]? = some rawCell →
    rawCell.refs.length ≤ maxRefs ∧ ∀ target ∈ rawCell.refs, index < target ∧ target < count

theorem readTarget_forward {bytes : Bytes} (header : Header) (index : Nat) :
    Yields (Over bytes) (fun target => index < target ∧ target < header.count)
      (readTarget header index) := by
  refine (uint_yields _).bind fun target _ => Yields.failIf.bind fun _ within => .pure ?_
  omega

theorem readCell_forward {bytes : Bytes} (header : Header) (index : Nat) :
    Yields (Over bytes) (fun rawCell => rawCell.refs.length ≤ maxRefs ∧
      ∀ target ∈ rawCell.refs, index < target ∧ target < header.count) (readCell header index) := by
  refine byte_yields.bind fun d1 _ => byte_yields.bind fun d2 _ => ?_
  refine Yields.failIf.bind fun _ few => (readStored_yields _ _).bind fun stored _ => ?_
  refine (takeSpan_yields _).bind fun (data, span) _ => ?_
  refine Yields.ofExcept.bind fun bits _ => Yields.failIf.bind fun _ _ => ?_
  refine Yields.ofExcept.bind fun cellType _ => ?_
  refine (Yields.mapM fun _ _ => readTarget_forward header index).bind fun refs ⟨hl, hrefs⟩ => ?_
  rw [List.length_range] at hl
  exact .pure ⟨hl ▸ not_lt.mp few, hrefs⟩

theorem readRaw_forward {bytes : Bytes} (header : Header) :
    Yields (Over bytes) (fun raw => Forward raw header.count) (readRaw header) := by
  intro r raw r' hr he
  have ⟨all, hr'⟩ := Yields.mapM_forall₂ (fun index _ => readCell_forward header index) hr he
  refine ⟨⟨by rw [← all.length_eq, List.length_range], fun index rawCell hraw => ?_⟩, hr'⟩
  have ⟨index', at', sound⟩ := all.exists_left hraw
  obtain ⟨_, rfl⟩ := List.getElem?_eq_some_iff.mp at'
  simpa using sound

section Heights

variable {raw : List RawCell} {count : Nat} {height : List Nat}

theorem heightOver_congr {height' : List Nat} {rawCell : RawCell}
    (h : ∀ target ∈ rawCell.refs, height.getD target 0 = height'.getD target 0) :
    heightOver height rawCell = heightOver height' rawCell :=
  List.foldl_ext _ _ _ fun _ target mem => by rw [h target mem]

theorem heightOver_eq (height : List Nat) (rawCell : RawCell) :
    heightOver height rawCell =
      Waves.tallest (rawCell.refs.map fun target => height.getD target 0 + 1) := by
  rw [Waves.tallest, List.foldl_map]
  rfl

theorem lt_heightOver {rawCell : RawCell} {target : Nat} (h : target ∈ rawCell.refs) :
    height.getD target 0 < heightOver height rawCell := by
  rw [heightOver_eq]
  exact Waves.le_tallest (List.mem_map.mpr ⟨target, h, rfl⟩)

-- Heights are known from `n` on.
structure HeightsFrom (raw : List RawCell) (n : Nat) (height : List Nat) : Prop where
  length : height.length = raw.length
  above  : ∀ index rawCell, n ≤ index → raw[index]? = some rawCell →
    height.getD index 0 = heightOver height rawCell

theorem HeightsFrom.step {n : Nat} {rawCell : RawCell} (f : Forward raw count)
    (h : HeightsFrom raw (n + 1) height) (hr : raw[n]? = some rawCell) :
    HeightsFrom raw n (height.set n (heightOver height rawCell)) where
  length := by rw [List.length_set, h.length]
  above  := by
    intro index rawCell' le hr'
    have later : heightOver (height.set n (heightOver height rawCell)) rawCell' =
        heightOver height rawCell' := by
      refine heightOver_congr fun target mem => ?_
      have ⟨after, _⟩ := (f.refs index rawCell' hr').right target mem
      simp [List.getElem?_set_ne (show n ≠ target by omega)]
    rw [later]
    have within : n < height.length := by
      rw [h.length]
      exact (List.getElem?_eq_some_iff.mp hr).1
    by_cases e : n = index
    case pos =>
      subst e
      obtain rfl := Option.some_inj.mp (hr.symm.trans hr')
      simp [List.getElem?_set_self within]
    case neg =>
      rw [← h.above index rawCell' (by omega) hr']
      simp [List.getElem?_set_ne e]

theorem heightsFrom_foldl {n : Nat} (f : Forward raw count) (le : n ≤ count)
    (h : HeightsFrom raw n height) :
    HeightsFrom raw 0 ((List.range n).reverse.foldl (fun height index =>
      match raw[index]? with
      | none         => height
      | some rawCell => height.set index (heightOver height rawCell)) height) := by
  induction n generalizing height
  case zero => exact h
  case succ n hi =>
    have lt : n < raw.length := by
      rw [f.length]
      exact le
    have hr : raw[n]? = some raw[n] := List.getElem?_eq_getElem lt
    rw [List.range_succ, List.reverse_append, List.reverse_singleton, List.singleton_append,
      List.foldl_cons]
    simp only [hr]
    exact hi (by omega) (h.step f hr)

theorem heights_eq_ok (f : Forward raw count) :
    ∃ known, HeightsFrom raw 0 known ∧
      ∀ height, heights raw count = .ok height ↔
        height = known ∧ ∀ h ∈ known, h ≤ maxDepth := by
  have init : HeightsFrom raw count (List.replicate count 0) := by
    refine ⟨by rw [List.length_replicate, f.length], fun index rawCell le hr => ?_⟩
    have := (List.getElem?_eq_some_iff.mp hr).1
    rw [f.length] at this
    omega
  refine ⟨_, heightsFrom_foldl f le_rfl init, fun height => ?_⟩
  rw [heights, failIf_bind_eq_ok, pure_eq_ok, and_comm, eq_comm, List.any_eq_true]
  refine and_congr_right fun _ => ⟨fun none h mem => ?_, fun all => ?_⟩
  · exact not_lt.mp fun tall => none ⟨h, mem, decide_eq_true tall⟩
  · rintro ⟨h, mem, tall⟩
    exact absurd (all h mem) (not_le.mpr (of_decide_eq_true tall))

theorem heights_known (f : Forward raw count) (h : heights raw count = .ok height) :
    HeightsFrom raw 0 height := by
  have ⟨known, hk, ok⟩ := heights_eq_ok f
  exact ((ok height).mp h).left ▸ hk

-- A cell is higher than every cell it references.
theorem HeightsFrom.lt (h : HeightsFrom raw 0 height) {index target : Nat} {rawCell : RawCell}
    (hr : raw[index]? = some rawCell) (mem : target ∈ rawCell.refs) :
    height.getD target 0 < height.getD index 0 := by
  rw [h.above index rawCell (Nat.zero_le _) hr]
  exact lt_heightOver mem

end Heights

-- A plan lists every cell once, and behind the cells it references.
structure Waves.Lists (waves : Waves) (raw : List RawCell) : Prop where
  once  : waves.iter.flatten.Perm (List.range raw.length)
  after : ∀ front index rest, waves.iter.flatten = front ++ index :: rest →
    ∀ rawCell, raw[index]? = some rawCell → rawCell.refs ⊆ front

-- No wave that is cut among workers holds a cell together with one it references.
def Waves.Apart (waves : Waves) (raw : List RawCell) (workers : List Nat → Nat) : Prop :=
  ∀ wave ∈ waves.iter, 1 < workers wave →
    ∀ index ∈ wave, ∀ rawCell, raw[index]? = some rawCell → ∀ target ∈ rawCell.refs, target ∉ wave

section ByHeight

variable {raw : List RawCell} {count : Nat} {height : List Nat}

theorem Waves.mem_ofHeight {index k : Nat} :
    index ∈ Waves.ofHeight height height.length k ↔ height[index]? = some k := by
  simp only [Waves.ofHeight, List.mem_filter, List.mem_range, decide_eq_true_eq,
    and_iff_right_iff_imp]
  intro h
  exact (List.getElem?_eq_some_iff.mp h).1

theorem Waves.byHeight_perm (height : List Nat) :
    (Waves.byHeight height).iter.flatten.Perm (List.range height.length) := by
  rw [Waves.iter_byHeight, ← List.flatMap_def]
  refine (List.perm_ext_iff_of_nodup ?_ List.nodup_range).mpr fun index => ?_
  · refine List.nodup_flatMap.mpr ⟨fun k _ => List.nodup_range.filter _, ?_⟩
    refine List.nodup_range.imp fun {k k'} ne index mem mem' => ne ?_
    have here := Waves.mem_ofHeight.mp mem
    exact Option.some_inj.mp (here.symm.trans (Waves.mem_ofHeight.mp mem'))
  · simp only [List.mem_flatMap, List.mem_range, Waves.mem_ofHeight]
    constructor
    · intro ⟨k, _, h⟩
      exact (List.getElem?_eq_some_iff.mp h).1
    · intro lt
      have := Waves.le_tallest (List.getElem_mem lt)
      exact ⟨height[index], by omega, List.getElem?_eq_getElem lt⟩

-- The plan goes from low to high.
theorem Waves.byHeight_sorted (height : List Nat) :
    (Waves.byHeight height).iter.flatten.Pairwise (height.getD · 0 ≤ height.getD · 0) := by
  rw [Waves.iter_byHeight, ← List.flatMap_def]
  have at' {k index : Nat} (mem : index ∈ Waves.ofHeight height height.length k) :
      height.getD index 0 = k := by
    simp [Waves.mem_ofHeight.mp mem]
  refine List.pairwise_flatMap.mpr ⟨fun k _ => ?_, ?_⟩
  · refine List.pairwise_of_forall_mem_list fun i hi j hj => ?_
    rw [at' hi, at' hj]
  · refine List.pairwise_lt_range.imp fun {k k'} lt i hi j hj => ?_
    rw [at' hi, at' hj]
    omega

theorem Waves.byHeight_lists (f : Forward raw count) (h : HeightsFrom raw 0 height) :
    (Waves.byHeight height).Lists raw := by
  have once := h.length ▸ Waves.byHeight_perm height
  refine ⟨once, fun front index rest split rawCell hr target mem => ?_⟩
  have lower := h.lt hr mem
  have sorted := Waves.byHeight_sorted height
  rw [split] at once sorted
  have listed : target ∈ front ++ index :: rest := by
    have ⟨_, within⟩ := (f.refs index rawCell hr).right target mem
    exact once.mem_iff.mpr (List.mem_range.mpr (f.length ▸ within))
  have ⟨_, behind, _⟩ := List.pairwise_append.mp sorted
  cases List.mem_append.mp listed
  case inl front => exact front
  case inr back =>
    cases List.mem_cons.mp back
    case inl e => exact absurd lower (e ▸ lt_irrefl _)
    case inr later => exact absurd ((List.pairwise_cons.mp behind).left target later) (not_le.mpr lower)

theorem Waves.byHeight_apart (h : HeightsFrom raw 0 height) (workers : List Nat → Nat) :
    (Waves.byHeight height).Apart raw workers := by
  intro wave mem _ index hi rawCell hr target ht inside
  rw [Waves.iter_byHeight] at mem
  have ⟨k, _, same⟩ := List.mem_map.mp mem
  have lower := h.lt hr ht
  rw [← same, Waves.mem_ofHeight] at hi inside
  simp [hi, inside] at lower

end ByHeight

section Run

variable {α : Type} {g : Settle.Graph CellError α} {held : Held α} {done wave : List Nat} {index : Nat}

-- How far a pass has come.
def Passed (g : Settle.Graph CellError α) (done : List Nat) (held : Held α) : Prop :=
  g.Pass done held.slots held.lowest.held

theorem Lowest.held_record (lowest : Lowest) (index : Nat) (error : CellError) :
    (lowest.record index error).held = Settle.Graph.lower lowest.held index error := by
  rcases lowest with ⟨_ | first⟩
  case none => rfl
  case some =>
    simp only [record, Settle.Graph.lower]
    split <;> rfl

theorem keep_eq (outcome : Except CellError (Option α)) (blank : held.slots[index]? = some none) :
    keep held index outcome =
      ⟨held.slots.set index (kept outcome), ⟨Settle.Graph.report held.lowest.held index outcome⟩⟩ := by
  have same : held.slots.set index none = held.slots := by
    have ⟨lt, here⟩ := List.getElem?_eq_some_iff.mp blank
    rw [← here, List.set_getElem_self lt]
  cases outcome
  case error e =>
    have : held.lowest.record index e = ⟨Settle.Graph.lower held.lowest.held index e⟩ := by
      rw [← Lowest.held_record]
    simp only [keep, kept, Settle.Graph.report, same, this]
  case ok value =>
    cases value
    case none => simp only [keep, kept, Settle.Graph.report, same]
    case some value => rfl

theorem Passed.keep (p : Passed g done held) (lt : index < g.count) (new : index ∉ done)
    (ready : g.deps index ⊆ done) :
    Passed g (index :: done) (keep held index (g.one index held.slots)) := by
  rw [keep_eq _ (p.filled.blank index lt new)]
  exact p.step lt new ready

theorem Passed.runWave (p : Passed g done held) (follows : g.Follows done wave) :
    Passed g (wave.reverse ++ done) (runWave g.one wave held) := by
  induction wave generalizing held done
  case nil => exact p
  case cons index wave hi =>
    have ⟨lt, new, ready, more⟩ := follows
    rw [List.reverse_cons, List.append_assoc]
    exact hi (p.keep lt new ready) more

-- Workers that share a wave read what was held before it, which is enough when no cell of the wave
-- needs another.
theorem Passed.produced {before : List Nat} {slots : List (Option α)} (p : Passed g done held)
    (follows : g.Follows done wave) (old : before ⊆ done)
    (same : ∀ index ∈ before, slots[index]? = held.slots[index]?)
    (apart : ∀ index ∈ wave, g.deps index ⊆ before) :
    Passed g (wave.reverse ++ done) ((wave.map fun index => (index, g.one index slots)).foldl
      (fun held (index, outcome) => TonNet.keep held index outcome) held) := by
  induction wave generalizing held done
  case nil => exact p
  case cons index wave hi =>
    have ⟨lt, new, ready, more⟩ := follows
    have ⟨here, apart⟩ := List.forall_mem_cons.mp apart
    rw [List.reverse_cons, List.append_assoc, List.map_cons, List.foldl_cons,
      g.reads index slots held.slots fun j hj => same j (here hj)]
    refine hi (p.keep lt new ready) more (List.subset_cons_of_subset _ old) (fun j hj => ?_) apart
    dsimp only
    rw [same j hj, keep_eq _ (p.filled.blank index lt new), List.getElem?_set_ne]
    rintro rfl
    exact new (old hj)

theorem flatten_chunks {β : Type} {each : Nat} (pos : 0 < each) (l : List β) :
    (chunks each l).flatten = l := by
  have parts (n : Nat) :
      ((List.range n).map fun k => (l.drop (k * each)).take each).flatten = l.take (n * each) := by
    induction n
    case zero => simp
    case succ n hi =>
      rw [List.range_succ, List.map_append, List.flatten_append, hi, Nat.succ_mul, List.take_add]
      simp
  rw [chunks, parts, List.take_of_length_le]
  have := Nat.lt_div_mul_add (a := l.length + each - 1) pos
  omega

theorem splitAcrossWorkers_eq_some {slots : List (Option α)} {workers : Nat}
    {produced : List (Nat × Except CellError (Option α))}
    (h : splitAcrossWorkers g.one wave slots workers = some produced) :
    produced = wave.map fun index => (index, g.one index slots) := by
  unfold splitAcrossWorkers at h
  split at h
  case isTrue => cases h
  case isFalse enough =>
    have wide : wave.length ≠ 0 := fun e => enough (.inr (List.length_eq_zero_iff.mp e))
    have pos : 0 < (wave.length + workers - 1) / workers := Nat.div_pos (by omega) (by omega)
    rw [← Option.some_inj.mp h, List.flatMap_def, ← List.map_flatten, flatten_chunks pos]

theorem Passed.runWaveOn {workers : Nat} (p : Passed g done held) (follows : g.Follows done wave)
    (apart : 1 < workers → ∀ index ∈ wave, g.deps index ⊆ done) :
    Passed g (wave.reverse ++ done) (runWaveOn g.one workers wave held) := by
  unfold TonNet.runWaveOn
  split
  case h_1 produced split =>
    by_cases many : workers > 1
    case neg => simp [many] at split
    case pos =>
      rw [if_pos many] at split
      rw [splitAcrossWorkers_eq_some split]
      exact p.produced follows (List.Subset.refl _) (fun _ _ => rfl) (apart many)
  case h_2 => exact p.runWave follows

-- A whole plan, wave by wave.
theorem passed_foldl {workers : List Nat → Nat} {waves : List (List Nat)} (p : Passed g done held)
    (follows : g.Follows done waves.flatten)
    (apart : ∀ wave ∈ waves, 1 < workers wave → ∀ index ∈ wave, ∀ j ∈ g.deps index, j ∉ wave) :
    Passed g (waves.flatten.reverse ++ done)
      (waves.foldl (fun held wave => TonNet.runWaveOn g.one (workers wave) wave held) held) := by
  induction waves generalizing held done
  case nil => exact p
  case cons wave waves hi =>
    have ⟨front, back⟩ := follows.of_append
    have ⟨here, apart⟩ := List.forall_mem_cons.mp apart
    rw [List.flatten_cons, List.reverse_append, List.append_assoc]
    refine hi (p.runWaveOn front fun many index mem j dep => ?_) back apart
    exact (List.mem_append.mp (front.deps_subset mem dep)).resolve_left (here many index mem j dep)

end Run

section Graph

variable {raw : List RawCell} {count : Nat}

-- The cells a raw cell names.
def refsAt (raw : List RawCell) (index : Nat) : List Nat :=
  (raw[index]?.map RawCell.refs).getD []

theorem refsAt_eq {index : Nat} {rawCell : RawCell} (h : raw[index]? = some rawCell) :
    refsAt raw index = rawCell.refs := by
  simp [refsAt, h]

theorem refsAt_forward (f : Forward raw count) :
    ∀ i < count, ∀ j ∈ refsAt raw i, i < j ∧ j < count := by
  intro i lt j mem
  have within : i < raw.length := f.length ▸ lt
  have hr : raw[i]? = some raw[i] := List.getElem?_eq_getElem within
  rw [refsAt_eq hr] at mem
  exact (f.refs i _ hr).right j mem

variable {α β : Type} {slots slots' : List (Option α)} {targets : List Nat}

theorem gather_congr (h : ∀ target ∈ targets, slots[target]? = slots'[target]?) :
    gather slots targets = gather slots' targets := by
  induction targets
  case nil => rfl
  case cons target targets hi =>
    have ⟨here, rest⟩ := List.forall_mem_cons.mp h
    rw [gather, gather, here, hi rest]

theorem gather_eq_none (within : ∀ target ∈ targets, target < slots.length) :
    gather slots targets = .ok none ↔ ∃ target ∈ targets, slots[target]? = some none := by
  induction targets
  case nil => simp [gather]
  case cons target targets hi =>
    have ⟨here, rest⟩ := List.forall_mem_cons.mp within
    have held := List.getElem?_eq_getElem here
    rw [gather, List.exists_mem_cons_iff, held]
    cases slots[target]
    case none => simp
    case some value =>
      rw [← hi rest]
      cases gather slots targets
      case error e => simp
      case ok found => cases found <;> simp

theorem gather_map (f : α → β) (slots : List (Option α)) (targets : List Nat) :
    gather (slots.map (Option.map f)) targets =
      (gather slots targets).map (Option.map (List.map f)) := by
  induction targets
  case nil => rfl
  case cons target targets hi =>
    rw [gather, gather, List.getElem?_map, hi]
    rcases slots[target]? with _ | _ | value
    case none => rfl
    case some.none => rfl
    case some.some =>
      rcases gather slots targets with _ | _ | found <;> rfl

theorem gather_eq_some {values : List α} : gather slots targets = .ok (some values) ↔
    List.Forall₂ (fun target value => slots[target]? = some (some value)) targets values := by
  induction targets generalizing values
  case nil => cases values <;> simp [gather]
  case cons target targets hi =>
    rw [gather]
    rcases found : slots[target]? with _ | _ | value
    case none => cases values <;> simp [found]
    case some.none => cases values <;> simp [found]
    case some.some =>
      simp only [bind_eq_ok, pure_eq_ok, Option.map_eq_some_iff]
      constructor
      · rintro ⟨_, rest, values, rfl, rfl⟩
        exact .cons found (hi.mp rest)
      · intro all
        cases all
        case cons value' values here rest =>
          obtain rfl : value = value' := by simpa [found] using here
          exact ⟨_, hi.mpr rest, _, rfl, rfl⟩

theorem gather_ok (within : ∀ target ∈ targets, target < slots.length) :
    ∃ found, gather slots targets = .ok found := by
  induction targets
  case nil => exact ⟨some [], rfl⟩
  case cons target targets hi =>
    have ⟨here, rest⟩ := List.forall_mem_cons.mp within
    have ⟨found, more⟩ := hi rest
    rw [gather, List.getElem?_eq_getElem here, more]
    cases slots[target]
    case none => exact ⟨none, rfl⟩
    case some value => exact ⟨found.map (value :: ·), rfl⟩

theorem children_eq_gather (built : List (Option Cell)) (targets : List Nat) :
    children built targets = gather built targets := by
  induction targets
  case nil => rfl
  case cons target targets hi =>
    rw [children, gather, hi]
    rcases built[target]? with _ | _ | _ <;> rfl

-- One step over the values of the references, when they all have one.
def stepOver (finish : RawCell → List α → Except CellError α) (raw : List RawCell) (index : Nat)
    (slots : List (Option α)) : Except CellError (Option α) :=
  match raw[index]? with
  | none         => throw .badReference
  | some rawCell => do
    match ← gather slots rawCell.refs with
    | none        => return none
    | some values => some <$> finish rawCell values

-- The graph of a bag's cells.
def bagGraph (finish : RawCell → List α → Except CellError α) (f : Forward raw count) :
    Settle.Graph CellError α where
  count   := count
  deps    := refsAt raw
  one     := stepOver finish raw
  forward := refsAt_forward f
  reads   := by
    intro i slots slots' h
    unfold stepOver
    split
    case h_1 => rfl
    case h_2 rawCell hr =>
      rw [refsAt_eq hr] at h
      rw [gather_congr h]
  skips   := by
    intro i slots within
    unfold stepOver
    split
    case h_1 hr => simp [refsAt, hr]
    case h_2 rawCell hr =>
      rw [refsAt_eq hr] at within ⊢
      rw [← gather_eq_none within]
      rcases gather slots rawCell.refs with _ | _ | values
      case error => simp
      case ok.none => simp
      case ok.some =>
        simp only [ok_bind, map_eq_ok]
        simp

variable {finish : RawCell → List α → Except CellError α} {index : Nat}

theorem stepOver_eq_some {value : α} : stepOver finish raw index slots = .ok (some value) ↔
    ∃ rawCell values, raw[index]? = some rawCell ∧
      List.Forall₂ (fun target value => slots[target]? = some (some value)) rawCell.refs values ∧
      finish rawCell values = .ok value := by
  unfold stepOver
  cases raw[index]?
  case none => simp
  case some rawCell =>
    simp only [Option.some_inj, exists_and_left, exists_eq_left', ← gather_eq_some]
    rcases gather slots rawCell.refs with _ | _ | values <;> simp [map_eq_ok]

theorem stepOver_eq_error (f : Forward raw count) (lt : index < count)
    (length : slots.length = count) {e : CellError} :
    stepOver finish raw index slots = .error e ↔
    ∃ rawCell values, raw[index]? = some rawCell ∧
      List.Forall₂ (fun target value => slots[target]? = some (some value)) rawCell.refs values ∧
      finish rawCell values = .error e := by
  have within : index < raw.length := f.length ▸ lt
  have hr : raw[index]? = some raw[index] := List.getElem?_eq_getElem within
  have inside : ∀ target ∈ raw[index].refs, target < slots.length := fun target mem =>
    length ▸ ((f.refs index _ hr).right target mem).right
  have ⟨found, gathered⟩ := gather_ok inside
  unfold stepOver
  simp only [hr, Option.some_inj, exists_and_left, exists_eq_left', ← gather_eq_some, gathered]
  cases found
  case none => simp [pure, Except.pure]
  case some values =>
    cases h : finish raw[index] values <;> simp [h]

-- The value of a cell, from the values of the cells it references.
inductive Builds (finish : RawCell → List α → Except CellError α) (raw : List RawCell) :
    Nat → α → Prop
  | intro {index : Nat} {rawCell : RawCell} {values : List α} {value : α}
      (here : raw[index]? = some rawCell) (length : rawCell.refs.length = values.length)
      (refs : ∀ (i target : Nat) (value : α), rawCell.refs[i]? = some target →
        values[i]? = some value → Builds finish raw target value)
      (finished : finish rawCell values = .ok value) : Builds finish raw index value

-- A cell whose references all have a value and which still has none.
structure FailsAlone (finish : RawCell → List α → Except CellError α) (raw : List RawCell)
    (index : Nat) (e : CellError) : Prop where
  fails : ∃ rawCell values, raw[index]? = some rawCell ∧
    List.Forall₂ (Builds finish raw) rawCell.refs values ∧ finish rawCell values = .error e

theorem builds_of_forall₂ {rawCell : RawCell} {values : List α} {value : α}
    (here : raw[index]? = some rawCell)
    (refs : List.Forall₂ (Builds finish raw) rawCell.refs values)
    (finished : finish rawCell values = .ok value) : Builds finish raw index value :=
  .intro here refs.length_eq (fun _ _ _ target value => refs.at_index target value) finished

theorem Builds.unique {value value' : α} (b : Builds finish raw index value)
    (b' : Builds finish raw index value') : value = value' := by
  induction b generalizing value'
  case intro here length _ finished hi =>
    obtain ⟨here', length', refs', finished'⟩ := b'
    obtain rfl := Option.some_inj.mp (here.symm.trans here')
    have same := List.ext_getElem (length.symm.trans length') fun i lt lt' =>
      have target := List.getElem?_eq_getElem (length ▸ lt)
      hi i _ _ target (List.getElem?_eq_getElem lt)
        (refs' i _ _ target (List.getElem?_eq_getElem lt'))
    rw [← same, finished] at finished'
    exact Except.ok.inj finished'

theorem settled_builds {f : Forward raw count} (s : (bagGraph finish f).Settled slots) :
    ∀ index < count, ∀ value, slots[index]? = some (some value) → Builds finish raw index value := by
  have main (k : Nat) : ∀ index < count, count - index ≤ k → ∀ value,
      slots[index]? = some (some value) → Builds finish raw index value := by
    induction k
    case zero => omega
    case succ k hi =>
      intro index lt le value held
      have step : stepOver finish raw index slots = .ok (some value) := by
        rw [s.holds index lt, Option.some_inj] at held
        exact kept_eq_some.mp held
      have ⟨rawCell, values, here, refs, finished⟩ := stepOver_eq_some.mp step
      refine builds_of_forall₂ here (refs.imp_mem fun target mem value _ held => ?_) finished
      have ⟨after, within⟩ := (f.refs index rawCell here).right target mem
      exact hi target within (by omega) value held
  exact fun index lt => main _ index lt le_rfl

theorem settled_of_builds {f : Forward raw count} (s : (bagGraph finish f).Settled slots)
    {value : α} (b : Builds finish raw index value) : slots[index]? = some (some value) := by
  induction b
  case intro index rawCell values value here length refs finished hi =>
    have lt : index < count := f.length ▸ (List.getElem?_eq_some_iff.mp here).1
    have step : stepOver finish raw index slots = .ok (some value) := by
      refine stepOver_eq_some.mpr ⟨rawCell, values, here, ?_, finished⟩
      refine List.forall₂_iff_get.mpr ⟨length, fun i h h' => ?_⟩
      exact hi i _ _ (List.getElem?_eq_getElem h) (List.getElem?_eq_getElem h')
    rw [s.holds index lt]
    show some (kept (stepOver finish raw index slots)) = _
    rw [step]
    rfl

theorem settled_fails {f : Forward raw count} (s : (bagGraph finish f).Settled slots)
    (lt : index < count) {e : CellError} :
    (bagGraph finish f).one index slots = .error e ↔ FailsAlone finish raw index e := by
  have length : slots.length = count := s.length
  refine (stepOver_eq_error f lt length).trans ⟨fun h => ⟨?_⟩, fun ⟨h⟩ => ?_⟩
  · have ⟨rawCell, values, here, refs, finished⟩ := h
    refine ⟨rawCell, values, here, refs.imp_mem fun target mem value _ held => ?_, finished⟩
    exact settled_builds s target ((f.refs index rawCell here).right target mem).right value held
  · have ⟨rawCell, values, here, refs, finished⟩ := h
    exact ⟨rawCell, values, here, refs.imp fun _ _ b => settled_of_builds s b, finished⟩

variable [Sha256]

def buildOver (payload : Bytes) (rawCell : RawCell) (refs : List Cell) : Except CellError Cell := do
  let data ← rawCell.data.of payload
  let cell ← Cell.fromParts data rawCell.bits refs rawCell.cellType rawCell.levelMask
  match rawCell.stored with
  | none        => return cell
  | some stored =>
    let stored ← stored.of payload
    checkStored cell.identity stored
    return cell

theorem buildOver_refs {payload : Bytes} {rawCell : RawCell} {refs : List Cell} {c : Cell}
    (h : buildOver payload rawCell refs = .ok c) :
    c.refs = refs := by
  simp only [buildOver, bind_eq_ok, Cell.fromParts_eq_ok] at h
  obtain ⟨_, _, _, ⟨_, _, _, rfl⟩, h⟩ := h
  cases stored : rawCell.stored
  case none => simp only [stored, pure_eq_ok] at h; rw [← h]
  case some =>
    simp only [stored, bind_eq_ok, pure_eq_ok] at h
    obtain ⟨_, _, _, _, rfl⟩ := h
    rfl

theorem buildStep_eq (raw : List RawCell) (payload : Bytes) :
    buildStep raw payload = stepOver (buildOver payload) raw := by
  funext index built
  unfold buildStep stepOver
  cases raw[index]?
  case none => rfl
  case some rawCell =>
    simp only [buildOne, children_eq_gather, buildOver]
    rcases gather built rawCell.refs with _ | _ | refs
    case error => rfl
    case ok.none => rfl
    case ok.some =>
      simp only [ok_bind, map_bind]
      refine bind_congr fun data => bind_congr fun cell => ?_
      cases rawCell.stored
      case none => rfl
      case some => simp only [map_bind, map_pure]

def summarizeOver (bytes : Bytes) (rawCell : RawCell) (children : List Identity) :
    Except CellError Identity := do
  let data ← rawCell.data.of bytes
  let identity ← summarize data rawCell.bits children rawCell.cellType rawCell.levelMask
  match rawCell.stored with
  | none        => return identity
  | some stored =>
    let stored ← stored.of bytes
    checkStored identity stored
    return identity

theorem summarizeStep_eq (f : Forward raw count) (bytes : Bytes) :
    summarizeStep raw bytes = stepOver (summarizeOver bytes) raw := by
  funext index computed
  unfold summarizeStep stepOver
  cases hr : raw[index]?
  case none => rfl
  case some rawCell =>
    have few := (f.refs index rawCell hr).left
    simp only [summarizeOne, summarizeOver, List.take_of_length_le few]
    rcases gather computed rawCell.refs with _ | _ | refs
    case error => rfl
    case ok.none => rfl
    case ok.some =>
      simp only [ok_bind, map_bind, failIf_bind_of_not (not_lt.mpr few)]
      refine bind_congr fun data => bind_congr fun cell => ?_
      cases rawCell.stored
      case none => rfl
      case some => simp only [map_bind, map_pure]

-- An identity is what a cell keeps of its contents.
theorem summarizeOver_map {bytes : Bytes} {rawCell : RawCell} {refs : List Cell}
    (few : refs.length ≤ maxRefs) :
    summarizeOver bytes rawCell (refs.map Cell.identity) =
      (buildOver bytes rawCell refs).map Cell.identity := by
  simp only [summarizeOver, buildOver, Cell.fromParts, failIf_bind_of_not (not_lt.mpr few)]
  cases rawCell.data.of bytes
  case error => rfl
  case ok data =>
    simp only [ok_bind]
    cases summarize data rawCell.bits (refs.map Cell.identity) rawCell.cellType rawCell.levelMask
    case error => rfl
    case ok identity =>
      cases rawCell.stored
      case none => rfl
      case some stored =>
        simp only [ok_bind, pure_bind]
        cases stored.of bytes
        case error => rfl
        case ok stored => cases h : checkStored identity stored <;> simp [h] <;> rfl

theorem bagGraph_maps (f : Forward raw count) (bytes : Bytes) :
    Settle.Graph.Maps Cell.identity (bagGraph (buildOver bytes) f) (bagGraph (summarizeOver bytes) f) where
  count := rfl
  one   := by
    intro index built
    show stepOver _ _ _ _ = (stepOver _ _ _ _).map _
    unfold stepOver
    cases hr : raw[index]?
    case none => rfl
    case some rawCell =>
      simp only [gather_map]
      rcases found : gather built rawCell.refs with _ | _ | refs
      case error => rfl
      case ok.none => rfl
      case ok.some =>
        have few : refs.length ≤ maxRefs :=
          (gather_eq_some.mp found).length_eq ▸ (f.refs index rawCell hr).left
        show some <$> summarizeOver bytes rawCell (refs.map Cell.identity) = _
        rw [summarizeOver_map few]
        cases h : buildOver bytes rawCell refs <;> simp [h] <;> rfl

end Graph

section Verdict

variable {α : Type} {finish : RawCell → List α → Except CellError α} {raw : List RawCell}
  {count : Nat} {waves : Waves} {workers : List Nat → Nat} {header : Header}

theorem Waves.Lists.follows (f : Forward raw count) (lists : waves.Lists raw) :
    (bagGraph finish f).Follows [] waves.iter.flatten := by
  refine Settle.Graph.follows_of_split (fun index mem => ?_) (lists.once.nodup_iff.mpr List.nodup_range)
    (fun _ _ => List.not_mem_nil) fun front index rest split => ?_
  · show index < count
    rw [← f.length]
    exact List.mem_range.mp (lists.once.mem_iff.mp mem)
  · show refsAt raw index ⊆ _
    rw [List.append_nil]
    cases hr : raw[index]?
    case none => simp [refsAt, hr]
    case some rawCell => exact refsAt_eq hr ▸ lists.after front index rest split rawCell hr

-- A complete plan comes to the verdict.
theorem finalizeOn_verdict (f : Forward raw count) (lists : waves.Lists raw)
    (apart : waves.Apart raw workers) :
    let held := finalizeOn (stepOver finish raw) workers count waves
    (bagGraph finish f).Verdict held.slots held.lowest.held := by
  have init : Passed (bagGraph finish f) [] ⟨List.replicate count none, {}⟩ := .init _
  refine (passed_foldl init (lists.follows f) fun wave mem many index hi target ht => ?_).verdict
    fun index lt => ?_
  · cases hr : raw[index]?
    case none => simp [bagGraph, refsAt, hr] at ht
    case some rawCell => exact apart wave mem many index hi rawCell hr target (refsAt_eq hr ▸ ht)
  · rw [List.append_nil, List.mem_reverse, lists.once.mem_iff, List.mem_range, f.length]
    exact lt

theorem finalize_eq (one : Nat → List (Option α) → Except CellError (Option α)) :
    finalize one count waves = finalizeOn one (fun _ => 1) count waves :=
  rfl

-- The plan parse_boc uses.
theorem finalize_verdict (f : Forward raw count) {height : List Nat} (h : HeightsFrom raw 0 height) :
    let held := finalize (stepOver finish raw) count (.byHeight height)
    (bagGraph finish f).Verdict held.slots held.lowest.held := by
  rw [finalize_eq]
  exact finalizeOn_verdict f (Waves.byHeight_lists f h) (Waves.byHeight_apart h _)

-- What is made of what a pass held.
def conclude (held : Held α) (header : Header) : Except CellError (List α) := do
  held.lowest.intoResult
  roots held.slots header

theorem conclude_congr {held held' : Held α} (slots : held.slots = held'.slots)
    (lowest : held.lowest.held = held'.lowest.held) : conclude held header = conclude held' header := by
  have same : held.lowest = held'.lowest := congrArg Lowest.mk lowest
  rw [conclude, conclude, slots, same]

theorem conclude_verdict {f : Forward raw count} {held held' : Held α}
    (v : (bagGraph finish f).Verdict held.slots held.lowest.held)
    (v' : (bagGraph finish f).Verdict held'.slots held'.lowest.held) :
    conclude held header = conclude held' header :=
  have ⟨slots, lowest⟩ := v.unique v'
  conclude_congr slots lowest

theorem roots_ok {slots : List (Option α)}
    (h : ∀ index ∈ header.rootList, ∃ value, slots[index]? = some (some value)) :
    ∃ values, roots slots header = .ok values := by
  refine mapM_ok fun index mem => ?_
  have ⟨value, held⟩ := h index mem
  exact ⟨value, by rw [held]; rfl⟩

-- The error of a complete pass over cells that the roots are among.
theorem conclude_error {f : Forward raw count} {held : Held α} {e : CellError}
    (v : (bagGraph finish f).Verdict held.slots held.lowest.held)
    (named : ∀ index ∈ header.rootList, index < count) (h : conclude held header = .error e) :
    ∃ index, FailsAlone finish raw index e ∧ ∀ j < index, ∀ e', ¬FailsAlone finish raw j e' := by
  cases first : held.lowest.held
  case none =>
    rw [first] at v
    have ⟨values, found⟩ := roots_ok fun index mem => v.value_of_none (named index mem)
    simp [conclude, Lowest.intoResult, first, found] at h
  case some first' =>
    have ⟨mem, fails⟩ := v.lowest.fails first' first
    have error : first'.2 = e := by
      simp only [conclude, Lowest.intoResult, first] at h
      exact Except.error.inj h
    refine ⟨first'.1, error ▸ (settled_fails v.settled (List.mem_range.mp mem)).mp fails, ?_⟩
    intro j lt e' alone
    have within : j < count := lt_trans lt (List.mem_range.mp mem)
    have ⟨_, here, le⟩ := v.lowest.least j (List.mem_range.mpr within) e'
      ((settled_fails v.settled within).mpr alone)
    obtain rfl := Option.some_inj.mp (first.symm.trans here)
    exact absurd lt (not_lt.mpr le)

-- A complete pass is good when no cell fails, and then comes to the cells of the roots.
theorem conclude_eq_ok {f : Forward raw count} {held : Held α} {values : List α}
    (v : (bagGraph finish f).Verdict held.slots held.lowest.held)
    (named : ∀ index ∈ header.rootList, index < count) : conclude held header = .ok values ↔
      List.Forall₂ (Builds finish raw) header.rootList values ∧
        ∀ index e, ¬FailsAlone finish raw index e := by
  have found : roots held.slots header = .ok values ↔
      List.Forall₂ (Builds finish raw) header.rootList values := by
    constructor
    · refine fun ok => (forall₂_of_mapM_eq_ok ok).imp_mem fun index mem value _ here => ?_
      exact settled_builds v.settled index (named index mem) value
        (Option.join_eq_some_iff.mp (okOr_eq_ok.mp here))
    · refine fun builds => mapM_eq_ok_of_forall₂ (builds.imp fun index value here => ?_)
      rw [settled_of_builds v.settled here]
      rfl
  cases first : held.lowest.held
  case none =>
    have sound (index : Nat) (e : CellError) : ¬FailsAlone finish raw index e := by
      intro alone
      have ⟨_, _, here, _⟩ := alone.fails
      have lt : index < count := f.length ▸ (List.getElem?_eq_some_iff.mp here).1
      have ⟨_, absent, _⟩ := v.lowest.least index (List.mem_range.mpr lt) e
        ((settled_fails v.settled lt).mpr alone)
      cases first.symm.trans absent
    rw [← found, conclude, Lowest.intoResult, first]
    exact ⟨fun ok => ⟨ok, sound⟩, And.left⟩
  case some first' =>
    have ⟨mem, fails⟩ := v.lowest.fails first' first
    rw [conclude, Lowest.intoResult, first]
    refine iff_of_false nofun fun ⟨_, sound⟩ => ?_
    exact sound _ _ ((settled_fails v.settled (List.mem_range.mp mem)).mp fails)

end Verdict

end TonNet
