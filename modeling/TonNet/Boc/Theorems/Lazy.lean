import TonNet.Boc.Lazy
import TonNet.Boc.Theorems.View
import Mathlib.Algebra.Order.BigOperators.Group.List

-- A cell built on demand is the one the whole bag would be built to, and what it does not reach is
-- not looked at.

namespace TonNet

open Fallible Method Settle

theorem Build.get_eq_some {state : Build} {index : Nat} {cell : Cell} :
    state.get index = some cell ↔ state.built[index]? = some (some cell) :=
  Option.join_eq_some_iff

-- Each cell met has its references counted once.
theorem sum_refs_le (raw : RawCells) {order : List Nat} (once : order.Nodup) (within : ∀ i ∈ order, i < raw.cells.length) :
    (order.map fun i => (refsAt raw.cells i).length).sum < raw.passes := by
  have all : raw.cells.map (fun rawCell => rawCell.refs.length) =
      (List.range raw.cells.length).map fun i => (refsAt raw.cells i).length := by
    apply List.ext_getElem?
    intro i
    by_cases lt : i < raw.cells.length
    · simp [lt, refsAt]
    · simp [lt]
  have part : order.Subperm (List.range raw.cells.length) :=
    List.subperm_of_subset once fun i mem => List.mem_range.mpr (within i mem)
  have ⟨sub, perm, sublist⟩ := part
  rw [RawCells.passes, all, ← (perm.map _).sum_eq]
  have := (sublist.map fun i => (refsAt raw.cells i).length).sum_le_sum fun _ _ => Nat.zero_le _
  omega

section

variable [Sha256]

abbrev RawCells.graph {count : Nat} (raw : RawCells) (f : Forward raw.cells count) :
    Settle.Graph CellError Cell :=
  bagGraph (buildOver raw.payload) f

variable {raw : RawCells} {count index : Nat} {f : Forward raw.cells count}
  {start state state' : Build} {order stack rest : List Nat}

-- What a walk from `index` has met and has still to look at.
structure Explored (raw : RawCells) (f : Forward raw.cells count) (index : Nat) (start : Build)
    (order stack : List Nat) (state : Build) : Prop where
  built      : state.built = start.built
  generation : state.generation = start.generation
  length     : state.seen.length = count
  marks      : ∀ mark ∈ state.seen, mark ≤ start.generation
  met        : ∀ i, state.seen[i]? = some start.generation ↔ i ∈ order
  once       : order.Nodup
  new        : ∀ i ∈ order, ¬start.built[i]?.join.isSome
  reached    : ∀ i ∈ order ++ stack, (raw.graph f).Reaches index i ∧ i < count
  found      : ∀ i ∈ order, ∀ j ∈ refsAt raw.cells i,
    start.built[j]?.join.isSome ∨ j ∈ order ∨ j ∈ stack
  first      : start.built[index]?.join.isSome ∨ index ∈ order ∨ index ∈ stack

theorem Explored.pop {position : Nat} (w : Explored raw f index start order (position :: rest) state)
    (known : start.built[position]?.join.isSome ∨ position ∈ order) :
    Explored raw f index start order rest state := by
  have known (i : Nat) (h : start.built[i]?.join.isSome ∨ i ∈ order ∨ i ∈ position :: rest) :
      start.built[i]?.join.isSome ∨ i ∈ order ∨ i ∈ rest := by
    rw [List.mem_cons] at h
    obtain built | met | rfl | waiting := h
    · exact .inl built
    · exact .inr (.inl met)
    · exact known.imp_right .inl
    · exact .inr (.inr waiting)
  exact { w with
    reached := fun i mem => w.reached i (by simp_all; tauto)
    found   := fun i mem j hj => known j (w.found i mem j hj)
    first   := known index w.first
  }

theorem Explored.push {position : Nat} {rawCell : RawCell}
    (w : Explored raw f index start order (position :: rest) state)
    (unbuilt : ¬start.built[position]?.join.isSome) (new : position ∉ order)
    (here : raw.cells[position]? = some rawCell) :
    Explored raw f index start (order ++ [position]) (rawCell.refs.reverse ++ rest)
      { state with seen := state.seen.set position start.generation } := by
  have ⟨reached, lt⟩ := w.reached position (by simp)
  have within : position < state.seen.length := w.length ▸ lt
  constructor
  case built => exact w.built
  case generation => exact w.generation
  case length => rw [← w.length]; exact List.length_set
  case marks =>
    intro mark mem
    cases List.mem_or_eq_of_mem_set mem
    case inl old => exact w.marks mark old
    case inr e => exact e.le
  case met =>
    intro i
    by_cases same : position = i
    case pos =>
      subst same
      simp [within]
    case neg =>
      rw [List.getElem?_set_ne same, w.met, List.mem_append, List.mem_singleton]
      exact ⟨.inl, (·.resolve_right (Ne.symm same))⟩
  case once => exact List.nodup_append.mpr ⟨w.once, List.nodup_singleton _, by
    rintro i old j (_ | ⟨_, ⟨⟩⟩) rfl
    exact new old⟩
  case new =>
    intro i mem
    obtain old | rfl := List.mem_append.mp mem |>.imp_right List.mem_singleton.mp
    · exact w.new i old
    · exact unbuilt
  case reached =>
    intro i mem
    simp only [List.mem_append, List.mem_singleton, List.mem_reverse] at mem
    obtain (old | rfl) | named | waiting := mem
    · exact w.reached i (by simp [old])
    · exact ⟨reached, lt⟩
    · rw [← refsAt_eq here] at named
      exact ⟨reached.tail named, ((raw.graph f).forward position lt i named).right⟩
    · exact w.reached i (by simp [waiting])
  case found =>
    intro i mem j hj
    simp only [List.mem_append, List.mem_singleton, List.mem_reverse] at mem ⊢
    obtain old | rfl := mem
    · have := w.found i old j hj
      rw [List.mem_cons] at this
      tauto
    · rw [refsAt_eq here] at hj
      exact .inr (.inr (.inl hj))
  case first =>
    have := w.first
    simp only [List.mem_append, List.mem_cons] at this ⊢
    tauto

-- One pass of a walk either drops a cell or follows it.
theorem Explored.visit {position : Nat}
    (w : Explored raw f index start order (position :: rest) state) :
    ∃ order' stack' state',
      (visit raw start.generation position order rest).Ends state (order', stack') state' ∧
      Explored raw f index start order' stack' state' ∧
      (order' = order ∧ stack' = rest ∨
        order' = order ++ [position] ∧
          stack'.length = (refsAt raw.cells position).length + rest.length) := by
  obtain ⟨_, lt⟩ := w.reached position (by simp)
  simp only [TonNet.visit, ends_bind, ends_get]
  by_cases built : start.built[position]?.join.isSome
  case pos =>
    refine ⟨order, rest, state, ⟨state, state, ⟨rfl, rfl⟩, ?_⟩, w.pop (.inl built), .inl ⟨rfl, rfl⟩⟩
    simp only [w.built, built, if_true, ends_pure, and_self]
  case neg =>
    obtain ⟨mark, marked⟩ : ∃ mark, state.seen[position]? = some mark :=
      ⟨_, List.getElem?_eq_getElem (w.length ▸ lt)⟩
    by_cases met : position ∈ order
    case pos =>
      refine ⟨order, rest, state, ⟨state, state, ⟨rfl, rfl⟩, ?_⟩, w.pop (.inr met), .inl ⟨rfl, rfl⟩⟩
      simp [w.built, built, (w.met position).mpr met]
    case neg =>
      have new : mark ≠ start.generation := fun e => met ((w.met position).mp (e ▸ marked))
      obtain ⟨rawCell, here⟩ : ∃ rawCell, raw.cells[position]? = some rawCell :=
        ⟨_, List.getElem?_eq_getElem (f.length ▸ lt)⟩
      refine ⟨_, _, _, ⟨state, state, ⟨rfl, rfl⟩, ?_⟩, w.push built met here,
        .inr ⟨rfl, by simp [refsAt_eq here]⟩⟩
      simp [-bind_pure_comp, w.built, built, marked, new, ends_bind, here]

theorem Explored.walk (passes : Nat) (w : Explored raw f index start order stack state)
    (enough : stack.length + raw.passes ≤
      (order.map fun i => (refsAt raw.cells i).length).sum + passes + 1) :
    ∃ order' state', (walk raw start.generation passes order stack).Ends state order' state' ∧
      Explored raw f index start order' [] state' := by
  induction passes generalizing order stack state
  case zero =>
    have := sum_refs_le raw w.once fun i mem =>
      f.length ▸ (w.reached i (List.mem_append_left _ mem)).right
    have : stack.length = 0 := by omega
    obtain rfl := List.length_eq_zero_iff.mp this
    exact ⟨order, state, by simp [TonNet.walk], w⟩
  case succ passes hi =>
    cases stack
    case nil => exact ⟨order, state, by simp [TonNet.walk], w⟩
    case cons position rest =>
      have ⟨order', stack', state', ends, w', change⟩ := w.visit
      have ⟨order'', state'', ends', w''⟩ := hi w' (by
        obtain ⟨rfl, rfl⟩ | ⟨rfl, length⟩ := change
        · rw [List.length_cons] at enough
          omega
        · rw [List.length_cons] at enough
          rw [length, List.map_append, List.sum_append, List.map_singleton, List.sum_singleton]
          omega)
      exact ⟨order'', state'', ends_bind.mpr ⟨_, _, ends, ends'⟩, w''⟩

-- A walk changes its marks and nothing else.
omit [Sha256] in
theorem visit_frame {generation position : Nat} {next : List Nat × List Nat}
    (h : (visit raw generation position order rest).Ends state next state') :
    ∃ seen, state' = { state with seen } := by
  have ⟨_, _, read, h⟩ := ends_bind.mp h
  obtain ⟨rfl, rfl⟩ := ends_get.mp read
  split at h
  case isTrue => exact ⟨_, (ends_pure.mp h).right.symm⟩
  case isFalse =>
    split at h
    case h_1 => exact ⟨_, (ends_pure.mp h).right.symm⟩
    case h_2 =>
      split at h
      case isTrue => exact ⟨_, (ends_pure.mp h).right.symm⟩
      case isFalse =>
        have ⟨_, _, marked, h⟩ := ends_bind.mp h
        have ⟨_, _, held, h⟩ := ends_bind.mp h
        obtain rfl := ends_set.mp marked
        obtain ⟨_, rfl⟩ := ends_okOr.mp held
        exact ⟨_, (ends_pure.mp h).right.symm⟩

omit [Sha256] in
theorem walk_frame {generation passes : Nat} {met : List Nat}
    (h : (walk raw generation passes order stack).Ends state met state') :
    ∃ seen, state' = { state with seen } := by
  induction passes generalizing order stack state
  case zero => exact ⟨_, (ends_pure.mp h).right.symm⟩
  case succ passes hi =>
    cases stack
    case nil => exact ⟨_, (ends_pure.mp h).right.symm⟩
    case cons position rest =>
      have ⟨_, _, visits, h⟩ := ends_bind.mp h
      obtain ⟨_, rfl⟩ := visit_frame visits
      obtain ⟨_, rfl⟩ := hi h
      exact ⟨_, rfl⟩

-- What a reader keeps between calls: cells with a value, each over cells that are kept too.
structure Build.Sound (raw : RawCells) (f : Forward raw.cells count) (state : Build) : Prop where
  kept   : ∃ done, (raw.graph f).Filled done state.built ∧
    ∀ i ∈ done, state.built[i]?.join.isSome
  length : state.seen.length = count
  marks  : ∀ mark ∈ state.seen, mark ≤ state.generation

theorem Build.Sound.new (raw : RawCells) (f : Forward raw.cells count) :
    (Build.new count).Sound raw f where
  kept   := ⟨[], Settle.Graph.Filled.init (raw.graph f), by simp⟩
  length := by simp [Build.new]
  marks  := by simp [Build.new]

-- No mark of an earlier walk is the mark of a new one.
theorem Build.Sound.openWalk (s : state.Sound raw f) (lt : index < count) :
    state.openWalk.built = state.built ∧
      Explored raw f index state.openWalk [] [index] state.openWalk := by
  have ⟨built, length, marks⟩ : state.openWalk.built = state.built ∧
      state.openWalk.seen.length = count ∧
      ∀ mark ∈ state.openWalk.seen, mark < state.openWalk.generation := by
    unfold Build.openWalk
    split
    case isTrue => exact ⟨rfl, s.length, fun mark mem => Nat.lt_succ_of_le (s.marks mark mem)⟩
    case isFalse => exact ⟨rfl, by simp [s.length], by simp⟩
  refine ⟨built, ?_⟩
  constructor
  case built => rfl
  case generation => rfl
  case length => exact length
  case marks => exact fun mark mem => (marks mark mem).le
  case met =>
    intro i
    refine iff_of_false (fun here => ?_) List.not_mem_nil
    exact lt_irrefl _ (marks _ (List.mem_of_getElem? here))
  case once => exact List.nodup_nil
  case new => simp
  case reached =>
    simp only [List.nil_append, List.mem_singleton, forall_eq]
    exact ⟨.refl index, lt⟩
  case found => simp
  case first => simp

-- The counters: a cell is held for every time one was built.
structure Build.Counts (state : Build) : Prop where
  held    : state.kept = state.built.countP Option.isSome
  once    : state.builds = state.kept
  counter : state.generation < 2 ^ 32

omit [Sha256] in
theorem Build.Counts.openWalk (c : state.Counts) : state.openWalk.Counts := by
  unfold Build.openWalk
  split
  case isTrue below => exact { c with counter := below }
  case isFalse => exact { c with counter := show 1 < 2 ^ 32 by decide }

omit [Sha256] in
theorem Build.Counts.keep {position : Nat} (c : state.Counts)
    (blank : state.built[position]? = some none) (cell : Cell) : (state.keep position cell).Counts := by
  have ⟨lt, here⟩ := List.getElem?_eq_some_iff.mp blank
  constructor
  case held => simp [Build.keep, List.countP_set, lt, here, c.held]
  case once => simp [Build.keep, blank, c.once]
  case counter => exact c.counter

theorem buildNext_ends {position : Nat} (f : Forward raw.cells count) (lowest : Lowest) (lt : position < count)
    (blank : state.built[position]? = some none) :
    ∃ lowest' state', (buildNext raw lowest position).Ends state lowest' state' ∧
      state'.built = state.built.set position (kept ((raw.graph f).one position state.built)) ∧
      lowest'.held = Settle.Graph.report lowest.held position ((raw.graph f).one position state.built) ∧
      state'.seen = state.seen ∧ state'.generation = state.generation ∧
      (state.Counts → state'.Counts) := by
  have same : state.built.set position none = state.built := by
    have ⟨lt, here⟩ := List.getElem?_eq_some_iff.mp blank
    rw [← here, List.set_getElem_self lt]
  have ⟨rawCell, here⟩ : ∃ rawCell, raw.cells[position]? = some rawCell :=
    ⟨_, List.getElem?_eq_getElem (f.length ▸ lt)⟩
  have one : (raw.graph f).one position state.built = buildOne rawCell raw.payload state.built := by
    show stepOver (buildOver raw.payload) raw.cells position state.built = _
    rw [← buildStep_eq, buildStep, here]
  rw [one]
  simp only [buildNext, ends_bind, ends_okOr, here, Option.some_inj, ends_get]
  rcases outcome : buildOne rawCell raw.payload state.built with e | _ | cell
  case error =>
    refine ⟨lowest.record position e, state, ⟨_, _, ⟨rfl, rfl⟩, _, _, ⟨rfl, rfl⟩, ?_⟩, ?_, ?_,
      rfl, rfl, id⟩
    · simp [outcome]
    · simp [kept, same]
    · exact Lowest.held_record ..
  case ok.none =>
    refine ⟨lowest, state, ⟨_, _, ⟨rfl, rfl⟩, _, _, ⟨rfl, rfl⟩, ?_⟩, ?_, rfl, rfl, rfl, id⟩
    · simp [outcome]
    · simp [kept, same]
  case ok.some =>
    refine ⟨lowest, state.keep position cell, ⟨_, _, ⟨rfl, rfl⟩, _, _, ⟨rfl, rfl⟩, ?_⟩, rfl,
      rfl, rfl, rfl, fun c => c.keep blank cell⟩
    simp [-bind_pure_comp, outcome, ends_bind]

theorem foldlM_buildNext {done : List Nat} (lowest : Lowest)
    (p : (raw.graph f).Pass done state.built lowest.held) (follows : (raw.graph f).Follows done order) :
    ∃ lowest' state', (order.foldlM (buildNext raw) lowest).Ends state lowest' state' ∧
      (raw.graph f).Pass (order.reverse ++ done) state'.built lowest'.held ∧
      state'.seen = state.seen ∧ state'.generation = state.generation ∧
      (state.Counts → state'.Counts) := by
  induction order generalizing state lowest done
  case nil => exact ⟨lowest, state, by simp, p, rfl, rfl, id⟩
  case cons position order hi =>
    have ⟨lt, new, ready, more⟩ := follows
    have ⟨lowest', state', ends, built, held, seen, generation, counts⟩ :=
      buildNext_ends f lowest lt (p.filled.blank position lt new)
    have p' : (raw.graph f).Pass (position :: done) state'.built lowest'.held := by
      rw [built, held]
      exact p.step lt new ready
    have ⟨lowest'', state'', ends', p'', seen', generation', counts'⟩ := hi lowest' p' more
    refine ⟨lowest'', state'', ?_, ?_, seen'.trans seen, generation'.trans generation,
      fun c => counts' (counts c)⟩
    · rw [List.foldlM_cons]
      exact ends_bind.mpr ⟨_, _, ends, ends'⟩
    · rw [List.reverse_cons, List.append_assoc]
      exact p''

-- The cells a walk met can follow those already kept, the last of the bag first.
theorem Explored.follows {done : List Nat} (w : Explored raw f index start order [] state)
    (kept : (raw.graph f).Filled done start.built) (valued : ∀ i ∈ done, start.built[i]?.join.isSome) :
    (raw.graph f).Follows done (order.insertionSort (· ≤ ·)).reverse := by
  have met (i : Nat) : i ∈ (order.insertionSort (· ≤ ·)).reverse ↔ i ∈ order := by
    rw [List.mem_reverse, (List.perm_insertionSort _ order).mem_iff]
  have within (i : Nat) (mem : i ∈ order) : i < count :=
    (w.reached i (List.mem_append_left _ mem)).right
  refine Settle.Graph.follows_of_split (fun i mem => within i ((met i).mp mem)) ?_
    (fun i mem old => w.new i ((met i).mp mem) (valued i old)) fun front i rest split j dep => ?_
  · rw [List.nodup_reverse, (List.perm_insertionSort _ order).nodup_iff]
    exact w.once
  · have mem : i ∈ order := (met i).mp (by rw [split]; simp)
    have ⟨after, _⟩ := (raw.graph f).forward i (within i mem) j dep
    have sorted : (front ++ i :: rest).Pairwise (· ≥ ·) := by
      rw [← split, List.pairwise_reverse]
      exact List.pairwise_insertionSort _ order
    obtain old | met' | ⟨⟨⟩⟩ := w.found i mem j dep
    · have ⟨_, lt⟩ := (raw.graph f).forward i (within i mem) j dep
      exact List.mem_append_right _ (kept.mem_of_isSome lt old)
    · refine List.mem_append_left _ ?_
      have here : j ∈ front ++ i :: rest := split ▸ (met j).mpr met'
      obtain front | rfl | rest := List.mem_append.mp here |>.imp_right List.mem_cons.mp
      · exact front
      · exact absurd after (lt_irrefl _)
      · have := (List.pairwise_cons.mp (List.pairwise_append.mp sorted).2.1).1 j rest
        omega

theorem buildAt_kept {cell : Cell} (lt : index < raw.cells.length)
    (held : state.get index = some cell) : (buildAt raw index).Ends state cell state := by
  simp [buildAt, ends_bind, lt, held]

theorem buildAt_walked {lowest : Lowest} {walked : Build} (lt : index < raw.cells.length)
    (held : state.get index = none)
    (walks : (walk raw state.openWalk.generation raw.passes [] [index]).Ends state.openWalk order walked)
    (builds : ((order.insertionSort (· ≤ ·)).reverse.foldlM (buildNext raw) {}).Ends walked lowest
      state') :
    (buildAt raw index).outcome state =
      (lowest.intoResult >>= fun _ => okOr (state'.get index) .badReference, state') := by
  have within : ¬index ≥ raw.cells.length := by omega
  rw [buildAt, outcome_bind_of_ends (a := ()) (ends_failIf.mpr ⟨within, rfl⟩),
    outcome_bind_of_ends (ends_get.mpr ⟨rfl, rfl⟩)]
  simp only [held]
  rw [outcome_bind_of_ends (a := ()) (ends_set.mpr rfl), outcome_bind_of_ends walks,
    outcome_bind_of_ends builds, outcome_bind, outcome_ofExcept]
  cases lowest.intoResult
  case error => rfl
  case ok =>
    show (get >>= fun state => okOr (state.get index) _ : Method Build CellError Cell).outcome _ = _
    rw [outcome_bind_of_ends (ends_get.mpr ⟨rfl, rfl⟩)]
    cases state'.get index <;> rfl

-- What fails below a position was met by the walk, because what is kept leads to no failure.
theorem Explored.meets {slots : List (Option Cell)} {i j : Nat} {e : CellError}
    (w : Explored raw f index start order [] state) (full : (raw.graph f).Settled slots)
    (kept : ∀ i < count, start.built[i]?.join.isSome → start.built[i]? = slots[i]?) (lt : i < count)
    (first : start.built[i]?.join.isSome ∨ i ∈ order) (reached : (raw.graph f).Reaches i j)
    (fails : (raw.graph f).one j slots = .error e) : j ∈ order := by
  have valued {i : Nat} (lt : i < count) (h : start.built[i]?.join.isSome) :
      ¬(raw.graph f).Reaches i j := by
    have ⟨cell, here⟩ := Option.isSome_iff_exists.mp h
    rw [kept i lt h, Option.join_eq_some_iff] at here
    exact fun reached => (full.value_iff lt).mp ⟨cell, here⟩ j reached e fails
  induction reached
  case refl i => exact first.resolve_left fun old => valued lt old (.refl i)
  case step i k _ dep rest hi =>
    have met := first.resolve_left fun old => valued lt old (.step dep rest)
    have next := w.found i met k dep
    rw [or_iff_left List.not_mem_nil] at next
    exact hi ((raw.graph f).forward i lt k dep).right next fails valued

-- What a build over the cells a walk met reports: the value, or the lowest failure below it.
theorem Explored.comes {slots : List (Option Cell)} {done : List Nat} {lowest : Lowest}
    (w : Explored raw f index start order [] state) (full : (raw.graph f).Settled slots)
    (filled : (raw.graph f).Filled done start.built)
    (valued : ∀ i ∈ done, start.built[i]?.join.isSome)
    (p : (raw.graph f).Pass (order.insertionSort (· ≤ ·) ++ done) state'.built lowest.held)
    (here : index ∈ order) (lt : index < count) : (raw.graph f).Comes slots index
      (lowest.intoResult >>= fun _ => okOr (state'.get index) .badReference) := by
  have met (i : Nat) : i ∈ order.insertionSort (· ≤ ·) ++ done ↔ i ∈ order ∨ i ∈ done := by
    rw [List.mem_append, (List.perm_insertionSort _ order).mem_iff]
  have agree := p.filled.agree full
  have one {i : Nat} (mem : i ∈ order.insertionSort (· ≤ ·) ++ done) :
      (raw.graph f).one i state'.built = (raw.graph f).one i slots :=
    (raw.graph f).reads i _ _ fun j dep => agree j (p.filled.closed i mem dep)
  have meets {j : Nat} {e : CellError} (reached : (raw.graph f).Reaches index j)
      (fails : (raw.graph f).one j slots = .error e) :
      ∃ first, lowest.held = some first ∧ first.1 ≤ j := by
    have old (i : Nat) (lt : i < count) (h : start.built[i]?.join.isSome) :=
      filled.agree full i (filled.mem_of_isSome lt h)
    have mem := (met j).mpr (.inl (w.meets full old lt (.inr here) reached fails))
    exact p.lowest.least j mem e ((one mem).trans fails)
  cases first : lowest.held
  case none =>
    obtain ⟨cell, value⟩ := (full.value_iff lt).mpr fun j reached e fails => by
      obtain ⟨_, absent, _⟩ := meets reached fails
      cases first.symm.trans absent
    have built := (agree index ((met index).mpr (.inl here))).trans value
    rw [Build.get_eq_some.mpr built, Lowest.intoResult, first]
    exact value
  case some first' =>
    obtain ⟨mem, fails⟩ := p.lowest.fails first' first
    have new : first'.1 ∈ order := ((met first'.1).mp mem).resolve_right fun old => by
      have value := valued first'.1 old
      rw [filled.agree full _ old, ← agree _ mem, p.filled.holds _ mem, fails] at value
      cases value
    rw [Lowest.intoResult, first]
    refine ⟨first'.1, (w.reached _ (List.mem_append_left _ new)).left, (one mem).symm.trans fails,
      fun k reached e fails => ?_⟩
    obtain ⟨_, found, le⟩ := meets reached fails
    obtain rfl := Option.some_inj.mp (first.symm.trans found)
    exact le

-- A kept cell, or one that is built now: in both cases what it comes to in the whole bag.
theorem buildAt_outcome {slots : List (Option Cell)} (s : state.Sound raw f)
    (full : (raw.graph f).Settled slots) (lt : index < count) :
    ∃ result state', (buildAt raw index).outcome state = (result, state') ∧
      (raw.graph f).Comes slots index result ∧ state'.Sound raw f ∧
      (state.Counts → state'.Counts) := by
  have ⟨done, filled, valued⟩ := s.kept
  have within : index < raw.cells.length := f.length ▸ lt
  cases held : state.get index
  case some cell =>
    have old := Build.get_eq_some.mp held
    have mem : index ∈ done := filled.mem_of_isSome lt (by rw [old]; rfl)
    refine ⟨.ok cell, state, buildAt_kept within held, ?_, s, id⟩
    exact (filled.agree full index mem).symm.trans old
  case none =>
    have ⟨same, opened⟩ := s.openWalk lt
    have ⟨order, walked, walks, w⟩ := opened.walk raw.passes (by simp; omega)
    rw [← same] at filled valued
    have init : (raw.graph f).Pass done walked.built none := by
      rw [w.built]
      refine ⟨filled, ⟨nofun, fun i mem e fails => ?_⟩⟩
      have value := valued i mem
      rw [filled.holds i mem, fails] at value
      cases value
    have ⟨lowest, state', builds, p, seen, generation, counts⟩ :=
      foldlM_buildNext {} init (w.follows filled valued)
    rw [List.reverse_reverse] at p
    have sound : state'.Sound raw f := {
      kept   := ⟨_, p.filled.valued, fun i mem => (List.mem_filter.mp mem).right⟩
      length := by rw [seen, w.length]
      marks  := by
        rw [seen, generation, w.generation]
        exact w.marks
    }
    have here : index ∈ order := by
      obtain old | met | ⟨⟨⟩⟩ := w.first
      · rw [same, show state.built[index]?.join = none from held] at old
        cases old
      · exact met
    refine ⟨_, state', buildAt_walked within held walks builds, w.comes full filled valued p here lt,
      sound, fun c => counts ?_⟩
    obtain ⟨_, rfl⟩ := walk_frame walks
    exact { c.openWalk with }

theorem buildAt_ends {slots : List (Option Cell)} (s : state.Sound raw f)
    (full : (raw.graph f).Settled slots) (lt : index < count) :
    ∃ state', state'.Sound raw f ∧ ∀ cell t, (buildAt raw index).Ends state cell t ↔
      slots[index]? = some (some cell) ∧ state' = t := by
  have ⟨result, state', run, comes, sound, _⟩ := buildAt_outcome s full lt
  refine ⟨state', sound, fun cell t => ?_⟩
  rw [Ends, run, Prod.mk.injEq]
  refine and_congr_left fun _ => ⟨fun e => ?_, fun here => ?_⟩
  · rw [e] at comes
    exact comes
  · exact full.comes_unique lt comes here

theorem mapM_buildAt {slots : List (Option Cell)} {indices : List Nat} {cells : List Cell}
    (s : state.Sound raw f) (full : (raw.graph f).Settled slots)
    (within : ∀ index ∈ indices, index < count) :
    (indices.mapM (buildAt raw)).value state = .ok cells ↔
      List.Forall₂ (fun index cell => slots[index]? = some (some cell)) indices cells := by
  induction indices generalizing state cells
  case nil => cases cells <;> simp [value_eq_ok]
  case cons index indices hi =>
    obtain ⟨lt, within⟩ := List.forall_mem_cons.mp within
    obtain ⟨state', s', ends⟩ := buildAt_ends s full lt
    simp only [value_eq_ok] at hi ⊢
    simp only [List.mapM_cons, ends_bind, ends, ends_pure, List.forall₂_cons_left_iff]
    constructor
    · rintro ⟨_, cell, _, ⟨here, rfl⟩, cells, t, rest, rfl, rfl⟩
      exact ⟨cell, cells, here, (hi s' within).mp ⟨t, rest⟩, rfl⟩
    · rintro ⟨cell, cells, here, rest, rfl⟩
      obtain ⟨t, rest⟩ := (hi s' within).mpr rest
      exact ⟨t, cell, state', ⟨here, rfl⟩, cells, t, rest, rfl, rfl⟩

variable {bytes : Bytes} {cells : List Cell}

omit [Sha256] in
theorem readHeader_place {options : ParseOptions} {header : Header} {r : Reader}
    (ends : (readHeader bytes options).Ends ⟨bytes, 0⟩ header r) : r = ⟨bytes, header.bodyOffset⟩ := by
  have spec := readHeader_ends ends
  rw [← spec.bytes_eq, ← spec.pos]

-- Opening a bag asks that it reads, down to how tall its cells are.
omit [Sha256] in
theorem LazyBoc.openWith_eq_ok {options : ParseOptions} {boc : LazyBoc} :
    openWith bytes options = .ok boc ↔ ∃ header raw height, ReadBag bytes options header raw ∧
      heights raw header.count = .ok height ∧ ⟨header, ⟨raw, bytes⟩, .new header.count⟩ = boc := by
  simp only [openWith, bind_eq_ok, pure_eq_ok, value_eq_ok, readCells, ends_bind, ends_get,
    ends_ofExcept, ends_pure]
  constructor
  · rintro ⟨header, ⟨r, headerRead⟩, _, ⟨_, _, _, ⟨rfl, rfl⟩, raw, r', rawRead, height, _,
      ⟨tall, rfl⟩, rfl, rfl⟩, rfl⟩
    exact ⟨header, raw, height, ⟨r, r', headerRead, readHeader_place headerRead ▸ rawRead⟩, tall, rfl⟩
  · rintro ⟨header, raw, height, ⟨r, r', headerRead, rawRead⟩, tall, rfl⟩
    rw [readHeader_place headerRead] at rawRead
    exact ⟨header, ⟨r, headerRead⟩, _, ⟨r', _, _, ⟨rfl, rfl⟩, raw, r', rawRead, height, r',
      ⟨tall, rfl⟩, rfl, rfl⟩, rfl⟩

-- Opening a bag and building its roots asks that it reads and that its roots can be built.
theorem lazyRoots_eq_ok : lazyRoots bytes = .ok cells ↔
    ∃ header raw height, ReadBag bytes {} header raw ∧ heights raw header.count = .ok height ∧
      List.Forall₂ (Builds (buildOver bytes) raw) header.rootList cells := by
  have built (header : Header) (raw : List RawCell) (height : List Nat)
      (read : ReadBag bytes {} header raw) (tall : heights raw header.count = .ok height) :
      (LazyBoc.roots ⟨header, ⟨raw, bytes⟩, .new header.count⟩).value (.new header.count) = .ok cells ↔
        List.Forall₂ (Builds (buildOver bytes) raw) header.rootList cells := by
    have named := read.named
    have f : Forward (RawCells.mk raw bytes).cells header.count := read.forward
    let held := finalize (stepOver (buildOver bytes) raw) header.count (.byHeight height)
    have verdict : (bagGraph (buildOver bytes) f).Verdict held.slots held.lowest.held :=
      finalize_verdict f (heights_known f tall)
    have full := verdict.settled
    refine (mapM_buildAt (Build.Sound.new ⟨raw, bytes⟩ f) full named).trans ⟨fun all => ?_, fun all => ?_⟩
    · exact all.imp_mem fun index mem cell _ => settled_builds full index (named index mem) cell
    · exact all.imp fun index cell => settled_of_builds full
  rw [lazyRoots, bind_eq_ok]
  simp only [LazyBoc.openWith_eq_ok]
  constructor
  · rintro ⟨_, ⟨header, raw, height, read, tall, rfl⟩, ends⟩
    exact ⟨header, raw, height, read, tall, (built header raw height read tall).mp ends⟩
  · rintro ⟨header, raw, height, read, tall, all⟩
    exact ⟨_, ⟨header, raw, height, read, tall, rfl⟩, (built header raw height read tall).mpr all⟩

end

-- A cell that a root of the bag is or leads to.
def Reached (header : Header) (raw : List RawCell) (index : Nat) : Prop :=
  ∃ root ∈ header.rootList, Relation.ReflTransGen (fun i j => j ∈ refsAt raw i) root index

-- A cell that has a value leads to no cell that fails.
theorem Builds.sound {α : Type} {finish : RawCell → List α → Except CellError α}
    {raw : List RawCell} {root index : Nat} {value : α} {e : CellError} (b : Builds finish raw root value)
    (r : Relation.ReflTransGen (fun i j => j ∈ refsAt raw i) root index) :
    ¬FailsAlone finish raw index e := by
  induction r using Relation.ReflTransGen.head_induction_on generalizing value
  case refl =>
    intro ⟨_, values', here', refs', fails⟩
    obtain ⟨here, length, refs, finished⟩ := b
    obtain rfl := Option.some_inj.mp (here.symm.trans here')
    have same := List.ext_getElem (length.symm.trans refs'.length_eq) fun i lt lt' =>
      have target := List.getElem?_eq_getElem (length ▸ lt)
      (refs i _ _ target (List.getElem?_eq_getElem lt)).unique
        (refs'.at_index target (List.getElem?_eq_getElem lt'))
    rw [← same, finished] at fails
    cases fails
  case head target named _ hi =>
    obtain ⟨here, length, refs, finished⟩ := b
    rw [refsAt_eq here] at named
    have ⟨i, lt, target⟩ := List.getElem_of_mem named
    exact hi (refs i _ _ (List.getElem?_eq_some_iff.mpr ⟨lt, target⟩)
      (List.getElem?_eq_getElem (length ▸ lt)))

section

variable [Sha256] {bytes : Bytes} {header : Header} {raw : List RawCell} {index : Nat}
  {cells : List Cell} {e : CellError}

theorem lazyRoots_sound (ok : lazyRoots bytes = .ok cells) (read : ReadBag bytes {} header raw)
    (fails : FailsAlone (buildOver bytes) raw index e) : ¬Reached header raw index := by
  intro ⟨root, mem, path⟩
  have ⟨_, _, _, read', _, all⟩ := lazyRoots_eq_ok.mp ok
  obtain ⟨rfl, rfl⟩ := read.unique read'
  have ⟨i, here⟩ := List.getElem?_of_mem mem
  have ⟨_, _, b⟩ := all.exists_right here
  exact b.sound path fails

theorem parseBoc_eq_lazyRoots : parseBoc bytes = .ok cells ↔ lazyRoots bytes = .ok cells ∧
    ∀ header raw, ReadBag bytes {} header raw →
      ∀ index e, ¬FailsAlone (buildOver bytes) raw index e := by
  refine parseBocWith_eq_ok_iff.trans ⟨?_, ?_⟩
  · rintro ⟨header, raw, height, read, tall, all, sound⟩
    refine ⟨lazyRoots_eq_ok.mpr ⟨header, raw, height, read, tall, all⟩, fun _ _ read' => ?_⟩
    obtain ⟨rfl, rfl⟩ := read.unique read'
    exact sound
  · rintro ⟨ok, sound⟩
    have ⟨header, raw, height, read, tall, all⟩ := lazyRoots_eq_ok.mp ok
    exact ⟨header, raw, height, read, tall, all, sound header raw read⟩

theorem lazyRoots_refines (bytes : Bytes) :
    (∀ cells, parseBoc bytes = .ok cells ↔ lazyRoots bytes = .ok cells ∧
      ∀ header raw, ReadBag bytes {} header raw →
        ∀ index e, ¬FailsAlone (buildOver bytes) raw index e) ∧
    (∀ cells e, lazyRoots bytes = .ok cells → parseBoc bytes = .error e →
      ∃ header raw index, ReadBag bytes {} header raw ∧ FailsAlone (buildOver bytes) raw index e ∧
        ¬Reached header raw index) ∧
    ∀ header raw index e, ReadBag bytes {} header raw → FailsAlone (buildOver bytes) raw index e →
      Reached header raw index →
        (∀ cells, parseBoc bytes ≠ .ok cells) ∧ ∀ cells, lazyRoots bytes ≠ .ok cells := by
  refine ⟨fun _ => parseBoc_eq_lazyRoots, fun cells e ok fails => ?_,
    fun header raw index e read fails reached => ⟨fun cells ok => ?_, fun cells ok => ?_⟩⟩
  · obtain ⟨header, raw, height, read, tall, _⟩ := lazyRoots_eq_ok.mp ok
    rw [parseBoc, parseBocWith_eq_buildPlanned read tall, buildPlanned_eq] at fails
    obtain ⟨index, alone, _⟩ := conclude_error
      (finalize_verdict read.forward (heights_known read.forward tall)) read.named fails
    exact ⟨header, raw, index, read, alone, lazyRoots_sound ok read alone⟩
  · exact (parseBoc_eq_lazyRoots.mp ok).right header raw read index e fails
  · exact lazyRoots_sound ok read fails reached

end

section Stray

-- An empty root, and a cell nothing names that claims a level its contents do not give it.
def strayBag : Bytes :=
  .be 15 0xb5ee9c720101020100040000002000

attribute [local instance] Sha256.standard

def strayRun : Option (List Nat × Bool) := do
  let cells ← (lazyRoots strayBag).toOption
  return (cells.map Cell.bits, (parseBoc strayBag).toOption.isSome)

theorem stray_read : ∃ cells e, lazyRoots strayBag = .ok cells ∧ parseBoc strayBag = .error e := by
  have run : strayRun = some ([0], false) := by decide +kernel
  simp only [strayRun, Option.bind_eq_bind, Option.bind_eq_some_iff, toOption_eq_some,
    Option.pure_def, Option.some_inj, Prod.mk.injEq] at run
  obtain ⟨cells, ok, _, fails⟩ := run
  cases parsed : parseBoc strayBag
  case error e => exact ⟨cells, e, ok, rfl⟩
  case ok => simp [parsed, Except.toOption] at fails

theorem lazyRoots_strayBag :
    ¬((∃ cells, lazyRoots strayBag = .ok cells) ↔ ∃ cells, parseBoc strayBag = .ok cells) := by
  have ⟨cells, e, ok, fails⟩ := stray_read
  intro same
  have ⟨_, parsed⟩ := same.mp ⟨cells, ok⟩
  cases fails.symm.trans parsed

theorem lazyRoots_refines_strayBag : ∃ header raw index e, ReadBag strayBag {} header raw ∧
    FailsAlone (buildOver strayBag) raw index e ∧ ¬Reached header raw index := by
  have ⟨cells, e, ok, fails⟩ := stray_read
  have ⟨header, raw, index, stray⟩ := (lazyRoots_refines strayBag).2.1 cells e ok fails
  exact ⟨header, raw, index, e, stray⟩

end Stray

end TonNet
