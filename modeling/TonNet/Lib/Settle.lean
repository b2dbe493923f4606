import TonNet.Lib.Lists

-- Positions whose values follow from the values at later positions, and the passes that fill in
-- those values. A value can fail to exist, at its own position or at one it depends on.

namespace Settle

variable {ε α β : Type}

-- What an outcome leaves in its slot.
def kept : Except ε (Option α) → Option α
  | .ok value => value
  | .error _  => none

theorem kept_eq_some {outcome : Except ε (Option α)} {value : α} :
    kept outcome = some value ↔ outcome = .ok (some value) := by
  cases outcome <;> simp [kept]

structure Graph (ε α : Type) where
  count   : Nat
  deps    : Nat → List Nat
  one     : Nat → List (Option α) → Except ε (Option α)
  forward : ∀ i < count, ∀ j ∈ deps i, i < j ∧ j < count
  reads   : ∀ i (slots slots' : List (Option α)),
    (∀ j ∈ deps i, slots[j]? = slots'[j]?) → one i slots = one i slots'
  skips   : ∀ i (slots : List (Option α)), (∀ j ∈ deps i, j < slots.length) →
    (one i slots = .ok none ↔ ∃ j ∈ deps i, slots[j]? = some none)

namespace Graph

variable {g : Graph ε α} {slots slots' : List (Option α)} {done : List Nat} {i : Nat}

-- Every slot holds what its own outcome leaves there.
structure Settled (g : Graph ε α) (slots : List (Option α)) : Prop where
  length : slots.length = g.count
  holds  : ∀ i < g.count, slots[i]? = some (kept (g.one i slots))

-- The slots after the positions in `done` were filled, each after those it depends on.
structure Filled (g : Graph ε α) (done : List Nat) (slots : List (Option α)) : Prop where
  length : slots.length = g.count
  within : ∀ i ∈ done, i < g.count
  closed : ∀ i ∈ done, g.deps i ⊆ done
  holds  : ∀ i ∈ done, slots[i]? = some (kept (g.one i slots))
  blank  : ∀ i < g.count, i ∉ done → slots[i]? = some none

-- There is only one way to fill a slot, because dependencies point forward.
theorem Filled.agree (f : g.Filled done slots) (h : g.Settled slots') :
    ∀ i ∈ done, slots[i]? = slots'[i]? := by
  have main (k : Nat) : ∀ i ∈ done, g.count - i ≤ k → slots[i]? = slots'[i]? := by
    induction k
    case zero =>
      intro i mem le
      have := f.within i mem
      omega
    case succ k hi =>
      intro i mem le
      have lt := f.within i mem
      rw [f.holds i mem, h.holds i lt, g.reads i slots slots' fun j hj => ?_]
      have ⟨after, within⟩ := g.forward i lt j hj
      exact hi j (f.closed i mem hj) (by omega)
  exact fun i mem => main _ i mem le_rfl

theorem Settled.filled (h : g.Settled slots) : g.Filled (List.range g.count) slots where
  length := h.length
  within := fun _ => List.mem_range.mp
  closed := fun i mem j hj => List.mem_range.mpr (g.forward i (List.mem_range.mp mem) j hj).right
  holds  := fun i mem => h.holds i (List.mem_range.mp mem)
  blank  := fun _ lt new => absurd (List.mem_range.mpr lt) new

theorem Settled.unique (h : g.Settled slots) (h' : g.Settled slots') : slots = slots' := by
  apply List.ext_getElem?
  intro i
  by_cases lt : i < g.count
  case pos => exact h.filled.agree h' i (List.mem_range.mpr lt)
  case neg => rw [List.getElem?_eq_none (by rw [h.length]; omega),
    List.getElem?_eq_none (by rw [h'.length]; omega)]

theorem Filled.init (g : Graph ε α) : g.Filled [] (List.replicate g.count none) where
  length := by simp
  within := by simp
  closed := by simp
  holds  := by simp
  blank  := fun i lt _ => by simp [lt]

-- Filling one more position leaves the outcome of every position before it as it was.
theorem Filled.one_set (f : g.Filled done slots) (new : i ∉ done) {j : Nat} (old : j ∈ done)
    (value : Option α) : g.one j (slots.set i value) = g.one j slots := by
  apply g.reads
  intro k hk
  have : i ≠ k := by
    rintro rfl
    exact new (f.closed j old hk)
  rw [List.getElem?_set_ne this]

-- No position depends on itself.
theorem one_set_self (lt : i < g.count) (value : Option α) :
    g.one i (slots.set i value) = g.one i slots := by
  apply g.reads
  intro k hk
  have ⟨after, _⟩ := g.forward i lt k hk
  rw [List.getElem?_set_ne (by omega)]

theorem Filled.step (f : g.Filled done slots) (lt : i < g.count) (new : i ∉ done)
    (ready : g.deps i ⊆ done) : g.Filled (i :: done) (slots.set i (kept (g.one i slots))) where
  length := by rw [List.length_set, f.length]
  within := List.forall_mem_cons.mpr ⟨lt, f.within⟩
  closed := List.forall_mem_cons.mpr ⟨List.subset_cons_of_subset _ ready,
    fun j old => List.subset_cons_of_subset _ (f.closed j old)⟩
  holds := by
    refine List.forall_mem_cons.mpr ⟨?_, fun j old => ?_⟩
    · rw [one_set_self lt, List.getElem?_set_self (by rw [f.length]; exact lt)]
    · have : i ≠ j := fun e => new (e ▸ old)
      rw [f.one_set new old, List.getElem?_set_ne this, f.holds j old]
  blank := by
    intro j hj fresh
    have ⟨ne, fresh⟩ := List.ne_and_not_mem_of_not_mem_cons fresh
    rw [List.getElem?_set_ne ne.symm, f.blank j hj fresh]

-- The filled positions that have a value are filled on their own.
theorem Filled.valued (f : g.Filled done slots) :
    g.Filled (done.filter fun i => slots[i]?.join.isSome) slots where
  length := f.length
  within := fun i mem => f.within i (List.mem_of_mem_filter mem)
  closed := by
    intro i mem j dep
    have ⟨old, value⟩ := List.mem_filter.mp mem
    have later := f.closed i old dep
    refine List.mem_filter.mpr ⟨later, ?_⟩
    have lt := f.length ▸ f.within j later
    cases held : slots[j]
    case some => simp [lt, held]
    case none =>
      have inside : ∀ k ∈ g.deps i, k < slots.length := fun k hk =>
        f.length ▸ f.within k (f.closed i old hk)
      have skip := (g.skips i slots inside).mpr ⟨j, dep, by simp [lt, held]⟩
      rw [f.holds i old, skip] at value
      cases value
  holds  := fun i mem => f.holds i (List.mem_of_mem_filter mem)
  blank  := by
    intro i lt out
    by_cases old : i ∈ done
    case neg => exact f.blank i lt old
    case pos =>
      have within := f.length ▸ lt
      cases held : slots[i]
      case none => simp [within, held]
      case some => exact absurd (List.mem_filter.mpr ⟨old, by simp [within, held]⟩) out

theorem Filled.mem_of_isSome (f : g.Filled done slots) (lt : i < g.count)
    (h : slots[i]?.join.isSome) : i ∈ done :=
  Classical.byContradiction fun out => by
    rw [f.blank i lt out] at h
    cases h

theorem Filled.settled (f : g.Filled done slots) (all : ∀ i < g.count, i ∈ done) :
    g.Settled slots :=
  ⟨f.length, fun i lt => f.holds i (all i lt)⟩

-- Keeping the failure at the lower position.
def lower (held : Option (Nat × ε)) (i : Nat) (e : ε) : Option (Nat × ε) :=
  match held with
  | none        => some (i, e)
  | some (j, _) => if i < j then some (i, e) else held

theorem lower_eq_some {held : Option (Nat × ε)} {e : ε} {first : Nat × ε}
    (h : lower held i e = some first) : first = (i, e) ∨ held = some first := by
  unfold lower at h
  split at h
  case h_1 => exact .inl (Option.some_inj.mp h).symm
  case h_2 =>
    split at h
    case isTrue => exact .inl (Option.some_inj.mp h).symm
    case isFalse => exact .inr h

theorem lower_le (held : Option (Nat × ε)) (i : Nat) (e : ε) :
    ∃ first, lower held i e = some first ∧ first.1 ≤ i ∧ ∀ old, held = some old → first.1 ≤ old.1 := by
  cases held
  case none => exact ⟨(i, e), rfl, le_rfl, nofun⟩
  case some old =>
    by_cases lt : i < old.1
    case pos =>
      refine ⟨(i, e), by simp [lower, lt], le_rfl, fun _ same => ?_⟩
      exact Option.some_inj.mp same ▸ le_of_lt lt
    case neg =>
      refine ⟨old, by simp [lower, lt], not_lt.mp lt, fun _ same => ?_⟩
      exact Option.some_inj.mp same ▸ le_rfl

def report (held : Option (Nat × ε)) (i : Nat) : Except ε (Option α) → Option (Nat × ε)
  | .ok _    => held
  | .error e => lower held i e

-- The failure at the lowest of the positions filled so far.
structure Lowest (g : Graph ε α) (done : List Nat) (slots : List (Option α))
    (held : Option (Nat × ε)) : Prop where
  fails : ∀ first, held = some first → first.1 ∈ done ∧ g.one first.1 slots = .error first.2
  least : ∀ j ∈ done, ∀ e, g.one j slots = .error e → ∃ first, held = some first ∧ first.1 ≤ j

namespace Lowest

variable {held held' : Option (Nat × ε)}

theorem init : g.Lowest [] slots none where
  fails := by simp
  least := by simp

theorem congr (l : g.Lowest done slots held) (h : ∀ i ∈ done, g.one i slots' = g.one i slots) :
    g.Lowest done slots' held where
  fails first hh := by
    have ⟨mem, fails⟩ := l.fails first hh
    exact ⟨mem, (h first.1 mem).trans fails⟩
  least j hj e he := l.least j hj e ((h j hj).symm.trans he)

theorem add (l : g.Lowest done slots held) :
    g.Lowest (i :: done) slots (report held i (g.one i slots)) := by
  cases outcome : g.one i slots
  case ok value =>
    constructor
    case fails =>
      intro first hh
      have ⟨mem, fails⟩ := l.fails first hh
      exact ⟨List.mem_cons_of_mem _ mem, fails⟩
    case least =>
      refine List.forall_mem_cons.mpr ⟨fun e he => ?_, l.least⟩
      cases outcome.symm.trans he
  case error e =>
    have ⟨first, now, le, least⟩ := lower_le held i e
    constructor
    case fails =>
      intro first' hh
      cases lower_eq_some hh
      case inl e => exact e ▸ ⟨List.mem_cons_self, outcome⟩
      case inr old =>
        have ⟨mem, fails⟩ := l.fails first' old
        exact ⟨List.mem_cons_of_mem _ mem, fails⟩
    case least =>
      refine List.forall_mem_cons.mpr ⟨fun _ _ => ⟨first, now, le⟩, fun j hj e' he => ?_⟩
      have ⟨old, was, le'⟩ := l.least j hj e' he
      exact ⟨first, now, le_trans (least old was) le'⟩

theorem unique (l : g.Lowest done slots held) {done' : List Nat} (l' : g.Lowest done' slots held')
    (same : ∀ i, i ∈ done ↔ i ∈ done') : held = held' := by
  cases held
  case none =>
    cases held'
    case none => rfl
    case some first =>
      have ⟨mem, fails⟩ := l'.fails first rfl
      have ⟨_, absent, _⟩ := l.least _ ((same _).mpr mem) _ fails
      cases absent
  case some first =>
    have ⟨mem, fails⟩ := l.fails first rfl
    have ⟨first', there, le⟩ := l'.least _ ((same _).mp mem) _ fails
    have ⟨mem', fails'⟩ := l'.fails first' there
    have ⟨_, here, le'⟩ := l.least _ ((same _).mpr mem') _ fails'
    obtain rfl := Option.some_inj.mp here
    have index : first.1 = first'.1 := le_antisymm le' le
    rw [← index, fails, Except.error.injEq] at fails'
    rw [there, Prod.ext index fails']

end Lowest

-- A pass that has filled some of the positions and holds the failure it would report.
structure Pass (g : Graph ε α) (done : List Nat) (slots : List (Option α))
    (held : Option (Nat × ε)) : Prop where
  filled : g.Filled done slots
  lowest : g.Lowest done slots held

theorem Pass.init (g : Graph ε α) : g.Pass [] (List.replicate g.count none) none :=
  ⟨.init g, .init⟩

theorem Pass.step {held : Option (Nat × ε)} (p : g.Pass done slots held) (lt : i < g.count)
    (new : i ∉ done) (ready : g.deps i ⊆ done) :
    g.Pass (i :: done) (slots.set i (kept (g.one i slots))) (report held i (g.one i slots)) where
  filled := p.filled.step lt new ready
  lowest := p.lowest.add.congr <| List.forall_mem_cons.mpr
    ⟨one_set_self lt _, fun _ old => p.filled.one_set new old _⟩

-- An order in which the positions can follow those already filled.
def Follows (g : Graph ε α) (done : List Nat) : List Nat → Prop
  | []        => True
  | i :: rest => i < g.count ∧ i ∉ done ∧ g.deps i ⊆ done ∧ g.Follows (i :: done) rest

theorem Follows.of_append {order rest : List Nat} (f : g.Follows done (order ++ rest)) :
    g.Follows done order ∧ g.Follows (order.reverse ++ done) rest := by
  induction order generalizing done
  case nil => exact ⟨trivial, f⟩
  case cons i order hi =>
    have ⟨lt, new, ready, more⟩ := f
    have ⟨front, back⟩ := hi more
    refine ⟨⟨lt, new, ready, front⟩, ?_⟩
    rw [List.reverse_cons, List.append_assoc]
    exact back

theorem Follows.deps_subset {order : List Nat} (f : g.Follows done order) (mem : i ∈ order) :
    g.deps i ⊆ order ++ done := by
  induction order generalizing done
  case nil => cases mem
  case cons j order hi =>
    have ⟨_, _, ready, more⟩ := f
    cases List.mem_cons.mp mem
    case inl e =>
      subst e
      exact List.Subset.trans ready (List.subset_append_right ..)
    case inr mem =>
      intro k hk
      have := hi more mem hk
      simp only [List.mem_append, List.mem_cons] at this ⊢
      tauto

-- A list of all positions, each once and behind those it depends on.
theorem follows_of_split {order : List Nat} (within : ∀ i ∈ order, i < g.count)
    (once : order.Nodup) (new : ∀ i ∈ order, i ∉ done)
    (after : ∀ front i rest, order = front ++ i :: rest → g.deps i ⊆ front ++ done) :
    g.Follows done order := by
  induction order generalizing done
  case nil => trivial
  case cons i order hi =>
    have ⟨fresh, once⟩ := List.nodup_cons.mp once
    have ⟨lt, within⟩ := List.forall_mem_cons.mp within
    have ⟨here, new⟩ := List.forall_mem_cons.mp new
    refine ⟨lt, here, after [] i order rfl, hi within once (fun j hj => ?_) fun front j rest e => ?_⟩
    · rw [List.mem_cons, not_or]
      exact ⟨fun e => fresh (e ▸ hj), new j hj⟩
    · refine List.Subset.trans (after (i :: front) j rest (by rw [e]; rfl)) ?_
      intro k hk
      simp only [List.mem_append, List.mem_cons] at hk ⊢
      tauto

-- What every complete pass ends with, whatever its order.
structure Verdict (g : Graph ε α) (slots : List (Option α)) (held : Option (Nat × ε)) : Prop where
  settled : g.Settled slots
  lowest  : g.Lowest (List.range g.count) slots held

theorem Pass.verdict {held : Option (Nat × ε)} (p : g.Pass done slots held)
    (all : ∀ i < g.count, i ∈ done) : g.Verdict slots held where
  settled := p.filled.settled all
  lowest  := {
    fails := fun first hh =>
      have ⟨mem, fails⟩ := p.lowest.fails first hh
      ⟨List.mem_range.mpr (p.filled.within _ mem), fails⟩
    least := fun j hj => p.lowest.least j (all j (List.mem_range.mp hj))
  }

theorem Verdict.unique {held held' : Option (Nat × ε)} (v : g.Verdict slots held)
    (v' : g.Verdict slots' held') : slots = slots' ∧ held = held' := by
  obtain rfl := v.settled.unique v'.settled
  exact ⟨rfl, v.lowest.unique v'.lowest fun _ => Iff.rfl⟩

-- Some position on a path of dependencies from `i`.
inductive Reaches (g : Graph ε α) : Nat → Nat → Prop
  | refl (i : Nat) : g.Reaches i i
  | step {i j k : Nat} (dep : j ∈ g.deps i) (rest : g.Reaches j k) : g.Reaches i k

theorem Reaches.lt {j : Nat} (r : g.Reaches i j) (lt : i < g.count) : j < g.count := by
  induction r
  case refl => exact lt
  case step dep _ hi => exact hi (g.forward _ lt _ dep).right

theorem Reaches.tail {j k : Nat} (r : g.Reaches i j) (dep : k ∈ g.deps j) : g.Reaches i k := by
  induction r
  case refl => exact .step dep (.refl k)
  case step first _ hi => exact .step first (hi dep)

-- A position has a value exactly when nothing it reaches fails on its own.
theorem Settled.value_iff (h : g.Settled slots) (lt : i < g.count) :
    (∃ value, slots[i]? = some (some value)) ↔
      ∀ j, g.Reaches i j → ∀ e, g.one j slots ≠ .error e := by
  have inside (i : Nat) (lt : i < g.count) : ∀ j ∈ g.deps i, j < slots.length :=
    fun j hj => h.length ▸ (g.forward i lt j hj).right
  constructor
  case mp =>
    rintro ⟨value, held⟩ j r e fails
    induction r generalizing value
    case refl =>
      rw [h.holds _ lt, fails] at held
      cases held
    case step i j k dep _ hi =>
      have ⟨_, within⟩ := g.forward i lt j dep
      cases found : kept (g.one j slots)
      case some v => exact hi within v (by rw [h.holds j within, found]) fails
      case none =>
        have empty : slots[j]? = some none := by rw [h.holds j within, found]
        have skip := (g.skips i slots (inside i lt)).mpr ⟨j, dep, empty⟩
        rw [h.holds i lt, skip] at held
        cases held
  case mpr =>
    have main (k : Nat) : ∀ i < g.count, g.count - i ≤ k →
        (∀ j, g.Reaches i j → ∀ e, g.one j slots ≠ .error e) →
        ∃ value, slots[i]? = some (some value) := by
      induction k
      case zero => omega
      case succ k hi =>
        intro i lt le sound
        cases outcome : g.one i slots
        case error e => exact absurd outcome (sound i (.refl i) e)
        case ok found =>
          cases found
          case some value => exact ⟨value, by rw [h.holds i lt, outcome]; rfl⟩
          case none =>
            have ⟨j, dep, empty⟩ := (g.skips i slots (inside i lt)).mp outcome
            have ⟨after, within⟩ := g.forward i lt j dep
            have ⟨value, held⟩ := hi j within (by omega) fun k r => sound k (.step dep r)
            cases empty.symm.trans held
    exact main _ i lt le_rfl

theorem Verdict.value_of_none (v : g.Verdict slots none) (lt : i < g.count) :
    ∃ value, slots[i]? = some (some value) := by
  refine (v.settled.value_iff lt).mpr fun j r e fails => ?_
  have ⟨_, absent, _⟩ := v.lowest.least j (List.mem_range.mpr (r.lt lt)) e fails
  cases absent

-- What one position comes to: its value, or the failure at the lowest position it reaches.
def Comes (g : Graph ε α) (slots : List (Option α)) (i : Nat) : Except ε α → Prop
  | .ok value => slots[i]? = some (some value)
  | .error e  => ∃ j, g.Reaches i j ∧ g.one j slots = .error e ∧
    ∀ k, g.Reaches i k → ∀ e', g.one k slots = .error e' → j ≤ k

theorem Settled.comes_unique (h : g.Settled slots) (lt : i < g.count) {x y : Except ε α}
    (hx : g.Comes slots i x) (hy : g.Comes slots i y) : x = y := by
  have apart {value : α} {e : ε} (ok : g.Comes slots i (.ok value)) :
      ¬g.Comes slots i (.error e) := fun ⟨j, reached, fails, _⟩ =>
    (h.value_iff lt).mp ⟨value, ok⟩ j reached e fails
  cases x <;> cases y
  case ok.ok value value' => exact congrArg _ (by simpa using (Option.some_inj.mp (hx.symm.trans hy)))
  case ok.error => exact absurd hy (apart hx)
  case error.ok => exact absurd hx (apart hy)
  case error.error =>
    have ⟨j, reached, fails, least⟩ := hx
    have ⟨k, reached', fails', least'⟩ := hy
    obtain rfl : j = k := Nat.le_antisymm (least k reached' _ fails') (least' j reached _ fails)
    exact congrArg _ (Except.error.inj (fails.symm.trans fails'))

-- The same passes over the images of the values.
structure Maps (f : α → β) (g : Graph ε α) (g' : Graph ε β) : Prop where
  count : g'.count = g.count
  one   : ∀ i (slots : List (Option α)),
    g'.one i (slots.map (Option.map f)) = (g.one i slots).map (Option.map f)

theorem Maps.verdict {f : α → β} {g' : Graph ε β} {held : Option (Nat × ε)} (m : Maps f g g')
    (v : g.Verdict slots held) : g'.Verdict (slots.map (Option.map f)) held where
  settled := {
    length := by rw [List.length_map, v.settled.length, m.count]
    holds := by
      intro i lt
      rw [List.getElem?_map, v.settled.holds i (m.count ▸ lt), m.one]
      cases g.one i slots <;> rfl
  }
  lowest := {
    fails := by
      intro first hh
      have ⟨mem, fails⟩ := v.lowest.fails first hh
      rw [m.count, m.one, fails]
      exact ⟨mem, rfl⟩
    least := by
      intro j hj e he
      rw [m.count] at hj
      rw [m.one] at he
      cases outcome : g.one j slots <;> rw [outcome] at he <;> cases he
      exact v.lowest.least j hj _ outcome
  }

end Graph

end Settle
