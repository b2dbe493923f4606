import Mathlib.Data.List.Sort
import Mathlib.Algebra.GroupWithZero.Nat

-- Lists kept in the order of a key: searching one, and weighing the part of one that passes a test.

namespace Keyed

section Search

variable {α : Type} [LinearOrder α]

-- What `slice::binary_search` returns on a sorted slice: where the value is, or where it goes.
def binarySearch : List α → α → Except Nat Nat
  | [], _     => .error 0
  | b :: l, a =>
    if b < a then
      match binarySearch l a with
      | .ok place    => .ok (place + 1)
      | .error place => .error (place + 1)
    else if b = a then .ok 0
    else .error 0

variable {l : List α} {a b : α} {i : Nat}

theorem getElem?_of_search_ok (h : binarySearch l a = .ok i) : l[i]? = some a := by
  induction l generalizing i
  case nil => cases h
  case cons b l hi =>
    rw [binarySearch] at h
    split_ifs at h with below here
    · split at h
      case h_1 found => exact Except.ok.inj h ▸ hi found
      case h_2 => cases h
    · exact Except.ok.inj h ▸ congrArg some here

-- The place of a value that is missing: everything before it is smaller, everything after larger.
inductive Missing (a : α) : List α → Nat → Prop
  | here {l : List α} (above : ∀ b ∈ l, a < b) : Missing a l 0
  | later {b : α} {l : List α} {i : Nat} (below : b < a) (rest : Missing a l i) :
    Missing a (b :: l) (i + 1)

theorem missing_of_search_error (sorted : l.Pairwise (· < ·)) (h : binarySearch l a = .error i) :
    Missing a l i := by
  induction sorted generalizing i
  case nil => exact Except.error.inj h ▸ .here nofun
  case cons b l hb _ hi =>
    rw [binarySearch] at h
    split_ifs at h with below here
    · split at h
      case h_1 => cases h
      case h_2 absent => exact Except.error.inj h ▸ .later below (hi absent)
    · have above : a < b := lt_of_le_of_ne (not_lt.mp below) (Ne.symm here)
      refine Except.error.inj h ▸ .here fun c hc => ?_
      cases List.mem_cons.mp hc
      case inl e => exact e ▸ above
      case inr hc => exact above.trans (hb c hc)

namespace Missing

theorem not_mem (h : Missing a l i) : a ∉ l := by
  induction h
  case here above => exact fun hm => (above a hm).false
  case later below _ hi => exact fun hm => (List.mem_cons.mp hm).elim below.ne' hi

theorem mem_insertIdx (h : Missing a l i) : b ∈ l.insertIdx i a ↔ b = a ∨ b ∈ l := by
  induction h
  case here => simp
  case later c l i _ _ hi =>
    rw [List.insertIdx_succ_cons, List.mem_cons, hi, List.mem_cons]
    exact or_left_comm

theorem sorted_insertIdx (h : Missing a l i) (sorted : l.Pairwise (· < ·)) :
    (l.insertIdx i a).Pairwise (· < ·) := by
  induction h
  case here above => exact .cons above sorted
  case later below rest hi =>
    have ⟨above, sorted⟩ := List.pairwise_cons.mp sorted
    refine .cons (fun b hb => ?_) (hi sorted)
    cases rest.mem_insertIdx.mp hb
    case inl e => exact e ▸ below
    case inr hb => exact above b hb

end Missing

end Search

section Order

variable {κ ν : Type} [LinearOrder κ] {l : List (κ × ν)}

-- `slice::sort_unstable_by_key`. The order of members with one key is not promised, so nothing
-- below depends on it.
def sortByKey (l : List (κ × ν)) : List (κ × ν) :=
  l.insertionSort fun left right => left.1 ≤ right.1

theorem sortByKey_perm (l : List (κ × ν)) : (sortByKey l).Perm l :=
  List.perm_insertionSort ..

theorem sortByKey_sorted (l : List (κ × ν)) :
    (sortByKey l).Pairwise fun left right => left.1 ≤ right.1 := by
  have : Std.Total fun left right : κ × ν => left.1 ≤ right.1 := ⟨fun a b => le_total a.1 b.1⟩
  have : IsTrans (κ × ν) fun left right => left.1 ≤ right.1 := ⟨fun _ _ _ => le_trans⟩
  exact List.pairwise_insertionSort ..

-- Two neighbours with the same key.
def repeats (l : List (κ × ν)) : Bool :=
  (l.zip (l.drop 1)).any fun (left, right) => left.1 = right.1

-- In a sorted list, members with one key stand next to each other.
theorem strictly_sorted (sorted : l.Pairwise fun left right => left.1 ≤ right.1)
    (h : ¬repeats l) : (l.map Prod.fst).Pairwise (· < ·) := by
  induction l
  case nil => exact .nil
  case cons a l hi =>
    have ⟨above, sorted⟩ := List.pairwise_cons.mp sorted
    cases l
    case nil => exact List.pairwise_singleton ..
    case cons b l _ =>
      have ⟨apart, h⟩ : a.1 ≠ b.1 ∧ ¬repeats (b :: l) := by simpa [repeats] using h
      have tail := hi sorted h
      have first : a.1 < b.1 := lt_of_le_of_ne (above b List.mem_cons_self) apart
      refine .cons (fun k hk => ?_) tail
      cases List.mem_cons.mp hk
      case inl e => exact e ▸ first
      case inr hk => exact first.trans ((List.pairwise_cons.mp tail).left k hk)

-- A list in ascending order is given by its members.
theorem eq_of_ascending {m : List (κ × ν)} (hl : (l.map Prod.fst).Pairwise (· < ·))
    (hm : (m.map Prod.fst).Pairwise (· < ·)) (same : ∀ a, a ∈ l ↔ a ∈ m) : l = m := by
  have hl := List.pairwise_map.mp hl
  have hm := List.pairwise_map.mp hm
  have distinct {l : List (κ × ν)} (h : l.Pairwise fun a b => a.1 < b.1) : l.Nodup :=
    h.imp fun lt e => lt.ne (congrArg Prod.fst e)
  have perm := (List.perm_ext_iff_of_nodup (distinct hl) (distinct hm)).mpr same
  exact perm.eq_of_pairwise (fun a b _ _ lt gt => absurd lt (lt_asymm gt)) hl hm

end Order

section Weight

variable {κ ν ι : Type} {w : ν → Nat} {l : List (κ × ν)} {p q : κ × ν → Bool} {k : κ} {v : ν}

def weight (w : ν → Nat) (l : List (κ × ν)) : Nat :=
  (l.map (w ·.2)).sum

@[simp]
theorem weight_nil : weight w ([] : List (κ × ν)) = 0 :=
  rfl

@[simp]
theorem weight_cons (m : κ × ν) : weight w (m :: l) = w m.2 + weight w l :=
  rfl

theorem weight_perm {l' : List (κ × ν)} (h : l.Perm l') : weight w l = weight w l' :=
  (h.map _).sum_nat

theorem weight_filter_cons (m : κ × ν) :
    weight w ((m :: l).filter p) = (if p m then w m.2 else 0) + weight w (l.filter p) := by
  by_cases hp : p m <;> simp [hp]

theorem weight_filter_mono (h : ∀ m ∈ l, p m → q m) :
    weight w (l.filter p) ≤ weight w (l.filter q) := by
  induction l
  case nil => exact le_rfl
  case cons m l hi =>
    have hi := hi fun m hm => h m (List.mem_cons_of_mem _ hm)
    have hm := h m List.mem_cons_self
    rw [weight_filter_cons, weight_filter_cons]
    split_ifs <;> first | omega | simp_all

theorem weight_filter_le : weight w (l.filter p) ≤ weight w l := by
  have all := weight_filter_mono (w := w) (l := l) (p := p) (q := fun _ => true) (fun _ _ _ => rfl)
  rwa [List.filter_true] at all

-- One more key adds the weight of the one member that has it.
theorem weight_filter_insert (distinct : (l.map Prod.fst).Nodup) (mem : (k, v) ∈ l)
    (new : p (k, v) = false) (hq : ∀ m ∈ l, q m = true ↔ m.1 = k ∨ p m = true) :
    weight w (l.filter q) = weight w (l.filter p) + w v := by
  induction l
  case nil => cases mem
  case cons m l hi =>
    have ⟨apart, distinct⟩ := List.nodup_cons.mp distinct
    have hl m hm := hq m (List.mem_cons_of_mem _ hm)
    have hm := hq m List.mem_cons_self
    rw [weight_filter_cons, weight_filter_cons]
    cases List.mem_cons.mp mem
    case inl e =>
      have rest : l.filter q = l.filter p := by
        refine List.filter_congr fun m' hm' => Bool.eq_iff_iff.mpr ?_
        have other : m'.1 ≠ k := fun e' => apart (List.mem_map.mpr ⟨m', hm', by rw [e', ← e]⟩)
        simp [hl m' hm', other]
      rw [← e] at hm ⊢
      rw [rest, if_pos (hm.mpr (.inl rfl)), if_neg (by simp [new])]
      dsimp only
      omega
    case inr mem =>
      have other : m.1 ≠ k := fun e => apart (List.mem_map.mpr ⟨_, mem, e.symm⟩)
      have same : q m = p m := Bool.eq_iff_iff.mpr <| by simp [hm, other]
      rw [hi distinct mem hl, same]
      omega

theorem countP_or_le (p q : ι → Bool) (entries : List ι) :
    entries.countP (fun e => p e || q e) ≤ entries.countP p + entries.countP q := by
  induction entries
  case nil => simp
  case cons e entries hi =>
    simp only [List.countP_cons]
    cases p e <;> cases q e <;> simp <;> omega

-- How many entries name one of the keys, when none is named more than `n` times.
theorem countP_mem_le [DecidableEq κ] {f : ι → κ} {entries : List ι} {n : Nat} (keys : List κ)
    (h : ∀ k ∈ keys, entries.countP (f · = k) ≤ n) :
    entries.countP (f · ∈ keys) ≤ n * keys.length := by
  induction keys
  case nil => simp
  case cons k keys hi =>
    have hk := h k List.mem_cons_self
    have hi := hi fun k hk => h k (List.mem_cons_of_mem _ hk)
    have split := countP_or_le (f · = k) (f · ∈ keys) entries
    simp only [List.mem_cons, Bool.decide_or, List.length_cons, Nat.mul_succ]
    omega

end Weight

section Last

variable {κ β : Type} [DecidableEq κ] {items more : List (κ × β)} {key : κ}

-- What a key is given last.
def last (items : List (κ × β)) (key : κ) : Option β :=
  (items.filter fun item => item.1 = key).getLast?.map Prod.snd

@[simp]
theorem last_nil : last ([] : List (κ × β)) key = none :=
  rfl

theorem last_append : last (items ++ more) key = (last more key).or (last items key) := by
  rw [last, List.filter_append, List.getLast?_append]
  cases late : (more.filter fun item => item.1 = key).getLast? <;> simp [last, late]

theorem last_eq_none (h : ∀ item ∈ items, item.1 ≠ key) : last items key = none := by
  rw [last, List.filter_eq_nil_iff.mpr fun item mem => by simpa using h item mem]
  rfl

-- Where no key is given twice.
theorem last_eq_some (distinct : (items.map Prod.fst).Nodup) {value : β} :
    last items key = some value ↔ (key, value) ∈ items := by
  induction items
  case nil => simp
  case cons item items hi =>
    have ⟨apart, distinct⟩ := List.nodup_cons.mp distinct
    rw [← List.singleton_append, last_append, List.mem_append, List.mem_singleton]
    by_cases here : item.1 = key
    case pos =>
      have others : last items key = none := last_eq_none fun other mem same =>
        apart (List.mem_map.mpr ⟨other, mem, same.trans here.symm⟩)
      have absent : (key, value) ∉ items := fun mem => apart (List.mem_map.mpr ⟨_, mem, here.symm⟩)
      have first : last [item] key = some item.2 := by simp [last, here]
      rw [others, Option.none_or, first, or_iff_left absent, Option.some_inj, Prod.ext_iff]
      exact ⟨fun same => ⟨here.symm, same.symm⟩, fun same => same.right.symm⟩
    case neg =>
      have first : last [item] key = none := last_eq_none (by simpa using here)
      have other : (key, value) ≠ item := fun same => here (congrArg Prod.fst same).symm
      rw [first, Option.or_none, hi distinct, or_iff_right other]

theorem last_concat (value : β) :
    last (items ++ [(key, value)]) = Function.update (last items) key (some value) := by
  funext other
  rw [last_append]
  by_cases same : other = key
  case pos => simp [same, last]
  case neg =>
    rw [Function.update_of_ne same, last_eq_none (by simpa using Ne.symm same), Option.none_or]

theorem last_filter (key : κ) :
    last (items.filter fun item => item.1 ≠ key) = Function.update (last items) key none := by
  funext other
  by_cases same : other = key
  case pos =>
    rw [same, Function.update_self]
    exact last_eq_none fun item mem => by simpa using List.of_mem_filter mem
  case neg =>
    have only : ∀ item ∈ items, (decide (item.1 = other) && decide (item.1 ≠ key)) =
        decide (item.1 = other) := by
      intro item _
      by_cases here : item.1 = other <;> simp [here, same]
    rw [Function.update_of_ne same, last, List.filter_filter, List.filter_congr only, last]

theorem last_map {γ : Type} (f : β → γ) :
    last (items.map fun item => (item.1, f item.2)) key = (last items key).map f := by
  simp only [last, List.filter_map, List.getLast?_map, Option.map_map]
  rfl

-- Items that are picked by their keys and get new ones, each from one old key.
theorem last_filterMap {κ' : Type} [DecidableEq κ'] {pick : κ → Option κ'} {back : κ' → κ}
    (inv : ∀ k k', pick k = some k' ↔ k = back k') (key' : κ') :
    last (items.filterMap fun item => (pick item.1).map fun key => (key, item.2)) key' =
      last items (back key') := by
  have same : (items.filterMap fun item => (pick item.1).map fun key => (key, item.2)).filter
      (fun item => item.1 = key') =
        (items.filter fun item => item.1 = back key').map fun item => (key', item.2) := by
    induction items
    case nil => rfl
    case cons item items hi =>
      rw [List.filterMap_cons, List.filter_cons]
      cases picked : pick item.1
      case none =>
        have other : item.1 ≠ back key' := fun h => by simp [(inv _ _).mpr h] at picked
        simpa [other] using hi
      case some key =>
        by_cases here : key = key'
        case pos =>
          have : item.1 = back key' := (inv _ _).mp (here ▸ picked)
          simpa [this, here] using hi
        case neg =>
          have other : item.1 ≠ back key' := fun h => here (by simpa [picked] using (inv _ key').mpr h)
          simpa [here, other] using hi
  rw [last, same, List.getLast?_map, Option.map_map]
  rfl

-- Sorting by the keys keeps the items of one key in their order.
theorem last_insertionSort {r : κ × β → κ × β → Prop} [DecidableRel r]
    (refl : ∀ item other, item.1 = other.1 → r item other) (items : List (κ × β)) :
    last (items.insertionSort r) = last items := by
  funext key
  have inserted (item : κ × β) (l : List (κ × β)) :
      (l.orderedInsert r item).filter (fun item => item.1 = key) =
        (item :: l).filter fun item => item.1 = key := by
    induction l
    case nil => rfl
    case cons other l hi =>
      rw [List.orderedInsert_cons]
      split
      case isTrue => rfl
      case isFalse passed =>
        -- What is passed over has another key.
        have apart : item.1 ≠ other.1 := fun same => passed (refl item other same)
        rw [List.filter_cons, hi]
        by_cases here : other.1 = key
        case pos => simp [here, here ▸ apart]
        case neg => simp [List.filter_cons, here]
  have sorted : (items.insertionSort r).filter (fun item => item.1 = key) =
      items.filter fun item => item.1 = key := by
    induction items
    case nil => rfl
    case cons item items hi => simp only [List.insertionSort_cons, inserted, List.filter_cons, hi]
  rw [last, sorted, last]

end Last

end Keyed
