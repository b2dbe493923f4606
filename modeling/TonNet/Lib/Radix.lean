import Mathlib.Data.Bool.Basic
import Mathlib.Data.List.Forall2
import Mathlib.Data.List.Infix
import Mathlib.Data.List.Lex
import Mathlib.Logic.Function.Basic

-- Binary radix trees: maps from bit strings none of which is the beginning of another, in which every
-- edge carries the bits that all keys below it share. There is exactly one tree for each map.

inductive Radix (α : Type)
  | leaf (label : List Bool) (value : α)
  | fork (label : List Bool) (child : Bool → Radix α)

namespace Radix

variable {α β : Type}

section Strings

variable {label key front : List Bool}

-- Where two bit strings first disagree.
def diverge : List Bool → List Bool → Option Nat
  | a :: label, b :: key => if b ≠ a then some 0 else (diverge label key).map (· + 1)
  | _, _                 => none

theorem diverge_eq_some {i : Nat} (h : diverge label key = some i) :
    ∃ shared b labelRest keyRest, shared.length = i ∧ label = shared ++ b :: labelRest ∧
      key = shared ++ (!b) :: keyRest := by
  induction label generalizing key i
  case nil => simp [diverge] at h
  case cons a label hi =>
    cases key
    case nil => simp [diverge] at h
    case cons b key =>
      rw [diverge] at h
      split at h
      case isTrue differ =>
        cases h
        exact ⟨[], a, label, key, rfl, rfl, by cases a <;> cases b <;> simp_all⟩
      case isFalse same =>
        obtain rfl := not_not.mp same
        have ⟨j, hj, e⟩ := Option.map_eq_some_iff.mp h
        obtain ⟨shared, c, labelRest, keyRest, length, rfl, rfl⟩ := hi hj
        exact ⟨b :: shared, c, labelRest, keyRest, by simp [length, e], rfl, rfl⟩

theorem diverge_append (shared : List Bool) (b : Bool) (labelRest keyRest : List Bool) :
    diverge (shared ++ b :: labelRest) (shared ++ (!b) :: keyRest) = some shared.length := by
  induction shared
  case nil => cases b <;> simp [diverge]
  case cons hi => simp [diverge, hi]

theorem diverge_comm (label key : List Bool) : diverge label key = diverge key label := by
  induction label generalizing key
  case nil => cases key <;> rfl
  case cons a label hi =>
    cases key
    case nil => rfl
    case cons b key => simp only [diverge, hi, ne_comm]

theorem diverge_eq_none (le : label.length ≤ key.length) :
    diverge label key = none ↔ label <+: key := by
  induction label generalizing key
  case nil => simp [diverge]
  case cons a label hi =>
    cases key
    case nil => simp at le
    case cons b key =>
      have le : label.length ≤ key.length := by simpa using le
      rw [diverge, List.cons_prefix_cons]
      by_cases same : b = a
      case pos => simp [same, hi le]
      case neg => simp [same, Ne.symm same]

-- Two strings part at a bit, or one of them is a beginning of the other.
theorem along (label key : List Bool) :
    (∃ shared b labelRest keyRest, label = shared ++ b :: labelRest ∧
      key = shared ++ (!b) :: keyRest) ∨
    (∃ b rest, label = key ++ b :: rest) ∨ ∃ rest, key = label ++ rest := by
  cases parts : diverge label key
  case some i =>
    have ⟨shared, b, labelRest, keyRest, _, e, e'⟩ := diverge_eq_some parts
    exact .inl ⟨shared, b, labelRest, keyRest, e, e'⟩
  case none =>
    refine .inr ?_
    by_cases le : label.length ≤ key.length
    case pos =>
      have ⟨rest, e⟩ := (diverge_eq_none le).mp parts
      exact .inr ⟨rest, e.symm⟩
    case neg =>
      have ⟨rest, e⟩ := (diverge_eq_none (not_le.mp le).le).mp (diverge_comm label key ▸ parts)
      cases rest
      case nil => simp [← e] at le
      case cons b rest => exact .inl ⟨b, rest, e.symm⟩

-- What two strings with different next bits both start with, they start with before those bits.
theorem isPrefix_of_branches {x y : List Bool} (left : front <+: label ++ false :: x)
    (right : front <+: label ++ true :: y) : front <+: label := by
  induction label generalizing front
  case nil =>
    cases front
    case nil => exact ⟨_, rfl⟩
    case cons b front =>
      have hl := (List.cons_prefix_cons.mp left).left
      have hr := (List.cons_prefix_cons.mp right).left
      simp [hl] at hr
  case cons a label hi =>
    cases front
    case nil => exact ⟨_, rfl⟩
    case cons b front =>
      have ⟨same, left⟩ := List.cons_prefix_cons.mp left
      have ⟨_, right⟩ := List.cons_prefix_cons.mp right
      exact List.cons_prefix_cons.mpr ⟨same, hi left right⟩

theorem cons_le_cons_iff {a b : Bool} {l m : List Bool} :
    a :: l ≤ b :: m ↔ a < b ∨ a = b ∧ l ≤ m := by
  rw [← not_lt, List.cons_lt_cons_iff, ← not_lt]
  cases a <;> cases b <;> simp

theorem append_le_append_iff {l m : List Bool} (front : List Bool) :
    front ++ l ≤ front ++ m ↔ l ≤ m := by
  induction front
  case nil => rfl
  case cons a front hi => simp [cons_le_cons_iff, hi]

theorem parts_of_le {low high : List Bool} (le : low ≤ high) (ne : low ≠ high)
    (length : low.length = high.length) :
    ∃ shared rest rest', low = shared ++ false :: rest ∧ high = shared ++ true :: rest' := by
  obtain ⟨shared, b, rest, rest', rfl, rfl⟩ | ⟨b, rest, rfl⟩ | ⟨rest, rfl⟩ := along low high
  · rw [append_le_append_iff, cons_le_cons_iff] at le
    cases b
    case false => exact ⟨shared, rest, rest', rfl, rfl⟩
    case true => simp [Bool.lt_iff] at le
  · simp at length
  · rw [List.length_append, Nat.left_eq_add, List.length_eq_zero_iff] at length
    exact absurd (by rw [length, List.append_nil]) ne

-- Between two strings that start with the same bits, all do.
theorem isPrefix_of_between {low mid high : List Bool} (le : low ≤ mid) (le' : mid ≤ high)
    (first : front <+: low) (last : front <+: high) : front <+: mid := by
  induction front generalizing low mid high
  case nil => exact ⟨_, rfl⟩
  case cons a front hi =>
    obtain ⟨low, rfl⟩ := first
    obtain ⟨high, rfl⟩ := last
    cases mid
    case nil => exact absurd le (not_le.mpr .nil)
    case cons b mid =>
      rw [List.cons_append, cons_le_cons_iff] at le le'
      have same : a = b := by grind
      refine List.cons_prefix_cons.mpr ⟨same, ?_⟩
      exact hi (le.resolve_left (by simp [same])).right (le'.resolve_left (by simp [same])).right
        ⟨_, rfl⟩ ⟨_, rfl⟩

end Strings

def label : Radix α → List Bool
  | leaf label _ => label
  | fork label _ => label

def relabel (t : Radix α) (label : List Bool) : Radix α :=
  match t with
  | leaf _ value => leaf label value
  | fork _ child => fork label child

-- Every key of the tree has `n` bits.
def Fits : Radix α → Nat → Prop
  | leaf label _, n     => label.length = n
  | fork label child, n => label.length < n ∧ ∀ b, (child b).Fits (n - label.length - 1)

-- Every key of the tree has at most `n` bits.
def Within : Radix α → Nat → Prop
  | leaf label _, n     => label.length ≤ n
  | fork label child, n => label.length < n ∧ ∀ b, (child b).Within (n - label.length - 1)

def find : Radix α → List Bool → Option α
  | leaf label value, key => if key = label then some value else none
  | fork label child, key =>
    if label <+: key then
      match key.drop label.length with
      | b :: rest => (child b).find rest
      | []        => none
    else none

section Find

variable {t : Radix α} {label key : List Bool} {child : Bool → Radix α} {value v : α} {n : Nat}

theorem find_leaf_eq_some : (leaf label value).find key = some v ↔ key = label ∧ value = v := by
  rw [find]
  split <;> simp_all

@[simp]
theorem find_fork_append (b : Bool) (rest : List Bool) :
    (fork label child).find (label ++ b :: rest) = (child b).find rest := by
  simp [find]

theorem find_fork_eq_some : (fork label child).find key = some v ↔
    ∃ b rest, key = label ++ b :: rest ∧ (child b).find rest = some v := by
  constructor
  · intro h
    rw [find] at h
    split at h
    case isFalse => cases h
    case isTrue front =>
      obtain ⟨rest, rfl⟩ := front
      rw [List.drop_left] at h
      cases rest
      case nil => cases h
      case cons b rest => exact ⟨b, rest, rfl, h⟩
  · rintro ⟨b, rest, rfl, h⟩
    rw [find_fork_append, h]

theorem find_fork_eq_none (h : ¬∃ b rest, key = label ++ b :: rest) :
    (fork label child).find key = none := by
  rw [Option.eq_none_iff_forall_ne_some]
  intro v found
  have ⟨b, rest, e, _⟩ := find_fork_eq_some.mp found
  exact h ⟨b, rest, e⟩

theorem find_eq_none_of_not_isPrefix (h : ¬t.label <+: key) : t.find key = none := by
  cases t
  case leaf label value =>
    rw [find, if_neg]
    rintro rfl
    exact h ⟨[], List.append_nil _⟩
  case fork label child =>
    rw [find]
    exact if_neg h

theorem exists_find (t : Radix α) : ∃ key v, t.find key = some v := by
  induction t
  case leaf label value => exact ⟨label, value, by simp [find]⟩
  case fork label child hi =>
    have ⟨key, v, h⟩ := hi false
    exact ⟨label ++ false :: key, v, by simpa using h⟩

theorem isPrefix_of_find (h : t.find key = some v) : t.label <+: key := by
  by_contra front
  rw [find_eq_none_of_not_isPrefix front] at h
  cases h

theorem fits_iff : t.Fits n ↔ ∀ key v, t.find key = some v → key.length = n := by
  induction t generalizing n
  case leaf label value => simp [Fits, find_leaf_eq_some]
  case fork label child hi =>
    simp only [Fits, hi]
    constructor
    · rintro ⟨lt, below⟩ key v h
      obtain ⟨b, rest, rfl, found⟩ := find_fork_eq_some.mp h
      have := below b rest v found
      simp
      omega
    · intro h
      have each (b : Bool) (rest : List Bool) (v : α) (found : (child b).find rest = some v) :
          label.length + (rest.length + 1) = n := by
        simpa using h (label ++ b :: rest) v (by simpa using found)
      have ⟨rest, v, found⟩ := (child false).exists_find
      refine ⟨by have := each false rest v found; omega, fun b rest v found => ?_⟩
      have := each b rest v found
      omega

theorem within_iff : t.Within n ↔ ∀ key v, t.find key = some v → key.length ≤ n := by
  induction t generalizing n
  case leaf label value => simp [Within, find_leaf_eq_some]
  case fork label child hi =>
    simp only [Within, hi]
    constructor
    · rintro ⟨lt, below⟩ key v h
      obtain ⟨b, rest, rfl, found⟩ := find_fork_eq_some.mp h
      have := below b rest v found
      simp
      omega
    · intro h
      have each (b : Bool) (rest : List Bool) (v : α) (found : (child b).find rest = some v) :
          label.length + (rest.length + 1) ≤ n := by
        simpa using h (label ++ b :: rest) v (by simpa using found)
      have ⟨rest, v, found⟩ := (child false).exists_find
      refine ⟨by have := each false rest v found; omega, fun b rest v found => ?_⟩
      have := each b rest v found
      omega

theorem Fits.within (fits : t.Fits n) : t.Within n :=
  within_iff.mpr fun key v h => (fits_iff.mp fits key v h).le

theorem Within.label_le (within : t.Within n) : t.label.length ≤ n := by
  cases t
  case leaf => exact within
  case fork => exact within.left.le

-- No key of the tree is a beginning of `key`, or goes on from it, unless it is `key`.
def Apart (t : Radix α) (key : List Bool) : Prop :=
  ∀ k v, t.find k = some v → k <+: key ∨ key <+: k → k = key

theorem Fits.apart (fits : t.Fits key.length) : t.Apart key := by
  intro k v found along
  have length := fits_iff.mp fits k v found
  obtain front | front := along
  · exact front.eq_of_length length
  · exact (front.eq_of_length length.symm).symm

theorem Apart.below {b : Bool} {rest : List Bool}
    (apart : (fork label child).Apart (label ++ b :: rest)) : (child b).Apart rest := by
  intro k v found along
  have same := apart (label ++ b :: k) v (by simpa using found)
    (by simpa only [List.prefix_append_right_inj, List.cons_prefix_cons, true_and] using along)
  simpa using same

theorem Apart.above {b : Bool} {rest : List Bool} (apart : (child b).Apart rest) :
    (fork label child).Apart (label ++ b :: rest) := by
  intro k v found along
  obtain ⟨b', rest', rfl, below⟩ := find_fork_eq_some.mp found
  simp only [List.prefix_append_right_inj, List.cons_prefix_cons] at along
  obtain rfl : b' = b := by
    obtain along | along := along
    · exact along.left
    · exact along.left.symm
  rw [apart rest' v below (by simpa using along)]

theorem apart_leaf : (leaf key value).Apart key :=
  fun _ _ found _ => (find_leaf_eq_some.mp found).left

theorem apart_of_leaves {shared labelRest keyRest : List Bool} {b : Bool}
    (h : t.label = shared ++ b :: labelRest) : t.Apart (shared ++ (!b) :: keyRest) := by
  intro k v found along
  have ⟨rest, same⟩ := isPrefix_of_find found
  rw [h] at same
  subst same
  simp [List.append_assoc, List.cons_prefix_cons] at along

theorem not_apart_inside {b : Bool} {rest : List Bool} (h : t.label = key ++ b :: rest) :
    ¬t.Apart key := by
  intro apart
  have ⟨k, v, found⟩ := t.exists_find
  have front : key ++ b :: rest <+: k := h ▸ isPrefix_of_find found
  have same := apart k v found (.inr ((List.prefix_append key _).trans front))
  have := front.length_le
  simp only [same, List.length_append, List.length_cons] at this
  omega

theorem not_apart_past {b : Bool} {rest : List Bool} :
    ¬(leaf label value).Apart (label ++ b :: rest) := by
  intro apart
  have same := apart label value (by simp [find]) (.inl ⟨_, rfl⟩)
  simp at same

theorem not_apart_halts : ¬(fork label child).Apart label := by
  intro apart
  have ⟨k, v, found⟩ := (child false).exists_find
  have same := apart (label ++ false :: k) v (by simpa using found) (.inr ⟨_, rfl⟩)
  simp at same

-- The edge of a fork carries everything its keys share.
theorem label_fork_isPrefix {t' : Radix β}
    (only : ∀ key, t'.find key = none → (fork label child).find key = none) : t'.label <+: label := by
  have starts (b : Bool) : ∃ rest, t'.label <+: label ++ b :: rest := by
    have ⟨rest, v, h⟩ := (child b).exists_find
    refine ⟨rest, ?_⟩
    by_contra front
    have := only _ (find_eq_none_of_not_isPrefix front)
    rw [find_fork_append, h] at this
    cases this
  have ⟨_, left⟩ := starts false
  have ⟨_, right⟩ := starts true
  exact isPrefix_of_branches left right

-- Two trees of one shape, with related values.
inductive Match (R : α → β → Prop) : Radix α → Radix β → Prop
  | leaf {label : List Bool} {v : α} {w : β} (h : R v w) : Match R (leaf label v) (leaf label w)
  | fork {label : List Bool} {child : Bool → Radix α} {child' : Bool → Radix β}
    (h : ∀ b, Match R (child b) (child' b)) : Match R (fork label child) (fork label child')

-- Trees in which the same keys are found, with related values, are of one shape.
theorem match_of_find {R : α → β → Prop} {t' : Radix β}
    (same : ∀ key, Option.Rel R (t.find key) (t'.find key)) : Match R t t' := by
  have some_iff (key : List Bool) : (t.find key).isSome ↔ (t'.find key).isSome := by
    have h := same key
    generalize t.find key = found, t'.find key = found' at h
    cases h <;> rfl
  induction t generalizing t'
  case leaf label value =>
    cases t'
    case leaf label' value' =>
      have h := same label
      have here := (some_iff label).mp (by simp [find])
      rw [find] at here
      split at here
      case isFalse => cases here
      case isTrue e =>
        subst e
        simp only [find, if_true] at h
        cases h
        case some h => exact .leaf h
    case fork label' child' =>
      have only (b : Bool) : ∃ rest, label' ++ b :: rest = label := by
        have ⟨rest, v, h⟩ := (child' b).exists_find
        have ⟨_, h'⟩ := Option.isSome_iff_exists.mp ((some_iff (label' ++ b :: rest)).mpr (by simp [h]))
        exact ⟨rest, (find_leaf_eq_some.mp h').left⟩
      have ⟨_, left⟩ := only false
      have ⟨_, right⟩ := only true
      simp [← right] at left
  case fork label child hi =>
    have none_iff (key : List Bool) : (fork label child).find key = none ↔ t'.find key = none := by
      simpa using not_congr (some_iff key)
    have front := label_fork_isPrefix fun key => (none_iff key).mpr
    cases t'
    case leaf label' value' =>
      have only (b : Bool) : ∃ rest, label ++ b :: rest = label' := by
        have ⟨rest, v, h⟩ := (child b).exists_find
        have ⟨_, h'⟩ := Option.isSome_iff_exists.mp ((some_iff (label ++ b :: rest)).mp (by simp [h]))
        exact ⟨rest, (find_leaf_eq_some.mp h').left⟩
      have ⟨_, left⟩ := only false
      have ⟨_, right⟩ := only true
      simp [← right] at left
    case fork label' child' =>
      have front' := label_fork_isPrefix fun key => (none_iff key).mp
      obtain rfl : label' = label := front.eq_of_length (le_antisymm front.length_le front'.length_le)
      refine .fork fun b => hi b (fun key => ?_) fun key => ?_
      · simpa using same (label' ++ b :: key)
      · simpa using some_iff (label' ++ b :: key)

theorem ext_find {t t' : Radix α} (same : ∀ key, t.find key = t'.find key) : t = t' := by
  have related : Match Eq t t' := match_of_find fun key => by
    rw [same]
    cases t'.find key
    case none => exact .none
    case some => exact .some rfl
  clear same
  induction related
  case leaf h => rw [h]
  case fork hi => rw [funext hi]

end Find

-- The tree with a new leaf beside it, for a key that leaves its edge at bit `i`.
def split (t : Radix α) (i : Nat) (key : List Bool) (value : α) : Radix α :=
  fork (t.label.take i) fun b =>
    if b = t.label.getD i false then t.relabel (t.label.drop (i + 1))
    else leaf (key.drop (i + 1)) value

def insert (t : Radix α) (key : List Bool) (value : α) : Radix α :=
  match diverge t.label key with
  | some i => t.split i key value
  | none   =>
    match t with
    | leaf label _     => leaf label value
    | fork label child =>
      match key.drop label.length with
      | b :: rest => fork label (Function.update child b ((child b).insert rest value))
      | []        => fork label child

-- The tree without a key that it has.
def erase : Radix α → List Bool → Option (Radix α)
  | leaf _ _, _           => none
  | fork label child, key =>
    match key.drop label.length with
    | b :: rest =>
      match (child b).erase rest with
      | some t => some (fork label (Function.update child b t))
      | none   => some ((child !b).relabel (label ++ (!b) :: (child !b).label))
    | []        => some (fork label child)

section Change

variable {t : Radix α} {key k : List Bool} {v : α} {n : Nat}

@[simp]
theorem label_relabel (t : Radix α) (label : List Bool) : (t.relabel label).label = label := by
  cases t <;> rfl

theorem relabel_label (t : Radix α) : t.relabel t.label = t := by
  cases t <;> rfl

-- Keys under another label: what was the label is exchanged for it.
theorem find_relabel (t : Radix α) (label : List Bool) (rest : List Bool) :
    (t.relabel label).find (label ++ rest) = t.find (t.label ++ rest) := by
  cases t
  case leaf label' value => simp [relabel, find, Radix.label]
  case fork label' child => simp [relabel, find, Radix.label]

@[simp]
theorem relabel_relabel (t : Radix α) (label label' : List Bool) :
    (t.relabel label).relabel label' = t.relabel label' := by
  cases t <;> rfl

-- What stands in front of an edge may be taken off it and off the keys.
theorem find_append {front label : List Bool} (h : t.label = front ++ label) (rest : List Bool) :
    t.find (front ++ rest) = (t.relabel label).find rest := by
  by_cases starts : label <+: rest
  case pos =>
    obtain ⟨rest, rfl⟩ := starts
    rw [find_relabel, h, List.append_assoc]
  case neg =>
    rw [find_eq_none_of_not_isPrefix, find_eq_none_of_not_isPrefix]
    · rwa [label_relabel]
    · rwa [h, List.prefix_append_right_inj]

theorem find_eq_none_of_leaves {shared labelRest : List Bool} {b : Bool}
    (h : t.label = shared ++ b :: labelRest) (rest : List Bool) :
    t.find (shared ++ (!b) :: rest) = none := by
  apply find_eq_none_of_not_isPrefix
  rw [h, List.prefix_append_right_inj, List.cons_prefix_cons]
  simp

theorem split_eq {shared labelRest keyRest : List Bool} {b : Bool}
    (h : t.label = shared ++ b :: labelRest) :
    t.split shared.length (shared ++ (!b) :: keyRest) v =
      fork shared fun c => if c = b then t.relabel labelRest else leaf keyRest v := by
  simp [split, h]

theorem find_split {shared labelRest keyRest : List Bool} {b : Bool}
    (h : t.label = shared ++ b :: labelRest) :
    (t.split shared.length (shared ++ (!b) :: keyRest) v).find k =
      if k = shared ++ (!b) :: keyRest then some v else t.find k := by
  rw [split_eq h]
  by_cases form : ∃ c rest, k = shared ++ c :: rest
  case pos =>
    obtain ⟨c, rest, rfl⟩ := form
    rw [find_fork_append]
    by_cases side : c = b
    case pos =>
      subst side
      have h : t.label = (shared ++ [c]) ++ labelRest := by simpa using h
      rw [if_pos rfl, if_neg (by simp), ← find_append h, List.append_assoc, List.singleton_append]
    case neg =>
      obtain rfl : c = !b := Bool.eq_not.mpr side
      rw [if_neg side, find, find_eq_none_of_leaves h]
      simp
  case neg =>
    rw [find_fork_eq_none form, if_neg fun e => form ⟨_, _, e⟩, find_eq_none_of_not_isPrefix]
    rintro ⟨rest, rfl⟩
    exact form ⟨b, labelRest ++ rest, by simp [h]⟩

-- Following a key down a tree: it leaves an edge, ends inside it or at the end of it, runs out of a
-- leaf, or runs along the edge of a fork and goes on below.
theorem descent {motive : Radix α → List Bool → Prop}
    (leaves : ∀ (t : Radix α) (shared : List Bool) (b : Bool) (labelRest keyRest : List Bool),
      t.label = shared ++ b :: labelRest → motive t (shared ++ (!b) :: keyRest))
    (inside : ∀ (t : Radix α) (key : List Bool) (b : Bool) (rest : List Bool),
      t.label = key ++ b :: rest → motive t key)
    (ends : ∀ (key : List Bool) (value : α), motive (leaf key value) key)
    (past : ∀ (label : List Bool) (value : α) (b : Bool) (rest : List Bool),
      motive (leaf label value) (label ++ b :: rest))
    (halts : ∀ (label : List Bool) (child : Bool → Radix α), motive (fork label child) label)
    (goes : ∀ (label : List Bool) (child : Bool → Radix α) (b : Bool) (rest : List Bool),
      motive (child b) rest → motive (fork label child) (label ++ b :: rest)) :
    motive t key := by
  induction t generalizing key
  case leaf label value =>
    obtain ⟨shared, b, labelRest, keyRest, rfl, rfl⟩ | ⟨b, rest, rfl⟩ | ⟨rest, rfl⟩ := along label key
    · exact leaves _ shared b labelRest keyRest rfl
    · exact inside _ key b rest rfl
    · cases rest
      case nil => rw [List.append_nil]; exact ends label value
      case cons b rest => exact past label value b rest
  case fork label child hi =>
    obtain ⟨shared, b, labelRest, keyRest, rfl, rfl⟩ | ⟨b, rest, rfl⟩ | ⟨rest, rfl⟩ := along label key
    · exact leaves _ shared b labelRest keyRest rfl
    · exact inside _ key b rest rfl
    · cases rest
      case nil => rw [List.append_nil]; exact halts label child
      case cons b rest => exact goes label child b rest (hi b)

-- With the tree apart from the key there are three of these cases left.
theorem walk {motive : Radix α → List Bool → Prop}
    (leaves : ∀ (t : Radix α) (shared : List Bool) (b : Bool) (labelRest keyRest : List Bool),
      t.label = shared ++ b :: labelRest → motive t (shared ++ (!b) :: keyRest))
    (ends : ∀ (key : List Bool) (value : α), motive (leaf key value) key)
    (goes : ∀ (label : List Bool) (child : Bool → Radix α) (b : Bool) (rest : List Bool),
      (child b).Apart rest → motive (child b) rest → motive (fork label child) (label ++ b :: rest))
    (apart : t.Apart key) : motive t key := by
  revert apart
  refine descent (motive := fun t key => t.Apart key → motive t key) ?_ ?_ ?_ ?_ ?_ ?_
  · exact fun t shared b labelRest keyRest h _ => leaves t shared b labelRest keyRest h
  · exact fun t key b rest h apart => absurd apart (not_apart_inside h)
  · exact fun key value _ => ends key value
  · exact fun label value b rest apart => absurd apart not_apart_past
  · exact fun label child apart => absurd apart not_apart_halts
  · exact fun label child b rest hi apart => goes label child b rest apart.below (hi apart.below)

-- The way down to a key that is a beginning of a key of the tree, or that one is a beginning of.
theorem clash {motive : Radix α → List Bool → Prop}
    (inside : ∀ (t : Radix α) (key : List Bool) (b : Bool) (rest : List Bool),
      t.label = key ++ b :: rest → motive t key)
    (past : ∀ (label : List Bool) (value : α) (b : Bool) (rest : List Bool),
      motive (leaf label value) (label ++ b :: rest))
    (halts : ∀ (label : List Bool) (child : Bool → Radix α), motive (fork label child) label)
    (goes : ∀ (label : List Bool) (child : Bool → Radix α) (b : Bool) (rest : List Bool),
      ¬(child b).Apart rest → motive (child b) rest → motive (fork label child) (label ++ b :: rest))
    (close : ¬t.Apart key) : motive t key := by
  revert close
  refine descent (motive := fun t key => ¬t.Apart key → motive t key) ?_ ?_ ?_ ?_ ?_ ?_
  · exact fun t shared b labelRest keyRest h close => absurd (apart_of_leaves h) close
  · exact fun t key b rest h _ => inside t key b rest h
  · exact fun key value close => absurd apart_leaf close
  · exact fun label value b rest _ => past label value b rest
  · exact fun label child _ => halts label child
  · intro label child b rest hi close
    have close := fun apart => close (Apart.above apart)
    exact goes label child b rest close (hi close)

theorem apart_of_find (found : t.find key = some v) : t.Apart key := by
  by_contra close
  have absent : t.find key = none := by
    refine clash (motive := fun t key => t.find key = none) ?_ ?_ ?_ ?_ close
    · intro t key b rest h
      refine find_eq_none_of_not_isPrefix fun front => ?_
      have := front.length_le
      simp only [h, List.length_append, List.length_cons] at this
      omega
    · exact fun label value b rest => by simp [find]
    · exact fun label child => find_fork_eq_none (by simp)
    · exact fun label child b rest _ hi => by simpa using hi
  simp [absent] at found

theorem insert_of_leaves {shared labelRest keyRest : List Bool} {b : Bool}
    (h : t.label = shared ++ b :: labelRest) :
    t.insert (shared ++ (!b) :: keyRest) v =
      t.split shared.length (shared ++ (!b) :: keyRest) v := by
  rw [insert.eq_def, h, diverge_append]

theorem insert_leaf (key : List Bool) (value : α) : (leaf key value).insert key v = leaf key v := by
  rw [insert.eq_def, Radix.label, (diverge_eq_none le_rfl).mpr ⟨[], List.append_nil _⟩]

theorem insert_fork (label : List Bool) (child : Bool → Radix α) (b : Bool) (rest : List Bool) :
    (fork label child).insert (label ++ b :: rest) v =
      fork label (Function.update child b ((child b).insert rest v)) := by
  rw [insert.eq_def, Radix.label, (diverge_eq_none (by simp)).mpr ⟨_, rfl⟩]
  simp

-- A change of one key below one side of a fork.
theorem find_update {label rest : List Bool} {child : Bool → Radix α} {b : Bool} {t' : Radix α}
    {x : Option α} (h : ∀ k, t'.find k = if k = rest then x else (child b).find k)
    (k : List Bool) : (fork label (Function.update child b t')).find k =
      if k = label ++ b :: rest then x else (fork label child).find k := by
  by_cases form : ∃ c rest', k = label ++ c :: rest'
  case pos =>
    obtain ⟨c, rest', rfl⟩ := form
    rw [find_fork_append, find_fork_append]
    by_cases side : c = b
    case pos => subst side; simp [h]
    case neg => simp [side]
  case neg =>
    rw [find_fork_eq_none form, find_fork_eq_none form, if_neg fun e => form ⟨b, rest, e⟩]

theorem find_insert (apart : t.Apart key) (k : List Bool) :
    (t.insert key v).find k = if k = key then some v else t.find k := by
  revert k
  refine walk (motive := fun t key => ∀ k, (t.insert key v).find k =
    if k = key then some v else t.find k) ?_ ?_ ?_ apart
  · intro t shared b labelRest keyRest h k
    rw [insert_of_leaves h, find_split h]
  · intro key value k
    simp only [insert_leaf, find]
    split <;> rfl
  · intro label child b rest _ hi k
    rw [insert_fork, find_update hi]

-- The keys after a change are the old ones, or the old ones and the new one.
theorem Fits.insert (fits : t.Fits key.length) : (t.insert key v).Fits key.length := by
  refine fits_iff.mpr fun k _ found => ?_
  rw [find_insert fits.apart] at found
  split at found
  case isTrue same => rw [same]
  case isFalse => exact fits_iff.mp fits k _ found

theorem Within.insert (within : t.Within n) (apart : t.Apart key) (le : key.length ≤ n) :
    (t.insert key v).Within n := by
  refine within_iff.mpr fun k _ found => ?_
  rw [find_insert apart] at found
  split at found
  case isTrue same => rwa [same]
  case isFalse => exact within_iff.mp within k _ found

theorem erase_fork (label : List Bool) (child : Bool → Radix α) (b : Bool) (rest : List Bool) :
    (fork label child).erase (label ++ b :: rest) =
      match (child b).erase rest with
      | some t => some (fork label (Function.update child b t))
      | none   => some ((child !b).relabel (label ++ (!b) :: (child !b).label)) := by
  simp [erase]

-- What is left of a fork when the one key below a side is gone.
theorem find_merge {label rest : List Bool} {child : Bool → Radix α} {b : Bool}
    (h : ∀ k, k ≠ rest → (child b).find k = none) (k : List Bool) :
    ((child !b).relabel (label ++ (!b) :: (child !b).label)).find k =
      if k = label ++ b :: rest then none else (fork label child).find k := by
  have merged : ((child !b).relabel (label ++ (!b) :: (child !b).label)).label =
      (label ++ [!b]) ++ (child !b).label := by
    simp
  by_cases form : ∃ c rest', k = label ++ c :: rest'
  case pos =>
    obtain ⟨c, rest', rfl⟩ := form
    rw [find_fork_append]
    by_cases side : c = b
    case pos =>
      subst side
      have away := find_eq_none_of_leaves (label_relabel (child !c) (label ++ (!c) :: (child !c).label))
        rest'
      rw [Bool.not_not] at away
      rw [away]
      by_cases same : rest' = rest
      case pos => simp [same]
      case neg => simp [same, h rest' same]
    case neg =>
      obtain rfl : c = !b := Bool.eq_not.mpr side
      have strip := find_append merged rest'
      rw [relabel_relabel, relabel_label, List.append_assoc, List.singleton_append] at strip
      rw [strip, if_neg (by simp)]
  case neg =>
    rw [find_fork_eq_none form, if_neg fun e => form ⟨b, rest, e⟩, find_eq_none_of_not_isPrefix]
    rw [label_relabel]
    rintro ⟨rest', rfl⟩
    exact form ⟨!b, (child !b).label ++ rest', by simp⟩

theorem find_erase (apart : t.Apart key) (found : t.find key = some v) (k : List Bool) :
    (t.erase key).bind (·.find k) = if k = key then none else t.find k := by
  revert k found
  refine walk (motive := fun t key => t.find key = some v → ∀ k, (t.erase key).bind (·.find k) =
    if k = key then none else t.find k) ?_ ?_ ?_ apart
  · intro t shared b labelRest keyRest h found
    rw [find_eq_none_of_leaves h] at found
    cases found
  · intro key value _ k
    simp only [erase, find, Option.bind_none]
    split <;> rfl
  · intro label child b rest _ hi found k
    rw [find_fork_append] at found
    have hi := hi found
    rw [erase_fork]
    cases below : (child b).erase rest
    case some t => exact find_update (fun k => by simpa [below] using hi k) k
    case none =>
      refine find_merge (fun k ne => ?_) k
      have := hi k
      rw [below, if_neg ne] at this
      exact this.symm

theorem find_of_erase {t' : Radix α} (apart : t.Apart key) (found : t.find key = some v)
    (h : t.erase key = some t') {u : α} (found' : t'.find k = some u) : t.find k = some u := by
  have same := find_erase apart found k
  rw [h, Option.bind_some, found'] at same
  split at same
  case isTrue => cases same
  case isFalse => exact same.symm

theorem Fits.erase {t' : Radix α} (fits : t.Fits n) (apart : t.Apart key)
    (found : t.find key = some v) (h : t.erase key = some t') : t'.Fits n :=
  fits_iff.mpr fun k u found' => fits_iff.mp fits k u (find_of_erase apart found h found')

theorem Within.erase {t' : Radix α} (within : t.Within n) (apart : t.Apart key)
    (found : t.find key = some v) (h : t.erase key = some t') : t'.Within n :=
  within_iff.mpr fun k u found' => within_iff.mp within k u (find_of_erase apart found h found')

end Change

-- The keys and what they are mapped to, in ascending order.
def entries : Radix α → List (List Bool × α)
  | leaf label value => [(label, value)]
  | fork label child =>
    [false, true].flatMap fun b => (child b).entries.map fun (rest, value) => (label ++ b :: rest, value)

section Entries

variable {t : Radix α} {key : List Bool} {v : α}

theorem mem_entries : (key, v) ∈ t.entries ↔ t.find key = some v := by
  induction t generalizing key
  case leaf label value => rw [find_leaf_eq_some]; simp [entries, eq_comm]
  case fork label child hi =>
    simp only [entries, List.mem_flatMap, List.mem_map, find_fork_eq_some, Prod.mk.injEq,
      Prod.exists]
    constructor
    · rintro ⟨b, _, rest, _, mem, rfl, rfl⟩
      exact ⟨b, rest, rfl, (hi b).mp mem⟩
    · rintro ⟨b, rest, rfl, found⟩
      exact ⟨b, by cases b <;> simp, rest, v, (hi b).mpr found, rfl, rfl⟩

theorem entries_sorted (t : Radix α) : (t.entries.map Prod.fst).Pairwise (· < ·) := by
  induction t
  case leaf label value => simp [entries]
  case fork label child hi =>
    have below (b : Bool) : (((child b).entries.map fun (rest, value) =>
        (label ++ b :: rest, value)).map Prod.fst).Pairwise (· < ·) := by
      rw [List.map_map, List.pairwise_map]
      refine (List.pairwise_map.mp (hi b)).imp fun {p q} lt => ?_
      exact List.append_left_lt (List.Lex.cons lt)
    simp only [entries, List.flatMap_cons, List.flatMap_nil, List.append_nil, List.map_append]
    refine List.pairwise_append.mpr ⟨below false, below true, ?_⟩
    simp only [List.map_map, List.mem_map, Function.comp]
    rintro _ ⟨_, _, rfl⟩ _ ⟨_, _, rfl⟩
    exact List.append_left_lt (List.Lex.rel (by decide))

theorem values_fork (f : α → β) (label : List Bool) (child : Bool → Radix α) :
    ((fork label child).entries.map fun entry => f entry.2) =
      ((child false).entries.map fun entry => f entry.2) ++ (child true).entries.map fun entry => f entry.2 := by
  simp [entries, Function.comp_def]

end Entries

section Match

variable {R : α → β → Prop} {t : Radix α} {t' : Radix β}

theorem Match.find (h : Match R t t') (key : List Bool) : Option.Rel R (t.find key) (t'.find key) := by
  induction h generalizing key
  case leaf label v w h =>
    rw [Radix.find, Radix.find]
    split
    case isTrue => exact .some h
    case isFalse => exact .none
  case fork label child child' _ hi =>
    by_cases goes : ∃ b rest, key = label ++ b :: rest
    case pos =>
      obtain ⟨b, rest, rfl⟩ := goes
      rw [find_fork_append, find_fork_append]
      exact hi b rest
    case neg =>
      rw [find_fork_eq_none goes, find_fork_eq_none goes]
      exact .none

theorem Match.entries (h : Match R t t') :
    List.Forall₂ (fun entry entry' => entry.1 = entry'.1 ∧ R entry.2 entry'.2) t.entries t'.entries := by
  induction h
  case leaf h => exact .cons ⟨rfl, h⟩ .nil
  case fork label child child' _ hi =>
    have below (b : Bool) : List.Forall₂ (fun entry entry' => entry.1 = entry'.1 ∧ R entry.2 entry'.2)
        ((child b).entries.map fun (rest, value) => (label ++ b :: rest, value))
        ((child' b).entries.map fun (rest, value) => (label ++ b :: rest, value)) := by
      rw [List.forall₂_map_left_iff, List.forall₂_map_right_iff]
      exact (hi b).imp fun entry entry' h => ⟨congrArg (label ++ b :: ·) h.left, h.right⟩
    simp only [Radix.entries, List.flatMap_cons, List.flatMap_nil, List.append_nil]
    exact List.rel_append (below false) (below true)

end Match

end Radix
