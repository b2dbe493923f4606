import Mathlib.Data.List.TakeWhile
import TonNet.Lib.Keyed
import TonNet.Cell.Dict.Theorems.Edit

-- A dictionary built from a list of items is the tree of the map they give, as one reached by setting
-- and removing entries is.

namespace TonNet

open Fallible Method Builder Slice Keyed

section Shared

variable {front shared rest rest' : List Bool}

theorem getElem?_front (front a : List Bool) (i : Nat) : (front ++ a)[front.length + i]? = a[i]? := by
  rw [List.getElem?_append_right (by omega), Nat.add_sub_cancel_left]

theorem sharedBits_self (a : List Bool) (depth n : Nat) : sharedBits a a depth n = n := by
  have all : (List.range n).takeWhile (fun i => a[depth + i]? == a[depth + i]?) = List.range n :=
    List.takeWhile_eq_self_iff.mpr (by simp)
  rw [sharedBits, all, List.length_range]

theorem sharedBits_parts (n : Nat) :
    sharedBits (front ++ (shared ++ false :: rest)) (front ++ (shared ++ true :: rest')) front.length
      (shared.length + (n + 1)) = shared.length := by
  simp only [sharedBits, getElem?_front]
  rw [List.range_add, List.takeWhile_append_of_pos]
  · rw [List.range_succ_eq_map, List.map_cons, List.takeWhile_cons_of_neg (by simp)]
    simp
  · intro i lt
    have lt := List.mem_range.mp lt
    simp [List.getElem?_append_left lt]

end Shared

namespace Shape

variable {ε : Type} [Sha256] {shape : Shape ε} {code : ε → Option (List Bool)}

section Run

variable {items : List (List Bool × Entry ε)} {front shared : List Bool} {n : Nat}

-- A run of items in order, all of them under the same bits.
structure Sorted (items : List (List Bool × Entry ε)) (front : List Bool) (n : Nat) : Prop where
  ascends : items.Pairwise fun left right => left.1 ≤ right.1
  under   : ∀ item ∈ items, front <+: item.1
  width   : ∀ item ∈ items, item.1.length = front.length + n

omit [Sha256]

theorem Sorted.ge_head (run : Sorted items front n) {first item : List Bool × Entry ε}
    (head : items.head? = some first) (mem : item ∈ items) : first.1 ≤ item.1 := by
  obtain ⟨tail, rfl⟩ := List.head?_eq_some_iff.mp head
  obtain rfl | mem := List.mem_cons.mp mem
  · exact le_rfl
  · exact (List.pairwise_cons.mp run.ascends).left item mem

theorem Sorted.le_last (run : Sorted items front n) {final item : List Bool × Entry ε}
    (ends : items.getLast? = some final) (mem : item ∈ items) : item.1 ≤ final.1 := by
  obtain ⟨init, rfl⟩ := List.getLast?_eq_some_iff.mp ends
  obtain mem | mem := List.mem_append.mp mem
  · exact (List.pairwise_append.mp run.ascends).right.right item mem final (by simp)
  · rw [List.mem_singleton.mp mem]

-- The keys of a run in order, by the bit past what they all share.
theorem Sorted.parts (run : Sorted items front n) (lt : shared.length < n)
    (share : ∀ item ∈ items, front ++ shared <+: item.1) (item : List Bool × Entry ε)
    (mem : item ∈ items) : ∃ b rest, item.1 = front ++ (shared ++ b :: rest) ∧
      item.1[front.length + shared.length]? = some b := by
  obtain ⟨rest, e⟩ := share item mem
  cases rest
  case nil =>
    have := run.width item mem
    simp [← e] at this
    omega
  case cons b rest =>
    refine ⟨b, rest, by rw [← e, List.append_assoc], ?_⟩
    rw [← e, ← List.length_append, ← Nat.add_zero (front ++ shared).length, getElem?_front]
    rfl

-- The items with the bit at `index` cleared, or set.
def half (items : List (List Bool × Entry ε)) (index : Nat) (b : Bool) : List (List Bool × Entry ε) :=
  if b then items.dropWhile fun item => item.1[index]? == some false
  else items.takeWhile fun item => item.1[index]? == some false

theorem half_append (items : List (List Bool × Entry ε)) (index : Nat) :
    half items index false ++ half items index true = items :=
  List.takeWhile_append_dropWhile

theorem half_sublist (items : List (List Bool × Entry ε)) (index : Nat) (b : Bool) :
    (half items index b).Sublist items := by
  cases b
  case false => exact List.takeWhile_sublist _
  case true => exact List.dropWhile_sublist _

theorem Sorted.half_bit (run : Sorted items front n) (lt : shared.length < n)
    (share : ∀ item ∈ items, front ++ shared <+: item.1) {b : Bool} {item : List Bool × Entry ε}
    (mem : item ∈ half items (front.length + shared.length) b) :
    item.1[front.length + shared.length]? = some b := by
  have ⟨c, _, _, bit⟩ := run.parts lt share item ((half_sublist items _ b).subset mem)
  cases b
  case false => simpa using List.mem_takeWhile_imp mem
  case true =>
    have set := List.not_of_mem_dropWhile run.ascends (fun x hx y hy le clear => ?_) mem
    · cases c
      case false => simp [bit] at set
      case true => exact bit
    · have ⟨d, _, e, bit⟩ := run.parts lt share x hx
      have ⟨d', _, e', bit'⟩ := run.parts lt share y hy
      obtain rfl : d' = false := by simpa [bit'] using clear
      rw [e, e', Radix.append_le_append_iff, Radix.append_le_append_iff, Radix.cons_le_cons_iff] at le
      cases d
      case false => simp [bit]
      case true => simp [Bool.lt_iff] at le

theorem Sorted.half (run : Sorted items front n) (lt : shared.length < n)
    (share : ∀ item ∈ items, front ++ shared <+: item.1) (b : Bool) :
    Sorted (Shape.half items (front.length + shared.length) b) (front ++ (shared ++ [b]))
      (n - shared.length - 1) where
  ascends := run.ascends.sublist (half_sublist items _ b)
  under   := by
    intro item mem
    have ⟨c, rest, e, bit⟩ := run.parts lt share item ((half_sublist items _ b).subset mem)
    obtain rfl := Option.some_inj.mp (bit.symm.trans (run.half_bit lt share mem))
    exact ⟨rest, by simp [e]⟩
  width   := by
    intro item mem
    have := run.width item ((half_sublist items _ b).subset mem)
    simp
    omega

-- An item is in the half its bit names.
theorem Sorted.mem_half (run : Sorted items front n) (lt : shared.length < n)
    (share : ∀ item ∈ items, front ++ shared <+: item.1) {b : Bool} {item : List Bool × Entry ε}
    (mem : item ∈ items) (bit : item.1[front.length + shared.length]? = some b) :
    item ∈ Shape.half items (front.length + shared.length) b := by
  rw [← half_append items (front.length + shared.length)] at mem
  obtain mem | mem := List.mem_append.mp mem
  · exact Option.some_inj.mp (bit.symm.trans (run.half_bit lt share mem)) ▸ mem
  · exact Option.some_inj.mp (bit.symm.trans (run.half_bit lt share mem)) ▸ mem

-- The run is one key.
theorem Sorted.one (run : Sorted items front n) {final : List Bool × Entry ε} {key : List Bool}
    (share : ∀ item ∈ items, front ++ key <+: item.1) (length : key.length = n)
    (ends : items.getLast? = some final) (k : List Bool) :
    (Radix.leaf key final.2).find k = last items (front ++ k) := by
  have same (item : List Bool × Entry ε) (mem : item ∈ items) : item.1 = front ++ key := by
    refine ((share item mem).eq_of_length ?_).symm
    rw [run.width item mem, List.length_append, length]
  rw [Radix.find]
  split
  case isTrue here =>
    rw [last, List.filter_eq_self.mpr (by simpa [here] using same), ends]
    rfl
  case isFalse other =>
    refine (last_eq_none fun item mem here => other ?_).symm
    exact List.append_cancel_left (here.symm.trans (same item mem))

-- The keys part past what they share.
theorem Sorted.fork {half : Bool → List (List Bool × Entry ε)} {m : Nat}
    (run : ∀ b, Sorted (half b) (front ++ (shared ++ [b])) m) {child : Bool → Radix (Entry ε)}
    (each : ∀ b k, (child b).find k = last (half b) (front ++ (shared ++ [b]) ++ k)) (k : List Bool) :
    (Radix.fork shared child).find k = last (half false ++ half true) (front ++ k) := by
  have outside (b : Bool) (k : List Bool) (h : ¬∃ rest, k = shared ++ b :: rest) :
      last (half b) (front ++ k) = none := by
    refine last_eq_none fun item mem here => h ?_
    have ⟨rest, e⟩ := (run b).under item mem
    refine ⟨rest, List.append_cancel_left (here.symm.trans (e.symm.trans ?_))⟩
    simp
  rw [last_append]
  by_cases form : ∃ b rest, k = shared ++ b :: rest
  case neg =>
    rw [Radix.find_fork_eq_none form, outside _ _ fun h => form ⟨_, h⟩,
      outside _ _ fun h => form ⟨_, h⟩]
    rfl
  case pos =>
    obtain ⟨b, rest, rfl⟩ := form
    have here : (child b).find rest = last (half b) (front ++ (shared ++ b :: rest)) := by
      simp [each]
    have there := outside (!b) (shared ++ b :: rest) (by simp)
    rw [Radix.find_fork_append, here]
    cases b
    case false => rw [show half true = half !false from rfl, there, Option.none_or]
    case true => rw [show half false = half !true from rfl, there, Option.or_none]

section

variable [Sha256] {passes depth s : Nat} {first final : List Bool × Entry ε}

theorem buildRun_one (head : items.head? = some first) (ends : items.getLast? = some final)
    (shared : sharedBits first.1 final.1 depth n = n) :
    shape.buildRun (passes + 1) items depth n = shape.leaf (final.1.drop depth) final.2 n := by
  rw [buildRun, head, ends]
  exact if_pos shared

theorem buildRun_parts (head : items.head? = some first) (ends : items.getLast? = some final)
    (shared : sharedBits first.1 final.1 depth n = s) (lt : s < n) :
    shape.buildRun (passes + 1) items depth n = (do
      let left ← shape.buildRun passes (half items (depth + s) false) (depth + s + 1) (n - s - 1)
      let right ← shape.buildRun passes (half items (depth + s) true) (depth + s + 1) (n - s - 1)
      shape.fork ((first.1.drop depth).take s) left right n (n - s - 1)) := by
  rw [buildRun, head, ends]
  simp only [shared, if_neg lt.ne]
  rfl

end

theorem buildRun_eq [Sha256] {passes : Nat} (run : Sorted items front n) (ne : items ≠ [])
    (enough : n < passes) :
    ∃ t : Radix (Entry ε), t.Fits n ∧ (∀ k, t.find k = last items (front ++ k)) ∧
      shape.buildRun passes items front.length n = shape.encode t n := by
  induction passes generalizing items front n
  case zero => omega
  case succ passes hi =>
    have ⟨first, head⟩ : ∃ first, items.head? = some first := ⟨_, List.head?_eq_some_head ne⟩
    have ⟨final, ends⟩ : ∃ final, items.getLast? = some final := ⟨_, List.getLast?_eq_some_getLast ne⟩
    have ⟨a, low⟩ := run.under first (List.mem_of_head? head)
    have ⟨z, high⟩ := run.under final (List.mem_of_getLast? ends)
    have width := run.width first (List.mem_of_head? head)
    have width' := run.width final (List.mem_of_getLast? ends)
    have between {shared : List Bool} (hl : shared <+: first.1) (hh : shared <+: final.1)
        (item : List Bool × Entry ε) (mem : item ∈ items) : shared <+: item.1 :=
      Radix.isPrefix_of_between (run.ge_head head mem) (run.le_last ends mem) hl hh
    rw [← low, List.length_append, Nat.add_left_cancel_iff] at width
    rw [← high, List.length_append, Nat.add_left_cancel_iff] at width'
    by_cases same : a = z
    case pos =>
      subst same
      refine ⟨.leaf a final.2, width, run.one (between (by rw [low]) (by rw [high])) width ends, ?_⟩
      rw [buildRun_one head ends (by rw [← low, ← high, sharedBits_self]), ← high, List.drop_left]
      rfl
    case neg =>
      have le := run.ge_head head (List.mem_of_getLast? ends)
      rw [← low, ← high, Radix.append_le_append_iff] at le
      obtain ⟨shared, rest, rest', rfl, rfl⟩ := Radix.parts_of_le le same (width.trans width'.symm)
      have lt : shared.length < n := by
        simp at width
        omega
      have share : ∀ item ∈ items, front ++ shared <+: item.1 :=
        between ⟨_, by rw [← low, List.append_assoc]⟩ ⟨_, by rw [← high, List.append_assoc]⟩
      have bit (b : Bool) (rest : List Bool) :
          (front ++ (shared ++ b :: rest))[front.length + shared.length]? = some b := by
        simp
      have filled (b : Bool) : half items (front.length + shared.length) b ≠ [] := by
        cases b
        case false =>
          exact List.ne_nil_of_mem (run.mem_half lt share (List.mem_of_head? head) (low ▸ bit ..))
        case true =>
          exact List.ne_nil_of_mem (run.mem_half lt share (List.mem_of_getLast? ends) (high ▸ bit ..))
      choose child fits found built using fun b => hi (run.half lt share b) (filled b) (by omega)
      have depth (b : Bool) : (front ++ (shared ++ [b])).length = front.length + shared.length + 1 := by
        simp [Nat.add_assoc]
      refine ⟨.fork shared child, ⟨lt, fits⟩, fun k => ?_, ?_⟩
      · rw [← half_append items (front.length + shared.length)]
        exact Sorted.fork (run.half lt share) found k
      · have parted : sharedBits first.1 final.1 front.length n = shared.length := by
          rw [← low, ← high, ← width, List.length_append]
          exact sharedBits_parts rest.length
        simp only [depth] at built
        rw [buildRun_parts head ends parted lt, encode, built, built, ← low, List.drop_left,
          List.take_left]

end Run

end Shape

end TonNet
