import Mathlib.Data.List.Induction
import TonNet.Lib.Fallible

-- Combining the elements of a list with an operation that may fail.

namespace Fallible

variable {ε α : Type} {op : α → α → Except ε α} {S : α → Prop}

-- What the elements combine to, from left to right.
def combineAll (op : α → α → Except ε α) : List α → Except ε (Option α)
  | []        => pure none
  | a :: rest => some <$> rest.foldlM op a

-- The two ways to combine three elements fail together, or end with the same element.
def Associates (op : α → α → Except ε α) (S : α → Prop) : Prop :=
  ∀ ⦃a b c d⦄, S a → S b → S c →
    ((∃ ab, op a b = .ok ab ∧ op ab c = .ok d) ↔ ∃ bc, op b c = .ok bc ∧ op a bc = .ok d)

-- What comes up when some elements are combined.
inductive Combined (op : α → α → Except ε α) (leaves : α → Prop) : α → Prop
  | leaf {a : α} (h : leaves a) : Combined op leaves a
  | op {a b c : α} (left : Combined op leaves a) (right : Combined op leaves b) (h : op a b = .ok c) :
    Combined op leaves c

theorem Combined.foldlM {leaves : α → Prop} {a b : α} {l : List α} (h : l.foldlM op a = .ok b)
    (first : Combined op leaves a) (rest : ∀ c ∈ l, Combined op leaves c) : Combined op leaves b := by
  induction l generalizing a
  case nil => exact pure_eq_ok.mp h ▸ first
  case cons c l hi =>
    rw [List.foldlM_cons, bind_eq_ok] at h
    obtain ⟨ac, one, h⟩ := h
    have ⟨here, rest⟩ := List.forall_mem_cons.mp rest
    exact hi h (.op first here one) rest

-- A run of elements may be combined first.
theorem Associates.foldlM_cons {leaves : α → Prop} (assoc : Associates op (Combined op leaves))
    {x first y z : α} {l : List α} (hx : Combined op leaves x) (hf : Combined op leaves first)
    (hl : ∀ c ∈ l, Combined op leaves c) (run : l.foldlM op first = .ok y) (last : op x y = .ok z) :
    (first :: l).foldlM op x = .ok z := by
  induction l using List.reverseRecOn generalizing y z
  case nil =>
    obtain rfl := pure_eq_ok.mp run
    rw [List.foldlM_cons, last]
    rfl
  case append_singleton l w hi =>
    rw [List.foldlM_append, bind_eq_ok] at run
    obtain ⟨y', run, step⟩ := run
    simp only [List.foldlM_cons, List.foldlM_nil, bind_pure] at step
    have ⟨hl, hw⟩ := List.forall_mem_append.mp hl
    have hy : Combined op leaves y' := .foldlM run hf hl
    have ⟨u, inner, outer⟩ := (assoc hx hy (hw w (by simp))).mpr ⟨y, step, last⟩
    rw [← List.cons_append, List.foldlM_append, hi hl run inner, ok_bind, List.foldlM_cons, outer]
    rfl

theorem Associates.combineAll_append {leaves : α → Prop} (assoc : Associates op (Combined op leaves))
    {l m : List α} {x y z : α} (hl : ∀ a ∈ l, leaves a) (hm : ∀ a ∈ m, leaves a)
    (left : combineAll op l = .ok (some x)) (right : combineAll op m = .ok (some y))
    (h : op x y = .ok z) : combineAll op (l ++ m) = .ok (some z) := by
  cases l
  case nil => cases left
  case cons a l =>
    cases m
    case nil => cases right
    case cons b m =>
      obtain ⟨_, run, ⟨⟩⟩ := map_eq_ok.mp left
      obtain ⟨_, run', ⟨⟩⟩ := map_eq_ok.mp right
      have ⟨ha, hl⟩ := List.forall_mem_cons.mp hl
      have ⟨hb, hm⟩ := List.forall_mem_cons.mp hm
      have hx := Combined.foldlM run (.leaf ha) fun c mem => .leaf (hl c mem)
      refine map_eq_ok.mpr ⟨z, ?_, rfl⟩
      rw [List.append_eq, List.foldlM_append, run, ok_bind]
      exact assoc.foldlM_cons hx (.leaf hb) (fun c mem => .leaf (hm c mem)) run' h

end Fallible
