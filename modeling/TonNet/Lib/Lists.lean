import Mathlib.Data.List.Forall2
import Mathlib.Tactic.Ring

-- Lists related place by place, and when a concatenation determines its pieces.

namespace List

variable {α β γ : Type}

theorem Forall₂.imp_mem {R S : α → β → Prop} {l : List α} {m : List β} (h : Forall₂ R l m)
    (hi : ∀ a ∈ l, ∀ b ∈ m, R a b → S a b) : Forall₂ S l m := by
  induction h
  case nil => exact .nil
  case cons hab _ ih =>
    refine .cons (hi _ (by simp) _ (by simp) hab) (ih fun a ha b hb => ?_)
    exact hi a (mem_cons_of_mem _ ha) b (mem_cons_of_mem _ hb)

theorem Forall₂.at_index {R : α → β → Prop} {l : List α} {m : List β} {i : Nat} {a : α} {b : β}
    (h : Forall₂ R l m) (ha : l[i]? = some a) (hb : m[i]? = some b) : R a b := by
  induction h generalizing i
  case nil => simp at ha
  case cons hab _ hi =>
    cases i
    case zero =>
      obtain rfl := Option.some_inj.mp ha
      obtain rfl := Option.some_inj.mp hb
      exact hab
    case succ => exact hi ha hb

theorem Forall₂.exists_right {R : α → β → Prop} {l : List α} {m : List β} {i : Nat} {a : α}
    (h : Forall₂ R l m) (ha : l[i]? = some a) : ∃ b, m[i]? = some b ∧ R a b := by
  have hi := (getElem?_eq_some_iff.mp ha).1
  have hb := getElem?_eq_getElem (h.length_eq ▸ hi)
  exact ⟨_, hb, h.at_index ha hb⟩

theorem Forall₂.exists_left {R : α → β → Prop} {l : List α} {m : List β} {i : Nat} {b : β}
    (h : Forall₂ R l m) (hb : m[i]? = some b) : ∃ a, l[i]? = some a ∧ R a b :=
  h.flip.exists_right hb

theorem Forall₂.exists_mem {R : α → β → Prop} {l : List α} {m : List β} {b : β}
    (h : Forall₂ R l m) (hb : b ∈ m) : ∃ a ∈ l, R a b := by
  have ⟨i, here⟩ := mem_iff_getElem?.mp hb
  have ⟨a, ha, hab⟩ := h.exists_left here
  exact ⟨a, mem_of_getElem? ha, hab⟩

theorem Forall₂.exists_between {R : α → β → Prop} {S : β → γ → Prop} {l : List α} {n : List γ}
    (h : Forall₂ (fun a c => ∃ b, R a b ∧ S b c) l n) : ∃ m, Forall₂ R l m ∧ Forall₂ S m n := by
  induction h
  case nil => exact ⟨[], .nil, .nil⟩
  case cons here _ hi =>
    have ⟨b, first, second⟩ := here
    have ⟨m, firsts, seconds⟩ := hi
    exact ⟨b :: m, .cons first firsts, .cons second seconds⟩

theorem forall₂_set {R : α → α → Prop} {l : List α} {i : Nat} {a b : α} (refl : ∀ x, R x x)
    (ha : l[i]? = some a) (hab : R a b) : Forall₂ R l (l.set i b) := by
  induction l generalizing i
  case nil => simp at ha
  case cons x l hi =>
    cases i
    case zero =>
      obtain rfl : x = a := by simpa using ha
      exact .cons hab (forall₂_same.mpr fun x _ => refl x)
    case succ i => exact .cons (refl x) (hi (by simpa using ha))

theorem flatMap_eq_of_forall₂ {f : α → List γ} {g : β → List γ} {l : List α} {m : List β}
    (h : Forall₂ (fun a b => f a = g b) l m) : l.flatMap f = m.flatMap g := by
  induction h
  case nil => rfl
  case cons hd _ hi => rw [flatMap_cons, flatMap_cons, hd, hi]

theorem length_flatMap_of_forall {f : α → List γ} {k : Nat} (h : ∀ a, (f a).length = k)
    (l : List α) : (l.flatMap f).length = l.length * k := by
  induction l
  case nil => simp
  case cons a l hi => simp [h, hi]; ring

theorem take_drop_flatMap {f : α → List γ} {k i : Nat} (h : ∀ a, (f a).length = k) {l : List α}
    {a : α} (ha : l[i]? = some a) : ((l.flatMap f).drop (k * i)).take k = f a := by
  induction l generalizing i
  case nil => simp at ha
  case cons b l hi =>
    rw [flatMap_cons]
    cases i
    case zero =>
      obtain rfl : b = a := by simpa using ha
      rw [Nat.mul_zero, drop_zero, take_left' (h b)]
    case succ i =>
      rw [Nat.mul_succ, Nat.add_comm, ← drop_drop, drop_left' (h b)]
      exact hi (by simpa using ha)

-- Pieces of one fixed size can be cut out of their concatenation again.
theorem forall₂_of_flatMap_eq {f : α → List γ} {g : β → List γ} {k : Nat}
    (hf : ∀ a, (f a).length = k) (hg : ∀ b, (g b).length = k) {l : List α} {m : List β}
    (hl : l.length = m.length) (h : l.flatMap f = m.flatMap g) :
    Forall₂ (fun a b => f a = g b) l m := by
  induction l generalizing m
  case nil =>
    have : m = [] := List.length_eq_zero_iff.mp hl.symm
    exact this ▸ .nil
  case cons a l hi =>
    cases m
    case nil => simp at hl
    case cons b m =>
      simp only [flatMap_cons] at h
      have ⟨hd, tl⟩ := append_inj h (by rw [hf, hg])
      exact .cons hd (hi (by simpa using hl) tl)

-- In an ordered list, what a test that passes only at the beginning is dropped for does not pass it.
theorem takeWhile_congr {p q : α → Bool} {l : List α} (h : ∀ a ∈ l, p a = q a) :
    l.takeWhile p = l.takeWhile q := by
  induction l
  case nil => rfl
  case cons a l hi =>
    have ⟨here, rest⟩ := forall_mem_cons.mp h
    rw [takeWhile_cons, takeWhile_cons, here, hi rest]

theorem not_of_mem_dropWhile {r : α → α → Prop} {p : α → Bool} {l : List α} (h : l.Pairwise r)
    (down : ∀ a ∈ l, ∀ b ∈ l, r a b → p b = true → p a = true) {b : α} (hb : b ∈ l.dropWhile p) :
    p b = false := by
  induction h
  case nil => cases hb
  case cons a l above _ hi =>
    rw [dropWhile_cons] at hb
    split at hb
    case isTrue =>
      exact hi (fun x hx y hy => down x (mem_cons_of_mem _ hx) y (mem_cons_of_mem _ hy)) hb
    case isFalse first =>
      obtain rfl | mem := mem_cons.mp hb
      · exact Bool.eq_false_iff.mpr first
      · refine Bool.eq_false_iff.mpr fun late => first ?_
        exact down a mem_cons_self b (mem_cons_of_mem _ mem) (above b mem) late

-- Lists that agree in length up to where they are cut compare by what comes first.
theorem append_lt_append_iff [LT α] {a b u v : List α} (h : a.length = b.length) :
    a ++ u < b ++ v ↔ a < b ∨ a = b ∧ u < v := by
  induction a generalizing b
  case nil =>
    obtain rfl := List.eq_nil_of_length_eq_zero h.symm
    simp
  case cons x a hi =>
    cases b
    case nil => simp at h
    case cons y b =>
      rw [cons_append, cons_append, cons_lt_cons_iff, hi (by simpa using h), cons_lt_cons_iff]
      simp only [cons.injEq]
      tauto

end List
