import TonNet.Lib.Fallible
import Mathlib.Algebra.GroupWithZero.Nat

-- A walk over a stack: what comes off it fails, is an item, or is replaced by two entries that come off
-- next.

namespace Unfold

open Fallible Method

variable {ρ ε ι : Type} {look : ρ → Except ε (ι ⊕ ρ × ρ)} {stack : List ρ} {items : List (Except ε ι)}

-- What a walk that looks at entries yields, up to the first failure.
inductive Runs (look : ρ → Except ε (ι ⊕ ρ × ρ)) : List ρ → List (Except ε ι) → Prop
  | done : Runs look [] []
  | fails {entry : ρ} {rest : List ρ} {e : ε} (h : look entry = .error e) :
    Runs look (entry :: rest) [.error e]
  | item {entry : ρ} {rest : List ρ} {i : ι} {items : List (Except ε ι)}
    (h : look entry = .ok (.inl i)) (more : Runs look rest items) :
    Runs look (entry :: rest) (.ok i :: items)
  | fork {entry left right : ρ} {rest : List ρ} {items : List (Except ε ι)}
    (h : look entry = .ok (.inr (left, right))) (more : Runs look (left :: right :: rest) items) :
    Runs look (entry :: rest) items

-- The items below an entry, when there is no failure among them.
inductive Leaves (look : ρ → Except ε (ι ⊕ ρ × ρ)) : ρ → List ι → Prop
  | item {entry : ρ} {i : ι} (h : look entry = .ok (.inl i)) : Leaves look entry [i]
  | fork {entry left right : ρ} {l r : List ι} (h : look entry = .ok (.inr (left, right)))
    (hl : Leaves look left l) (hr : Leaves look right r) : Leaves look entry (l ++ r)

theorem Runs.unique {items' : List (Except ε ι)} (h : Runs look stack items)
    (h' : Runs look stack items') : items = items' := by
  induction h generalizing items'
  case done => cases h'; rfl
  case fails h => cases h' <;> simp_all
  case item h _ hi =>
    cases h'
    case item h' more =>
      cases h.symm.trans h'
      rw [hi more]
    all_goals simp_all
  case fork h _ hi =>
    cases h'
    case fork h' more =>
      cases h.symm.trans h'
      exact hi more
    all_goals simp_all

theorem Leaves.runs {entry : ρ} {l : List ι} (h : Leaves look entry l) {rest : List ρ}
    (more : Runs look rest items) : Runs look (entry :: rest) (l.map .ok ++ items) := by
  induction h generalizing rest items
  case item h => exact .item h more
  case fork h _ _ hl hr =>
    rw [List.map_append, List.append_assoc]
    exact .fork h (hl (hr more))

theorem Runs.leaves (h : Runs look stack items) (ok : ∀ e, .error e ∉ items) :
    ∃ parts, List.Forall₂ (Leaves look) stack parts ∧ items = parts.flatten.map .ok := by
  induction h
  case done => exact ⟨[], .nil, rfl⟩
  case fails e _ => exact absurd (List.mem_singleton_self _) (ok e)
  case item i _ h _ hi =>
    have ⟨parts, all, same⟩ := hi fun e mem => ok e (List.mem_cons_of_mem _ mem)
    exact ⟨[i] :: parts, .cons (.item h) all, by simp [same]⟩
  case fork h _ hi =>
    have ⟨parts, all, same⟩ := hi ok
    obtain _ | ⟨hl, _ | ⟨hr, all⟩⟩ := all
    exact ⟨_, .cons (.fork h hl hr) all, by simp [same]⟩

-- A fuelled loop that takes the stack apart in this way.
structure Walks (look : ρ → Except ε (ι ⊕ ρ × ρ)) (walk : Nat → Method (List ρ) ε (Option ι)) :
    Prop where
  done  : ∀ passes, (walk (passes + 1)).outcome [] = (.ok none, [])
  fails : ∀ passes entry rest e, look entry = .error e →
    ∃ stack, (walk (passes + 1)).outcome (entry :: rest) = (.error e, stack)
  item  : ∀ passes entry rest i, look entry = .ok (.inl i) →
    (walk (passes + 1)).outcome (entry :: rest) = (.ok (some i), rest)
  fork  : ∀ passes entry rest left right, look entry = .ok (.inr (left, right)) →
    (walk (passes + 1)).outcome (entry :: rest) = (walk passes).outcome (left :: right :: rest)

-- What the loop does with an entry, by what it sees in it.
def goesOn (walk : Method (List ρ) ε (Option ι)) (rest stack : List ρ) :
    Except ε (ι ⊕ ρ × ρ) → Except ε (Option ι) × List ρ
  | .error e                 => (.error e, stack)
  | .ok (.inl item)          => (.ok (some item), rest)
  | .ok (.inr (left, right)) => walk.outcome (left :: right :: rest)

theorem Walks.of_cons {walk : Nat → Method (List ρ) ε (Option ι)}
    (done : ∀ passes, (walk (passes + 1)).outcome [] = (.ok none, []))
    (cons : ∀ passes entry rest, ∃ stack,
      (walk (passes + 1)).outcome (entry :: rest) = goesOn (walk passes) rest stack (look entry)) :
    Walks look walk where
  done := done
  fails passes entry rest e h := by
    have ⟨stack, run⟩ := cons passes entry rest
    rw [h] at run
    exact ⟨stack, run⟩
  item passes entry rest i h := by
    have ⟨_, run⟩ := cons passes entry rest
    rwa [h] at run
  fork passes entry rest left right h := by
    have ⟨_, run⟩ := cons passes entry rest
    rwa [h] at run

-- The entries below a fork are of less height, and of less size together.
structure Falls (look : ρ → Except ε (ι ⊕ ρ × ρ)) (height size : ρ → Nat) : Prop where
  lower   : ∀ entry left right, look entry = .ok (.inr (left, right)) → height left < height entry
  smaller : ∀ entry left right, look entry = .ok (.inr (left, right)) →
    size left + size right < size entry
  pos     : ∀ entry, 0 < size entry

variable {walk : Nat → Method (List ρ) ε (Option ι)} {height size : ρ → Nat} {passes : Nat}

-- One call of the loop.
inductive Called (look : ρ → Except ε (ι ⊕ ρ × ρ)) (size : ρ → Nat) (stack : List ρ) :
    Except ε (Option ι) × List ρ → Prop
  | done (h : stack = []) : Called look size stack (.ok none, [])
  | fails {e : ε} {after : List ρ} (h : Runs look stack [.error e]) :
    Called look size stack (.error e, after)
  | item {i : ι} {after : List ρ} (less : (after.map size).sum < (stack.map size).sum)
    (h : ∀ items, Runs look after items → Runs look stack (.ok i :: items)) :
    Called look size stack (.ok (some i), after)

theorem Walks.called (w : Walks look walk) (f : Falls look height size)
    (enough : ∀ entry ∈ stack.head?, height entry < passes) (pos : 0 < passes) :
    Called look size stack ((walk passes).outcome stack) := by
  induction passes generalizing stack
  case zero => omega
  case succ passes hi =>
    cases stack
    case nil =>
      rw [w.done]
      exact .done rfl
    case cons entry rest =>
      have enough := enough entry rfl
      cases h : look entry
      case error e =>
        have ⟨after, failed⟩ := w.fails passes entry rest e h
        rw [failed]
        exact .fails (.fails h)
      case ok seen =>
        obtain i | ⟨left, right⟩ := seen
        · rw [w.item passes entry rest i h]
          have := f.pos entry
          exact .item (by simp; omega) fun items more => .item h more
        · have lower := f.lower entry left right h
          have smaller := f.smaller entry left right h
          rw [w.fork passes entry rest left right h]
          have enough : ∀ entry ∈ (left :: right :: rest).head?, height entry < passes := by
            rintro _ ⟨⟩
            omega
          have below := hi enough (by omega)
          generalize (walk passes).outcome (left :: right :: rest) = after at below
          cases below
          case done empty => cases empty
          case fails failed => exact .fails (.fork h failed)
          case item less more =>
            refine .item ?_ fun items h' => .fork h (more items h')
            simp at less ⊢
            omega

-- The walk from one call to the next.
def collect (step : Method (List ρ) ε (Option ι)) : Nat → List ρ → List (Except ε ι)
  | 0, _              => []
  | passes + 1, stack =>
    match step.outcome stack with
    | (.ok (some item), stack) => .ok item :: collect step passes stack
    | (.ok none, _)            => []
    | (.error e, _)            => [.error e]

theorem runs_collect {step : Method (List ρ) ε (Option ι)}
    (called : ∀ stack, Called look size stack (step.outcome stack))
    (enough : (stack.map size).sum < passes) : Runs look stack (collect step passes stack) := by
  induction passes generalizing stack
  case zero => omega
  case succ passes hi =>
    have one := called stack
    rw [collect]
    generalize step.outcome stack = outcome at one
    cases one
    case done empty =>
      subst empty
      exact .done
    case fails failed => exact failed
    case item less more => exact more _ (hi (by omega))

section Order

variable {κ : Type} [LT κ] {under : ρ → κ → Prop} {names : ι → κ → Prop}

-- Every key below an entry is under it, and those of its left branch come first.
structure Guides (look : ρ → Except ε (ι ⊕ ρ × ρ)) (under : ρ → κ → Prop) (names : ι → κ → Prop) :
    Prop where
  item  : ∀ {entry i}, look entry = .ok (.inl i) → ∃ k, under entry k ∧ names i k
  left  : ∀ {entry left right k}, look entry = .ok (.inr (left, right)) → under left k → under entry k
  right : ∀ {entry left right k}, look entry = .ok (.inr (left, right)) → under right k → under entry k
  apart : ∀ {entry left right k k'}, look entry = .ok (.inr (left, right)) → under left k →
    under right k' → k < k'

theorem Runs.ascends (g : Guides look under names) (h : Runs look stack items)
    (ordered : stack.Pairwise fun entry entry' => ∀ k k', under entry k → under entry' k' → k < k') :
    ∃ keys, List.Forall₂ names (items.filterMap Except.toOption) keys ∧ keys.Pairwise (· < ·) ∧
      ∀ k ∈ keys, ∃ entry ∈ stack, under entry k := by
  induction h
  case done => exact ⟨[], .nil, .nil, nofun⟩
  case fails => exact ⟨[], .nil, .nil, nofun⟩
  case item entry rest i items h _ hi =>
    have ⟨first, later⟩ := List.pairwise_cons.mp ordered
    have ⟨keys, named, ascending, covered⟩ := hi later
    have ⟨k, here, name⟩ := g.item h
    refine ⟨k :: keys, .cons name named, .cons (fun k' mem => ?_) ascending, fun k' mem => ?_⟩
    · have ⟨entry', mem', there⟩ := covered k' mem
      exact first entry' mem' k k' here there
    · obtain rfl | mem := List.mem_cons.mp mem
      · exact ⟨entry, List.mem_cons_self, here⟩
      · have ⟨entry', mem', there⟩ := covered k' mem
        exact ⟨entry', List.mem_cons_of_mem _ mem', there⟩
  case fork entry left right rest items h _ hi =>
    have ⟨first, later⟩ := List.pairwise_cons.mp ordered
    have ⟨keys, named, ascending, covered⟩ := hi <| by
      refine .cons (fun entry' mem k k' hk hk' => ?_) (.cons (fun entry' mem k k' hk hk' => ?_) later)
      · obtain rfl | mem := List.mem_cons.mp mem
        · exact g.apart h hk hk'
        · exact first entry' mem k k' (g.left h hk) hk'
      · exact first entry' mem k k' (g.right h hk) hk'
    refine ⟨keys, named, ascending, fun k mem => ?_⟩
    have ⟨entry', mem', there⟩ := covered k mem
    obtain rfl | mem' := List.mem_cons.mp mem'
    · exact ⟨entry, List.mem_cons_self, g.left h there⟩
    · obtain rfl | mem' := List.mem_cons.mp mem'
      · exact ⟨entry, List.mem_cons_self, g.right h there⟩
      · exact ⟨entry', List.mem_cons_of_mem _ mem', there⟩

end Order

end Unfold
