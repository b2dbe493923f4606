import Mathlib.Data.Finset.Insert
import Mathlib.Algebra.Order.BigOperators.Group.List
import Mathlib.Algebra.BigOperators.Ring.List
import Mathlib.Algebra.Order.Ring.Nat

-- Depth-first order over shared trees, as a loop over a stack: a node is listed once, after
-- everything under it. Nodes are told apart by a key.

namespace PostOrder

inductive Step (α : Type)
  | visit (a : α)
  | emit (a : α)

variable {α κ : Type}

def Step.node : Step α → α
  | visit a | emit a => a

section

variable [DecidableEq κ] (refs : α → List α) (key : α → κ)

def run : (passes : Nat) → List (Step α) → (seen : Finset κ) → (order : List α) → List α
  | 0, _, _, order                             => order
  | _ + 1, [], _, order                        => order
  | passes + 1, .visit a :: stack, seen, order =>
    if key a ∈ seen then run passes stack seen order
    else run passes ((refs a).map .visit ++ .emit a :: stack) (insert (key a) seen) order
  | passes + 1, .emit a :: stack, seen, order  => run passes stack seen (order ++ [a])

-- The passes a step leads to, in a tree of the given weight.
def cost (weight : α → Nat) : Step α → Nat
  | .visit a => 2 * weight a
  | .emit _  => 1

end

-- Every node behind all that it references.
def Listed (refs : α → List α) (order : List α) : Prop :=
  ∀ front a back, order = front ++ a :: back → refs a ⊆ front

variable {refs : α → List α} {key : α → κ} {weight : α → Nat} {U : α → Prop} {roots order : List α}
  {stack rest : List (Step α)} {seen : Finset κ} {a : α}

theorem Listed.snoc (h : Listed refs order) (ready : refs a ⊆ order) : Listed refs (order ++ [a]) := by
  intro front b back split
  rcases List.eq_nil_or_concat back with rfl | ⟨back, last, rfl⟩
  · have ⟨same, last⟩ := List.append_inj' split rfl
    obtain rfl := List.singleton_inj.mp last
    exact same ▸ ready
  · rw [List.concat_eq_append, ← List.cons_append, ← List.append_assoc] at split
    have ⟨same, _⟩ := List.append_inj' split rfl
    exact h front b back same

-- Read backwards, every node is before all that it references.
theorem Listed.later {r : α} {i : Nat} (h : Listed refs order) (here : order.reverse[i]? = some a)
    (mem : r ∈ refs a) : ∃ j, order.reverse[j]? = some r ∧ i < j := by
  have ⟨lt, e⟩ := List.getElem?_eq_some_iff.mp here
  have split : order = (order.reverse.drop (i + 1)).reverse ++ a :: (order.reverse.take i).reverse := by
    rw [← List.reverse_inj, List.reverse_append, List.reverse_cons, List.reverse_reverse,
      List.reverse_reverse, List.append_assoc, List.singleton_append, ← e, List.getElem_cons_drop,
      List.take_append_drop]
  have ⟨k, hk⟩ := List.mem_iff_getElem?.mp (List.mem_reverse.mp (h _ a _ split mem))
  rw [List.getElem?_drop] at hk
  exact ⟨_, hk, by omega⟩

-- The loop lists nothing but what it reaches.
theorem run_within [DecidableEq κ] {passes : Nat} (closed : ∀ a, U a → ∀ r ∈ refs a, U r)
    (waiting : ∀ s ∈ stack, U s.node) (listed : ∀ a ∈ order, U a) :
    ∀ a ∈ run refs key passes stack seen order, U a := by
  induction passes generalizing stack seen order
  case zero => exact listed
  case succ passes hi =>
    match stack with
    | []                => exact listed
    | .visit b :: stack =>
      have ⟨here, rest⟩ := List.forall_mem_cons.mp waiting
      rw [run]
      split
      case isTrue => exact hi rest listed
      case isFalse =>
        refine hi (fun s mem => ?_) listed
        rcases List.mem_append.mp mem with below | above
        · obtain ⟨r, child, rfl⟩ := List.mem_map.mp below
          exact closed b here r child
        · rcases List.mem_cons.mp above with rfl | mem
          · exact here
          · exact rest s mem
    | .emit b :: stack  =>
      have ⟨here, rest⟩ := List.forall_mem_cons.mp waiting
      rw [run]
      refine hi rest fun a mem => ?_
      rcases List.mem_append.mp mem with mem | last
      · exact listed a mem
      · exact List.mem_singleton.mp last ▸ here

-- What the loop keeps: `U` holds of all nodes, `weight` falls along references, and the stack holds
-- above a node that waits only what lies under it.
structure Walk (refs : α → List α) (key : α → κ) (weight : α → Nat) (U : α → Prop) (roots : List α)
    (stack : List (Step α)) (seen : Finset κ) (order : List α) : Prop where
  within : (∀ s ∈ stack, U s.node) ∧ ∀ a ∈ order, U a
  seen   : ∀ a, U a → (key a ∈ seen ↔ a ∈ order ∨ .emit a ∈ stack)
  once   : order.Nodup
  fresh  : ∀ a ∈ order, .emit a ∉ stack
  listed : Listed refs order
  under  : stack.Pairwise fun s t => ∀ a, t = .emit a → weight s.node < weight a
  waits  : ∀ above a below, stack = above ++ .emit a :: below →
    ∀ r ∈ refs a, r ∈ order ∨ ∃ s ∈ above, s.node = r
  roots  : ∀ r ∈ roots, r ∈ order ∨ ∃ s ∈ stack, s.node = r

theorem Walk.init (h : ∀ r ∈ roots, U r) : Walk refs key weight U roots (roots.map .visit) ∅ [] where
  within := ⟨by simpa [Step.node] using h, by simp⟩
  seen   := by simp
  once   := List.nodup_nil
  fresh  := by simp
  listed := by simp [Listed]
  under  := List.pairwise_map.mpr (List.pairwise_of_forall fun _ _ _ => nofun)
  waits  := by
    intro above a below split
    have : Step.emit a ∈ roots.map Step.visit := split ▸ by simp
    simp at this
  roots  := by simp [Step.node]

theorem Walk.pop (w : Walk refs key weight U roots (.emit a :: stack) seen order) :
    Walk refs key weight U roots stack seen (order ++ [a]) := by
  have ⟨here, within⟩ := List.forall_mem_cons.mp w.within.1
  have ⟨above, under⟩ := List.pairwise_cons.mp w.under
  have new : a ∉ order := fun mem => w.fresh a mem List.mem_cons_self
  constructor
  case within =>
    refine ⟨within, fun b mem => ?_⟩
    obtain mem | rfl := List.mem_append.mp mem |>.imp_right List.mem_singleton.mp
    · exact w.within.2 b mem
    · exact here
  case seen =>
    intro b hb
    rw [w.seen b hb, List.mem_cons, List.mem_append, List.mem_singleton, Step.emit.injEq]
    tauto
  case once =>
    refine List.nodup_append.mpr ⟨w.once, List.nodup_singleton a, ?_⟩
    rintro b hb _ (_ | ⟨_, ⟨⟩⟩) rfl
    exact new hb
  case fresh =>
    intro b hb mem
    obtain hb | rfl := List.mem_append.mp hb |>.imp_right List.mem_singleton.mp
    · exact w.fresh b hb (List.mem_cons_of_mem _ mem)
    · exact lt_irrefl _ (above _ mem b rfl)
  case listed =>
    exact w.listed.snoc fun r hr => (w.waits [] a stack rfl r hr).resolve_right (by simp)
  case under => exact under
  case waits =>
    intro front b below split r hr
    subst split
    rw [List.mem_append, List.mem_singleton]
    obtain done | ⟨s, mem, e⟩ := w.waits (.emit a :: front) b below rfl r hr
    · exact .inl (.inl done)
    · obtain rfl | mem := List.mem_cons.mp mem
      · exact .inl (.inr e.symm)
      · exact .inr ⟨s, mem, e⟩
  case roots =>
    intro r hr
    rw [List.mem_append, List.mem_singleton]
    obtain done | ⟨s, mem, e⟩ := w.roots r hr
    · exact .inl (.inl done)
    · obtain rfl | mem := List.mem_cons.mp mem
      · exact .inl (.inr e.symm)
      · exact .inr ⟨s, mem, e⟩

-- A waiting node under the visits of a list is the one right under them or one further down.
theorem split_visits {b : α} {l : List α} {front below : List (Step α)}
    (h : l.map .visit ++ .emit a :: stack = front ++ .emit b :: below) :
    (front = l.map .visit ∧ b = a ∧ below = stack) ∨
      ∃ front', front = l.map .visit ++ .emit a :: front' ∧ stack = front' ++ .emit b :: below := by
  induction l generalizing front
  case nil =>
    cases front
    case nil =>
      obtain ⟨rfl, rfl⟩ : a = b ∧ stack = below := by simpa using h
      exact .inl ⟨rfl, rfl, rfl⟩
    case cons s front =>
      obtain ⟨rfl, rfl⟩ : Step.emit a = s ∧ stack = front ++ .emit b :: below := by simpa using h
      exact .inr ⟨front, rfl, rfl⟩
  case cons c l hi =>
    cases front
    case nil => simp at h
    case cons s front =>
      obtain ⟨rfl, tail⟩ : Step.visit c = s ∧ _ := by simpa using h
      simpa using hi tail

-- How a key and a weight belong to the references of a tree.
structure Keyed (refs : α → List α) (key : α → κ) (weight : α → Nat) (U : α → Prop) : Prop where
  inj    : ∀ a b, U a → U b → key a = key b → a = b
  closed : ∀ a, U a → ∀ r ∈ refs a, U r
  weight : ∀ a, 1 + ((refs a).map weight).sum ≤ weight a

namespace Keyed

variable (k : Keyed refs key weight U)

include k

theorem weight_lt {r : α} (h : r ∈ refs a) : weight r < weight a := by
  have le := List.single_le_sum (fun _ _ => Nat.zero_le _) _ (List.mem_map_of_mem (f := weight) h)
  have := k.weight a
  omega

-- A node that waits lies below what it references.
theorem not_below {above below : List (Step α)} {r : α}
    (w : Walk refs key weight U roots (above ++ .emit a :: below) seen order) (h : r ∈ refs a) :
    .emit r ∉ below := by
  intro mem
  have under := (List.pairwise_append.mp w.under).2.1
  have up : weight a < weight r := (List.pairwise_cons.mp under).1 _ mem r rfl
  have := k.weight_lt h
  omega

theorem skip (w : Walk refs key weight U roots (.visit a :: stack) seen order) (old : key a ∈ seen) :
    Walk refs key weight U roots stack seen order := by
  have known : a ∈ order ∨ .emit a ∈ stack := by
    simpa using (w.seen a (w.within.1 (.visit a) List.mem_cons_self)).mp old
  constructor
  case within => exact ⟨(List.forall_mem_cons.mp w.within.1).2, w.within.2⟩
  case seen => exact fun b hb => by simpa using w.seen b hb
  case once => exact w.once
  case fresh => exact fun b hb mem => w.fresh b hb (List.mem_cons_of_mem _ mem)
  case listed => exact w.listed
  case under => exact (List.pairwise_cons.mp w.under).2
  case waits =>
    intro above b below split r hr
    subst split
    obtain done | ⟨s, mem, rfl⟩ := w.waits (.visit a :: above) b below rfl r hr
    · exact .inl done
    · obtain rfl | mem := List.mem_cons.mp mem
      · refine known.imp_right fun mem => ?_
        obtain above | below := List.mem_append.mp mem
        · exact ⟨_, above, rfl⟩
        · obtain same | below := List.mem_cons.mp below
          · obtain rfl := Step.emit.inj same
            exact absurd (k.weight_lt hr) (lt_irrefl _)
          · exact absurd below (k.not_below (show Walk _ _ _ _ _ ((.visit a :: above) ++ _) _ _ from w) hr)
      · exact .inr ⟨s, mem, rfl⟩
  case roots =>
    intro r hr
    obtain done | ⟨s, mem, rfl⟩ := w.roots r hr
    · exact .inl done
    · obtain rfl | mem := List.mem_cons.mp mem
      · exact known.imp_right fun mem => ⟨.emit a, mem, rfl⟩
      · exact .inr ⟨s, mem, rfl⟩

theorem push [DecidableEq κ] (w : Walk refs key weight U roots (.visit a :: stack) seen order)
    (new : key a ∉ seen) :
    Walk refs key weight U roots ((refs a).map .visit ++ .emit a :: stack) (insert (key a) seen)
      order := by
  have ⟨here, within⟩ := List.forall_mem_cons.mp w.within.1
  have unseen : a ∉ order ∧ .emit a ∉ stack := by
    simpa using (w.seen a here).not.mp new
  have ⟨above, under⟩ := List.pairwise_cons.mp w.under
  constructor
  case within =>
    refine ⟨fun s mem => ?_, w.within.2⟩
    obtain named | mem := List.mem_append.mp mem
    · have ⟨r, hr, e⟩ := List.mem_map.mp named
      exact e ▸ k.closed a here r hr
    · obtain rfl | mem := List.mem_cons.mp mem
      · exact here
      · exact within s mem
  case seen =>
    intro b hb
    have same : key b = key a ↔ b = a := ⟨k.inj b a hb here, fun e => e ▸ rfl⟩
    have old := w.seen b hb
    simp only [List.mem_cons, reduceCtorEq, false_or] at old
    simp [old, same]
    tauto
  case once => exact w.once
  case fresh =>
    intro b hb mem
    have old := w.fresh b hb
    simp only [List.mem_append, List.mem_map, List.mem_cons, reduceCtorEq, and_false, exists_false,
      false_or, Step.emit.injEq] at old mem
    obtain rfl | mem := mem
    · exact unseen.1 hb
    · exact old mem
  case listed => exact w.listed
  case under =>
    refine List.pairwise_append.mpr ⟨?_, List.pairwise_cons.mpr ⟨above, under⟩, ?_⟩
    · exact List.pairwise_map.mpr (List.pairwise_of_forall fun _ _ _ => nofun)
    · intro s named t mem b e
      obtain ⟨r, hr, rfl⟩ := List.mem_map.mp named
      have less := k.weight_lt hr
      obtain rfl | mem := List.mem_cons.mp mem
      · exact Step.emit.inj e ▸ less
      · exact lt_trans less (above t mem b e)
  case waits =>
    intro front b below split r hr
    obtain ⟨rfl, rfl, rfl⟩ | ⟨front, rfl, rfl⟩ :
        (front = (refs a).map .visit ∧ b = a ∧ below = stack) ∨
          ∃ front', front = (refs a).map .visit ++ .emit a :: front' ∧
            stack = front' ++ .emit b :: below := split_visits split
    · exact .inr ⟨.visit r, List.mem_map_of_mem hr, rfl⟩
    · refine (w.waits (.visit a :: front) b below rfl r hr).imp_right fun ⟨s, mem, e⟩ => ?_
      obtain rfl | mem := List.mem_cons.mp mem
      · exact ⟨.emit a, by simp, e⟩
      · exact ⟨s, by simp [mem], e⟩
  case roots =>
    intro r hr
    refine (w.roots r hr).imp_right fun ⟨s, mem, e⟩ => ?_
    obtain rfl | mem := List.mem_cons.mp mem
    · exact ⟨.emit a, by simp, e⟩
    · exact ⟨s, by simp [mem], e⟩

-- The loop runs to the end of its stack when it may make as many passes as the stack costs.
theorem run [DecidableEq κ] (passes : Nat) (w : Walk refs key weight U roots stack seen order)
    (enough : (stack.map (cost weight)).sum ≤ passes) :
    ∃ seen', Walk refs key weight U roots [] seen' (run refs key passes stack seen order) := by
  induction passes generalizing stack seen order
  case zero =>
    cases stack
    case nil => exact ⟨seen, w⟩
    case cons s stack =>
      have : 0 < cost weight s := by
        cases s
        case visit a =>
          have := k.weight a
          simp only [cost]
          omega
        case emit => exact Nat.one_pos
      simp only [List.map_cons, List.sum_cons] at enough
      omega
  case succ passes hi =>
    rcases stack with _ | ⟨a | a, stack⟩
    case nil => exact ⟨seen, w⟩
    case cons.visit =>
      simp only [List.map_cons, List.sum_cons, cost] at enough
      have weight_a := k.weight a
      unfold PostOrder.run
      split
      case isTrue old => exact hi (k.skip w old) (by omega)
      case isFalse new =>
        refine hi (k.push w new) ?_
        have visits : ((refs a).map Step.visit |>.map (cost weight)).sum =
            2 * ((refs a).map weight).sum := by
          simp [List.map_map, Function.comp_def, cost, List.sum_map_mul_left]
        rw [List.map_append, List.sum_append, visits, List.map_cons, List.sum_cons, cost]
        omega
    case cons.emit =>
      simp only [List.map_cons, List.sum_cons, cost] at enough
      exact hi (w.pop) (by omega)

end Keyed

-- A list of everything under the roots, each node once and behind all that it references.
structure Order (refs : α → List α) (U : α → Prop) (roots order : List α) : Prop where
  within : ∀ a ∈ order, U a
  once   : order.Nodup
  listed : Listed refs order
  roots  : roots ⊆ order

theorem Keyed.sorts [DecidableEq κ] (k : Keyed refs key weight U) (h : ∀ r ∈ roots, U r)
    {passes : Nat} (enough : (roots.map fun root => 2 * weight root).sum ≤ passes) :
    Order refs U roots (PostOrder.run refs key passes (roots.map .visit) ∅ []) := by
  have ⟨_, w⟩ := k.run passes (.init h)
    (by simpa only [List.map_map, Function.comp_def, cost] using enough)
  exact ⟨w.within.2, w.once, w.listed, fun r hr => (w.roots r hr).resolve_right (by simp)⟩

theorem Order.closed (o : Order refs U roots order) (mem : a ∈ order) : refs a ⊆ order := by
  obtain ⟨front, back, rfl⟩ := List.append_of_mem mem
  exact List.Subset.trans (o.listed front a back rfl) (List.subset_append_left ..)

end PostOrder
