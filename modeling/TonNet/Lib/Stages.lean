import TonNet.Lib.Fallible

-- Steps made one after another, each of which can be made or not whatever the state is.

namespace Fallible

variable {σ ε α : Type}

-- How far a run of `count` steps comes, where `made k` is what the state is after `k` of them. The
-- steps before the first that cannot be made stay made.
structure Stages (made : Nat → σ → Prop) (count : Nat) (result : Except ε Unit × σ) : Prop where
  succeeds : result.1 = .ok () ↔ ∀ k ≤ count, ∃ s, made k s
  ends     : result.1 = .ok () → made count result.2
  stops    : ∀ e, result.1 = .error e →
    ∃ k < count, made k result.2 ∧ (∀ j ≤ k, ∃ s, made j s) ∧ ∀ s, ¬made (k + 1) s

namespace Stages

variable {made : Nat → σ → Prop} {count : Nat} {result : Except ε Unit × σ} {s : σ}

theorem none (start : made 0 s) : Stages (ε := ε) made 0 (.ok (), s) where
  succeeds := iff_of_true rfl fun _ le => ⟨s, Nat.le_zero.mp le ▸ start⟩
  ends _   := start
  stops    := nofun

theorem stuck {e : ε} (start : made 0 s) (never : ∀ s, ¬made 1 s) :
    Stages made (count + 1) (.error e, s) where
  succeeds := by
    refine iff_of_false nofun fun all => ?_
    have ⟨s, here⟩ := all 1 (by omega)
    exact never s here
  ends     := nofun
  stops _ _ := ⟨0, by omega, start, fun j le => ⟨s, Nat.le_zero.mp le ▸ start⟩, never⟩

theorem later (start : made 0 s) (rest : Stages (fun k => made (k + 1)) count result) :
    Stages made (count + 1) result where
  succeeds := by
    rw [rest.succeeds]
    constructor
    · intro all k le
      cases k
      case zero => exact ⟨s, start⟩
      case succ k => exact all k (by omega)
    · exact fun all k le => all (k + 1) (by omega)
  ends     := rest.ends
  stops e failed := by
    have ⟨k, lt, here, before, never⟩ := rest.stops e failed
    refine ⟨k + 1, by omega, here, fun j le => ?_, never⟩
    cases j
    case zero => exact ⟨s, start⟩
    case succ j => exact before j (by omega)

-- A step that cannot be made leaves the state alone.
theorem forM {f : α → Method σ ε Unit} (as : List α) (start : made 0 s)
    (step : ∀ k a, as[k]? = some a → ∀ s s', made k s → ((f a).Ends s () s' ↔ made (k + 1) s'))
    (fails : ∀ a s e s', (f a).outcome s = (.error e, s') → s' = s) :
    Stages made as.length ((as.forM f).outcome s) := by
  induction as generalizing made s
  case nil => exact none start
  case cons a as hi =>
    have spec {s' : σ} := step 0 a rfl s s' start
    simp only [List.forM]
    rw [Method.outcome_bind]
    rcases first : (f a).outcome s with ⟨e | _, s'⟩
    case error =>
      obtain rfl := fails a s e s' first
      refine stuck start fun t there => ?_
      have ends : (f a).outcome s' = (.ok (), t) := spec.mpr there
      rw [first] at ends
      cases ends
    case ok => exact later start (hi (spec.mp first) fun k b here => step (k + 1) b here)

end Stages

end Fallible
