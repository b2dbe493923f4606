import TonNet.Lib.Lockstep

-- Two runs that cannot be told apart: they return the same or fail alike, and also after a failure the
-- states they leave are related again.

namespace Fallible

variable {ε σ α β γ δ : Type}

inductive Outcomes (S : σ → σ → Prop) (V : α → β → Prop) : Except ε α × σ → Except ε β × σ → Prop
  | fails (e : ε) {s t : σ} (left : S s t) : Outcomes S V (.error e, s) (.error e, t)
  | ends {a : α} {b : β} {s t : σ} (related : V a b) (left : S s t) : Outcomes S V (.ok a, s) (.ok b, t)

def Mirrors (S : σ → σ → Prop) (V : α → β → Prop) (x : Method σ ε α) (y : Method σ ε β) : Prop :=
  ∀ ⦃s t⦄, S s t → Outcomes S V (x.outcome s) (y.outcome t)

section

variable {S : σ → σ → Prop} {V : α → β → Prop} {s t : σ} {x : Method σ ε α} {y : Method σ ε β}

theorem Outcomes.left (h : Outcomes S V (x.outcome s) (y.outcome t)) : S (x.outcome s).2 (y.outcome t).2 := by
  generalize x.outcome s = p at h ⊢
  generalize y.outcome t = q at h ⊢
  cases h <;> assumption

theorem Outcomes.value (h : Outcomes S V (x.outcome s) (y.outcome t)) :
    Echoes (fun _ => False) V (x.value s) (y.value t) := by
  unfold Method.value
  generalize x.outcome s = p at h ⊢
  generalize y.outcome t = q at h ⊢
  cases h
  case fails => exact .fails _
  case ends related _ => exact .ends related

theorem Outcomes.call (h : Outcomes S V (x.outcome s) (y.outcome t)) :
    Echoes (fun _ => False) (fun p q => V p.1 q.1 ∧ S p.2 q.2) (x.call s) (y.call t) := by
  unfold Method.call
  generalize x.outcome s = p at h ⊢
  generalize y.outcome t = q at h ⊢
  cases h
  case fails => exact .fails _
  case ends related left => exact .ends ⟨related, left⟩

end

namespace Mirrors

variable {S : σ → σ → Prop} {V : α → β → Prop} {W : γ → δ → Prop}

theorem pure {a : α} {b : β} (h : V a b) : Mirrors S V (Pure.pure a : Method σ ε α) (Pure.pure b) :=
  fun _ _ hs => .ends h hs

theorem throw (e : ε) : Mirrors S V (MonadExcept.throw e : Method σ ε α) (MonadExcept.throw e) :=
  fun _ _ hs => .fails e hs

theorem bind {x : Method σ ε α} {y : Method σ ε β} {f : α → Method σ ε γ} {g : β → Method σ ε δ}
    (h : Mirrors S V x y) (hfg : ∀ ⦃a b⦄, V a b → Mirrors S W (f a) (g b)) :
    Mirrors S W (x >>= f) (y >>= g) := by
  intro s t hs
  have first := h hs
  rw [Method.outcome_bind, Method.outcome_bind]
  generalize x.outcome s = p at first ⊢
  generalize y.outcome t = q at first ⊢
  cases first
  case fails left => exact .fails _ left
  case ends related left => exact hfg related left

theorem same {x y : Method σ ε α} {f : α → Method σ ε γ} {g : α → Method σ ε δ}
    (h : Mirrors S (· = ·) x y) (hfg : ∀ a, Mirrors S W (f a) (g a)) :
    Mirrors S W (x >>= f) (y >>= g) :=
  bind h fun a _ e => e ▸ hfg a

theorem get : Mirrors S S (MonadState.get : Method σ ε σ) MonadState.get :=
  fun _ _ hs => .ends hs hs

theorem set {s t : σ} (h : S s t) :
    Mirrors S (· = ·) (MonadState.set s : Method σ ε PUnit) (MonadState.set t) :=
  fun _ _ _ => .ends rfl h

theorem ofExcept {x : Except ε α} {y : Except ε β} (h : Echoes (fun _ => False) V x y) :
    Mirrors S V (Method.ofExcept x : Method σ ε α) (Method.ofExcept y) := by
  intro s t hs
  cases h
  case excused excuse => exact excuse.elim
  case fails e => exact .fails e hs
  case ends related => exact .ends related hs

theorem failIf {p q : Prop} [Decidable p] [Decidable q] (h : p ↔ q) (e : ε) :
    Mirrors S (fun _ _ => ¬p) (Fallible.failIf p e : Method σ ε Unit) (Fallible.failIf q e) := by
  unfold Fallible.failIf
  by_cases hp : p
  case pos =>
    rw [if_pos hp, if_pos (h.mp hp)]
    exact throw e
  case neg =>
    rw [if_neg hp, if_neg (h.not.mp hp)]
    exact pure hp

theorem okOr (o : Option α) (e : ε) :
    Mirrors S (· = ·) (Fallible.okOr o e : Method σ ε α) (Fallible.okOr o e) := by
  cases o
  case none => exact throw e
  case some => exact pure rfl

theorem ite {p q : Prop} [Decidable p] [Decidable q] {x x' : Method σ ε α} {y y' : Method σ ε β}
    (h : p ↔ q) (pos : p → Mirrors S V x y) (neg : ¬p → Mirrors S V x' y') :
    Mirrors S V (if p then x else x') (if q then y else y') := by
  by_cases hp : p
  case pos =>
    rw [if_pos hp, if_pos (h.mp hp)]
    exact pos hp
  case neg =>
    rw [if_neg hp, if_neg (h.not.mp hp)]
    exact neg hp

theorem tryCatch {x : Method σ ε α} {y : Method σ ε β} {f : ε → Method σ ε α} {g : ε → Method σ ε β}
    (h : Mirrors S V x y) (hfg : ∀ e, Mirrors S V (f e) (g e)) :
    Mirrors S V (MonadExcept.tryCatch x f) (MonadExcept.tryCatch y g) := by
  intro s t hs
  have first := h hs
  rw [Method.outcome_tryCatch, Method.outcome_tryCatch]
  generalize x.outcome s = p at first ⊢
  generalize y.outcome t = q at first ⊢
  cases first
  case fails left => exact hfg _ left
  case ends related left => exact .ends related left

theorem map {x : Method σ ε α} {y : Method σ ε β} {f : α → γ} {g : β → δ} (h : Mirrors S V x y)
    (hfg : ∀ ⦃a b⦄, V a b → W (f a) (g b)) : Mirrors S W (f <$> x) (g <$> y) := by
  rw [map_eq_pure_bind, map_eq_pure_bind]
  exact h.bind fun _ _ related => .pure (hfg related)

end Mirrors

end Fallible
