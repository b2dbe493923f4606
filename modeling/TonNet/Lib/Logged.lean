import TonNet.Lib.Fallible

-- Methods that do what a plain function does and note something of it in their state.

namespace Fallible

variable {ε σ α β : Type}

-- From `s`, `x` returns what `y` returns, and its state satisfies `F` if it fails and `E` if it ends.
inductive Logs (x : Method σ ε α) (y : Except ε α) (s : σ) (F : σ → Prop) (E : α → σ → Prop) : Prop
  | fails {e : ε} {t : σ} (run : x.outcome s = (.error e, t)) (same : y = .error e) (noted : F t)
  | ends {a : α} {t : σ} (run : x.outcome s = (.ok a, t)) (same : y = .ok a) (noted : E a t)

namespace Logs

variable {s : σ} {F F' : σ → Prop} {E E' : α → σ → Prop} {G : β → σ → Prop}
variable {x : Method σ ε α} {y : Except ε α}

theorem mono (h : Logs x y s F E) (fails : ∀ t, F t → F' t) (ends : ∀ a t, E a t → E' a t) :
    Logs x y s F' E' := by
  cases h
  case fails run same noted => exact .fails run same (fails _ noted)
  case ends run same noted => exact .ends run same (ends _ _ noted)

theorem value (h : Logs x y s F E) : x.value s = y := by
  cases h
  case fails run same _ => rw [Method.value, run, same]
  case ends run same _ => rw [Method.value, run, same]

theorem state (h : Logs x y s F fun _ => F) : F (x.outcome s).2 := by
  cases h
  case fails run _ noted => rw [run]; exact noted
  case ends run _ noted => rw [run]; exact noted

theorem pure {a : α} (h : E a s) :
    Logs (Pure.pure a : Method σ ε α) (Pure.pure a : Except ε α) s F E :=
  .ends Method.outcome_pure rfl h

theorem throw {e : ε} (h : F s) :
    Logs (MonadExcept.throw e : Method σ ε α) (MonadExcept.throw e : Except ε α) s F E :=
  .fails Method.outcome_throw rfl h

theorem bind {f : α → Method σ ε β} {g : α → Except ε β}
    (h : Logs x y s F fun a t => Logs (f a) (g a) t F G) : Logs (x >>= f) (y >>= g) s F G := by
  cases h
  case fails run same noted =>
    exact .fails (by rw [Method.outcome_bind, run]) (by rw [same, error_bind]) noted
  case ends a t run same noted =>
    have step : (x >>= f).outcome s = (f a).outcome t := by rw [Method.outcome_bind, run]
    rw [same, ok_bind]
    cases noted
    case fails run same noted => exact .fails (step.trans run) same noted
    case ends run same noted => exact .ends (step.trans run) same noted

-- A note, made before the rest.
theorem note {x : Method σ ε β} {f : β → Method σ ε α} {b : β} {t : σ}
    (run : x.outcome s = (.ok b, t)) (h : Logs (f b) y t F E) : Logs (x >>= f) y s F E := by
  have step : (x >>= f).outcome s = (f b).outcome t := by rw [Method.outcome_bind, run]
  cases h
  case fails run same noted => exact .fails (step.trans run) same noted
  case ends run same noted => exact .ends (step.trans run) same noted

theorem lift (fails : F s) (ends : ∀ a, y = .ok a → E a s) :
    Logs (liftM y : Method σ ε α) (liftM y : Except ε α) s F E := by
  cases y
  case error e => exact .fails Method.outcome_ofExcept rfl fails
  case ok a => exact .ends Method.outcome_ofExcept rfl (ends a rfl)

theorem failIf {p : Prop} [Decidable p] {e : ε} {E : Unit → σ → Prop} (fails : F s)
    (ends : ¬p → E () s) :
    Logs (Fallible.failIf p e : Method σ ε Unit) (Fallible.failIf p e : Except ε Unit) s F E := by
  unfold Fallible.failIf
  split
  case isTrue => exact throw fails
  case isFalse hp => exact pure (ends hp)

theorem okOr {o : Option α} {e : ε} (fails : F s) (ends : ∀ a, o = some a → E a s) :
    Logs (Fallible.okOr o e : Method σ ε α) (Fallible.okOr o e : Except ε α) s F E := by
  cases o
  case none => exact throw fails
  case some a => exact pure (ends a rfl)

theorem ite {p : Prop} [Decidable p] {x' : Method σ ε α} {y' : Except ε α}
    (pos : p → Logs x y s F E) (neg : ¬p → Logs x' y' s F E) :
    Logs (if p then x else x') (if p then y else y') s F E := by
  split
  case isTrue hp => exact pos hp
  case isFalse hp => exact neg hp

theorem mapErr {δ : Type} {f : ε → δ} (h : Logs x y s F E) :
    Logs (x.mapErr f) (y.mapError f) s F E := by
  cases h
  case fails e t run same noted =>
    have run : (x.mapErr f).outcome s = (.error (f e), t) := by
      show ((x.outcome s).1.mapError f, (x.outcome s).2) = _
      rw [run]
      rfl
    exact .fails run (by rw [same]; rfl) noted
  case ends a t run same noted =>
    have run : (x.mapErr f).outcome s = (.ok a, t) := by
      show ((x.outcome s).1.mapError f, (x.outcome s).2) = _
      rw [run]
      rfl
    exact .ends run (by rw [same]; rfl) noted

end Logs

end Fallible
