import TonNet.Lib.Fallible

-- Two runs of which the first does what the second does, unless it stops with an excuse.

namespace Fallible

variable {ε σ α β γ δ : Type}

-- `X` holds of the failures that excuse the first run.
inductive Echoes (X : ε → Prop) (V : α → β → Prop) : Except ε α → Except ε β → Prop
  | excused {e : ε} {y : Except ε β} (excuse : X e) : Echoes X V (.error e) y
  | fails (e : ε) : Echoes X V (.error e) (.error e)
  | ends {a : α} {b : β} (related : V a b) : Echoes X V (.ok a) (.ok b)

namespace Echoes

variable {X : ε → Prop} {V : α → β → Prop} {W : γ → δ → Prop}

theorem pure {a : α} {b : β} (h : V a b) :
    Echoes X V (Pure.pure a : Except ε α) (Pure.pure b : Except ε β) :=
  .ends h

theorem throw (e : ε) : Echoes X V (MonadExcept.throw e : Except ε α) (MonadExcept.throw e) :=
  .fails e

theorem bind {x : Except ε α} {y : Except ε β} {f : α → Except ε γ} {g : β → Except ε δ}
    (h : Echoes X V x y) (hfg : ∀ ⦃a b⦄, V a b → Echoes X W (f a) (g b)) :
    Echoes X W (x >>= f) (y >>= g) := by
  cases h
  case excused excuse => exact .excused excuse
  case fails e => exact .fails e
  case ends related => exact hfg related

theorem rfl {x : Except ε α} : Echoes X (· = ·) x x := by
  cases x
  case error e => exact .fails e
  case ok => exact .ends (Eq.refl _)

theorem mono {V' : α → β → Prop} {x : Except ε α} {y : Except ε β} (h : Echoes X V x y)
    (hv : ∀ ⦃a b⦄, V a b → V' a b) : Echoes X V' x y := by
  cases h
  case excused excuse => exact .excused excuse
  case fails e => exact .fails e
  case ends related => exact .ends (hv related)

theorem failIf {p q : Prop} [Decidable p] [Decidable q] (h : p ↔ q) (e : ε) :
    Echoes X (fun _ _ => ¬p) (Fallible.failIf p e : Except ε Unit) (Fallible.failIf q e) := by
  unfold Fallible.failIf
  by_cases hp : p
  case pos =>
    rw [if_pos hp, if_pos (h.mp hp)]
    exact .fails e
  case neg =>
    rw [if_neg hp, if_neg (h.not.mp hp)]
    exact .ends hp

theorem okOr {o : Option α} {o' : Option β} (h : Option.Rel V o o') (e : ε) :
    Echoes X V (Fallible.okOr o e : Except ε α) (Fallible.okOr o' e) := by
  cases h
  case some related => exact .ends related
  case none => exact .fails e

theorem ite {p q : Prop} [Decidable p] [Decidable q] {x x' : Except ε α} {y y' : Except ε β}
    (h : p ↔ q) (pos : p → Echoes X V x y) (neg : ¬p → Echoes X V x' y') :
    Echoes X V (if p then x else x') (if q then y else y') := by
  by_cases hp : p
  case pos =>
    rw [if_pos hp, if_pos (h.mp hp)]
    exact pos hp
  case neg =>
    rw [if_neg hp, if_neg (h.not.mp hp)]
    exact neg hp

theorem mapError {ε' : Type} {X' : ε' → Prop} {x : Except ε α} {y : Except ε β} {f : ε → ε'}
    (h : Echoes X V x y) (hx : ∀ e, X e → X' (f e)) : Echoes X' V (x.mapError f) (y.mapError f) := by
  cases h
  case excused excuse => exact .excused (hx _ excuse)
  case fails e => exact .fails (f e)
  case ends related => exact .ends related

theorem foldlM {f : α → γ → Except ε α} {g : β → γ → Except ε β} {a : α} {b : β} (l : List γ)
    (h : V a b) (step : ∀ a b c, V a b → Echoes X V (f a c) (g b c)) :
    Echoes X V (l.foldlM f a) (l.foldlM g b) := by
  induction l generalizing a b
  case nil => exact pure h
  case cons c l hi => exact bind (step a b c h) fun _ _ => hi

-- Without an excuse the two succeed together.
theorem of_ok {x : Except ε α} {y : Except ε β} {a : α} (h : Echoes X V x y) (ok : x = .ok a) :
    ∃ b, y = .ok b ∧ V a b := by
  subst ok
  cases h
  case ends b related => exact ⟨b, Eq.refl _, related⟩

end Echoes

theorem Method.call_bind (x : Method σ ε α) (f : α → Method σ ε β) (s : σ) :
    (x >>= f).call s = x.call s >>= fun p => (f p.1).call p.2 := by
  rw [call, outcome_bind, call]
  rcases x.outcome s with ⟨_ | _, _⟩ <;> rfl

theorem Method.value_eq_call (x : Method σ ε α) (s : σ) :
    x.value s = x.call s >>= fun p => pure p.1 := by
  rw [call, value]
  rcases x.outcome s with ⟨_ | _, _⟩ <;> rfl

theorem Method.call_mapErr {ε' : Type} (x : Method σ ε α) (f : ε → ε') (s : σ) :
    (x.mapErr f).call s = (x.call s).mapError f := by
  have run : (x.mapErr f).outcome s = ((x.outcome s).1.mapError f, (x.outcome s).2) := rfl
  rw [call, run, call]
  rcases x.outcome s with ⟨_ | _, _⟩ <;> rfl

-- The same of methods, from related states.
def Lockstep (X : ε → Prop) (S : σ → σ → Prop) (V : α → β → Prop) (x : Method σ ε α)
    (y : Method σ ε β) : Prop :=
  ∀ ⦃s t⦄, S s t → Echoes X (fun p q => V p.1 q.1 ∧ S p.2 q.2) (x.call s) (y.call t)

namespace Lockstep

variable {X : ε → Prop} {S : σ → σ → Prop} {V : α → β → Prop} {W : γ → δ → Prop}

theorem pure {a : α} {b : β} (h : V a b) :
    Lockstep X S V (Pure.pure a : Method σ ε α) (Pure.pure b) :=
  fun _ _ hs => .ends ⟨h, hs⟩

theorem throw (e : ε) : Lockstep X S V (MonadExcept.throw e : Method σ ε α) (MonadExcept.throw e) :=
  fun _ _ _ => .fails e

theorem bind {x : Method σ ε α} {y : Method σ ε β} {f : α → Method σ ε γ} {g : β → Method σ ε δ}
    (h : Lockstep X S V x y) (hfg : ∀ ⦃a b⦄, V a b → Lockstep X S W (f a) (g b)) :
    Lockstep X S W (x >>= f) (y >>= g) := by
  intro s t hs
  rw [Method.call_bind, Method.call_bind]
  exact (h hs).bind fun p q ⟨hv, hs'⟩ => hfg hv hs'

theorem same {x y : Method σ ε α} {f : α → Method σ ε γ} {g : α → Method σ ε δ}
    (h : Lockstep X S (· = ·) x y) (hfg : ∀ a, Lockstep X S W (f a) (g a)) :
    Lockstep X S W (x >>= f) (y >>= g) :=
  bind h fun a _ e => e ▸ hfg a

theorem mono {V' : α → β → Prop} {x : Method σ ε α} {y : Method σ ε β} (h : Lockstep X S V x y)
    (hv : ∀ ⦃a b⦄, V a b → V' a b) : Lockstep X S V' x y :=
  fun _ _ hs => (h hs).mono fun _ _ ⟨related, hs'⟩ => ⟨hv related, hs'⟩

theorem get : Lockstep X S S (MonadState.get : Method σ ε σ) MonadState.get :=
  fun _ _ hs => .ends ⟨hs, hs⟩

theorem set {s t : σ} (h : S s t) :
    Lockstep X S (· = ·) (MonadState.set s : Method σ ε PUnit) (MonadState.set t) :=
  fun _ _ _ => .ends ⟨rfl, h⟩

theorem ofExcept {x : Except ε α} {y : Except ε β} (h : Echoes X V x y) :
    Lockstep X S V (Method.ofExcept x : Method σ ε α) (Method.ofExcept y) := by
  intro s t hs
  cases h
  case excused excuse => exact .excused excuse
  case fails e => exact .fails e
  case ends related => exact .ends ⟨related, hs⟩

theorem failIf {p q : Prop} [Decidable p] [Decidable q] (h : p ↔ q) (e : ε) :
    Lockstep X S (fun _ _ => ¬p) (Fallible.failIf p e : Method σ ε Unit) (Fallible.failIf q e) := by
  unfold Fallible.failIf
  by_cases hp : p
  case pos =>
    rw [if_pos hp, if_pos (h.mp hp)]
    exact throw e
  case neg =>
    rw [if_neg hp, if_neg (h.not.mp hp)]
    exact pure hp

theorem okOr {o : Option α} {o' : Option β} (h : Option.Rel V o o') (e : ε) :
    Lockstep X S V (Fallible.okOr o e : Method σ ε α) (Fallible.okOr o' e) := by
  cases h
  case some related => exact pure related
  case none => exact throw e

theorem ite {p q : Prop} [Decidable p] [Decidable q] {x x' : Method σ ε α} {y y' : Method σ ε β}
    (h : p ↔ q) (pos : p → Lockstep X S V x y) (neg : ¬p → Lockstep X S V x' y') :
    Lockstep X S V (if p then x else x') (if q then y else y') := by
  by_cases hp : p
  case pos =>
    rw [if_pos hp, if_pos (h.mp hp)]
    exact pos hp
  case neg =>
    rw [if_neg hp, if_neg (h.not.mp hp)]
    exact neg hp

theorem foldlM {f : α → γ → Method σ ε α} {g : β → γ → Method σ ε β} {a : α} {b : β} (l : List γ)
    (h : V a b) (step : ∀ a b c, V a b → Lockstep X S V (f a c) (g b c)) :
    Lockstep X S V (l.foldlM f a) (l.foldlM g b) := by
  induction l generalizing a b
  case nil => exact pure h
  case cons c l hi => exact bind (step a b c h) fun _ _ => hi

theorem mapM {f : γ → Method σ ε α} {g : γ → Method σ ε β} {l : List γ}
    (each : ∀ c ∈ l, Lockstep X S V (f c) (g c)) : Lockstep X S (List.Forall₂ V) (l.mapM f) (l.mapM g) := by
  induction l
  case nil => exact pure .nil
  case cons c l hi =>
    have ⟨here, rest⟩ := List.forall_mem_cons.mp each
    rw [List.mapM_cons, List.mapM_cons]
    exact bind here fun _ _ first => bind (hi rest) fun _ _ more => pure (.cons first more)

theorem value {x : Method σ ε α} {y : Method σ ε β} {s t : σ} (h : Lockstep X S V x y)
    (hs : S s t) : Echoes X V (x.value s) (y.value t) := by
  rw [Method.value_eq_call, Method.value_eq_call]
  exact (h hs).bind fun _ _ related => .ends related.left

theorem mapErr {ε' : Type} {X' : ε' → Prop} {x : Method σ ε α} {y : Method σ ε β} {f : ε → ε'}
    (h : Lockstep X S V x y) (hx : ∀ e, X e → X' (f e)) :
    Lockstep X' S V (x.mapErr f) (y.mapErr f) := by
  intro s t hs
  rw [Method.call_mapErr, Method.call_mapErr]
  exact (h hs).mapError hx

end Lockstep

end Fallible
