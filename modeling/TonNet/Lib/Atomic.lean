import TonNet.Lib.Fallible

-- Methods that change nothing when they fail, and methods that only ever move their value up.

namespace Fallible.Method

variable {σ ε α β : Type} {s s' : σ} {a : α} {e : ε} {x : Method σ ε α} {f : α → Method σ ε β}

-- A run from `s` that fails leaves `s`.
def AtomicAt (x : Method σ ε α) (s : σ) : Prop :=
  ∀ e s', x.outcome s = (.error e, s') → s' = s

namespace AtomicAt

theorem of_ends (h : x.Ends s a s') : AtomicAt x s := by
  intro e t fails
  rw [show x.outcome s = (.ok a, s') from h] at fails
  nomatch (Prod.mk.inj fails).left

theorem throw : AtomicAt (MonadExcept.throw e : Method σ ε α) s :=
  fun _ _ fails => (Prod.mk.inj fails).right.symm

-- What comes before the first change only looks at the value.
theorem bind (h : AtomicAt x s) (rest : ∀ a t, x.Ends s a t → t = s ∧ AtomicAt (f a) s) :
    AtomicAt (x >>= f) s := by
  intro e s' fails
  rw [outcome_bind] at fails
  rcases out : x.outcome s with ⟨_ | a, t⟩ <;> rw [out] at fails
  case error => exact (Prod.mk.inj fails).right ▸ h _ _ out
  case ok =>
    obtain ⟨rfl, safe⟩ := rest a t out
    exact safe e s' fails

theorem get {f : σ → Method σ ε β} (h : AtomicAt (f s) s) : AtomicAt (MonadState.get >>= f) s :=
  bind (of_ends (ends_get.mpr ⟨rfl, rfl⟩)) fun _ _ ends => by
    obtain ⟨rfl, rfl⟩ := ends_get.mp ends
    exact ⟨rfl, h⟩

theorem failIf {p : Prop} [Decidable p] {y : Method σ ε β} (h : ¬p → AtomicAt y s) :
    AtomicAt (do Fallible.failIf p e; y) s := by
  by_cases hp : p
  case pos =>
    rw [Fallible.failIf, if_pos hp]
    exact throw
  case neg =>
    rw [Fallible.failIf, if_neg hp]
    exact h hp

theorem ofExcept {y : Except ε α} (h : ∀ a, y = .ok a → AtomicAt (f a) s) :
    AtomicAt (Method.ofExcept y >>= f) s := by
  refine bind (fun _ _ fails => (Prod.mk.inj fails).right.symm) fun a t ends => ?_
  obtain ⟨same, rfl⟩ := ends_ofExcept.mp ends
  exact ⟨rfl, h a same⟩

end AtomicAt

-- A method that moves its value along a relation, whether it ends or fails.
def Along (R : σ → σ → Prop) (x : Method σ ε α) : Prop :=
  ∀ s, R s (x.outcome s).2

theorem Along.throw {R : σ → σ → Prop} (refl : ∀ s, R s s) :
    Along R (MonadExcept.throw e : Method σ ε α) :=
  refl

theorem Along.okOr {R : σ → σ → Prop} (refl : ∀ s, R s s) {o : Option α} :
    Along R (Fallible.okOr o e : Method σ ε α) := by
  cases o <;> exact refl

theorem Along.bind {R : σ → σ → Prop} (trans : ∀ {r s t}, R r s → R s t → R r t) (h : Along R x)
    (rest : ∀ a, Along R (f a)) : Along R (x >>= f) := by
  intro s
  have first := h s
  rw [outcome_bind]
  rcases out : x.outcome s with ⟨_ | a, t⟩ <;> rw [out] at first
  case error => exact first
  case ok => exact trans first (rest a t)

end Fallible.Method
