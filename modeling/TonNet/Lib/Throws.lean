import TonNet.Lib.Fallible

-- What errors a computation can fail with.

namespace Fallible

variable {ε σ α β γ : Type} {P : ε → Prop}

def Fails (P : ε → Prop) (x : Except ε α) : Prop :=
  ∀ e, x = .error e → P e

namespace Fails

variable {x : Except ε α} {f : α → Except ε β} {e : ε}

theorem pure (a : α) : Fails P (Pure.pure a : Except ε α) :=
  nofun

theorem bind (h : Fails P x) (hf : ∀ a, x = .ok a → Fails P (f a)) : Fails P (x >>= f) := by
  cases x
  case error e => exact fun e' failed => h e' (Except.error.inj failed ▸ rfl)
  case ok a => exact hf a rfl

theorem failIf {p : Prop} [Decidable p] (h : P e) : Fails P (Fallible.failIf p e : Except ε Unit) := by
  intro e' failed
  unfold Fallible.failIf at failed
  split at failed
  · exact Except.error.inj failed ▸ h
  · cases failed

theorem okOr {o : Option α} (h : P e) : Fails P (Fallible.okOr o e : Except ε α) := by
  intro e' failed
  cases o
  case none => exact Except.error.inj failed ▸ h
  case some => cases failed

theorem ite {p : Prop} [Decidable p] {y : Except ε α} (hx : Fails P x) (hy : Fails P y) :
    Fails P (if p then x else y) := by
  split
  · exact hx
  · exact hy

theorem foldlM {g : β → α → Except ε β} {l : List α} (h : ∀ b a, Fails P (g b a)) (b : β) :
    Fails P (l.foldlM g b) := by
  induction l generalizing b
  case nil => exact pure b
  case cons a l hi => exact (h b a).bind fun b' _ => hi b'

end Fails

namespace Method

def Throws (P : ε → Prop) (x : Method σ ε α) : Prop :=
  ∀ s, Fails P (x.value s)

namespace Throws

variable {x : Method σ ε α} {f : α → Method σ ε β} {e : ε}

theorem pure (a : α) : Throws P (Pure.pure a : Method σ ε α) :=
  fun _ => nofun

theorem throw (h : P e) : Throws P (MonadExcept.throw e : Method σ ε α) :=
  fun _ _ failed => Except.error.inj failed ▸ h

theorem get : Throws P (MonadState.get : Method σ ε σ) :=
  fun _ => nofun

theorem set (s : σ) : Throws P (MonadState.set s : Method σ ε PUnit) :=
  fun _ => nofun

theorem ofExcept {y : Except ε α} (h : Fails P y) :
    Throws P (Method.ofExcept y : Method σ ε α) :=
  fun _ => h

theorem bind (h : Throws P x) (hf : ∀ a, Throws P (f a)) : Throws P (x >>= f) := by
  intro s e failed
  rw [value_bind] at failed
  split at failed
  case h_1 => exact hf _ _ e failed
  case h_2 run =>
    cases failed
    exact h s e (congrArg Prod.fst run)

theorem failIf {p : Prop} [Decidable p] (h : P e) :
    Throws P (Fallible.failIf p e : Method σ ε Unit) := by
  unfold Fallible.failIf
  split
  · exact throw h
  · exact pure ()

theorem okOr {o : Option α} (h : P e) : Throws P (Fallible.okOr o e : Method σ ε α) := by
  cases o
  case none => exact throw h
  case some a => exact pure a

theorem ite {p : Prop} [Decidable p] {y : Method σ ε α} (hx : Throws P x) (hy : Throws P y) :
    Throws P (if p then x else y) := by
  split
  · exact hx
  · exact hy

theorem forM {g : β → Method σ ε PUnit} {l : List β} (h : ∀ b, Throws P (g b)) :
    Throws P (l.forM g) := by
  induction l
  case nil => exact pure _
  case cons b l hi => exact (h b).bind fun _ => hi

theorem foldlM {g : β → γ → Method σ ε β} {l : List γ} (h : ∀ b c, Throws P (g b c)) (b : β) :
    Throws P (l.foldlM g b) := by
  induction l generalizing b
  case nil => exact pure b
  case cons c l hi => exact (h b c).bind fun b' => hi b'

theorem call (h : Throws P x) (s : σ) : Fails P (x.call s) := by
  intro e failed
  unfold Method.call at failed
  split at failed
  case h_1 => cases failed
  case h_2 run =>
    cases failed
    exact h s e (congrArg Prod.fst run)

end Throws

end Method

end Fallible
