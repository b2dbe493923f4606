import Mathlib.Logic.Basic
import Mathlib.Data.List.Forall2

-- Rules for computations that can fail: `Except ε` for functions, and `Method σ ε` for methods that
-- also change the value they are called on. The first half inverts a successful run, the second
-- half compares two runs.

namespace Fallible

variable {ε σ α β γ δ : Type}

theorem bind_eq_ok {x : Except ε α} {f : α → Except ε β} {b : β} :
    (x >>= f) = .ok b ↔ ∃ a, x = .ok a ∧ f a = .ok b := by
  cases x <;> simp [bind, Except.bind]

@[simp]
theorem ok_bind (a : α) (f : α → Except ε β) : (Except.ok a >>= f) = f a :=
  rfl

@[simp]
theorem error_bind (e : ε) (f : α → Except ε β) : (Except.error e >>= f) = .error e :=
  rfl

@[simp]
theorem pure_eq_ok {a b : α} : (pure a : Except ε α) = Except.ok b ↔ a = b :=
  ⟨Except.ok.inj, congrArg Except.ok⟩

@[simp]
theorem throw_ne_ok {e : ε} {a : α} : (throw e : Except ε α) ≠ .ok a := by
  simp [throw, throwThe, MonadExceptOf.throw]

theorem liftM_self (x : Except ε α) : (liftM x : Except ε α) = x :=
  rfl

-- `if bad { return Err(e) }`
def failIf {m : Type → Type} [Monad m] [MonadExcept ε m] (bad : Prop) [Decidable bad] (e : ε) :
    m Unit :=
  if bad then throw e else pure ()

-- `x.ok_or(e)?`
def okOr {m : Type → Type} [Monad m] [MonadExcept ε m] (x : Option α) (e : ε) : m α :=
  match x with
  | some a => pure a
  | none   => throw e

-- `if p { x }`
def onlyIf {m : Type → Type} [Monad m] (p : Prop) [Decidable p] (x : m Unit) : m Unit :=
  if p then x else pure ()

@[simp]
theorem failIf_eq_ok {p : Prop} [Decidable p] {e : ε} {u : Unit} :
    (failIf p e : Except ε Unit) = .ok u ↔ ¬p := by
  unfold failIf
  split <;> simp_all

@[simp]
theorem okOr_eq_ok {x : Option α} {e : ε} {a : α} :
    (okOr x e : Except ε α) = .ok a ↔ x = some a := by
  cases x <;> simp [okOr]

theorem failIf_bind_eq_ok {p : Prop} [Decidable p] {e : ε} {f : Unit → Except ε α} {a : α} :
    (failIf p e >>= f) = .ok a ↔ ¬p ∧ f () = .ok a := by
  rw [bind_eq_ok]
  constructor
  · rintro ⟨_, hp, hf⟩
    exact ⟨failIf_eq_ok.mp hp, hf⟩
  · rintro ⟨hp, hf⟩
    exact ⟨(), failIf_eq_ok.mpr hp, hf⟩

theorem failIf_bind_of_not {p : Prop} [Decidable p] {e : ε} {f : Unit → Except ε α} (h : ¬p) :
    (failIf p e >>= f) = f () := by
  rw [failIf, if_neg h]
  rfl

theorem failIf_bind_of {p : Prop} [Decidable p] {e : ε} {f : Unit → Except ε α} (h : p) :
    (failIf p e >>= f) = .error e := by
  rw [failIf, if_pos h]
  rfl

theorem okOr_bind_eq_ok {x : Option α} {e : ε} {f : α → Except ε β} {b : β} :
    (okOr x e >>= f) = .ok b ↔ ∃ a, x = some a ∧ f a = .ok b := by
  simp [bind_eq_ok]

theorem bind_congr_ok {x : Except ε α} {f g : α → Except ε β}
    (h : ∀ a, x = .ok a → f a = g a) : (x >>= f) = x >>= g := by
  cases x
  case error => rfl
  case ok a => exact h a rfl

theorem map_eq_ok {x : Except ε α} {f : α → β} {b : β} :
    (f <$> x) = .ok b ↔ ∃ a, x = .ok a ∧ f a = b := by
  cases x <;> simp [Functor.map, Except.map]

theorem mapError_eq_ok {x : Except ε α} {f : ε → δ} {a : α} :
    x.mapError f = .ok a ↔ x = .ok a := by
  cases x
  case error => exact ⟨nofun, nofun⟩
  case ok => exact ⟨(Except.ok.inj · ▸ rfl), (Except.ok.inj · ▸ rfl)⟩

theorem toOption_eq_some {x : Except ε α} {a : α} : x.toOption = some a ↔ x = .ok a := by
  cases x <;> simp [Except.toOption]

theorem forall₂_of_mapM_eq_ok {f : α → Except ε β} {l : List α} {bs : List β}
    (h : l.mapM f = .ok bs) : List.Forall₂ (fun a b => f a = .ok b) l bs := by
  induction l generalizing bs
  case nil =>
    obtain rfl : [] = bs := by simpa using h
    exact .nil
  case cons a l hi =>
    simp only [List.mapM_cons, bind_eq_ok, pure_eq_ok] at h
    obtain ⟨b, hb, bs, hbs, rfl⟩ := h
    exact .cons hb (hi hbs)

theorem mapM_eq_ok_of_forall₂ {f : α → Except ε β} {l : List α} {bs : List β}
    (h : List.Forall₂ (fun a b => f a = .ok b) l bs) : l.mapM f = .ok bs := by
  induction h
  case nil => rfl
  case cons hb _ hi => rw [List.mapM_cons, hb, hi]; rfl

theorem mapM_ok {f : α → Except ε β} {l : List α} (h : ∀ a ∈ l, ∃ b, f a = .ok b) :
    ∃ bs, l.mapM f = .ok bs := by
  induction l
  case nil => exact ⟨[], rfl⟩
  case cons a l hi =>
    have ⟨⟨b, hb⟩, rest⟩ := List.forall_mem_cons.mp h
    have ⟨bs, hbs⟩ := hi rest
    exact ⟨b :: bs, by rw [List.mapM_cons, hb, hbs]; rfl⟩

-- A call that fails only on what does not pass a test.
theorem mapM_eq_ok_map {f : α → Except ε β} {g : α → β} {p : α → Prop}
    (h : ∀ a b, f a = .ok b ↔ p a ∧ g a = b) {l : List α} {bs : List β} :
    l.mapM f = .ok bs ↔ (∀ a ∈ l, p a) ∧ l.map g = bs := by
  induction l generalizing bs
  case nil => simp [pure_eq_ok]
  case cons a l hi =>
    simp only [List.mapM_cons, bind_eq_ok, pure_eq_ok, h, hi, List.forall_mem_cons, List.map_cons]
    constructor
    · rintro ⟨_, ⟨ha, rfl⟩, _, ⟨hl, rfl⟩, rfl⟩
      exact ⟨⟨ha, hl⟩, rfl⟩
    · rintro ⟨⟨ha, hl⟩, rfl⟩
      exact ⟨_, ⟨ha, rfl⟩, _, ⟨hl, rfl⟩, rfl⟩

theorem forM_eq_ok {f : α → Except ε Unit} {l : List α} {u : Unit} :
    l.forM f = .ok u ↔ ∀ a ∈ l, f a = .ok () := by
  induction l
  case nil => simp [List.forM]
  case cons a l hi =>
    show (f a >>= fun _ => l.forM f) = .ok u ↔ _
    simp only [bind_eq_ok, hi, List.forall_mem_cons]
    exact ⟨fun ⟨_, ha, hl⟩ => ⟨ha, hl⟩, fun ⟨ha, hl⟩ => ⟨(), ha, hl⟩⟩

-- A counted loop that keeps an invariant along which no pass can fail runs to its end.
theorem foldlM_range_eq_ok {f : α → Nat → Except ε α} {I : Nat → α → Prop} {a : α} {n : Nat}
    (init : I 0 a) (step : ∀ k < n, ∀ a, I k a → ∃ a', f a k = .ok a' ∧ I (k + 1) a') :
    ∃ r, (List.range n).foldlM f a = .ok r ∧ I n r := by
  induction n
  case zero => exact ⟨a, rfl, init⟩
  case succ n hi =>
    have ⟨r, hr, h⟩ := hi (fun k hk => step k (by omega))
    have ⟨r', hr', h'⟩ := step n (by omega) r h
    refine ⟨r', ?_, h'⟩
    rw [List.range_succ, List.foldlM_append, hr, ok_bind, List.foldlM_cons, hr', ok_bind]
    rfl

-- A method on `&mut self`. What it changed before it failed stays changed.
abbrev Method (σ ε : Type) := ExceptT ε (StateM σ)

namespace Method

def outcome (x : Method σ ε α) (s : σ) : Except ε α × σ :=
  x s

-- The run from `s` that returns `a` and leaves `s'`.
def Ends (x : Method σ ε α) (s : σ) (a : α) (s' : σ) : Prop :=
  x.outcome s = (.ok a, s')

-- Calling a method on a local value that is dropped with the error.
def call (x : Method σ ε α) (s : σ) : Except ε (α × σ) :=
  match x.outcome s with
  | (.ok a, s')   => .ok (a, s')
  | (.error e, _) => .error e

-- The same where nothing reads the value afterwards.
def value (x : Method σ ε α) (s : σ) : Except ε α :=
  (x.outcome s).1

-- A function that fails on its own, called from a method.
def ofExcept (x : Except ε α) : Method σ ε α :=
  fun s => (x, s)

-- `map_err`
def mapErr {δ : Type} (f : ε → δ) (x : Method σ ε α) : Method σ δ α :=
  fun s => ((x.outcome s).1.mapError f, (x.outcome s).2)

variable {s s' : σ} {a a' : α} {b : β} {e : ε} {x : Method σ ε α} {f : α → Method σ ε β}

theorem ext {x y : Method σ ε α} (h : ∀ s, x.outcome s = y.outcome s) : x = y :=
  funext h

theorem Ends.unique {t : σ} (h : x.Ends s a s') (h' : x.Ends s a' t) : a = a' ∧ s' = t := by
  have ⟨value, state⟩ := Prod.mk.inj (h.symm.trans h')
  exact ⟨Except.ok.inj value, state⟩

theorem call_eq_ok : x.call s = .ok (a, s') ↔ x.Ends s a s' := by
  unfold call Ends
  rcases x.outcome s with ⟨_ | _, _⟩ <;> simp

theorem ends_mapErr {δ : Type} {g : ε → δ} : (x.mapErr g).Ends s a s' ↔ x.Ends s a s' := by
  unfold Ends
  show ((x.outcome s).1.mapError g, (x.outcome s).2) = _ ↔ _
  rcases x.outcome s with ⟨_ | _, _⟩ <;> simp [Except.mapError]

@[simp]
theorem ends_ofExcept {y : Except ε α} :
    (ofExcept y : Method σ ε α).Ends s a s' ↔ y = .ok a ∧ s = s' := by
  show ((y, s) : Except ε α × σ) = _ ↔ _
  simp

theorem outcome_bind (x : Method σ ε α) (f : α → Method σ ε β) (s : σ) :
    (x >>= f).outcome s =
      match x.outcome s with
      | (.ok a, s')    => (f a).outcome s'
      | (.error e, s') => (.error e, s') := by
  show ExceptT.bindCont f (x.outcome s).1 (x.outcome s).2 = _
  rcases x.outcome s with ⟨_ | _, _⟩ <;> rfl

@[simp]
theorem outcome_pure : (pure a : Method σ ε α).outcome s = (.ok a, s) :=
  rfl

@[simp]
theorem outcome_throw : (throw e : Method σ ε α).outcome s = (.error e, s) :=
  rfl

@[simp]
theorem outcome_get : (get : Method σ ε σ).outcome s = (.ok s, s) :=
  rfl

@[simp]
theorem outcome_set {t : σ} : (set t : Method σ ε PUnit).outcome s = (.ok .unit, t) :=
  rfl

@[simp]
theorem outcome_ofExcept {y : Except ε α} : (ofExcept y : Method σ ε α).outcome s = (y, s) :=
  rfl

@[simp]
theorem ends_pure : (pure a : Method σ ε α).Ends s a' s' ↔ a = a' ∧ s = s' := by
  show ((.ok a, s) : Except ε α × σ) = _ ↔ _
  simp

theorem ends_bind : (x >>= f).Ends s b s' ↔ ∃ a t, x.Ends s a t ∧ (f a).Ends t b s' := by
  unfold Ends
  rw [outcome_bind]
  rcases x.outcome s with ⟨_ | _, _⟩ <;> simp

theorem outcome_bind_of_ends {t : σ} (h : x.Ends s a t) :
    (x >>= f).outcome s = (f a).outcome t := by
  rw [outcome_bind, show x.outcome s = (.ok a, t) from h]

theorem ends_bind_of_ends {t : σ} (h : x.Ends s a t) :
    (x >>= f).Ends s b s' ↔ (f a).Ends t b s' := by
  unfold Ends
  rw [outcome_bind, show x.outcome s = (.ok a, t) from h]

@[simp]
theorem ends_throw : ¬(throw e : Method σ ε α).Ends s a s' := by
  show ¬((.error e, s) : Except ε α × σ) = _
  simp

@[simp]
theorem ends_get {t : σ} : (get : Method σ ε σ).Ends s t s' ↔ s = t ∧ s = s' := by
  show ((.ok s, s) : Except ε σ × σ) = _ ↔ _
  simp

@[simp]
theorem ends_set {t : σ} {u : PUnit} : (set t : Method σ ε PUnit).Ends s u s' ↔ t = s' := by
  show ((.ok .unit, t) : Except ε PUnit × σ) = _ ↔ _
  simp

@[simp]
theorem ends_failIf {p : Prop} [Decidable p] {u : Unit} :
    (failIf p e : Method σ ε Unit).Ends s u s' ↔ ¬p ∧ s = s' := by
  unfold failIf
  split <;> simp_all

theorem ends_failIf_bind {p : Prop} [Decidable p] {g : Unit → Method σ ε β} :
    (failIf p e >>= g).Ends s b s' ↔ ¬p ∧ (g ()).Ends s b s' := by
  simp only [ends_bind, ends_failIf]
  constructor
  · rintro ⟨_, _, ⟨passes, rfl⟩, ends⟩
    exact ⟨passes, ends⟩
  · rintro ⟨passes, ends⟩
    exact ⟨(), s, ⟨passes, rfl⟩, ends⟩

@[simp]
theorem ends_okOr {o : Option α} : (okOr o e : Method σ ε α).Ends s a s' ↔ o = some a ∧ s = s' := by
  cases o <;> simp [okOr]

theorem value_eq_ok : x.value s = .ok a ↔ ∃ s', x.Ends s a s' := by
  unfold value Ends
  rcases x.outcome s with ⟨_ | _, _⟩ <;> simp

theorem call_eq_error : x.call s = .error e ↔ x.value s = .error e := by
  unfold call value
  rcases x.outcome s with ⟨_ | _, _⟩ <;> simp

theorem value_bind : (x >>= f).value s =
    match x.outcome s with
    | (.ok a, s')   => (f a).value s'
    | (.error e, _) => .error e := by
  unfold value
  rw [outcome_bind]
  rcases x.outcome s with ⟨_ | _, _⟩ <;> rfl

theorem value_of_ends (h : x.Ends s a s') : x.value s = .ok a :=
  congrArg Prod.fst h

theorem value_bind_of_ends (h : x.Ends s a s') : (x >>= f).value s = (f a).value s' := by
  rw [value_bind, show x.outcome s = (.ok a, s') from h]

@[simp]
theorem value_ofExcept {y : Except ε α} : (ofExcept y : Method σ ε α).value s = y :=
  rfl

-- A method that fails or ends.
theorem fails_or_ends (x : Method σ ε α) (s : σ) :
    (∃ e, x.value s = .error e) ∨ ∃ a s', x.Ends s a s' := by
  unfold value Ends
  rcases x.outcome s with ⟨e | a, s'⟩
  case error => exact .inl ⟨e, rfl⟩
  case ok => exact .inr ⟨a, s', rfl⟩

theorem value_bind_of_error (h : x.value s = .error e) : (x >>= f).value s = .error e := by
  rw [value_bind]
  unfold value at h
  rcases out : x.outcome s with ⟨_ | _, _⟩ <;> simp_all

-- A method that assigns nothing until all it can fail in is done.
def commit (g : σ → Except ε (α × σ)) : Method σ ε α := fun s =>
  match g s with
  | .ok (a, s') => (.ok a, s')
  | .error e    => (.error e, s)

theorem outcome_commit (g : σ → Except ε (α × σ)) (s : σ) : (commit g).outcome s =
    match g s with
    | .ok (a, s') => (.ok a, s')
    | .error e    => (.error e, s) :=
  rfl

theorem ends_commit {g : σ → Except ε (α × σ)} : (commit g).Ends s a s' ↔ g s = .ok (a, s') := by
  rw [Ends, outcome_commit]
  split <;> simp_all

theorem commit_fails {g : σ → Except ε (α × σ)} (h : (commit g).outcome s = (.error e, s')) :
    s' = s := by
  rw [outcome_commit] at h
  split at h <;> simp_all

theorem outcome_tryCatch (x : Method σ ε α) (g : ε → Method σ ε α) (s : σ) :
    (tryCatch x g).outcome s =
      match x.outcome s with
      | (.ok a, s')    => (.ok a, s')
      | (.error e, s') => (g e).outcome s' := by
  show (match (x.outcome s).1 with
    | .ok a    => (pure (.ok a) : StateM σ (Except ε α))
    | .error e => g e) (x.outcome s).2 = _
  rcases x.outcome s with ⟨_ | _, _⟩ <;> rfl

-- A handler that always fails again.
theorem ends_tryCatch {g : ε → Method σ ε α} (hg : ∀ e s a s', ¬(g e).Ends s a s') :
    (tryCatch x g).Ends s a s' ↔ x.Ends s a s' := by
  unfold Ends at hg ⊢
  rw [outcome_tryCatch]
  rcases x.outcome s with ⟨e | _, t⟩
  case error => simpa using hg e t a s'
  case ok => simp

-- A method that keeps `I` and returns only values in `Q`.
def Yields (I : σ → Prop) (Q : α → Prop) (x : Method σ ε α) : Prop :=
  ∀ ⦃s a s'⦄, I s → x.Ends s a s' → Q a ∧ I s'

namespace Yields

variable {I : σ → Prop} {Q : α → Prop} {R : β → Prop}

theorem pure (h : Q a) : Yields I Q (Pure.pure a : Method σ ε α) := by
  intro s a' s' hs he
  obtain ⟨rfl, rfl⟩ := ends_pure.mp he
  exact ⟨h, hs⟩

theorem bind (h : Yields I Q x) (hf : ∀ a, Q a → Yields I R (f a)) : Yields I R (x >>= f) := by
  intro s b s' hs he
  have ⟨a, t, hx, hb⟩ := ends_bind.mp he
  have ⟨ha, ht⟩ := h hs hx
  exact hf a ha ht hb

theorem failIf {p : Prop} [Decidable p] :
    Yields I (fun _ => ¬p) (Fallible.failIf p e : Method σ ε Unit) := by
  intro s _ s' hs he
  obtain ⟨hp, rfl⟩ := ends_failIf.mp he
  exact ⟨hp, hs⟩

theorem okOr {o : Option α} : Yields I (o = some ·) (Fallible.okOr o e : Method σ ε α) := by
  intro s a s' hs he
  obtain ⟨ho, rfl⟩ := ends_okOr.mp he
  exact ⟨ho, hs⟩

theorem ofExcept {y : Except ε α} : Yields I (y = .ok ·) (Method.ofExcept y : Method σ ε α) := by
  intro s a s' hs he
  obtain ⟨hy, rfl⟩ := ends_ofExcept.mp he
  exact ⟨hy, hs⟩

theorem onlyIf {p : Prop} [Decidable p] {y : Method σ ε Unit}
    (h : p → Yields I (fun _ => True) y) : Yields I (fun _ => True) (Fallible.onlyIf p y) := by
  unfold Fallible.onlyIf
  split
  case isTrue hp => exact h hp
  case isFalse => exact pure True.intro

theorem get : Yields I I (MonadState.get : Method σ ε σ) := by
  intro s t s' hs he
  obtain ⟨rfl, rfl⟩ := ends_get.mp he
  exact ⟨hs, hs⟩

theorem trivial (h : Yields I Q x) : Yields I (fun _ => True) x :=
  fun _ _ _ hs he => ⟨True.intro, (h hs he).right⟩

theorem forM {g : β → Method σ ε Unit} {l : List β}
    (h : ∀ b ∈ l, Yields I (fun _ => True) (g b)) : Yields I (fun _ => True) (l.forM g) := by
  induction l
  case nil => exact pure True.intro
  case cons b l hi =>
    exact bind (h b (by simp)) fun _ _ => hi fun b hb => h b (List.mem_cons_of_mem _ hb)

theorem mapM {g : β → Method σ ε α} {l : List β} (h : ∀ b ∈ l, Yields I Q (g b)) :
    Yields I (fun as => as.length = l.length ∧ ∀ a ∈ as, Q a) (l.mapM g) := by
  induction l
  case nil => exact pure (by simp)
  case cons b l hi =>
    rw [List.mapM_cons]
    refine bind (h b (by simp)) fun a ha => ?_
    refine bind (hi fun b hb => h b (List.mem_cons_of_mem _ hb)) fun as ⟨hl, has⟩ => pure ⟨?_, ?_⟩
    · simp [hl]
    · intro a' ha'
      cases List.mem_cons.mp ha'
      case inl e => exact e ▸ ha
      case inr hm => exact has a' hm

theorem mapM_forall₂ {g : β → Method σ ε α} {Q : β → α → Prop} {l : List β}
    (h : ∀ b ∈ l, Yields I (Q b) (g b)) : Yields I (List.Forall₂ Q l) (l.mapM g) := by
  induction l
  case nil => exact pure .nil
  case cons b l hi =>
    rw [List.mapM_cons]
    refine bind (h b (by simp)) fun a ha => ?_
    exact bind (hi fun b hb => h b (List.mem_cons_of_mem _ hb)) fun as has => pure (.cons ha has)

end Yields

-- A method that comes to `y` from every state in `I`, and leaves one in `I`. The state it keeps is a
-- cache: no caller sees it.
def Steady (I : σ → Prop) (x : Method σ ε α) (y : Except ε α) : Prop :=
  ∀ s, I s → ∃ t, x.outcome s = (y, t) ∧ I t

namespace Steady

variable {I : σ → Prop} {y : Except ε α} {g : α → Except ε β}

theorem pure : Steady I (Pure.pure a : Method σ ε α) (Pure.pure a) :=
  fun s hs => ⟨s, rfl, hs⟩

theorem okOr {o : Option α} : Steady I (Fallible.okOr o e : Method σ ε α) (Fallible.okOr o e) :=
  fun s hs => ⟨s, by cases o <;> rfl, hs⟩

theorem bind (h : Steady I x y) (hf : ∀ a, Steady I (f a) (g a)) :
    Steady I (x >>= f) (y >>= g) := by
  intro s hs
  have ⟨t, run, ht⟩ := h s hs
  rw [outcome_bind, run]
  cases y
  case error e => exact ⟨t, rfl, ht⟩
  case ok a => exact hf a t ht

theorem mapM (h : ∀ a, Steady I (f a) (g a)) (l : List α) : Steady I (l.mapM f) (l.mapM g) := by
  induction l
  case nil => exact pure
  case cons a l hi =>
    rw [List.mapM_cons, List.mapM_cons]
    exact (h a).bind fun b => hi.bind fun l => pure

theorem forM {f : α → Method σ ε PUnit} {g : α → Except ε PUnit} (h : ∀ a, Steady I (f a) (g a))
    (l : List α) : Steady I (l.forM f) (l.forM g) := by
  induction l
  case nil => exact pure
  case cons a l hi => exact (h a).bind fun _ => hi

theorem value (h : Steady I x y) (hs : I s) : x.value s = y := by
  have ⟨_, run, _⟩ := h s hs
  rw [Method.value, run]

theorem keeps (h : Steady I x y) (hs : I s) : I (x.outcome s).2 := by
  have ⟨_, run, ht⟩ := h s hs
  rw [run]
  exact ht

end Steady

end Method

-- Two runs agree on `V` when they cannot both succeed with results outside it. Nothing is said
-- about a pair of runs of which one fails.
def Agree (V : α → β → Prop) (x : Except ε α) (y : Except δ β) : Prop :=
  ∀ ⦃a b⦄, x = .ok a → y = .ok b → V a b

namespace Agree

variable {ε' : Type} {V : α → β → Prop} {W : γ → δ → Prop}

theorem pure {a : α} {b : β} (h : V a b) :
    Agree V (Pure.pure a : Except ε α) (Pure.pure b : Except ε' β) := by
  intro _ _ ha hb
  cases ha
  cases hb
  exact h

theorem bind {x : Except ε α} {y : Except ε' β} {f : α → Except ε γ} {g : β → Except ε' δ}
    (h : Agree V x y) (hfg : ∀ ⦃a b⦄, V a b → Agree W (f a) (g b)) :
    Agree W (x >>= f) (y >>= g) := by
  intro _ _ hc hd
  have ⟨a, ha, hc⟩ := bind_eq_ok.mp hc
  have ⟨b, hb, hd⟩ := bind_eq_ok.mp hd
  exact hfg (h ha hb) hc hd

theorem same {x : Except ε α} {y : Except ε' α} {f : α → Except ε γ} {g : α → Except ε' δ}
    (h : Agree (· = ·) x y) (hfg : ∀ a, Agree W (f a) (g a)) : Agree W (x >>= f) (y >>= g) :=
  h.bind fun a _ e => e ▸ hfg a

theorem rfl {x : Except ε α} : Agree (· = ·) x x :=
  fun _ _ ha hb => Except.ok.inj (ha.symm.trans hb)

theorem throw_left {e : ε} {y : Except ε' β} : Agree V (throw e : Except ε α) y := by
  intro _ _ h
  exact absurd h throw_ne_ok

theorem throw_right {e : ε'} {x : Except ε α} : Agree V x (throw e : Except ε' β) := by
  intro _ _ _ h
  exact absurd h throw_ne_ok

theorem mapError {δ' ε'' : Type} {x : Except ε α} {y : Except ε' β} {f : ε → δ'} {g : ε' → ε''}
    (h : Agree V x y) : Agree V (x.mapError f) (y.mapError g) :=
  fun _ _ ha hb => h (mapError_eq_ok.mp ha) (mapError_eq_ok.mp hb)

theorem failIf {p q : Prop} [Decidable p] [Decidable q] {e : ε} {e' : ε'} :
    Agree (fun _ _ => ¬p ∧ ¬q) (Fallible.failIf p e : Except ε Unit)
      (Fallible.failIf q e' : Except ε' Unit) :=
  fun _ _ ha hb => ⟨failIf_eq_ok.mp ha, failIf_eq_ok.mp hb⟩

theorem okOr {x : Option α} {y : Option β} {e : ε} {e' : ε'}
    (h : ∀ a b, x = some a → y = some b → V a b) :
    Agree V (Fallible.okOr x e : Except ε α) (Fallible.okOr y e' : Except ε' β) :=
  fun a b ha hb => h a b (okOr_eq_ok.mp ha) (okOr_eq_ok.mp hb)

theorem ite {p : Prop} [Decidable p] {x x' : Except ε α} {y y' : Except ε' β}
    (h : p → Agree V x y) (h' : ¬p → Agree V x' y') :
    Agree V (if p then x else x') (if p then y else y') := by
  split
  case isTrue hp => exact h hp
  case isFalse hp => exact h' hp

theorem foldlM {f : α → γ → Except ε α} {g : β → γ → Except ε' β} {a : α} {b : β} (l : List γ)
    (h : V a b) (step : ∀ a b c, V a b → Agree V (f a c) (g b c)) :
    Agree V (l.foldlM f a) (l.foldlM g b) := by
  induction l generalizing a b
  case nil => exact pure h
  case cons c l hi =>
    rw [List.foldlM_cons, List.foldlM_cons]
    exact bind (step a b c h) fun a b hab => hi hab

end Agree

-- The same for two methods, called on values related by `S` and required to leave values related by
-- `S` again.
def Twin (S : σ → σ → Prop) (V : α → β → Prop) (x : Method σ ε α) (y : Method σ ε β) : Prop :=
  ∀ ⦃s t⦄, S s t → ∀ ⦃a s' b t'⦄, x.Ends s a s' → y.Ends t b t' → V a b ∧ S s' t'

namespace Twin

open Method

variable {S : σ → σ → Prop} {V : α → β → Prop} {W : γ → δ → Prop}

theorem pure {a : α} {b : β} (h : V a b) :
    Twin S V (Pure.pure a : Method σ ε α) (Pure.pure b) := by
  intro s t hs _ _ _ _ ha hb
  obtain ⟨rfl, rfl⟩ := ends_pure.mp ha
  obtain ⟨rfl, rfl⟩ := ends_pure.mp hb
  exact ⟨h, hs⟩

theorem bind {x : Method σ ε α} {y : Method σ ε β} {f : α → Method σ ε γ} {g : β → Method σ ε δ}
    (h : Twin S V x y) (hfg : ∀ ⦃a b⦄, V a b → Twin S W (f a) (g b)) :
    Twin S W (x >>= f) (y >>= g) := by
  intro s t hs _ _ _ _ hc hd
  have ⟨a, s', ha, hc⟩ := ends_bind.mp hc
  have ⟨b, t', hb, hd⟩ := ends_bind.mp hd
  have ⟨hv, hs'⟩ := h hs ha hb
  exact hfg hv hs' hc hd

theorem same {x y : Method σ ε α} {f : α → Method σ ε γ} {g : α → Method σ ε δ}
    (h : Twin S (· = ·) x y) (hfg : ∀ a, Twin S W (f a) (g a)) : Twin S W (x >>= f) (y >>= g) :=
  h.bind fun a _ e => e ▸ hfg a

theorem throw_left {e : ε} {y : Method σ ε β} :
    Twin S V (throw e : Method σ ε α) y := by
  intro _ _ _ _ _ _ _ h
  exact absurd h ends_throw

theorem failIf {p q : Prop} [Decidable p] [Decidable q] {e e' : ε} :
    Twin S (fun _ _ => ¬p ∧ ¬q) (Fallible.failIf p e : Method σ ε Unit) (Fallible.failIf q e') := by
  intro s t hs _ _ _ _ ha hb
  obtain ⟨hp, rfl⟩ := ends_failIf.mp ha
  obtain ⟨hq, rfl⟩ := ends_failIf.mp hb
  exact ⟨⟨hp, hq⟩, hs⟩

theorem okOr {x : Option α} {y : Option β} {e e' : ε}
    (h : ∀ a b, x = some a → y = some b → V a b) :
    Twin S V (Fallible.okOr x e : Method σ ε α) (Fallible.okOr y e') := by
  intro s t hs _ _ _ _ ha hb
  obtain ⟨hx, rfl⟩ := ends_okOr.mp ha
  obtain ⟨hy, rfl⟩ := ends_okOr.mp hb
  exact ⟨h _ _ hx hy, hs⟩

theorem get : Twin S S (MonadState.get : Method σ ε σ) MonadState.get := by
  intro s t hs _ _ _ _ ha hb
  obtain ⟨rfl, rfl⟩ := ends_get.mp ha
  obtain ⟨rfl, rfl⟩ := ends_get.mp hb
  exact ⟨hs, hs⟩

theorem ofExcept {x : Except ε α} {y : Except ε β} (h : Agree V x y) :
    Twin S V (Method.ofExcept x : Method σ ε α) (Method.ofExcept y) := by
  intro s t hs _ _ _ _ ha hb
  obtain ⟨hx, rfl⟩ := ends_ofExcept.mp ha
  obtain ⟨hy, rfl⟩ := ends_ofExcept.mp hb
  exact ⟨h hx hy, hs⟩

theorem ite {p : Prop} [Decidable p] {x x' : Method σ ε α} {y y' : Method σ ε β}
    (h : p → Twin S V x y) (h' : ¬p → Twin S V x' y') :
    Twin S V (if p then x else x') (if p then y else y') := by
  split
  case isTrue hp => exact h hp
  case isFalse hp => exact h' hp

theorem of_fails {x : Method σ ε α} {y : Method σ ε β} (h : ∀ s a s', ¬x.Ends s a s') :
    Twin S V x y :=
  fun _ _ _ _ _ _ _ ha => (h _ _ _ ha).elim

theorem tryCatch {x : Method σ ε α} {y : Method σ ε β} {f : ε → Method σ ε α}
    {g : ε → Method σ ε β} (h : Twin S V x y) (hf : ∀ e s a s', ¬(f e).Ends s a s')
    (hg : ∀ e s a s', ¬(g e).Ends s a s') :
    Twin S V (MonadExcept.tryCatch x f) (MonadExcept.tryCatch y g) :=
  fun _ _ hs _ _ _ _ ha hb => h hs ((ends_tryCatch hf).mp ha) ((ends_tryCatch hg).mp hb)

theorem mapErr {ε' : Type} {f : ε → ε'} {x : Method σ ε α} {y : Method σ ε β}
    (h : Twin S V x y) : Twin S V (x.mapErr f) (y.mapErr f) :=
  fun _ _ hs _ _ _ _ ha hb => h hs (ends_mapErr.mp ha) (ends_mapErr.mp hb)

theorem foldlM {f : α → γ → Method σ ε α} {g : β → γ → Method σ ε β} {a : α} {b : β} (l : List γ)
    (h : V a b) (step : ∀ a b c, V a b → Twin S V (f a c) (g b c)) :
    Twin S V (l.foldlM f a) (l.foldlM g b) := by
  induction l generalizing a b
  case nil => exact pure h
  case cons c l hi =>
    rw [List.foldlM_cons, List.foldlM_cons]
    exact bind (step a b c h) fun a b hab => hi hab

theorem value {x : Method σ ε α} {y : Method σ ε β} {s t : σ} (h : Twin S V x y) (hs : S s t) :
    Agree V (x.value s) (y.value t) := by
  intro a b ha hb
  have ⟨_, ha⟩ := value_eq_ok.mp ha
  have ⟨_, hb⟩ := value_eq_ok.mp hb
  exact (h hs ha hb).left

theorem call {x : Method σ ε α} {y : Method σ ε β} {s t : σ} (h : Twin S V x y) (hs : S s t) :
    Agree (fun p q => V p.1 q.1 ∧ S p.2 q.2) (x.call s) (y.call t) := by
  intro ⟨_, _⟩ ⟨_, _⟩ ha hb
  exact h hs (call_eq_ok.mp ha) (call_eq_ok.mp hb)

end Twin

end Fallible
