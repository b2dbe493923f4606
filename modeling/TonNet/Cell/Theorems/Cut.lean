import TonNet.Lib.Lockstep
import TonNet.Lib.Lists
import TonNet.Cell.Dict

-- A tree and a copy of it in which subtrees are replaced by pruned branches, read side by side.

namespace TonNet

open Fallible Method

namespace Cell

-- Two cells of the same bits over related references.
structure Kept (R : Cell → Cell → Prop) (c c' : Cell) : Prop where
  cellType : c.cellType = c'.cellType
  bits     : c.bits = c'.bits
  data     : c.data = c'.data
  refs     : List.Forall₂ R c.refs c'.refs

-- `c` is `c'` with some of its subtrees replaced by pruned branches, whatever those store.
inductive Cut : Cell → Cell → Prop
  | pruned {c c' : Cell} (kind : c.cellType = .prunedBranch) (tag : c.data.head? = some 0x01) :
    Cut c c'
  | kept {c c' : Cell} (cellType : c.cellType = c'.cellType) (bits : c.bits = c'.bits)
    (data : c.data = c'.data) (refs : List.Forall₂ Cut c.refs c'.refs) : Cut c c'

-- A relation that a copy and its tree are in: a cell of the copy is exotic, or as in the tree.
def Copies (R : Cell → Cell → Prop) : Prop :=
  ∀ ⦃c c' : Cell⦄, R c c' → c.isExotic = true ∨ Kept R c c'

theorem cut_copies : Copies Cut := by
  intro c c' cut
  cases cut
  case pruned kind _ => exact .inl (by simp [isExotic, kind])
  case kept cellType bits data refs => exact .inr ⟨cellType, bits, data, refs⟩

theorem Kept.isExotic {R : Cell → Cell → Prop} {c c' : Cell} (h : Kept R c c') :
    c.isExotic = c'.isExotic := by
  rw [Cell.isExotic, Cell.isExotic, h.cellType]

theorem Kept.reference {R : Cell → Cell → Prop} {c c' : Cell} (h : Kept R c c') (i : Nat) :
    Option.Rel R (c.reference i) (c'.reference i) := by
  unfold Cell.reference
  cases hc : c.refs[i]?
  case none =>
    have none : c'.refs[i]? = none := by
      rw [List.getElem?_eq_none_iff] at hc ⊢
      exact h.refs.length_eq ▸ hc
    rw [none]
    exact .none
  case some r =>
    have ⟨r', hc', related⟩ := h.refs.exists_right hc
    rw [hc']
    exact .some related

end Cell

namespace Slice

-- Two cursors at the same place of two such cells.
structure Parallel (R : Cell → Cell → Prop) (s s' : Slice) : Prop where
  kept    : Cell.Kept R s.cell s'.cell
  bit     : s.bit = s'.bit
  nextRef : s.nextRef = s'.nextRef
  endBit  : s.endBit = s'.endBit
  endRef  : s.endRef = s'.endRef

variable {R : Cell → Cell → Prop} {X : CellError → Prop}

theorem Parallel.remainingBits {s s' : Slice} (h : s.Parallel R s') :
    s.remainingBits = s'.remainingBits := by
  rw [Slice.remainingBits, Slice.remainingBits, h.endBit, h.bit]

theorem advance_lockstep (n : Nat) : Lockstep X (Parallel R) (· = ·) (advance n) (advance n) := by
  refine Lockstep.get.bind fun s t hs => ?_
  have same : n ≤ s.remainingBits ↔ n ≤ t.remainingBits := by rw [hs.remainingBits]
  by_cases fits : n ≤ s.remainingBits
  case neg =>
    rw [dif_neg fits, dif_neg (same.not.mp fits), hs.remainingBits]
    exact .throw _
  case pos =>
    rw [dif_pos fits, dif_pos (same.mp fits)]
    exact fun _ _ _ => .ends ⟨hs.bit, { hs with bit := congrArg (· + n) hs.bit }⟩

theorem skipBits_lockstep (n : Nat) :
    Lockstep X (Parallel R) (fun _ _ => True) (skipBits n) (skipBits n) :=
  (advance_lockstep n).bind fun _ _ _ => .pure trivial

theorem data_lockstep {α : Type} {f : Bytes → Nat → α} (n : Nat) :
    Lockstep X (Parallel R) (· = ·)
      (do let start ← advance n; let s ← get; return f s.cell.data start : Load α)
      (do let start ← advance n; let s ← get; return f s.cell.data start) := by
  refine (advance_lockstep n).bind fun start _ h => Lockstep.get.bind fun s t hs => .pure ?_
  rw [hs.kept.data, h]

theorem loadBit_lockstep : Lockstep X (Parallel R) (· = ·) loadBit loadBit :=
  data_lockstep 1

theorem loadUint_lockstep (n : Nat) : Lockstep X (Parallel R) (· = ·) (loadUint n) (loadUint n) :=
  (Lockstep.failIf Iff.rfl _).bind fun _ _ _ =>
    data_lockstep (f := fun data start => uintAt data start n) n

theorem loadU32_lockstep : Lockstep X (Parallel R) (· = ·) loadU32 loadU32 :=
  (loadUint_lockstep 32).same fun _ => .pure rfl

theorem loadBytes_lockstep (n : Nat) :
    Lockstep X (Parallel R) (· = ·) (loadBytes n) (loadBytes n) := by
  refine Lockstep.get.bind fun s t h => ?_
  rw [h.remainingBits]
  exact (Lockstep.failIf Iff.rfl _).bind fun _ _ _ =>
    data_lockstep (f := fun data start => [] ++ (List.range n).map fun byte =>
      UInt8.ofNat (uintAt data (start + byte * 8) 8)) (n * 8)

theorem loadRef_lockstep : Lockstep X (Parallel R) R loadRef loadRef := by
  refine Lockstep.get.bind fun s t h => ?_
  have same : s.nextRef < s.endRef ↔ t.nextRef < t.endRef := by rw [h.nextRef, h.endRef]
  by_cases hs : s.nextRef < s.endRef
  case neg =>
    rw [dif_neg hs, dif_neg (same.not.mp hs)]
    exact .throw _
  case pos =>
    rw [dif_pos hs, dif_pos (same.mp hs)]
    have held := h.kept.reference s.nextRef
    nth_rewrite 2 [h.nextRef] at held
    refine (Lockstep.okOr held _).bind fun r r' related => ?_
    exact fun _ _ _ => .ends ⟨related, { h with nextRef := congrArg (· + 1) h.nextRef }⟩

theorem loadMaybeRef_lockstep :
    Lockstep X (Parallel R) (Option.Rel R) loadMaybeRef loadMaybeRef := by
  refine loadBit_lockstep.same fun bit => .ite Iff.rfl (fun _ => ?_) fun _ => .pure .none
  exact loadRef_lockstep.bind fun _ _ h => .pure (.some h)

end Slice

theorem Cell.Kept.parse {R : Cell → Cell → Prop} {c c' : Cell} (h : Kept R c c') :
    c.parse.Parallel R c'.parse :=
  ⟨h, rfl, rfl, h.bits, h.refs.length_eq⟩

section Labels

variable {R : Cell → Cell → Prop} {X : CellError → Prop}

open Slice

theorem unaryLength_lockstep (room len : Nat) :
    Lockstep X (Parallel R) (· = ·) (unaryLength room len) (unaryLength room len) := by
  induction room generalizing len
  case zero =>
    rw [unaryLength]
    refine loadBit_lockstep.same fun bit => ?_
    exact .ite Iff.rfl (fun _ => .throw _) fun _ => .pure rfl
  case succ room hi =>
    rw [unaryLength]
    refine loadBit_lockstep.same fun bit => ?_
    exact .ite Iff.rfl (fun _ => hi (len + 1)) fun _ => .pure rfl

theorem readRun_lockstep (max : Nat) :
    Lockstep X (Parallel R) (· = ·) (readRun max) (readRun max) := by
  refine loadBit_lockstep.same fun bit => .ite Iff.rfl (fun _ => ?_) fun _ => ?_
  · exact (unaryLength_lockstep max 0).same fun _ => .pure rfl
  · refine loadBit_lockstep.same fun bit => .ite Iff.rfl (fun _ => ?_) fun _ => ?_
    · refine (loadUint_lockstep _).same fun len => ?_
      exact (Lockstep.failIf Iff.rfl _).bind fun _ _ _ => .pure rfl
    · refine loadBit_lockstep.same fun value => (loadUint_lockstep _).same fun len => ?_
      exact (Lockstep.failIf Iff.rfl _).bind fun _ _ _ => .pure rfl

theorem writeBits_lockstep {next : Load Bool} (h : Lockstep X (Parallel R) (· = ·) next next)
    (count : Nat) :
    Lockstep X (Parallel R) (· = ·) (writeBits next count) (writeBits next count) := by
  refine .foldlM _ rfl fun label _ _ hl => hl ▸ h.same fun bit => ?_
  exact .ofExcept .rfl

theorem readLabel_lockstep (max : Nat) :
    Lockstep X (Parallel R) (· = ·) (readLabel max) (readLabel max) := by
  refine (readRun_lockstep max).same fun run => ?_
  cases run
  case spelled count => exact writeBits_lockstep loadBit_lockstep count
  case repeated value count => exact writeBits_lockstep (.pure rfl) count

end Labels

-- What a lookup in a copy answers against the tree's own answer, where it is not pruned.
inductive Lookup.Rel {α β : Type} (V : α → β → Prop) : Lookup α → Lookup β → Prop
  | found {a : α} {b : β} (related : V a b) : Rel V (.found a) (.found b)
  | absent : Rel V .absent .absent

-- A lookup in a copy is pruned, or does what the lookup in the tree does.
def Lookup.Echo {ε α β : Type} (X : ε → Prop) (V : α → β → Prop) (x : Except ε (Lookup α))
    (y : Except ε (Lookup β)) : Prop :=
  x = .ok .pruned ∨ Echoes X (Lookup.Rel V) x y

namespace Lookup.Echo

variable {ε α β γ δ : Type} {X : ε → Prop} {V : α → β → Prop} {W : γ → δ → Prop}

theorem bind {x : Except ε γ} {y : Except ε δ} {f : γ → Except ε (Lookup α)}
    {g : δ → Except ε (Lookup β)} (h : Echoes X W x y)
    (hfg : ∀ ⦃c d⦄, W c d → Lookup.Echo X V (f c) (g d)) : Lookup.Echo X V (x >>= f) (y >>= g) := by
  cases h
  case excused excuse => exact .inr (.excused excuse)
  case fails e => exact .inr (.fails e)
  case ends related => exact hfg related

theorem mapError {ε' : Type} {X' : ε' → Prop} {x : Except ε (Lookup α)} {y : Except ε (Lookup β)}
    {f : ε → ε'} (h : Lookup.Echo X V x y) (hx : ∀ e, X e → X' (f e)) :
    Lookup.Echo X' V (x.mapError f) (y.mapError f) := by
  cases h
  case inl h => exact .inl (by rw [h]; rfl)
  case inr h => exact .inr (h.mapError hx)

theorem mono {V' : α → β → Prop} {x : Except ε (Lookup α)} {y : Except ε (Lookup β)}
    (h : Lookup.Echo X V x y) (hv : ∀ a b, V a b → V' a b) : Lookup.Echo X V' x y := by
  refine h.imp_right fun h => h.mono fun _ _ related => ?_
  cases related
  case found related => exact .found (hv _ _ related)
  case absent => exact .absent

theorem absent : Lookup.Echo X V (pure .absent) (pure .absent) :=
  .inr (.ends .absent)

theorem found {a : α} {b : β} (h : V a b) : Lookup.Echo X V (pure (.found a)) (pure (.found b)) :=
  .inr (.ends (.found h))

theorem ite {p : Prop} [Decidable p] {x x' : Except ε (Lookup α)} {y y' : Except ε (Lookup β)}
    (pos : p → Lookup.Echo X V x y) (neg : ¬p → Lookup.Echo X V x' y') :
    Lookup.Echo X V (if p then x else x') (if p then y else y') := by
  split
  case isTrue hp => exact pos hp
  case isFalse hp => exact neg hp

-- What follows a lookup: a copy that is pruned is told so, the rest is done alike.
theorem chain {x : Except ε (Lookup γ)} {y : Except ε (Lookup δ)} {f : Lookup γ → Except ε (Lookup α)}
    {g : Lookup δ → Except ε (Lookup β)} (h : Lookup.Echo X W x y) (pruned : f .pruned = .ok .pruned)
    (absent : f .absent = .ok .absent) (absent' : g .absent = .ok .absent)
    (hfg : ∀ ⦃c d⦄, W c d → Lookup.Echo X V (f (.found c)) (g (.found d))) :
    Lookup.Echo X V (x >>= f) (y >>= g) := by
  cases h
  case inl h => exact .inl (by rw [h, ok_bind, pruned])
  case inr h =>
    refine bind h fun c d related => ?_
    cases related
    case found related => exact hfg related
    case absent => exact .inr (by rw [absent, absent']; exact .ends .absent)

end Lookup.Echo

structure DictEntry.Kept (R : Cell → Cell → Prop) (e e' : DictEntry) : Prop where
  cell      : e.cell.Kept R e'.cell
  bitOffset : e.bitOffset = e'.bitOffset

-- Such entries as two lookups end at.
structure DictEntry.Shown (R : Cell → Cell → Prop) (e e' : DictEntry) : Prop extends DictEntry.Kept R e e' where
  related  : R e.cell e'.cell
  ordinary : e.cell.isExotic = false

section Lookups

variable {R : Cell → Cell → Prop} {X : CellError → Prop} {ε ε' : Type} {E : ε → ε' → Prop}
variable {readExtra : Load ε} {readExtra' : Load ε'} {bits : List Bool}

theorem DictEntry.Kept.slice {e e' : DictEntry} (h : e.Kept R e') :
    Echoes X (Slice.Parallel R) e.slice e'.slice := by
  rw [DictEntry.slice, DictEntry.slice, ← h.bitOffset]
  exact (Slice.skipBits_lockstep e.bitOffset h.cell.parse).bind fun _ _ related => .pure related.right

theorem lookupFrom_echo (copies : Cell.Copies R)
    (hx : Lockstep X (Slice.Parallel R) E readExtra readExtra') (passes : Nat) {node node' : Cell}
    (h : R node node') (remaining consumed : Nat) :
    Lookup.Echo X (fun p q => E p.1 q.1 ∧ p.2.Shown R q.2)
      (lookupFrom readExtra bits passes node remaining consumed)
      (lookupFrom readExtra' bits passes node' remaining consumed) := by
  induction passes generalizing node node' remaining consumed
  case zero => exact .inr (.throw _)
  case succ passes hi =>
    rw [lookupFrom, lookupFrom]
    cases exotic : node.isExotic
    case true => exact .inl (if_pos rfl)
    case false =>
      have kept := (copies h).resolve_left (by simp [exotic])
      rw [if_neg (by simp), if_neg (by simp [← kept.isExotic, exotic])]
      refine .bind (readLabel_lockstep remaining kept.parse) ?_
      rintro ⟨label, slice⟩ ⟨_, slice'⟩ ⟨rfl, hs⟩
      refine .ite (fun _ => .absent) fun _ => .ite (fun _ => ?_) fun _ => ?_
      · refine .bind (hx hs) ?_
        rintro ⟨extra, rest⟩ ⟨extra', rest'⟩ ⟨related, hr⟩
        exact .found ⟨related, ⟨kept, congrArg₂ (· - ·) kept.bits hr.remainingBits⟩, h, exotic⟩
      · exact .bind (.okOr (kept.reference _) _) fun _ _ h => hi h _ _

theorem lookup_echo (copies : Cell.Copies R)
    (hx : Lockstep X (Slice.Parallel R) E readExtra readExtra') {root root' : Option Cell}
    (h : Option.Rel R root root') (keyBits : Nat) :
    Lookup.Echo X (fun p q => E p.1 q.1 ∧ p.2.Shown R q.2) (lookup readExtra bits root keyBits)
      (lookup readExtra' bits root' keyBits) := by
  cases h
  case none => exact .absent
  case some h => exact lookupFrom_echo copies hx _ h _ _

theorem Dict.get_echo (copies : Cell.Copies R) {d d' : Dict} (root : Option.Rel R d.root d'.root)
    (keyBits : d.keyBits = d'.keyBits) (key : Bytes) :
    Lookup.Echo X (DictEntry.Shown R) (d.get key) (d'.get key) := by
  rw [get, get, keyBits]
  refine .bind .rfl fun bits _ e => e ▸ ?_
  refine (lookup_echo copies (Lockstep.pure (V := (· = ·)) rfl) root _).chain rfl rfl rfl ?_
  exact fun _ _ related => .found related.right

end Lookups

end TonNet
