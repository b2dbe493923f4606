import TonNet.Cell.Theorems.Same

-- Lookups in two dictionaries that share their level-zero hash.

namespace TonNet

open Fallible Method

-- Two lookups that do not contradict each other. One that ran into a pruned branch says nothing.
inductive Lookup.Agrees {α β : Type} (R : α → β → Prop) : Lookup α → Lookup β → Prop
  | left {other : Lookup β} : Agrees R .pruned other
  | right {other : Lookup α} : Agrees R other .pruned
  | absent : Agrees R .absent .absent
  | found {a : α} {b : β} (related : R a b) : Agrees R (.found a) (.found b)

-- A reader that passes on what it did not find, called on two such lookups.
theorem Lookup.Agrees.agree {ε α β γ δ : Type} {R : α → β → Prop} {V : γ → δ → Prop} {l : Lookup α}
    {l' : Lookup β} {f : Lookup α → Except ε (Lookup γ)} {g : Lookup β → Except ε (Lookup δ)}
    (h : Agrees R l l') (hf : f .pruned = pure .pruned ∧ f .absent = pure .absent)
    (hg : g .pruned = pure .pruned ∧ g .absent = pure .absent)
    (hr : ∀ ⦃a b⦄, R a b → Agree (Agrees V) (f (.found a)) (g (.found b))) :
    Agree (Agrees V) (f l) (g l') := by
  cases h
  case left => exact fun _ _ ha _ => pure_eq_ok.mp (hf.left ▸ ha) ▸ .left
  case right => exact fun _ _ _ hb => pure_eq_ok.mp (hg.left ▸ hb) ▸ .right
  case absent => exact hf.right ▸ hg.right ▸ .pure .absent
  case found related => exact hr related

variable [Sha256] {strings : List Bytes}

open Slice in
theorem unaryLength_same (room len : Nat) :
    Twin (Slice.Same strings) (· = ·) (unaryLength room len) (unaryLength room len) := by
  induction room generalizing len
  case zero =>
    rw [unaryLength]
    refine loadBit_same.same fun bit => ?_
    exact .ite (fun _ => .throw_left) fun _ => .pure rfl
  case succ room hi =>
    rw [unaryLength]
    refine loadBit_same.same fun bit => ?_
    exact .ite (fun _ => hi (len + 1)) fun _ => .pure rfl

open Slice in
theorem readRun_same (max : Nat) :
    Twin (Slice.Same strings) (· = ·) (readRun max) (readRun max) := by
  refine loadBit_same.same fun bit => .ite (fun _ => ?_) fun _ => ?_
  · exact (unaryLength_same max 0).same fun _ => .pure rfl
  · refine loadBit_same.same fun bit => .ite (fun _ => ?_) fun _ => ?_
    · exact (loadUint_same _).same fun len => Twin.failIf.bind fun _ _ _ => .pure rfl
    · refine loadBit_same.same fun value => (loadUint_same _).same fun len => ?_
      exact Twin.failIf.bind fun _ _ _ => .pure rfl

theorem writeBits_same {next : Load Bool} (h : Twin (Slice.Same strings) (· = ·) next next)
    (count : Nat) : Twin (Slice.Same strings) (· = ·) (writeBits next count) (writeBits next count) := by
  refine .foldlM _ rfl fun label _ _ hl => hl ▸ h.same fun bit => ?_
  exact .ofExcept .rfl

theorem readLabel_same (max : Nat) :
    Twin (Slice.Same strings) (· = ·) (readLabel max) (readLabel max) := by
  refine (readRun_same max).same fun run => ?_
  cases run
  case spelled count => exact writeBits_same Slice.loadBit_same count
  case repeated value count => exact writeBits_same (.pure rfl) count

structure DictEntry.Same (strings : List Bytes) (e e' : DictEntry) : Prop where
  cell      : e.cell.parse.Same strings e'.cell.parse
  bitOffset : e.bitOffset = e'.bitOffset

theorem DictEntry.Same.slice {e e' : DictEntry} (h : e.Same strings e') :
    Agree (Slice.Same strings) e.slice e'.slice := by
  rw [DictEntry.slice, DictEntry.slice, ← h.bitOffset]
  exact ((Slice.skipBits_same e.bitOffset).call h.cell).bind fun _ _ hs => .pure hs.right

variable {ε : Type} {readExtra : Load ε} {bits : List Bool}

-- The two walks go through nodes with the same hash, so they part only where one is pruned.
theorem lookupFrom_agree (cf : CollisionFree strings)
    (hx : Twin (Slice.Same strings) (· = ·) readExtra readExtra) (passes : Nat) {node node' : Cell}
    (h : Same strings node node') (remaining consumed : Nat) :
    Agree (Lookup.Agrees fun p q => p.1 = q.1 ∧ p.2.Same strings q.2)
      (lookupFrom readExtra bits passes node remaining consumed)
      (lookupFrom readExtra bits passes node' remaining consumed) := by
  induction passes generalizing node node' remaining consumed
  case zero => exact .throw_left
  case succ passes hi =>
    rw [lookupFrom, lookupFrom]
    by_cases exotic : node.isExotic
    case pos =>
      rw [if_pos exotic]
      exact fun _ _ ha _ => pure_eq_ok.mp ha ▸ .left
    by_cases exotic' : node'.isExotic
    case pos =>
      rw [if_pos exotic']
      exact fun _ _ _ hb => pure_eq_ok.mp hb ▸ .right
    rw [if_neg exotic, if_neg exotic']
    have hp := h.parse cf (by simpa using exotic) (by simpa using exotic')
    refine ((readLabel_same remaining).call hp).bind ?_
    rintro ⟨label, slice⟩ ⟨_, slice'⟩ ⟨rfl, hs⟩
    refine .ite (fun _ => .pure .absent) fun _ => .ite (fun _ => ?_) fun _ => ?_
    · refine (hx.call hs).bind ?_
      rintro ⟨extra, rest⟩ ⟨_, rest'⟩ ⟨rfl, hr⟩
      exact .pure (.found ⟨rfl, hp, congrArg₂ (· - ·) hp.bits hr.remainingBits⟩)
    · exact (Agree.okOr fun _ _ => hp.reference rfl).bind fun _ _ h => hi h _ _

structure Dict.Same (strings : List Bytes) (d d' : Dict) : Prop where
  root    : Option.Rel (TonNet.Same strings) d.root d'.root
  keyBits : d.keyBits = d'.keyBits

theorem Dict.fromRoot_agree {root root' : Option Cell}
    (h : Option.Rel (TonNet.Same strings) root root') (keyBits : Nat) :
    Agree (Dict.Same strings) (fromRoot root keyBits) (fromRoot root' keyBits) :=
  Agree.failIf.bind fun _ _ _ => .pure ⟨h, rfl⟩

theorem lookup_agree (cf : CollisionFree strings)
    (hx : Twin (Slice.Same strings) (· = ·) readExtra readExtra) {root root' : Option Cell}
    (h : Option.Rel (TonNet.Same strings) root root') (keyBits : Nat) :
    Agree (Lookup.Agrees fun p q => p.1 = q.1 ∧ p.2.Same strings q.2)
      (lookup readExtra bits root keyBits) (lookup readExtra bits root' keyBits) := by
  cases h
  case none => exact .pure .absent
  case some h => exact lookupFrom_agree cf hx _ h _ _

theorem Dict.get_agree (cf : CollisionFree strings) {d d' : Dict} (h : d.Same strings d')
    (key : Bytes) : Agree (Lookup.Agrees (DictEntry.Same strings)) (d.get key) (d'.get key) := by
  rw [get, get, h.keyBits]
  refine Agree.rfl.same fun bits => (lookup_agree cf (.pure rfl) h.root _).bind ?_
  intro _ _ found
  apply found.agree
  case hr => exact fun _ _ h => .pure (.found h.right)
  all_goals exact ⟨rfl, rfl⟩

end TonNet
