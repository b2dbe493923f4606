import TonNet.Cell.Theorems.Typed
import TonNet.Lib.Mirror
import TonNet.Lib.Lists

-- A cursor shows what is between its bounds and nothing else: reads on a window answer as reads on a
-- cell of its own would.

namespace TonNet

open Fallible Method

-- Two cursors with the same in front of them, which is no more than a cell holds.
structure Slice.Matches (s t : Slice) : Prop where
  bits    : s.ahead = t.ahead
  refs    : s.refsAhead = t.refsAhead
  bits_le : s.remainingBits ≤ maxBits
  refs_le : s.remainingRefs ≤ maxRefs

namespace Slice

namespace Matches

variable {s t : Slice} (h : s.Matches t)

include h

theorem remainingBits_eq : s.remainingBits = t.remainingBits := by
  rw [← ahead_length, h.bits, ahead_length]

theorem remainingRefs_eq : s.remainingRefs = t.remainingRefs := by
  rw [← refsAhead_length, h.refs, refsAhead_length]

theorem bitAt_eq {i : Nat} (hi : i < s.remainingBits) :
    s.cell.data.bitAt (s.bit + i) = t.cell.data.bitAt (t.bit + i) := by
  have here := congrArg (·[i]?) h.bits
  simp only [ahead, List.getElem?_map, List.getElem?_range hi,
    List.getElem?_range (h.remainingBits_eq ▸ hi), Option.map_some] at here
  exact Option.some.inj here

theorem past {n : Nat} (le : n ≤ s.remainingBits) (le' : n ≤ t.remainingBits) :
    (s.past n le).Matches (t.past n le') where
  bits    := by rw [ahead_past, ahead_past, h.bits]
  refs    := h.refs
  bits_le := by
    rw [remainingBits_past]
    exact (Nat.sub_le ..).trans h.bits_le
  refs_le := h.refs_le

theorem pastRefs {n : Nat} (le : n ≤ s.remainingRefs) (le' : n ≤ t.remainingRefs) :
    (s.pastRefs n le).Matches (t.pastRefs n le') where
  bits    := h.bits
  refs    := by rw [refsAhead_pastRefs, refsAhead_pastRefs, h.refs]
  bits_le := h.bits_le
  refs_le := by
    rw [← refsAhead_length, refsAhead_pastRefs, List.length_drop, refsAhead_length]
    exact (Nat.sub_le ..).trans h.refs_le

end Matches

theorem advance_short {s : Slice} {n : Nat} (short : ¬n ≤ s.remainingBits) :
    (advance n).outcome s = (.error (.notEnoughBits n s.remainingBits), s) := by
  rw [advance, outcome_bind_of_ends (ends_get.mpr ⟨rfl, rfl⟩), dif_neg short]
  rfl

theorem advance_mirrors (n : Nat) : Mirrors Matches (fun _ _ => True) (advance n) (advance n) := by
  intro s t h
  by_cases le : n ≤ s.remainingBits
  case pos =>
    have le' := h.remainingBits_eq ▸ le
    rw [show (advance n).outcome s = _ from advance_ends.mpr ⟨le, rfl, rfl⟩,
      show (advance n).outcome t = _ from advance_ends.mpr ⟨le', rfl, rfl⟩]
    exact .ends trivial (h.past le le')
  case neg =>
    rw [advance_short le, advance_short (h.remainingBits_eq ▸ le), h.remainingBits_eq]
    exact .fails _ h

-- What is read off the next bits, wherever in its bytes a cursor is.
theorem taking_mirrors {α : Type} {n : Nat} {g : Bytes → Nat → α}
    (inside : ∀ {data start data' start'},
      (∀ i < n, Bytes.bitAt data (start + i) = Bytes.bitAt data' (start' + i)) → g data start = g data' start') :
    Mirrors Matches (· = ·)
      (do let start ← advance n; let s ← get; return g s.cell.data start : Load α)
      (do let start ← advance n; let s ← get; return g s.cell.data start) := by
  intro s t h
  by_cases le : n ≤ s.remainingBits
  case pos =>
    have le' := h.remainingBits_eq ▸ le
    rw [outcome_bind_of_ends (advance_ends.mpr ⟨le, rfl, rfl⟩),
      outcome_bind_of_ends (advance_ends.mpr ⟨le', rfl, rfl⟩)]
    exact .ends (inside fun i hi => h.bitAt_eq (hi.trans_le le)) (h.past le le')
  case neg =>
    rw [outcome_bind, outcome_bind, advance_short le, advance_short (h.remainingBits_eq ▸ le),
      h.remainingBits_eq]
    exact .fails _ h

theorem uintAt_congr {data data' : Bytes} {start start' n : Nat}
    (h : ∀ i < n, data.bitAt (start + i) = data'.bitAt (start' + i)) :
    uintAt data start n = uintAt data' start' n := by
  refine Nat.eq_of_testBit_eq fun k => ?_
  rw [uintAt_testBit, uintAt_testBit]
  by_cases hk : k < n
  case pos => rw [h _ (by omega)]
  case neg => simp [hk]

section Loads

theorem skipBits_mirrors (n : Nat) : Mirrors Matches (· = ·) (skipBits n) (skipBits n) :=
  (advance_mirrors n).bind fun _ _ _ => .pure rfl

theorem loadBit_mirrors : Mirrors Matches (· = ·) loadBit loadBit :=
  taking_mirrors fun same => same 0 Nat.one_pos

theorem loadUintOf_mirrors (width n : Nat) :
    Mirrors Matches (· = ·) (loadUintOf width n) (loadUintOf width n) :=
  (Mirrors.failIf Iff.rfl _).bind fun _ _ _ => taking_mirrors uintAt_congr

theorem loadBits_mirrors (n : Nat) : Mirrors Matches (· = ·) (loadBits n) (loadBits n) :=
  taking_mirrors fun same => List.map_congr_left fun i hi => same i (List.mem_range.mp hi)

theorem loadBytesInto_mirrors (n : Nat) (into : Bytes) :
    Mirrors Matches (· = ·) (loadBytesInto n into) (loadBytesInto n into) := by
  refine Mirrors.get.bind fun s t h => ?_
  rw [h.remainingBits_eq]
  refine (Mirrors.failIf Iff.rfl _).bind fun _ _ _ => taking_mirrors
    (g := fun data start => into ++ (List.range n).map fun byte => UInt8.ofNat (uintAt data (start + byte * 8) 8))
    fun same => congrArg (into ++ ·) (List.map_congr_left fun i hi => ?_)
  have lt := List.mem_range.mp hi
  refine congrArg UInt8.ofNat (uintAt_congr fun j hj => ?_)
  rw [Nat.add_assoc, Nat.add_assoc]
  exact same _ (by omega)

theorem loadRef_none {s : Slice} (none : s.refsAhead = []) :
    loadRef.outcome s = (.error .notEnoughRefs, s) ∧ peekRef.outcome s = (.error .notEnoughRefs, s) := by
  have full := congrArg List.length none
  rw [refsAhead_length, remainingRefs, List.length_nil] at full
  constructor
  case left =>
    rw [loadRef, outcome_bind_of_ends (ends_get.mpr ⟨rfl, rfl⟩), dif_neg (by omega)]
    rfl
  case right =>
    rw [peekRef, outcome_bind_of_ends (ends_get.mpr ⟨rfl, rfl⟩), failIf, if_pos (by omega)]
    rfl

theorem peekRef_some {s : Slice} {cell : Cell} {rest : List Cell} (front : s.refsAhead = cell :: rest) :
    peekRef.outcome s = (.ok cell, s) := by
  rw [peekRef, outcome_bind_of_ends (ends_get.mpr ⟨rfl, rfl⟩), failIf,
    if_neg (not_le.mpr (nextRef_lt front)), reference_of_ahead front]
  rfl

theorem loadRef_mirrors : Mirrors Matches (· = ·) loadRef loadRef := by
  intro s t h
  cases front : s.refsAhead
  case nil =>
    rw [(loadRef_none front).left, (loadRef_none (h.refs.symm.trans front)).left]
    exact .fails _ h
  case cons cell rest =>
    have ⟨s', ends, bits, refs⟩ := loadRef_reads cell s s.ahead rest rfl front
    have ⟨t', ends', bits', refs'⟩ := loadRef_reads cell t t.ahead rest rfl (h.refs.symm.trans front)
    rw [show loadRef.outcome s = _ from ends, show loadRef.outcome t = _ from ends']
    refine .ends rfl ⟨by rw [bits, bits', h.bits], refs.trans refs'.symm, ?_, ?_⟩
    · rw [← ahead_length, bits, ahead_length]
      exact h.bits_le
    · have le := h.refs_le
      rw [← refsAhead_length, front, List.length_cons] at le
      rw [← refsAhead_length, refs]
      omega

theorem peekRef_mirrors : Mirrors Matches (· = ·) peekRef peekRef := by
  intro s t h
  cases front : s.refsAhead
  case nil =>
    rw [(loadRef_none front).right, (loadRef_none (h.refs.symm.trans front)).right]
    exact .fails _ h
  case cons cell rest =>
    rw [peekRef_some front, peekRef_some (h.refs.symm.trans front)]
    exact .ends rfl h

theorem readVar_mirrors (max : Nat) : Mirrors Matches (· = ·) (readVar max) (readVar max) := by
  refine (Mirrors.failIf Iff.rfl _).bind fun _ _ _ => Mirrors.get.bind fun s t start => ?_
  refine (loadUintOf_mirrors 64 _).same fun len => ?_
  have refuse (err : CellError) : Mirrors Matches (· = ·)
      (do set s; throw err : Load (Nat × Nat)) (do set t; throw err) :=
    (Mirrors.set start).bind fun _ _ _ => .throw err
  refine .ite Iff.rfl (fun _ => refuse _) fun _ => .tryCatch ?_ refuse
  exact (loadUintOf_mirrors 128 _).same fun _ => .pure rfl

theorem loadInt_mirrors (n : Nat) : Mirrors Matches (· = ·) (loadInt n) (loadInt n) :=
  (Mirrors.failIf Iff.rfl _).bind fun _ _ _ => .ite Iff.rfl (fun _ => .pure rfl) fun _ =>
    (loadUintOf_mirrors 64 n).same fun _ => .pure rfl

theorem loadMaybeRef_mirrors : Mirrors Matches (· = ·) loadMaybeRef loadMaybeRef :=
  loadBit_mirrors.same fun _ => .ite Iff.rfl (fun _ => loadRef_mirrors.same fun _ => .pure rfl)
    fun _ => .pure rfl

theorem skipRefs_mirrors (n : Nat) : Mirrors Matches (· = ·) (skipRefs n) (skipRefs n) := by
  refine Mirrors.get.bind fun s t h => ?_
  by_cases le : n ≤ s.remainingRefs
  case pos =>
    have le' := h.remainingRefs_eq ▸ le
    rw [dif_pos le, dif_pos le']
    exact .set (h.pastRefs le le')
  case neg =>
    rw [dif_neg le, dif_neg (h.remainingRefs_eq ▸ le)]
    exact .throw _

theorem skipBitsAndRefs_mirrors (bits refs : Nat) :
    Mirrors Matches (· = ·) (skipBitsAndRefs bits refs) (skipBitsAndRefs bits refs) := by
  refine Mirrors.get.bind fun s t h => ?_
  by_cases le : bits ≤ s.remainingBits
  case pos =>
    have le' := h.remainingBits_eq ▸ le
    rw [dif_pos le, dif_pos le']
    by_cases fits : refs ≤ s.remainingRefs
    case pos =>
      have fits' := h.remainingRefs_eq ▸ fits
      rw [dif_pos fits, dif_pos fits']
      exact .set ((h.past le le').pastRefs fits fits')
    case neg =>
      rw [dif_neg fits, dif_neg (h.remainingRefs_eq ▸ fits)]
      exact .throw _
  case neg =>
    rw [dif_neg le, dif_neg (h.remainingBits_eq ▸ le), h.remainingBits_eq]
    exact .throw _

end Loads

section Windows

variable {s t : Slice} {skip bits skipR refs : Nat}

theorem ahead_window (hb : skip + bits ≤ s.remainingBits) (hr : skipR + refs ≤ s.remainingRefs) :
    (s.window skip bits skipR refs hb hr).ahead = (s.ahead.drop skip).take bits := by
  have count : (s.window skip bits skipR refs hb hr).remainingBits = bits := Nat.add_sub_cancel_left ..
  rw [ahead, ahead, count, ← List.map_drop, ← List.map_take]
  refine List.ext_getElem? fun i => ?_
  simp only [List.getElem?_map, List.getElem?_take, List.getElem?_drop]
  by_cases hi : i < bits
  case pos =>
    rw [List.getElem?_range hi, if_pos hi, List.getElem?_range (by omega), Option.map_some,
      Option.map_some, ← Nat.add_assoc]
    rfl
  case neg =>
    rw [if_neg hi, List.getElem?_eq_none (by rw [List.length_range]; omega)]
    rfl

theorem refsAhead_window (hb : skip + bits ≤ s.remainingBits) (hr : skipR + refs ≤ s.remainingRefs) :
    (s.window skip bits skipR refs hb hr).refsAhead = (s.refsAhead.drop skipR).take refs := by
  have le : s.nextRef + skipR + refs ≤ s.endRef := by
    have := s.nextRef_le
    rw [remainingRefs] at hr
    omega
  refine List.ext_getElem? fun i => ?_
  simp only [refsAhead, window, List.getElem?_take, List.getElem?_drop]
  by_cases hi : i < refs
  case pos => rw [if_pos hi, if_pos (by omega), if_pos (by omega), Nat.add_assoc]
  case neg => rw [if_neg hi, if_neg (by omega)]

-- What a window is cut out of, and where.
theorem subslice_ok {w : Slice} (h : s.subslice skip bits skipR refs = .ok w) :
    w.cell = s.cell ∧ w.ahead = (s.ahead.drop skip).take bits ∧
      w.refsAhead = (s.refsAhead.drop skipR).take refs := by
  obtain ⟨_, _, rest⟩ := bind_eq_ok.mp h
  split at rest
  case isFalse => exact (throw_ne_ok rest).elim
  case isTrue hb =>
    obtain ⟨_, _, rest⟩ := bind_eq_ok.mp rest
    split at rest
    case isFalse => exact (throw_ne_ok rest).elim
    case isTrue hr =>
      obtain rfl := pure_eq_ok.mp rest
      exact ⟨rfl, ahead_window hb hr, refsAhead_window hb hr⟩

theorem Matches.window (h : s.Matches t) (hb : skip + bits ≤ s.remainingBits)
    (hr : skipR + refs ≤ s.remainingRefs) (hb' : skip + bits ≤ t.remainingBits)
    (hr' : skipR + refs ≤ t.remainingRefs) :
    (s.window skip bits skipR refs hb hr).Matches (t.window skip bits skipR refs hb' hr') where
  bits    := by rw [ahead_window, ahead_window, h.bits]
  refs    := by rw [refsAhead_window, refsAhead_window, h.refs]
  bits_le := by
    have := h.bits_le
    rw [← ahead_length, ahead_window, List.length_take]
    omega
  refs_le := by
    have := h.refs_le
    rw [← refsAhead_length, refsAhead_window, List.length_take]
    omega

theorem Matches.subslice (h : s.Matches t) (skip bits skipR refs : Nat) :
    Echoes (fun _ => False) Matches (s.subslice skip bits skipR refs) (t.subslice skip bits skipR refs) := by
  have some : Echoes (fun _ => False) (fun _ _ => ¬skip + bits > maxUsize)
      (failIf (skip + bits > maxUsize) (.notEnoughBits maxUsize s.remainingBits) : Except CellError Unit)
      (failIf (skip + bits > maxUsize) (.notEnoughBits maxUsize t.remainingBits)) := by
    rw [h.remainingBits_eq]
    exact .failIf Iff.rfl _
  refine some.bind fun _ _ _ => ?_
  by_cases hb : skip + bits ≤ s.remainingBits
  case neg =>
    rw [dif_neg hb, dif_neg (h.remainingBits_eq ▸ hb), h.remainingBits_eq]
    exact .throw _
  case pos =>
    have hb' := h.remainingBits_eq ▸ hb
    rw [dif_pos hb, dif_pos hb']
    refine (Echoes.failIf Iff.rfl _).bind fun _ _ _ => ?_
    by_cases hr : skipR + refs ≤ s.remainingRefs
    case neg =>
      rw [dif_neg hr, dif_neg (h.remainingRefs_eq ▸ hr)]
      exact .throw _
    case pos =>
      have hr' := h.remainingRefs_eq ▸ hr
      rw [dif_pos hr, dif_pos hr']
      exact .pure (h.window hb hr hb' hr')

theorem loadSlice_mirrors (bits refs : Nat) :
    Mirrors Matches Matches (loadSlice bits refs) (loadSlice bits refs) := by
  refine Mirrors.get.bind fun s t h => (Mirrors.ofExcept (h.subslice 0 bits 0 refs)).bind fun w w' matching => ?_
  exact (skipBitsAndRefs_mirrors bits refs).bind fun _ _ _ => .pure matching

theorem loadAddress_mirrors : Mirrors Matches (· = ·) loadAddress loadAddress := by
  refine (loadUintOf_mirrors 64 2).same fun form => ?_
  split
  case h_1 => exact .pure rfl
  case h_2 =>
    refine loadBit_mirrors.same fun _ => (Mirrors.failIf Iff.rfl _).bind fun _ _ _ => ?_
    refine (loadInt_mirrors 8).same fun _ => (loadBytesInto_mirrors 32 []).same fun _ => ?_
    exact (Mirrors.okOr _ _).same fun _ => .pure rfl
  case h_3 => exact .throw _

theorem loadEitherRef_mirrors : Mirrors Matches (· = ·) loadEitherRef loadEitherRef :=
  loadBit_mirrors.same fun _ => .ite Iff.rfl (fun _ => loadRef_mirrors.same fun _ => .pure rfl)
    fun _ => .pure rfl

theorem loadMaybeEitherRef_mirrors : Mirrors Matches (· = ·) loadMaybeEitherRef loadMaybeEitherRef :=
  loadBit_mirrors.same fun _ => .ite Iff.rfl (fun _ => loadEitherRef_mirrors.same fun _ => .pure rfl)
    fun _ => .pure rfl

theorem loadSnakeInto_mirrors (into : Bytes) :
    Mirrors Matches (· = ·) (loadSnakeInto into) (loadSnakeInto into) := by
  have link : Mirrors Matches (· = ·) (loadLink into) (loadLink into) := by
    refine Mirrors.get.bind fun s t h => ?_
    rw [h.remainingBits_eq]
    refine (loadBytesInto_mirrors _ into).same fun into => .ite (by rw [h.remainingRefs_eq]) ?_ ?_
    · exact fun _ => loadRef_mirrors.same fun _ => .pure rfl
    · exact fun _ => .pure rfl
  exact link.same fun _ => .ofExcept .rfl

theorem Matches.compareFrom_eq (h : s.Matches t) (other : Slice) (passes : Nat) :
    compareFrom passes s other = compareFrom passes t other := by
  induction passes generalizing s t other
  case zero => rfl
  case succ passes hi =>
    have bit := (loadBit_mirrors h).call
    rw [compareFrom, compareFrom]
    generalize loadBit.call s = p at bit ⊢
    generalize loadBit.call t = q at bit ⊢
    cases bit
    case excused excuse => exact excuse.elim
    case fails => rfl
    case ends p q related =>
      obtain ⟨same, left⟩ := related
      obtain ⟨this, s'⟩ := p
      obtain ⟨that, t'⟩ := q
      obtain rfl : this = that := same
      rcases loadBit.call other with _ | ⟨bit, other'⟩
      case error => rfl
      case ok => exact if_congr Iff.rfl (hi left other') rfl

theorem Matches.countLeadingFrom_eq (h : s.Matches t) (bit : Bool) (passes : Nat) :
    countLeadingFrom bit passes s = countLeadingFrom bit passes t := by
  induction passes generalizing s t
  case zero => rfl
  case succ passes hi =>
    have next := (loadBit_mirrors h).call
    rw [countLeadingFrom, countLeadingFrom]
    generalize loadBit.call s = p at next ⊢
    generalize loadBit.call t = q at next ⊢
    cases next
    case excused excuse => exact excuse.elim
    case fails => rfl
    case ends p q related =>
      obtain ⟨same, left⟩ := related
      obtain ⟨this, s'⟩ := p
      obtain ⟨that, t'⟩ := q
      obtain rfl : this = that := same
      exact if_congr Iff.rfl (congrArg (· + 1) (hi left)) rfl

theorem Matches.countTrailing_eq (h : s.Matches t) (bit : Bool) :
    s.countTrailing bit = t.countTrailing bit := by
  unfold countTrailing
  rw [h.remainingBits_eq]
  refine congrArg List.length (List.takeWhile_congr fun run hr => ?_)
  have lt := List.mem_range.mp hr
  rw [Nat.add_sub_assoc (by omega), Nat.add_sub_assoc (by omega), Nat.add_sub_assoc (by omega),
    Nat.add_sub_assoc (by omega), h.bitAt_eq (by rw [h.remainingBits_eq]; omega)]

theorem Matches.toBuilder_eq (h : s.Matches t) : s.toBuilder = t.toBuilder := by
  have ⟨b, bits, refs⟩ := Builder.exists_of_bits s.ahead s.refsAhead (by rw [ahead_length]; exact h.bits_le)
    (by rw [refsAhead_length]; exact h.refs_le)
  rw [toBuilder_eq_ok.mpr ⟨bits, refs⟩, toBuilder_eq_ok.mpr ⟨bits.trans h.bits, refs.trans h.refs⟩]

end Windows
end Slice

-- Every read of a cursor but `cell`, which names the cell the cursor is on whatever the window shows of it.
inductive Probe
  | remainingBits
  | remainingRefs
  | isEmpty
  | canRead (bits refs : Nat)
  | skipBits (n : Nat)
  | skipRefs (n : Nat)
  | skipBitsAndRefs (bits refs : Nat)
  | bit
  | uint (n : Nat)
  | u8
  | u16
  | u32
  | i32
  | int (n : Nat)
  | uint128 (n : Nat)
  | int128 (n : Nat)
  | varUint (max : Nat)
  | varInt (max : Nat)
  | coins
  | bits (n : Nat)
  | bytes (n : Nat)
  | bytesInto (n : Nat) (into : Bytes)
  | ref
  | maybeRef
  | dict (keyBits : Nat)
  | preloadUint (n : Nat)
  | preloadBit
  | peekRef
  | address
  | eitherRef
  | maybeEitherRef
  | snake (into : Bytes)
  | bitsEqual (other : Slice)
  | compareBits (other : Slice)
  | countLeading (bit : Bool)
  | countTrailing (bit : Bool)
  | subslice (skipBits bits skipRefs refs : Nat)
  | slice (bits refs : Nat)
  | toBuilder
  | toCell

inductive Answer
  | unit
  | bool (value : Bool)
  | nat (value : Nat)
  | u8 (value : UInt8)
  | u32 (value : UInt32)
  | i32 (value : Int32)
  | int (value : BitVec 64)
  | int128 (value : BitVec 128)
  | bits (value : List Bool)
  | bytes (value : Bytes)
  | ref (value : Cell)
  | maybeRef (value : Option Cell)
  | dict (value : Dict)
  | address (value : MsgAddress)
  | eitherRef (value : EitherRef)
  | maybeEitherRef (value : Option EitherRef)
  | ordering (value : Ordering)
  | builder (value : Builder)
  | slice (value : Slice)

-- The same answer, where windows are compared by what they show.
inductive Answer.Alike : Answer → Answer → Prop
  | same (a : Answer) : Alike a a
  | slices {w w' : Slice} (matching : w.Matches w') : Alike (.slice w) (.slice w')

namespace Probe

open Slice

-- A question about what is left, which moves nothing.
theorem ask_mirrors {f : Slice → Answer} (h : ∀ {s t : Slice}, s.Matches t → f s = f t) :
    Mirrors Matches Answer.Alike (f <$> get : Load Answer) (f <$> get) :=
  Mirrors.get.map fun _ _ matching => h matching ▸ .same _

theorem same_mirrors {α : Type} {x : Load α} {f : α → Answer} (h : Mirrors Matches (· = ·) x x) :
    Mirrors Matches Answer.Alike (f <$> x) (f <$> x) :=
  h.map fun _ _ same => same ▸ .same _

variable [Sha256]

def run : Probe → Load Answer
  | remainingBits     => (.nat ·.remainingBits) <$> get
  | remainingRefs     => (.nat ·.remainingRefs) <$> get
  | isEmpty           => (.bool ·.isEmpty) <$> get
  | canRead n m       => (.bool <| ·.canRead n m) <$> get
  | skipBits n        => (fun _ => .unit) <$> Slice.skipBits n
  | skipRefs n        => (fun _ => .unit) <$> Slice.skipRefs n
  | skipBitsAndRefs n m => (fun _ => .unit) <$> Slice.skipBitsAndRefs n m
  | bit               => .bool <$> loadBit
  | uint n            => .nat <$> loadUint n
  | u8                => .u8 <$> loadU8
  | u16               => .nat <$> loadU16
  | u32               => .u32 <$> loadU32
  | i32               => .i32 <$> loadI32
  | int n             => .int <$> loadInt n
  | uint128 n         => .nat <$> loadUint128 n
  | int128 n          => .int128 <$> loadInt128 n
  | varUint max       => .nat <$> loadVarUint max
  | varInt max        => .int128 <$> loadVarInt max
  | coins             => .nat <$> loadCoins
  | bits n            => .bits <$> loadBits n
  | bytes n           => .bytes <$> loadBytes n
  | bytesInto n into  => .bytes <$> loadBytesInto n into
  | ref               => .ref <$> loadRef
  | maybeRef          => .maybeRef <$> loadMaybeRef
  | dict keyBits      => .dict <$> loadDict keyBits
  | preloadUint n     => .nat <$> Slice.preloadUint n
  | preloadBit        => .bool <$> Slice.preloadBit
  | peekRef           => .ref <$> Slice.peekRef
  | address           => .address <$> loadAddress
  | eitherRef         => .eitherRef <$> loadEitherRef
  | maybeEitherRef    => .maybeEitherRef <$> loadMaybeEitherRef
  | snake into        => .bytes <$> loadSnakeInto into
  | bitsEqual other   => (.bool <| ·.bitsEqual other) <$> get
  | compareBits other => (.ordering <| ·.compareBits other) <$> get
  | countLeading b    => (.nat <| ·.countLeading b) <$> get
  | countTrailing b   => (.nat <| ·.countTrailing b) <$> get
  | subslice i n j m  => do
    let s ← get
    .slice <$> Method.ofExcept (s.subslice i n j m)
  | slice n m         => .slice <$> loadSlice n m
  | toBuilder         => do
    let s ← get
    .builder <$> Method.ofExcept s.toBuilder
  | toCell            => do
    let s ← get
    .ref <$> Method.ofExcept s.toCell

theorem mirrors (read : Probe) : Mirrors Matches Answer.Alike read.run read.run := by
  cases read
  case remainingBits => exact ask_mirrors fun h => by rw [h.remainingBits_eq]
  case remainingRefs => exact ask_mirrors fun h => by rw [h.remainingRefs_eq]
  case isEmpty =>
    exact ask_mirrors fun h => by rw [Slice.isEmpty, Slice.isEmpty, h.remainingBits_eq, h.remainingRefs_eq]
  case canRead =>
    exact ask_mirrors fun h => by rw [Slice.canRead, Slice.canRead, h.remainingBits_eq, h.remainingRefs_eq]
  case skipBits n => exact same_mirrors (skipBits_mirrors n)
  case skipRefs n => exact same_mirrors (skipRefs_mirrors n)
  case skipBitsAndRefs n m => exact same_mirrors (skipBitsAndRefs_mirrors n m)
  case bit => exact same_mirrors loadBit_mirrors
  case uint n => exact same_mirrors (loadUintOf_mirrors 64 n)
  case u8 => exact same_mirrors ((loadUintOf_mirrors 64 8).same fun _ => .pure rfl)
  case u16 => exact same_mirrors (loadUintOf_mirrors 64 16)
  case u32 => exact same_mirrors ((loadUintOf_mirrors 64 32).same fun _ => .pure rfl)
  case i32 => exact same_mirrors ((loadUintOf_mirrors 64 32).same fun _ => .pure rfl)
  case int n => exact same_mirrors (loadInt_mirrors n)
  case uint128 n => exact same_mirrors (loadUintOf_mirrors 128 n)
  case int128 n => exact same_mirrors ((loadUintOf_mirrors 128 n).same fun _ => .pure rfl)
  case varUint max => exact same_mirrors ((readVar_mirrors max).same fun _ => .pure rfl)
  case varInt max => exact same_mirrors ((readVar_mirrors max).same fun _ => .pure rfl)
  case coins => exact same_mirrors ((readVar_mirrors 16).same fun _ => .pure rfl)
  case bits n => exact same_mirrors (loadBits_mirrors n)
  case bytes n => exact same_mirrors (loadBytesInto_mirrors n [])
  case bytesInto n into => exact same_mirrors (loadBytesInto_mirrors n into)
  case ref => exact same_mirrors loadRef_mirrors
  case maybeRef => exact same_mirrors loadMaybeRef_mirrors
  case dict => exact same_mirrors (loadMaybeRef_mirrors.same fun _ => .ofExcept .rfl)
  case preloadUint n =>
    exact same_mirrors (Mirrors.get.bind fun _ _ h => .ofExcept (loadUintOf_mirrors 64 n h).value)
  case preloadBit => exact same_mirrors (Mirrors.get.bind fun _ _ h => .ofExcept (loadBit_mirrors h).value)
  case peekRef => exact same_mirrors peekRef_mirrors
  case address => exact same_mirrors loadAddress_mirrors
  case eitherRef => exact same_mirrors loadEitherRef_mirrors
  case maybeEitherRef => exact same_mirrors loadMaybeEitherRef_mirrors
  case snake into => exact same_mirrors (loadSnakeInto_mirrors into)
  case bitsEqual other =>
    exact ask_mirrors fun h => by
      rw [Slice.bitsEqual, Slice.bitsEqual, Slice.compareBits, Slice.compareBits, h.remainingBits_eq,
        h.compareFrom_eq]
  case compareBits other =>
    exact ask_mirrors fun h => by
      rw [Slice.compareBits, Slice.compareBits, h.remainingBits_eq, h.compareFrom_eq]
  case countLeading b =>
    exact ask_mirrors fun h => by
      rw [Slice.countLeading, Slice.countLeading, h.remainingBits_eq, h.countLeadingFrom_eq]
  case countTrailing b => exact ask_mirrors fun h => by rw [h.countTrailing_eq]
  case subslice i n j m =>
    exact Mirrors.get.bind fun _ _ h => (Mirrors.ofExcept (h.subslice i n j m)).map fun _ _ => .slices
  case slice n m => exact (loadSlice_mirrors n m).map fun _ _ => .slices
  case toBuilder =>
    refine Mirrors.get.bind fun s t h => ?_
    rw [h.toBuilder_eq]
    exact same_mirrors (.ofExcept .rfl)
  case toCell =>
    refine Mirrors.get.bind fun s t h => ?_
    rw [Slice.toCell, Slice.toCell, h.toBuilder_eq]
    exact same_mirrors (.ofExcept .rfl)

-- What each read of a run answers, and how much each leaves. A read that fails ends nothing.
def trace : List Probe → Slice → List (Except CellError Answer × Nat × Nat)
  | [], _            => []
  | read :: reads, s =>
    let (answer, s) := read.run.outcome s
    (answer, s.remainingBits, s.remainingRefs) :: trace reads s

end Probe

-- No run of reads tells the two cursors apart.
def Slice.AnswersAs [Sha256] (s t : Slice) : Prop :=
  ∀ reads, List.Forall₂ (fun p q => Echoes (fun _ => False) Answer.Alike p.1 q.1 ∧ p.2 = q.2)
    (Probe.trace reads s) (Probe.trace reads t)

open Slice

section

variable [Sha256]

theorem Slice.Matches.answersAs {s t : Slice} (h : s.Matches t) : s.AnswersAs t := by
  intro reads
  induction reads generalizing s t
  case nil => exact .nil
  case cons read reads hi =>
    have step := read.mirrors h
    have left := step.left
    exact .cons ⟨step.value, Prod.ext left.remainingBits_eq left.remainingRefs_eq⟩ (hi left)

-- A window that is made a cell can be exchanged for a cursor over that cell.
theorem Slice.Matches.of_toCell {w : Slice} {c : Cell} (made : w.toCell = .ok c) : w.Matches c.parse := by
  have ⟨b, copied, built⟩ := bind_eq_ok.mp made
  have ⟨bits, refs⟩ := toBuilder_eq_ok.mp copied
  have ⟨_, cellBits, cellRefs⟩ := Makes.cell ⟨b, rfl, rfl, built⟩
  refine ⟨by rw [c.parse_ahead, cellBits, bits], by rw [c.parse_refsAhead, cellRefs, refs], ?_, ?_⟩
  · rw [← ahead_length, ← bits, Builder.toBits_length]
    exact b.bits_le
  · rw [← refsAhead_length, ← refs]
    exact b.refs_le

theorem Slice.toCell_ok {w : Slice} (wf : w.cell.WellFormed) : ∃ c, w.toCell = .ok c := by
  have ⟨b, bits, refs⟩ := Builder.exists_of_bits w.ahead w.refsAhead
    (by
      have := wf.sound.bits_le
      have := w.endBit_le
      rw [ahead_length, remainingBits]
      omega)
    (by
      have := wf.sound.refs_le
      have := w.endRef_le
      rw [refsAhead_length, remainingRefs]
      omega)
  have ⟨c, built, _⟩ := b.build_ok fun r hr => by
    rw [refs] at hr
    exact wf.refs r (List.mem_of_mem_take (List.mem_of_mem_drop hr))
  exact ⟨c, by rw [toCell, toBuilder_eq_ok.mpr ⟨bits, refs⟩, ok_bind, built]⟩

-- A window is any cursor, whatever it was cut out of. What is around it makes no difference: every
-- cursor that shows the same answers the same, and so does one over a cell of its own. A window that
-- a read returns is related to its counterpart again, so that the reads may go on there.
theorem window_reads_as_cell {w : Slice} (wf : w.cell.WellFormed) :
    (∀ t, w.Matches t → w.AnswersAs t) ∧
      ∃ c, w.toCell = .ok c ∧ c.toBits = w.ahead ∧ c.refs = w.refsAhead ∧ w.AnswersAs c.parse := by
  have ⟨c, made⟩ := toCell_ok wf
  have matching := Matches.of_toCell made
  exact ⟨fun _ => Matches.answersAs, c, made, c.parse_ahead.symm.trans matching.bits.symm,
    c.parse_refsAhead.symm.trans matching.refs.symm, matching.answersAs⟩

end

section Inner

attribute [local instance] Sha256.standard

def innerRun : Option (Nat × List Bool) := do
  let (_, b) ← ((Builder.storeU16 0xabcd).call .new).toOption
  let c ← b.build.toOption
  let w ← (c.parse.subslice 4 8 0 0).toOption
  return (b.refs.length, w.ahead)

-- The byte in the middle of two, read off a window and off a cell that holds no other.
theorem window_reads_inner : ∃ (outer c : Cell) (w : Slice), outer.parse.subslice 4 8 0 0 = .ok w ∧
    w.toCell = .ok c ∧ c.toBits = Builder.uintBits 0xbc 8 ∧ w.AnswersAs c.parse := by
  have run : innerRun = some (0, Builder.uintBits 0xbc 8) := by decide +kernel
  simp only [innerRun, Option.bind_eq_bind, Option.bind_eq_some_iff, toOption_eq_some, Option.pure_def,
    Option.some_inj, Prod.mk.injEq, Prod.exists] at run
  obtain ⟨_, b, _, outer, built, w, carved, none, shows⟩ := run
  have wf : outer.WellFormed := Makes.wellFormed ⟨b, rfl, rfl, built⟩ fun r hr => by
    rw [List.length_eq_zero_iff.mp none] at hr
    nomatch hr
  have inside : w.cell.WellFormed := (subslice_ok carved).left ▸ wf
  have ⟨c, made, bits, _, answers⟩ := (window_reads_as_cell inside).right
  exact ⟨outer, c, w, carved, made, bits.trans shows, answers⟩

end Inner

end TonNet
