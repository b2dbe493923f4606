import TonNet.Cell.Dict.Theorems.Prefix

-- Of all that reads as a label the stored form is the shortest, and what is read can be skipped.

namespace TonNet

open Fallible Method Builder Slice

-- Where a label is read to: an array with room for the bits of one cell, or a vector.
inductive LabelSink
  | label
  | vec

namespace LabelSink

def readLabelInto : LabelSink → Nat → Load (List Bool)
  | label => readLabel
  | vec   => readLabelVec

def Holds : LabelSink → Nat → Prop
  | label, len => len ≤ maxBits
  | vec, _     => True

end LabelSink

variable {label : List Bool} {max count : Nat} {s s' t : Slice} {run : Run} {sink : LabelSink}

theorem loadBit_ends {bit : Bool} : loadBit.Ends s bit s' ↔
    ∃ h : 1 ≤ s.remainingBits, s.cell.data.bitAt s.bit = bit ∧ s.past 1 h = s' := by
  rw [loadBit, ends_bind]
  constructor
  · rintro ⟨_, _, step, read⟩
    obtain ⟨h, rfl, rfl⟩ := advance_ends.mp step
    obtain ⟨_, _, got, last⟩ := ends_bind.mp read
    obtain ⟨rfl, rfl⟩ := ends_get.mp got
    obtain ⟨rfl, rfl⟩ := ends_pure.mp last
    exact ⟨h, rfl, rfl⟩
  · rintro ⟨h, rfl, rfl⟩
    exact ⟨_, _, advance_ends.mpr ⟨h, rfl, rfl⟩, rfl⟩

theorem skipBits_ends : (skipBits count).Ends s () s' ↔
    ∃ h : count ≤ s.remainingBits, s.past count h = s' := by
  rw [skipBits, ends_bind]
  constructor
  · rintro ⟨_, _, step, last⟩
    obtain ⟨h, _, rfl⟩ := advance_ends.mp step
    exact ⟨h, (ends_pure.mp last).right⟩
  · rintro ⟨h, rfl⟩
    exact ⟨_, _, advance_ends.mpr ⟨h, rfl, rfl⟩, rfl⟩

theorem ahead_cons (h : 1 ≤ s.remainingBits) :
    s.ahead = s.cell.data.bitAt s.bit :: (s.past 1 h).ahead := by
  have ⟨bit, rest, cons⟩ : ∃ bit rest, s.ahead = bit :: rest :=
    List.exists_cons_of_length_pos (by rw [ahead_length]; exact h)
  have first : s.ahead.head? = some (s.cell.data.bitAt s.bit) := by
    simp [ahead, List.head?_range, Nat.ne_of_gt h]
  rw [ahead_past, cons]
  rw [cons] at first
  simpa using first

theorem past_past {m n : Nat} (h : m ≤ s.remainingBits) (h' : n ≤ (s.past m h).remainingBits) :
    (s.past m h).past n h' = s.past (n + m) (by rw [remainingBits_past] at h'; omega) := by
  simp only [past, Slice.mk.injEq, true_and, and_true]
  omega

theorem loadBits_ends : ((List.replicate count loadBit).mapM id).Ends s label s' ↔
    ∃ h : count ≤ s.remainingBits, s.ahead.take count = label ∧ s.past count h = s' := by
  induction count generalizing s s' label
  case zero =>
    simp only [List.replicate_zero, List.mapM_nil, ends_pure, Nat.zero_le, List.take_zero, exists_true_left]
    rfl
  case succ count hi =>
    rw [List.replicate_succ, List.mapM_cons, ends_bind]
    constructor
    · rintro ⟨bit, _, first, more⟩
      obtain ⟨h, rfl, rfl⟩ := loadBit_ends.mp first
      have ⟨rest, _, others, last⟩ := ends_bind.mp more
      obtain ⟨h', rfl, rfl⟩ := hi.mp others
      obtain ⟨rfl, rfl⟩ := ends_pure.mp last
      rw [remainingBits_past] at h'
      exact ⟨by omega, by rw [ahead_cons h, List.take_succ_cons], (past_past ..).symm⟩
    · rintro ⟨h, rfl, rfl⟩
      have one : 1 ≤ s.remainingBits := by omega
      have others : count ≤ (s.past 1 one).remainingBits := by
        rw [remainingBits_past]
        omega
      refine ⟨_, _, loadBit_ends.mpr ⟨one, rfl, rfl⟩, ends_bind.mpr ⟨_, _, hi.mpr ⟨others, rfl, rfl⟩, ?_⟩⟩
      rw [ahead_cons one, List.take_succ_cons]
      exact ends_pure.mpr ⟨rfl, past_past ..⟩

-- An array takes the bits a vector takes, as long as there is room.
theorem writeBits_ends {next : Load Bool} : (writeBits next count).Ends s label s' ↔
    count ≤ maxBits ∧ ((List.replicate count next).mapM id).Ends s label s' := by
  have loop (passes : List Nat) (front : Label) (s : Slice) (room : front.length ≤ maxBits) :
      (passes.foldlM (fun (label : Label) _ => do Method.ofExcept (label.push (← next))) front).Ends s
        label s' ↔ front.length + passes.length ≤ maxBits ∧
        ∃ rest, front ++ rest = label ∧
          ((List.replicate passes.length next).mapM id).Ends s rest s' := by
    induction passes generalizing front s
    case nil =>
      rw [List.foldlM_nil, ends_pure]
      constructor
      · rintro ⟨rfl, rfl⟩
        exact ⟨room, [], by simp, rfl⟩
      · rintro ⟨_, rest, rfl, none⟩
        obtain ⟨rfl, rfl⟩ := ends_pure.mp none
        exact ⟨by simp, rfl⟩
    case cons pass passes hi =>
      rw [List.foldlM_cons, List.length_cons, List.replicate_succ, List.mapM_cons, ends_bind]
      simp only [id]
      constructor
      · rintro ⟨_, _, one, others⟩
        obtain ⟨bit, _, read, pushed⟩ := ends_bind.mp one
        obtain ⟨added, rfl⟩ := ends_ofExcept.mp pushed
        obtain ⟨lt, rfl⟩ := push_eq_ok.mp added
        obtain ⟨le, rest, rfl, more⟩ := (hi _ _ (by simp; omega)).mp others
        refine ⟨by simp only [List.length_append, List.length_cons, List.length_nil] at le; omega,
          bit :: rest, by simp, ends_bind.mpr ⟨_, _, read, ends_bind.mpr ⟨_, _, more, rfl⟩⟩⟩
      · rintro ⟨le, _, rfl, all⟩
        obtain ⟨bit, _, read, others⟩ := ends_bind.mp all
        obtain ⟨rest, _, more, last⟩ := ends_bind.mp others
        obtain ⟨rfl, rfl⟩ := ends_pure.mp last
        have pushed : front.push bit = .ok (front ++ [bit]) := push_eq_ok.mpr ⟨by omega, rfl⟩
        refine ⟨_, _, ends_bind.mpr ⟨_, _, read, ends_ofExcept.mpr ⟨pushed, rfl⟩⟩,
          (hi _ _ (by simp; omega)).mpr ⟨by simp; omega, rest, by simp, more⟩⟩
  have whole := loop (List.range count) [] s (Nat.zero_le _)
  simpa [writeBits] using whole

-- What follows the header of a label, and where it ends.
inductive Run.Spells : Run → Slice → List Bool → Slice → Prop
  | spelled {len : Nat} {s : Slice} (h : len ≤ s.remainingBits) :
    Spells (.spelled len) s (s.ahead.take len) (s.past len h)
  | repeated {value : Bool} {len : Nat} {s : Slice} :
    Spells (.repeated value len) s (List.replicate len value) s

theorem Run.Spells.length_eq (h : run.Spells s label s') : label.length = run.len := by
  cases h
  case spelled len h => rw [List.length_take, ahead_length, Nat.min_eq_left h, Run.len]
  case repeated value len => rw [List.length_replicate, Run.len]

theorem spelled_spells {len : Nat} : (Run.spelled len).Spells s label s' ↔
    ((List.replicate len loadBit).mapM id).Ends s label s' := by
  rw [loadBits_ends]
  constructor
  · rintro ⟨h⟩
    exact ⟨h, rfl, rfl⟩
  · rintro ⟨h, rfl, rfl⟩
    exact .spelled h

theorem repeated_spells {value : Bool} {len : Nat} : (Run.repeated value len).Spells s label s' ↔
    ((List.replicate len (pure value : Load Bool)).mapM id).Ends s label s' := by
  have same : (List.replicate len (pure value : Load Bool)).mapM id = pure (List.replicate len value) := by
    induction len
    case zero => rfl
    case succ len hi =>
      rw [List.replicate_succ, List.mapM_cons, hi]
      rfl
  rw [same, ends_pure]
  constructor
  · rintro ⟨⟩
    exact ⟨rfl, rfl⟩
  · rintro ⟨rfl, rfl⟩
    exact .repeated

theorem readLabelInto_ends : (sink.readLabelInto max).Ends s label s' ↔
    ∃ run t, (readRun max).Ends s run t ∧ sink.Holds run.len ∧ run.Spells t label s' := by
  cases sink
  case label =>
    refine ends_bind.trans (exists_congr fun run => exists_congr fun t => and_congr_right fun _ => ?_)
    cases run
    case spelled len => rw [spelled_spells]; exact writeBits_ends
    case repeated value len => rw [repeated_spells]; exact writeBits_ends
  case vec =>
    refine ends_bind.trans (exists_congr fun run => exists_congr fun t => and_congr_right fun _ => ?_)
    rw [LabelSink.Holds, true_and]
    cases run
    case spelled len => exact spelled_spells.symm
    case repeated value len =>
      refine ends_pure.trans ⟨?_, ?_⟩
      · rintro ⟨rfl, rfl⟩
        exact .repeated
      · rintro ⟨⟩
        exact ⟨rfl, rfl⟩

theorem skipLabel_ends : (skipLabel max).Ends s () s' ↔
    ∃ run t, (readRun max).Ends s run t ∧ ∃ label, run.Spells t label s' := by
  refine ends_bind.trans (exists_congr fun run => exists_congr fun t => and_congr_right fun _ => ?_)
  cases run
  case spelled len =>
    refine skipBits_ends.trans ⟨?_, ?_⟩
    · rintro ⟨h, rfl⟩
      exact ⟨_, .spelled h⟩
    · rintro ⟨_, ⟨h⟩⟩
      exact ⟨h, rfl⟩
  case repeated value len =>
    refine ends_pure.trans ⟨?_, ?_⟩
    · rintro ⟨_, rfl⟩
      exact ⟨_, .repeated⟩
    · rintro ⟨_, ⟨⟩⟩
      exact ⟨rfl, rfl⟩

-- How many bits a header takes at least, where a count takes `width`.
def Run.header (width : Nat) : Run → Nat
  | spelled len  => 2 + min len width
  | repeated _ _ => 3 + width

theorem loadBit_spends {bit : Bool} (h : loadBit.Ends s bit t) : t.bit = s.bit + 1 := by
  obtain ⟨_, _, rfl⟩ := loadBit_ends.mp h
  rfl

theorem loadUint_spends {value : Nat} (h : (loadUint count).Ends s value t) : t.bit = s.bit + count := by
  have ⟨_, _, _, h⟩ := ends_bind.mp h
  obtain rfl := (ends_failIf.mp ‹_›).right
  have ⟨_, _, step, h⟩ := ends_bind.mp h
  obtain ⟨_, _, rfl⟩ := advance_ends.mp step
  have ⟨_, _, got, last⟩ := ends_bind.mp h
  obtain ⟨_, rfl⟩ := ends_get.mp got
  obtain ⟨_, rfl⟩ := ends_pure.mp last
  rfl

theorem unaryLength_spends {room len total : Nat} (h : (unaryLength room len).Ends s total t) :
    t.bit + len = s.bit + total + 1 := by
  induction room generalizing len s
  case zero =>
    unfold unaryLength at h
    obtain ⟨bit, _, first, h⟩ := ends_bind.mp h
    cases bit
    case false =>
      obtain ⟨rfl, rfl⟩ := ends_pure.mp h
      have := loadBit_spends first
      omega
    case true => exact absurd h ends_throw
  case succ room hi =>
    unfold unaryLength at h
    obtain ⟨bit, _, first, h⟩ := ends_bind.mp h
    have := loadBit_spends first
    cases bit
    case false =>
      obtain ⟨rfl, rfl⟩ := ends_pure.mp h
      omega
    case true =>
      have := hi h
      omega

theorem readRun_spends (h : (readRun max).Ends s run t) :
    s.bit + run.header (boundedWidth max) ≤ t.bit := by
  unfold readRun at h
  have ⟨first, _, one, h⟩ := ends_bind.mp h
  have one := loadBit_spends one
  cases first
  case false =>
    have ⟨len, _, unary, h⟩ := ends_bind.mp h
    have unary := unaryLength_spends unary
    obtain ⟨rfl, rfl⟩ := ends_pure.mp h
    simp only [Run.header]
    omega
  case true =>
    have ⟨second, _, two, h⟩ := ends_bind.mp h
    have two := loadBit_spends two
    cases second
    case false =>
      have ⟨len, _, counted, h⟩ := ends_bind.mp h
      have counted := loadUint_spends counted
      have ⟨_, _, fits, h⟩ := ends_bind.mp h
      obtain ⟨_, rfl⟩ := ends_failIf.mp fits
      obtain ⟨rfl, rfl⟩ := ends_pure.mp h
      simp only [Run.header]
      omega
    case true =>
      have ⟨value, _, three, h⟩ := ends_bind.mp h
      have three := loadBit_spends three
      have ⟨len, _, counted, h⟩ := ends_bind.mp h
      have counted := loadUint_spends counted
      have ⟨_, _, fits, h⟩ := ends_bind.mp h
      obtain ⟨_, rfl⟩ := ends_failIf.mp fits
      obtain ⟨rfl, rfl⟩ := ends_pure.mp h
      simp only [Run.header]
      omega

theorem labelBits_shortest (bound : max < 2 ^ 16) (h : (sink.readLabelInto max).Ends s label s') :
    s.bit + (labelBits label max).length ≤ s'.bit := by
  have ⟨run, t, header, _, spells⟩ := readLabelInto_ends.mp h
  have spent := readRun_spends header
  have le := readRun_le header
  have length := spells.length_eq
  have stored := labelBits_length (length ▸ le) bound
  cases spells
  case spelled len h =>
    simp only [Run.header, Run.len, past] at *
    split at stored <;> omega
  case repeated =>
    rw [if_pos (all_same_iff.mpr ⟨_, by rw [List.length_replicate]⟩)] at stored
    simp only [Run.header] at spent
    omega

theorem readLabelInto_reads (le : label.length ≤ max) (bound : max < 2 ^ 16)
    (room : sink.Holds label.length) :
    Reads (sink.readLabelInto max) (labelBits label max) [] label := by
  cases sink
  case label => exact readLabel_reads le bound room
  case vec => exact readLabelVec_reads le bound

-- A label the sink has room for is read back as it was stored, from the shortest bits it can be read
-- from, and what is read can be skipped.
theorem storeLabel_shortest (bound : max < 2 ^ 16) (sink : LabelSink) :
    (∀ label : List Bool, label.length ≤ max → sink.Holds label.length → ∃ bits,
      Writes (storeLabel label max) bits [] () ∧ Reads (sink.readLabelInto max) bits [] label ∧
      ∀ s s', (sink.readLabelInto max).Ends s label s' → s.bit + bits.length ≤ s'.bit) ∧
    ∀ s s', (∃ label, (sink.readLabelInto max).Ends s label s') ↔
      (skipLabel max).Ends s () s' ∧ ∃ run t, (readRun max).Ends s run t ∧ sink.Holds run.len := by
  refine ⟨fun label le room => ⟨labelBits label max, storeLabel_writes le bound,
    readLabelInto_reads le bound room, fun s s' => labelBits_shortest bound⟩, fun s s' => ?_⟩
  rw [skipLabel_ends]
  constructor
  · rintro ⟨label, read⟩
    have ⟨run, t, header, room, spells⟩ := readLabelInto_ends.mp read
    exact ⟨⟨run, t, header, label, spells⟩, run, t, header, room⟩
  · rintro ⟨⟨run, t, header, label, spells⟩, run', t', header', room⟩
    obtain ⟨rfl, rfl⟩ := header.unique header'
    exact ⟨label, readLabelInto_ends.mpr ⟨run, t, header, room, spells⟩⟩

theorem storeLabel_shortest_three : ∃ bits,
    Writes (storeLabel [true, false, true] 8) bits [] () ∧ Reads (readLabel 8) bits [] [true, false, true] ∧
    ∀ s s', (readLabel 8).Ends s [true, false, true] s' → s.bit + bits.length ≤ s'.bit :=
  (storeLabel_shortest (by decide) .label).left [true, false, true] (by decide)
    (show 3 ≤ maxBits by decide)

section Overlong

attribute [local instance] Sha256.standard

-- One bit repeated more often than a cell has bits, in the few bits it takes to say so.
def overlongRun : Option (Nat × Except CellError Unit × Except CellError Label) := do
  let (_, b) ← ((storeLabel (List.replicate 1024 true) 1024).call .new).toOption
  let c ← b.build.toOption
  return (c.bits, (skipLabel 1024).value c.parse, (readLabel 1024).value c.parse)

theorem readLabel_overlong : ∃ b c s, (storeLabel (List.replicate 1024 true) 1024).Ends .new () b ∧
    b.build = .ok c ∧ (skipLabel 1024).Ends c.parse () s ∧
    (readLabel 1024).value c.parse = .error .labelTooLong := by
  have run : overlongRun = some (14, .ok (), .error .labelTooLong) := by decide +kernel
  simp only [overlongRun, Option.bind_eq_bind, Option.bind_eq_some_iff, toOption_eq_some,
    Option.pure_def, Option.some_inj, Prod.mk.injEq, Prod.exists] at run
  obtain ⟨_, b, stored, c, built, _, skipped, refused⟩ := run
  have ⟨s, skips⟩ := value_eq_ok.mp skipped
  exact ⟨b, c, s, call_eq_ok.mp stored, built, skips, refused⟩

end Overlong

end TonNet
