import TonNet.Cell.Dict.Shape
import TonNet.Cell.Theorems.Content
import TonNet.Lib.Radix

-- A label is read back as it was stored, and its form is settled by its bits and the width of the key.

namespace TonNet

open Fallible Method Builder Slice

theorem diverges_eq_diverge (label : Label) (key : List Bool) :
    diverges label key = Radix.diverge label key := by
  induction label generalizing key
  case nil => rfl
  case cons hi =>
    cases key
    case nil => rfl
    case cons => rw [diverges, Radix.diverge, hi]

@[simp]
theorem diverges_append (label rest : List Bool) : diverges label (label ++ rest) = none := by
  rw [diverges_eq_diverge, Radix.diverge_eq_none (by simp)]
  exact ⟨rest, rfl⟩

@[simp]
theorem diverges_self (label : List Bool) : diverges label label = none := by
  simpa using diverges_append label []

@[simp]
theorem append_diverges (key rest : List Bool) : diverges (key ++ rest) key = none := by
  rw [diverges_eq_diverge, Radix.diverge_comm, ← diverges_eq_diverge, diverges_append]

@[simp]
theorem diverges_parts (shared labelRest keyRest : List Bool) (b : Bool) :
    diverges (shared ++ b :: labelRest) (shared ++ (!b) :: keyRest) = some shared.length := by
  rw [diverges_eq_diverge, Radix.diverge_append]

theorem lt_boundedWidth (max : Nat) : max < 2 ^ boundedWidth max := by
  unfold boundedWidth
  split
  case isTrue h => simp [h]
  case isFalse => exact Nat.lt_log2_self

-- No key is wider than a cell.
theorem lt_of_le_maxBits {max : Nat} (h : max ≤ maxBits) : max < 2 ^ 16 :=
  lt_of_le_of_lt h (by decide)

theorem boundedWidth_le {max : Nat} (h : max < 2 ^ 16) : boundedWidth max ≤ 16 := by
  unfold boundedWidth
  split
  case isTrue => decide
  case isFalse ne => exact (Nat.log2_lt ne).mpr h

theorem boundedWidth_mono {max max' : Nat} (h : max ≤ max') : boundedWidth max ≤ boundedWidth max' := by
  unfold boundedWidth
  split
  case isTrue => exact Nat.zero_le _
  case isFalse ne =>
    rw [if_neg (by omega)]
    exact Nat.succ_le_succ ((Nat.le_log2 (by omega)).mpr (le_trans (Nat.log2_self_le ne) h))

-- The three forms of a label.
inductive LabelForm
  | short
  | long
  | repeated

def labelForm (label : List Bool) (max : Nat) : LabelForm :=
  let len := label.length
  let width := boundedWidth max
  let repeated := if label.tail.all (· == label.getD 0 false) then 3 + width else 2 ^ 32 - 1
  if 2 * len + 2 ≤ 2 + width + len ∧ 2 * len + 2 ≤ repeated then .short
  else if 2 + width + len ≤ repeated then .long
  else .repeated

-- What is stored for a label: a header, and the bits themselves where it does not repeat one.
def labelHeader (label : List Bool) (max : Nat) : List Bool :=
  match labelForm label max with
  | .short    => [false] ++ (List.replicate label.length true ++ [false])
  | .long     => [true] ++ ([false] ++ uintBits label.length (boundedWidth max))
  | .repeated => [true] ++ ([true] ++ ([label.getD 0 false] ++ uintBits label.length (boundedWidth max)))

def labelRun (label : List Bool) (max : Nat) : Run :=
  match labelForm label max with
  | .short    => .spelled label.length
  | .long     => .spelled label.length
  | .repeated => .repeated (label.getD 0 false) label.length

def labelBody (label : List Bool) (max : Nat) : List Bool :=
  match labelForm label max with
  | .short    => label
  | .long     => label
  | .repeated => []

def labelBits (label : List Bool) (max : Nat) : List Bool :=
  labelHeader label max ++ labelBody label max

variable {label : List Bool} {max : Nat}

theorem all_same_iff : label.tail.all (· == label.getD 0 false) = true ↔
    ∃ value, label = List.replicate label.length value := by
  cases label
  case nil => exact ⟨fun _ => ⟨false, rfl⟩, fun _ => rfl⟩
  case cons first rest =>
    simp only [List.tail_cons, List.getD_cons_zero, List.all_eq_true, beq_iff_eq]
    constructor
    · intro same
      exact ⟨first, List.eq_replicate_of_mem (List.forall_mem_cons.mpr ⟨rfl, same⟩)⟩
    · rintro ⟨value, same⟩ bit mem
      have all := List.eq_replicate_iff.mp same |>.right
      exact (all bit (List.mem_cons_of_mem _ mem)).trans (all first List.mem_cons_self).symm

theorem eq_replicate_of_repeated (le : label.length ≤ max) (bound : max < 2 ^ 16)
    (h : labelForm label max = .repeated) :
    label = List.replicate label.length (label.getD 0 false) := by
  have width := boundedWidth_le bound
  by_cases all : label.tail.all (· == label.getD 0 false)
  case pos =>
    obtain ⟨value, same⟩ := all_same_iff.mp all
    cases label
    case nil => rfl
    case cons first rest =>
      obtain rfl := (List.eq_replicate_iff.mp same).right first List.mem_cons_self
      exact same
  case neg =>
    simp only [labelForm, if_neg all] at h
    split at h
    case isTrue => cases h
    case isFalse =>
      rw [if_pos (by omega)] at h
      cases h

-- The shortest of the forms a label has.
theorem labelBits_length (le : label.length ≤ max) (bound : max < 2 ^ 16) :
    (labelBits label max).length =
      if label.tail.all (· == label.getD 0 false) then
        min (2 + min label.length (boundedWidth max) + label.length) (3 + boundedWidth max)
      else 2 + min label.length (boundedWidth max) + label.length := by
  have width := boundedWidth_le bound
  unfold labelBits labelHeader labelBody labelForm
  dsimp only
  generalize label.tail.all (· == label.getD 0 false) = same
  cases same
  all_goals
    simp only [Bool.false_eq_true, if_false, if_true]
    split
    all_goals
      rename_i form
      simp only [List.length_append, List.length_cons, List.length_nil, List.length_replicate,
        uintBits_length]
      split_ifs at form
      omega

-- No label gets longer as its first bits are taken off it and off the key.
theorem labelBits_length_drop (le : label.length ≤ max) (bound : max < 2 ^ 16) (k : Nat) :
    (labelBits (label.drop k) (max - k)).length ≤ (labelBits label max).length := by
  have narrower : boundedWidth (max - k) ≤ boundedWidth max := boundedWidth_mono (Nat.sub_le max k)
  have same (h : label.tail.all (· == label.getD 0 false)) :
      (label.drop k).tail.all (· == (label.drop k).getD 0 false) := by
    have ⟨value, same⟩ := all_same_iff.mp h
    refine all_same_iff.mpr ⟨value, ?_⟩
    rw [List.length_drop, same, List.drop_replicate, List.length_replicate]
  have shorter : (label.drop k).length ≤ max - k := by
    rw [List.length_drop]
    omega
  rw [labelBits_length le bound, labelBits_length shorter (by omega), List.length_drop]
  split_ifs <;> first | omega | simp_all

theorem storeRun_writes (run : List Bool) : Writes (storeRun run) run [] () := by
  intro b r b'
  have h := storeBits_writes run b r b'
  rw [storeRun, ends_bind_of_ends (a := b) (t := b) (by simp), ← h, ends_bind]
  constructor
  · rintro ⟨_, t, check, hx⟩
    obtain ⟨_, rfl⟩ := ends_failIf.mp check
    exact hx
  · intro hx
    refine ⟨(), b, ends_failIf.mpr ⟨?_, rfl⟩, hx⟩
    have room := b'.bits_le
    rw [← toBits_length, (h.mp hx).right.left, List.length_append, toBits_length] at room
    simp only [canExtendBy, bitsLeft]
    simp
    omega

theorem storeLabel_writes (le : label.length ≤ max) (bound : max < 2 ^ 16) :
    Writes (storeLabel label max) (labelBits label max) [] () := by
  have width := le_trans (boundedWidth_le bound) (by decide : 16 ≤ 64)
  have fits : label.length < 2 ^ boundedWidth max := lt_of_le_of_lt le (lt_boundedWidth max)
  have small : min label.length 65535 = label.length := by omega
  unfold storeLabel labelBits labelHeader labelBody labelForm
  simp only [small]
  refine Writes.failIf ?_ (not_lt.mpr le)
  generalize (if label.tail.all (· == label.getD 0 false) then 3 + boundedWidth max else 2 ^ 32 - 1) =
    repeated
  by_cases short : 2 * label.length + 2 ≤ 2 + boundedWidth max + label.length ∧
      2 * label.length + 2 ≤ repeated
  case pos =>
    simp only [if_pos short, List.append_assoc]
    exact (storeBit_writes false).seq ((storeSameBit_writes true _).seq
      ((storeBit_writes false).seq (storeRun_writes label)))
  case neg =>
    simp only [if_neg short]
    by_cases long : 2 + boundedWidth max + label.length ≤ repeated
    case pos =>
      simp only [if_pos long]
      have tag : Writes (storeUint 0b10 2) [true, false] [] () :=
        storeUint_writes (by decide) (by decide)
      exact tag.seq
        ((storeUint_writes width fits).seq (storeRun_writes label))
    case neg =>
      simp only [if_neg long, List.append_nil]
      have tag : Writes (storeUint 0b11 2) [true, true] [] () :=
        storeUint_writes (by decide) (by decide)
      exact tag.seq
        ((storeBit_writes _).seq (storeUint_writes width fits))

theorem not_storeLabel_ends {b b' : Builder} (gt : max < label.length) (bound : max ≤ maxBits) :
    ¬(storeLabel label max).Ends b () b' := by
  intro h
  have ⟨_, _, check, _⟩ := ends_bind.mp h
  have := (ends_failIf.mp check).left
  simp only [maxBits] at bound
  omega

theorem unaryLength_reads {room k : Nat} (le : k ≤ room) (len : Nat) :
    Reads (unaryLength room len) (List.replicate k true ++ [false]) [] (len + k) := by
  induction k generalizing room len
  case zero =>
    rw [unaryLength.eq_def]
    exact (loadBit_reads false).bind (.pure len)
  case succ k hi =>
    cases room
    case zero => simp at le
    case succ room =>
      have step := (loadBit_reads true).bind (f := fun bit => if bit then unaryLength room (len + 1) else
        pure len) (hi (by omega) (len + 1))
      rw [unaryLength.eq_def, show len + (k + 1) = len + 1 + k by omega, List.replicate_succ]
      exact step

-- A label read bit by bit, where each bit takes what `spell` says.
theorem writeBits_reads {next : Load Bool} {spell : Bool → List Bool} (bound : label.length ≤ maxBits)
    (h : ∀ bit ∈ label, Reads next (spell bit) [] bit) :
    Reads (writeBits next label.length) (label.flatMap spell) [] label := by
  suffices loop : ∀ (passes : List Nat) (rest front : List Bool), passes.length = rest.length →
      front.length + rest.length ≤ maxBits → (∀ bit ∈ rest, Reads next (spell bit) [] bit) →
      Reads (passes.foldlM (fun (label : Label) _ => do Method.ofExcept (label.push (← next))) front)
        (rest.flatMap spell) [] (front ++ rest) from
    loop _ label [] (by simp) (by simpa using bound) h
  intro passes rest front length room each
  induction rest generalizing passes front
  case nil =>
    obtain rfl := List.eq_nil_of_length_eq_zero length
    simpa using Reads.pure front
  case cons bit rest hi =>
    cases passes
    case nil => simp at length
    case cons pass passes =>
      simp only [List.length_cons] at room length
      have ⟨first, others⟩ := List.forall_mem_cons.mp each
      have push : Label.push front bit = .ok (front ++ [bit]) := by
        rw [Label.push, failIf_bind_of_not (by omega)]
        rfl
      have step : Reads (do Method.ofExcept (Label.push front (← next)) : Load Label)
          (spell bit ++ []) ([] ++ []) (front ++ [bit]) :=
        first.bind (.ofExcept push)
      have rest := hi passes (front ++ [bit]) (by omega) (by simp; omega) others
      rw [List.append_nil] at step
      rw [List.append_assoc] at rest
      rw [List.foldlM_cons, List.flatMap_cons]
      exact step.bind rest

theorem readRun_reads (le : label.length ≤ max) (bound : max < 2 ^ 16) :
    Reads (readRun max) (labelHeader label max) [] (labelRun label max) := by
  have width := le_trans (boundedWidth_le bound) (by decide : 16 ≤ 64)
  have fits : label.length < 2 ^ boundedWidth max := lt_of_le_of_lt le (lt_boundedWidth max)
  have counted {α : Type} (a : α) : Reads (do failIf (label.length > max) .labelTooLong; return a)
      [] [] a :=
    (Reads.failIf (not_lt.mpr le)).bind (.pure a)
  unfold labelHeader labelRun
  cases labelForm label max <;> dsimp only
  case short =>
    have unary := unaryLength_reads le 0
    rw [Nat.zero_add] at unary
    rw [← List.append_nil (List.replicate label.length true ++ [false])]
    exact (loadBit_reads false).bind (unary.bind (.pure _))
  case long =>
    rw [← List.append_nil (uintBits label.length (boundedWidth max))]
    exact (loadBit_reads true).bind ((loadBit_reads false).bind
      ((loadUint_reads width fits).bind (counted _)))
  case repeated =>
    rw [← List.append_nil (uintBits label.length (boundedWidth max))]
    exact (loadBit_reads true).bind ((loadBit_reads true).bind ((loadBit_reads _).bind
      ((loadUint_reads width fits).bind (counted _))))

theorem readLabel_reads (le : label.length ≤ max) (bound : max < 2 ^ 16)
    (small : label.length ≤ maxBits) : Reads (readLabel max) (labelBits label max) [] label := by
  refine (readRun_reads le bound).bind ?_
  have spelled := writeBits_reads small fun bit _ => loadBit_reads bit
  rw [List.flatMap_singleton'] at spelled
  unfold labelBody labelRun
  cases form : labelForm label max
  case short => exact spelled
  case long => exact spelled
  case repeated =>
    have same := eq_replicate_of_repeated le bound form
    have body : Reads (writeBits (pure (label.getD 0 false)) label.length) (label.flatMap fun _ => [])
        [] label :=
      writeBits_reads small fun bit mem => by
        rw [same] at mem
        exact List.eq_of_mem_replicate mem ▸ .pure _
    rwa [List.flatMap_eq_nil_iff.mpr fun _ _ => rfl] at body

theorem skipLabel_reads (le : label.length ≤ max) (bound : max < 2 ^ 16) :
    Reads (skipLabel max) (labelBits label max) [] () := by
  refine (readRun_reads le bound).bind ?_
  unfold labelBody labelRun
  cases labelForm label max
  case short => exact skipBits_reads label
  case long => exact skipBits_reads label
  case repeated => exact .pure ()

end TonNet
