import TonNet.Cell.Theorems.Atomic

-- A payload that goes inline where it fits and into a reference where it does not.

namespace TonNet

open Fallible Method

namespace Builder

variable {b b' t : Builder} {payload : Cell} {inline : Bool} {ahead : Nat}

-- What is written for a payload: the discriminator and the payload on the side that it names.
def eitherBits (payload : Cell) (inline : Bool) : List Bool :=
  if inline then false :: payload.toBits else [true]

def eitherRefs (payload : Cell) (inline : Bool) : List Cell :=
  if inline then payload.refs else [payload]

theorem storeEitherWhere_writes (payload : Cell) (inline : Bool) :
    Writes (storeEitherWhere payload inline) (eitherBits payload inline) (eitherRefs payload inline) () := by
  cases inline
  case false => exact (storeBit_writes true).seq (storeRef_writes payload)
  case true =>
    have h := (storeBit_writes false).seq (storeSlice_writes payload.parse)
    rw [Cell.parse_ahead, Cell.parse_refsAhead] at h
    exact h

theorem canExtendBy_iff {bits refs : Nat} :
    b.canExtendBy bits refs ↔ b.bits + bits ≤ maxBits ∧ b.refs.length + refs ≤ maxRefs := by
  have := b.bits_le
  have := b.refs_le
  rw [canExtendBy, bitsLeft, refsLeft, decide_eq_true_iff]
  omega

-- The choice is made before a bit is written, and there is room on the side that it names.
theorem eitherGoesInline_ends : (eitherGoesInline payload ahead).Ends b inline t ↔
    t = b ∧ inline = b.canExtendBy (ahead + 1 + payload.bits) payload.refs.length ∧
      b.bits + ahead + (eitherBits payload inline).length ≤ maxBits ∧
      b.refs.length + (eitherRefs payload inline).length ≤ maxRefs := by
  have le := b.bits_le
  have le' := b.refs_le
  rw [eitherGoesInline, ends_bind_of_ends (a := b) (t := b) (by simp)]
  dsimp only
  split
  case isTrue fits =>
    have room := canExtendBy_iff.mp fits
    rw [ends_pure, fits]
    constructor
    · rintro ⟨rfl, rfl⟩
      have : payload.toBits.length = payload.bits := by simp [Cell.toBits]
      simp [eitherBits, eitherRefs]
      omega
    · rintro ⟨rfl, rfl, _⟩
      exact ⟨rfl, rfl⟩
  case isFalse fits =>
    rw [Bool.not_eq_true] at fits
    simp only [ends_bind, ends_failIf, ends_pure, fits]
    constructor
    · rintro ⟨_, _, ⟨free, rfl⟩, _, _, passes, rfl, rfl⟩
      obtain ⟨room, rfl⟩ := Writes.roomFor_ends.mp passes
      rw [bitsLeft] at room
      rw [refsLeft] at free
      simp [eitherBits, eitherRefs]
      omega
    · rintro ⟨rfl, rfl, room, free⟩
      simp [eitherBits, eitherRefs] at room free
      refine ⟨(), _, ⟨?_, rfl⟩, (), _, Writes.roomFor_ends.mpr ⟨?_, rfl⟩, rfl, rfl⟩
      · rw [refsLeft]
        omega
      · rw [bitsLeft]
        omega

theorem storeEitherRef_ends : (storeEitherRef payload).Ends b () b' ↔
    ∃ inline, (eitherGoesInline payload 0).Ends b inline b ∧
      b'.toBits = b.toBits ++ eitherBits payload inline ∧ b'.refs = b.refs ++ eitherRefs payload inline := by
  rw [storeEitherRef, ends_bind]
  constructor
  · rintro ⟨inline, t, chosen, stored⟩
    obtain ⟨rfl, _⟩ := eitherGoesInline_ends.mp chosen
    exact ⟨inline, chosen, ((storeEitherWhere_writes payload inline _ _ _).mp stored).right⟩
  · rintro ⟨inline, chosen, written⟩
    exact ⟨inline, b, chosen, (storeEitherWhere_writes payload inline _ _ _).mpr ⟨rfl, written⟩⟩

-- The bit in front is counted, so that the choice does not depend on when it is written.
theorem eitherGoesInline_past {bit : Bool} {u : Builder} (stored : (storeBit bit).Ends b () u) :
    (eitherGoesInline payload 0).Ends u inline u ↔ (eitherGoesInline payload 1).Ends b inline b := by
  have ⟨_, bits, refs⟩ := (storeBit_writes bit _ _ _).mp stored
  have count : u.bits = b.bits + 1 := by
    rw [← toBits_length, bits, List.length_append, toBits_length, List.length_singleton]
  rw [List.append_nil] at refs
  have same : u.canExtendBy (0 + 1 + payload.bits) payload.refs.length =
      b.canExtendBy (1 + 1 + payload.bits) payload.refs.length := by
    rw [Bool.eq_iff_iff, canExtendBy_iff, canExtendBy_iff, refs, count]
    omega
  rw [eitherGoesInline_ends, eitherGoesInline_ends, same, refs, count]
  simp only [true_and, Nat.add_zero]

theorem storeMaybeEitherRef_ends : (storeMaybeEitherRef (some payload)).Ends b () b' ↔
    (do storeBit true; storeEitherRef payload : Store Unit).Ends b () b' := by
  simp only [storeMaybeEitherRef, storeEitherRef, ends_bind]
  constructor
  · rintro ⟨inline, t, chosen, _, u, stored, written⟩
    obtain ⟨rfl, _⟩ := eitherGoesInline_ends.mp chosen
    exact ⟨(), u, stored, inline, u, (eitherGoesInline_past stored).mpr chosen, written⟩
  · rintro ⟨_, u, stored, inline, t, chosen, written⟩
    obtain ⟨rfl, _⟩ := eitherGoesInline_ends.mp chosen
    exact ⟨inline, b, (eitherGoesInline_past stored).mp chosen, (), t, stored, written⟩

theorem eitherGoesInline_atomicAt (b : Builder) : AtomicAt (eitherGoesInline payload ahead) b := by
  refine .get ?_
  dsimp only
  split
  case isTrue => exact .of_ends (ends_pure.mpr ⟨rfl, rfl⟩)
  case isFalse =>
    exact .failIf fun _ => atomicAt_roomFor fun _ => .of_ends (ends_pure.mpr ⟨rfl, rfl⟩)

theorem storeEitherRef_atomicAt (b : Builder) (payload : Cell) :
    AtomicAt (storeEitherRef payload) b := by
  refine .bind (eitherGoesInline_atomicAt b) fun inline t chosen => ?_
  have ⟨same, _, bits, refs⟩ := eitherGoesInline_ends.mp chosen
  exact ⟨same, (storeEitherWhere_writes payload inline).atomicAt_of_room bits refs⟩

theorem storeMaybeEitherRef_atomicAt (b : Builder) (payload : Option Cell) :
    AtomicAt (storeMaybeEitherRef payload) b := by
  cases payload
  case none => exact storeBit_atomicAt b false
  case some payload =>
    refine .bind (eitherGoesInline_atomicAt b) fun inline t chosen => ?_
    have ⟨same, _, bits, refs⟩ := eitherGoesInline_ends.mp chosen
    have writes := (storeBit_writes true).seq (storeEitherWhere_writes payload inline)
    refine ⟨same, writes.atomicAt_of_room ?_ refs⟩
    rw [List.length_append, List.length_singleton]
    omega

end Builder

section

open Builder Slice

variable {b b' : Builder} {payload c : Cell} {more : List Bool} {others : List Cell}

theorem loadEitherRef_reads_ref (cell : Cell) : Reads loadEitherRef [true] [cell] (.ref cell) := by
  unfold loadEitherRef
  exact (loadBit_reads true).bind ((loadRef_reads cell).map EitherRef.ref)

theorem loadEitherRef_reads_inline : Reads loadEitherRef [false] [] .inline := by
  unfold loadEitherRef
  exact (loadBit_reads false).bind (.pure _)

-- The arm that is read where the builder was when the payload was stored, whatever is behind it.
theorem eitherRef_reads (stored : (storeEitherRef payload).Ends b () b')
    (bits : c.toBits = b'.toBits ++ more) (refs : c.refs = b'.refs ++ others) :
    ∃ s t arm, (skipBitsAndRefs b.bits b.refs.length).Ends c.parse () s ∧ loadEitherRef.Ends s arm t ∧
      (b.canExtendBy (1 + payload.bits) payload.refs.length = true ∧ arm = .inline ∧
          t.ahead = payload.toBits ++ more ∧ t.refsAhead = payload.refs ++ others ∨
        b.canExtendBy (1 + payload.bits) payload.refs.length = false ∧ arm = .ref payload ∧
          t.ahead = more ∧ t.refsAhead = others) := by
  have ⟨inline, chosen, wrote, linked⟩ := storeEitherRef_ends.mp stored
  have ⟨_, fits, _⟩ := eitherGoesInline_ends.mp chosen
  rw [Nat.zero_add] at fits
  rw [wrote, List.append_assoc] at bits
  rw [linked, List.append_assoc] at refs
  have ⟨s, skips, sb, sr⟩ := skipBitsAndRefs_reads b.toBits b.refs c.parse _ _
    (c.parse_ahead.trans bits) (c.parse_refsAhead.trans refs)
  rw [toBits_length] at skips
  cases inline
  case false =>
    have ⟨t, reads, tb, tr⟩ := loadEitherRef_reads_ref payload s more others sb sr
    exact ⟨s, t, .ref payload, skips, reads, .inr ⟨fits.symm, rfl, tb, tr⟩⟩
  case true =>
    have ⟨t, reads, tb, tr⟩ := loadEitherRef_reads_inline s (payload.toBits ++ more)
      (payload.refs ++ others) sb sr
    exact ⟨s, t, .inline, skips, reads, .inl ⟨fits.symm, rfl, tb, tr⟩⟩

-- The payload is on the side that the room decides, whatever was stored behind it, and a store that
-- finds no room writes nothing.
theorem eitherRef_placed [Sha256] (b : Builder) (payload : Cell) :
    (∀ b' c more others, (storeEitherRef payload).Ends b () b' →
      Makes (b'.toBits ++ more) (b'.refs ++ others) c → ∃ s t arm,
        (skipBitsAndRefs b.bits b.refs.length).Ends c.parse () s ∧ loadEitherRef.Ends s arm t ∧
        (arm = .inline ↔
          b.bits + (payload.bits + 1) ≤ 1023 ∧ b.refs.length + payload.refs.length ≤ 4) ∧
        (arm = .inline → t.ahead = payload.toBits ++ more ∧ t.refsAhead = payload.refs ++ others) ∧
        ∀ cell, arm = .ref cell → cell = payload) ∧
    (∀ b', (storeMaybeEitherRef (some payload)).Ends b () b' →
      (do storeBit true; storeEitherRef payload : Store Unit).Ends b () b') ∧
    (∀ e b', (storeEitherRef payload).outcome b = (.error e, b') → b' = b) ∧
    ∀ optional e b', (storeMaybeEitherRef optional).outcome b = (.error e, b') → b' = b := by
  refine ⟨?_, fun _ => storeMaybeEitherRef_ends.mp, storeEitherRef_atomicAt b payload,
    storeMaybeEitherRef_atomicAt b⟩
  intro b' c more others stored makes
  have ⟨_, bits, refs⟩ := makes.cell
  have ⟨s, t, arm, skips, reads, sides⟩ := eitherRef_reads stored bits refs
  refine ⟨s, t, arm, skips, reads, ?_⟩
  have room : b.canExtendBy (1 + payload.bits) payload.refs.length = true ↔ _ := canExtendBy_iff
  rw [Nat.add_comm 1] at room sides
  rcases sides with ⟨fits, rfl, tb, tr⟩ | ⟨fits, rfl, _⟩
  · exact ⟨⟨fun _ => room.mp fits, fun _ => rfl⟩, fun _ => ⟨tb, tr⟩, nofun⟩
  · refine ⟨⟨nofun, fun wrong => ?_⟩, nofun, fun _ same => (EitherRef.ref.inj same).symm⟩
    exact absurd (fits.symm.trans (room.mpr wrong)) Bool.false_ne_true

end

section Inlined

open Builder Slice

attribute [local instance] Sha256.standard

-- A byte stored next to a byte, and the cell that both make.
def inlinedRun : Option (Bool × List Bool) := do
  let (_, b) ← ((storeU8 1).call .new).toOption
  let payload ← b.build.toOption
  let (_, b') ← ((storeEitherRef payload).call b).toOption
  let _ ← b'.build.toOption
  return (b.bits + (payload.bits + 1) ≤ 1023 ∧ b.refs.length + payload.refs.length ≤ 4, payload.toBits)

theorem eitherRef_placed_inline : ∃ (b : Builder) (payload c : Cell) (s t : Slice),
    (skipBitsAndRefs b.bits b.refs.length).Ends c.parse () s ∧ loadEitherRef.Ends s .inline t ∧
    t.ahead = payload.toBits ∧ payload.toBits = uintBits 1 8 := by
  have run : inlinedRun = some (true, uintBits 1 8) := by decide +kernel
  simp only [inlinedRun, Option.bind_eq_bind, Option.bind_eq_some_iff, toOption_eq_some, call_eq_ok,
    Option.pure_def, Option.some_inj, Prod.mk.injEq, Prod.exists, decide_eq_true_eq] at run
  obtain ⟨_, b, _, payload, _, _, b', stored, c, built, fits, spelled⟩ := run
  have ⟨s, t, arm, skips, reads, side, inline, _⟩ := (eitherRef_placed b payload).left b' c [] [] stored
    ⟨b', (List.append_nil _).symm, (List.append_nil _).symm, built⟩
  obtain rfl := side.mpr fits
  exact ⟨b, payload, c, s, t, skips, reads, (inline rfl).left.trans (List.append_nil _), spelled⟩

end Inlined

end TonNet
