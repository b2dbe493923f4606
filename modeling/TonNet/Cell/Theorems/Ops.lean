import TonNet.Cell.Theorems.Either
import TonNet.Cell.Theorems.Snake
import TonNet.Boc.Theorems.Written

-- Every store of a builder by what it leaves behind, and runs of them.

namespace TonNet

open Fallible Method Builder

inductive Op
  | item (value : Item)
  | sameBit (bit : Bool) (count : Nat)
  | slice (rest : Slice)
  | builder (other : Builder)
  | eitherRef (payload : Cell)
  | maybeEitherRef (payload : Option Cell)
  | snake (bytes : Bytes)

namespace Op

-- No cell holds more than `maxBits` bits.
def Made : Op → Prop
  | slice rest => rest.cell.bits ≤ maxBits
  | _          => True

def run [Sha256] : Op → Store Unit
  | item value             => value.store
  | sameBit bit count      => storeSameBit bit count
  | slice rest             => storeSlice rest
  | builder other          => storeBuilder other
  | eitherRef payload      => storeEitherRef payload
  | maybeEitherRef payload => storeMaybeEitherRef payload
  | snake bytes            => storeSnake bytes

-- The two stores that write a first part before they look for the room of the others: an address
-- starts with two bits, and a snake with the whole bytes that are left.
def Spares (b : Builder) : Op → Prop
  | item (.address (.std _ _)) => b.bitsLeft < 2
  | snake _                    => b.bitsLeft < 8
  | _                          => True

end Op

namespace Builder

variable {b b' : Builder} {e : CellError}

theorem Writes.along {α : Type} {x : Store α} {bits : List Bool} {refs : List Cell} {a : α}
    (h : Writes x bits refs a) (atomic : ∀ b, AtomicAt x b) : Along (fun b b' => b.bits ≤ b'.bits) x := by
  intro b
  rcases out : x.outcome b with ⟨e | r, t⟩
  case error => exact (atomic b e t out) ▸ le_rfl
  case ok =>
    have wrote := congrArg List.length ((h b r t).mp out).right.left
    rw [List.length_append, toBits_length, toBits_length] at wrote
    exact wrote ▸ Nat.le_add_right ..

theorem storeAddress_spares {workchain : Int8} {account : Hash}
    (fails : (storeAddress (.std workchain account)).outcome b = (.error e, b')) :
    b' = b ↔ b.bitsLeft < 2 := by
  have le := b.bits_le
  have tag : Writes (storeUint 0b10 2) (uintBits 0b10 2) [] () := storeUint_writes (by decide) (by decide)
  by_cases room : b.bitsLeft < 2
  case pos =>
    simp only [room, iff_true]
    refine AtomicAt.bind (storeUintOf_atomicAt b 64 0b10 2) (fun _ t ends => ?_) e b' fails
    have wrote := congrArg List.length ((tag b () t).mp ends).right.left
    have := t.bits_le
    rw [List.length_append, toBits_length, toBits_length, uintBits_length] at wrote
    rw [bitsLeft] at room
    omega
  case neg =>
    simp only [room, iff_false]
    rw [bitsLeft] at room
    have ⟨t, ends, wrote, _⟩ := tag.ends (b := b) (by rw [uintBits_length]; omega) b.refs_le
    rw [storeAddress, outcome_bind_of_ends ends] at fails
    have chain := Slice.fits_signExtend workchain.toBitVec (by decide) (show 8 ≤ 64 by decide)
    have grows := Along.bind (R := fun b b' : Builder => b.bits ≤ b'.bits) le_trans
      ((storeBit_writes false).along (storeBit_atomicAt · false)) fun _ => .bind le_trans
        ((storeIntOf_writes (by decide) chain).along (storeIntOf_atomicAt · _ 8)) fun _ =>
          (storeBytes_writes account.bytes).along (storeBytes_atomicAt · account.bytes)
    have more : t.bits ≤ b'.bits := (grows t).trans_eq (congrArg (·.2.bits) fails)
    have wrote := congrArg List.length wrote
    rw [List.length_append, toBits_length, toBits_length, uintBits_length] at wrote
    rintro rfl
    omega

variable [Sha256]

theorem storeSnake_spares {bytes : Bytes} (fails : (storeSnake bytes).outcome b = (.error e, b')) :
    b' = b ↔ b.bitsLeft < 8 := by
  have le := b.bits_le
  obtain ⟨t, stored, wrote, linked⟩ := (storeBytes_writes (bytes.take (b.bitsLeft / 8))).ends (b := b)
    (by rw [Bytes.toBits_length, List.length_take, bitsLeft]; omega) b.refs_le
  rw [storeSnake, storeSnakeFrom_outcome, outcome_bind_of_ends stored, onlyIf] at fails
  split at fails
  -- Where all the bytes fit there is nothing left to fail on.
  case isFalse => cases (Prod.mk.inj fails).left
  case isTrue more =>
    have same : b' = t :=
      AtomicAt.ofExcept (fun _ _ => .ofExcept fun cell _ => storeRef_atomicAt t cell) e b' fails
    have left : b.bitsLeft / 8 < bytes.length := by
      simpa using more
    rw [same]
    constructor
    · rintro rfl
      have wrote := congrArg List.length wrote
      rw [List.length_append, toBits_length, Bytes.toBits_length, List.length_take] at wrote
      omega
    · intro small
      rw [Nat.div_eq_of_lt small] at wrote
      exact ext_toBits (wrote.trans (List.append_nil _)) (linked.trans (List.append_nil _))

end Builder

theorem Item.spares {b b' : Builder} {e : CellError} (item : Item)
    (fails : item.store.outcome b = (.error e, b')) : b' = b ↔ (Op.item item).Spares b := by
  have atomic (h : AtomicAt item.store b) : b' = b ↔ True := ⟨fun _ => trivial, fun _ => h e b' fails⟩
  cases item
  case uint width value    => exact atomic (storeUintOf_atomicAt b 64 _ width)
  case int width value     => exact atomic (storeIntOf_atomicAt b value width)
  case u8 value            => exact atomic (storeUintOf_atomicAt b 64 _ 8)
  case u16 value           => exact atomic (storeUintOf_atomicAt b 64 _ 16)
  case u32 value           => exact atomic (storeUintOf_atomicAt b 64 _ 32)
  case i32 value           => exact atomic (storeIntOf_atomicAt b _ 32)
  case uint128 width value => exact atomic (storeUintOf_atomicAt b 128 _ width)
  case int128 width value  => exact atomic (storeIntOf_atomicAt b value width)
  case varUint max value   => exact atomic (storeVarUint_atomicAt b value max.toNat_lt)
  case varInt max value    => exact atomic (storeVarInt_atomicAt b value max.toNat_lt)
  case coins value         => exact atomic (storeVarUint_atomicAt b value (by decide))
  case bit value           => exact atomic (storeBit_atomicAt b value)
  case bits value          => exact atomic (storeBits_atomicAt b value)
  case bytes value         => exact atomic (storeBytes_atomicAt b value)
  case ref value           => exact atomic (storeRef_atomicAt b value)
  case maybeRef value      => exact atomic (storeMaybeRef_atomicAt b value)
  case dict value          => exact atomic (storeMaybeRef_atomicAt b value.root)
  case address value       =>
    cases value
    case none => exact atomic (storeUintOf_atomicAt b 64 _ 2)
    case std => exact storeAddress_spares fails

-- What a store that fails leaves is what it found, but for an address and a snake with room to start.
theorem failed_store_spares_iff [Sha256] {op : Op} (made : op.Made) {b b' : Builder} {e : CellError}
    (fails : op.run.outcome b = (.error e, b')) : b' = b ↔ op.Spares b := by
  have atomic (h : AtomicAt op.run b) : b' = b ↔ True := ⟨fun _ => trivial, fun _ => h e b' fails⟩
  cases op
  case item item              => exact item.spares fails
  case sameBit bit count      => exact atomic (storeSameBit_atomicAt b bit count)
  case slice rest             => exact atomic (storeSlice_atomicAt b made)
  case builder other          => exact atomic (storeBuilder_atomicAt b other)
  case eitherRef payload      => exact atomic (storeEitherRef_atomicAt b payload)
  case maybeEitherRef payload => exact atomic (storeMaybeEitherRef_atomicAt b payload)
  case snake bytes            => exact storeSnake_spares fails

section Leftover

attribute [local instance] Sha256.standard

def crowdedRun : Option (Nat × Except CellError Unit) := do
  let (_, b) ← ((storeSameBit false 1000).call .new).toOption
  return (b.bits, ((Op.item (.coins 1000000007)).run.outcome b).1)

-- An amount that does not fit is refused with its length, for which there is room.
theorem failed_store_spares_crowded : ∃ b b' : Builder, b.bits = 1000 ∧
    (Op.item (.coins 1000000007)).run.outcome b = (.error (.noRoomForBits 36 23), b') ∧ b' = b := by
  have run : crowdedRun = some (1000, .error (.noRoomForBits 36 23)) := by decide +kernel
  simp only [crowdedRun, Option.bind_eq_bind, Option.bind_eq_some_iff, Option.pure_def, Option.some_inj,
    Prod.mk.injEq, Prod.exists] at run
  obtain ⟨_, b, _, bits, refused⟩ := run
  have fails : (Op.item (.coins 1000000007)).run.outcome b = (.error (.noRoomForBits 36 23), _) :=
    Prod.ext refused rfl
  have made : (Op.item (.coins 1000000007)).Made := trivial
  exact ⟨b, _, bits, fails, (failed_store_spares_iff made fails).mpr trivial⟩

def leftoverRun : Option (Nat × Nat × Except CellError Unit × Nat) := do
  let (_, b) ← ((storeSameBit false 923).call .new).toOption
  let (result, b') := (Op.item (.address (.std 0 .zero))).run.outcome b
  return (b.bits, b.bitsLeft, result, b'.bits)

-- A hundred bits take the first three parts of an address but not the account.
theorem failed_address_leaves : ∃ (b b' : Builder) (e : CellError), b.bitsLeft = 100 ∧
    (Op.item (.address (.std 0 .zero))).run.outcome b = (.error e, b') ∧ b'.bits = b.bits + 11 := by
  have run : leftoverRun = some (923, 100, .error (.noRoomForBits 256 89), 934) := by decide +kernel
  simp only [leftoverRun, Option.bind_eq_bind, Option.bind_eq_some_iff, Option.pure_def, Option.some_inj,
    Prod.mk.injEq, Prod.exists] at run
  obtain ⟨_, b, _, bits, left, fails, more⟩ := run
  exact ⟨b, _, _, left, Prod.ext fails rfl, by rw [bits, more]⟩

end Leftover

-- Everything that changes a builder.
inductive Act
  | store (op : Op)
  | truncateBits (bits : Nat)
  | truncateRefs (refs : Nat)

section Acts

variable [Sha256]

def Act.run : Act → Store Unit
  | store op          => op.run
  | truncateBits bits => Builder.truncateBits bits
  | truncateRefs refs => Builder.truncateRefs refs

-- A failure is dropped, and with it nothing that was written before.
def Builder.after (acts : List Act) : Builder :=
  acts.foldl (fun b act => (act.run.outcome b).2) .new

-- The descriptor and the completion tag of a built cell give its bits back.
theorem Builder.bitLen_of_build {b : Builder} {c : Cell} (built : b.build = .ok c) :
    bitLen c.storedDescriptors.2.toNat c.data = .ok b.bits := by
  obtain ⟨_, _, _, rfl⟩ := Cell.fromParts_eq_ok.mp built
  rw [Cell.storedDescriptors, (bitsDescriptor_reads b.bits_le).left]
  exact bitLen_of_tagged b.closed_tagged

-- A cell has one stored form, so that a copy of its bits and references is the cell.
theorem Cell.WellFormed.toCell {c : Cell} (wf : c.WellFormed) (ordinary : c.cellType = .ordinary) :
    c.parse.toCell = .ok c := by
  obtain ⟨b, bits, refs⟩ := exists_of_bits c.toBits c.refs
    (by rw [Cell.toBits, List.length_map, List.length_range]; exact wf.sound.bits_le) wf.sound.refs_le
  have copied : c.parse.toBuilder = .ok b :=
    toBuilder_eq_ok.mpr ⟨bits.trans c.parse_ahead.symm, refs.trans c.parse_refsAhead.symm⟩
  obtain ⟨c', built, wf', _, identity, shape⟩ := b.build_ok (refs ▸ wf.refs)
  have count : b.bits = c.bits := by
    rw [← toBits_length, bits, Cell.toBits, List.length_map, List.length_range]
  have data : b.closed = c.data := by
    refine b.closed_tagged.ext (count ▸ wf.sound.tagged) fun i hi => ?_
    have here := bitAt_eq_of_toBits bits i hi
    rw [Cell.toBits, List.getElem?_map, List.getElem?_range (count ▸ hi), Option.map_some] at here
    exact (b.bitAt_closed hi).trans (Option.some.inj here)
  have same : c = c' := by
    subst shape
    exact wf.ext wf' ordinary count.symm data.symm refs.symm (by rw [ordinary]; decide)
  rw [Slice.toCell, copied, ok_bind, built, same]

theorem builder_canonical (acts : List Act) :
    ((after acts).data.length = ((after acts).bits + 7) / 8 ∧
      (∀ i ≥ (after acts).bits, (after acts).data.bitAt i = false) ∧
      (after acts).bits ≤ 1023 ∧ (after acts).refs.length ≤ 4) ∧
    (∀ c, (after acts).build = .ok c →
      bitLen c.storedDescriptors.2.toNat c.data = .ok (after acts).bits ∧ c.toBits = (after acts).toBits) ∧
    ∀ c : Cell, c.WellFormed → c.cellType = .ordinary → c.parse.toCell = .ok c := by
  refine ⟨⟨(after acts).length_eq, (after acts).padded, (after acts).bits_le, (after acts).refs_le⟩, ?_, ?_⟩
  · intro c built
    have ⟨_, bits, _⟩ := Makes.cell ⟨after acts, rfl, rfl, built⟩
    exact ⟨bitLen_of_build built, bits⟩
  · intro c wf ordinary
    exact wf.toCell ordinary

end Acts

section Truncated

attribute [local instance] Sha256.standard

-- Three of eight set bits, of which a byte with its completion tag is left.
def truncatedActs : List Act :=
  [.store (.item (.u8 0xff)), .truncateBits 3, .store (.item (.uint 3 9))]

theorem builder_canonical_truncated : ∃ c, (after truncatedActs).build = .ok c ∧ c.data = [0b11110000] ∧
    bitLen c.storedDescriptors.2.toNat c.data = .ok 3 := by
  have run : (after truncatedActs).build.toOption.map (fun c => (c.data, (after truncatedActs).bits)) =
      some ([0b11110000], 3) := by
    decide +kernel
  simp only [Option.map_eq_some_iff, toOption_eq_some, Prod.mk.injEq] at run
  obtain ⟨c, built, data, bits⟩ := run
  exact ⟨c, built, data, bits ▸ ((builder_canonical truncatedActs).right.left c built).left⟩

end Truncated

end TonNet
