import TonNet.Cell.Theorems.WellFormed
import TonNet.Cell.Builder

-- A builder appends what it is given, never fails inside its limits, and what it builds is a
-- well-formed cell over the same bits.

namespace TonNet

open Fallible Method

-- Cells over the same bits hold the same bytes.
theorem Tagged.ext {data data' : Bytes} {bits : Nat} (t : Tagged data bits) (t' : Tagged data' bits)
    (h : ∀ i < bits, data.bitAt i = data'.bitAt i) : data = data' := by
  have hl := t.length_eq
  refine Bytes.ext_bitAt (hl.trans t'.length_eq.symm) fun i hi => ?_
  by_cases hlt : i < bits
  case pos => exact h i hlt
  case neg =>
    have ⟨set, clear⟩ := t.closed (by omega)
    have ⟨set', clear'⟩ := t'.closed (by omega)
    cases Nat.lt_or_ge bits i
    case inl hgt => rw [clear i hgt, clear' i hgt]
    case inr hge =>
      obtain rfl : i = bits := by omega
      rw [set, set']

namespace Builder

variable {b b' : Builder}

-- What the builder holds, as bits.
def toBits (b : Builder) : List Bool :=
  (List.range b.bits).map b.data.bitAt

@[simp]
theorem toBits_length (b : Builder) : b.toBits.length = b.bits := by
  simp [toBits]

-- Nothing in a builder is longer than a cell.
theorem length_le_of_toBits (b : Builder) {before written : List Bool} (h : b.toBits = before ++ written) :
    written.length ≤ maxBits := by
  have := congrArg List.length h
  rw [toBits_length, List.length_append] at this
  have := b.bits_le
  omega

@[simp]
theorem new_bits : new.bits = 0 :=
  rfl

@[simp]
theorem new_refs : new.refs = [] :=
  rfl

@[simp]
theorem toBits_new : new.toBits = [] :=
  rfl

theorem bitAt_eq_of_toBits {bits : List Bool} (h : b.toBits = bits) (i : Nat) (hi : i < b.bits) :
    some (b.data.bitAt i) = bits[i]? := by
  rw [← h, toBits]
  simp [hi]

theorem data_eq_of_toBits {data : Bytes} (h : b.toBits = data.toBits) : b.data = data := by
  have hb : b.bits = 8 * data.length := by
    rw [← toBits_length, h, Bytes.toBits_length]
  have hl : b.data.length = data.length := by
    rw [b.length_eq, hb]
    omega
  apply Bytes.toBits_inj
  rw [← h, toBits, Bytes.toBits, hl, hb]

theorem toBits_push (bit : Bool) (h : 1 ≤ b.bitsLeft) : (b.push bit h).toBits = b.toBits ++ [bit] := by
  have hpush := bitAt_pushBit b.length_eq b.padded bit
  have below : (List.range b.bits).map (pushBit b.data b.bits bit).bitAt =
      (List.range b.bits).map b.data.bitAt := by
    refine List.map_congr_left fun i hi => ?_
    rw [hpush, if_neg (List.mem_range.mp hi).ne]
  simp only [toBits, push, List.range_succ, List.map_append, below]
  simp [hpush]

-- One spec for every store of bits: it appends them and touches nothing else.
structure Appends (b : Builder) (bits : List Bool) (b' : Builder) : Prop where
  toBits : b'.toBits = b.toBits ++ bits
  refs   : b'.refs = b.refs

namespace Appends

variable {bits more : List Bool}

theorem bits_eq (h : b.Appends bits b') : b'.bits = b.bits + bits.length := by
  rw [← toBits_length, h.toBits, List.length_append, toBits_length]

theorem trans {b'' : Builder} (h : b.Appends bits b') (h' : b'.Appends more b'') :
    b.Appends (bits ++ more) b'' where
  toBits := by rw [h'.toBits, h.toBits, List.append_assoc]
  refs   := h'.refs.trans h.refs

end Appends

theorem storeBit_ends (bit : Bool) (h : b.bits < maxBits) :
    ∃ b', (storeBit bit).Ends b () b' ∧ b.Appends [bit] b' := by
  have room : 1 ≤ b.bitsLeft := by
    simp only [bitsLeft]
    omega
  refine ⟨b.push bit room, ?_, toBits_push bit room, rfl⟩
  rw [storeBit, ends_bind]
  refine ⟨b, b, by simp, ?_⟩
  rw [dif_pos room, ends_set]

-- A loop of stores appends what its passes append, one after the other.
theorem forM_ends {α : Type} {f : α → Store Unit} (bits : α → List Bool) {k : Nat} (l : List α)
    (hk : ∀ a, (bits a).length = k)
    (step : ∀ a, ∀ b : Builder, b.bits + k ≤ maxBits →
      ∃ b', (f a).Ends b () b' ∧ b.Appends (bits a) b')
    (h : b.bits + l.length * k ≤ maxBits) :
    ∃ b', (l.forM f).Ends b () b' ∧ b.Appends (l.flatMap bits) b' := by
  induction l generalizing b
  case nil => exact ⟨b, by simp, by simp, rfl⟩
  case cons a l hi =>
    simp only [List.length_cons, Nat.succ_mul] at h
    have ⟨b₁, h₁, a₁⟩ := step a b (by omega)
    have hb := a₁.bits_eq
    rw [hk] at hb
    have ⟨b₂, h₂, a₂⟩ := hi (b := b₁) (by omega)
    refine ⟨b₂, ?_, a₁.trans a₂⟩
    exact ends_bind.mpr ⟨(), b₁, h₁, h₂⟩

theorem storeUint_ends {value : Nat} {bits : Nat} (hw : bits ≤ 64) (hv : value < 2 ^ bits)
    (h : b.bits + bits ≤ maxBits) :
    ∃ b', (storeUint value bits).Ends b () b' ∧
      b.Appends ((List.range bits).reverse.map value.testBit) b' := by
  have ⟨b', hf, ha⟩ := forM_ends (b := b) (fun offset => [value.testBit offset])
    (List.range bits).reverse (fun _ => rfl) (fun _ _ => storeBit_ends _) (by simpa using h)
  rw [← List.map_eq_flatMap] at ha
  refine ⟨b', ?_, ha⟩
  simp only [storeUint, roomFor, ends_bind, ends_failIf, ends_get]
  have room : ¬bits > b.bitsLeft := by
    simp only [bitsLeft]
    omega
  exact ⟨(), b, ⟨by omega, rfl⟩, (), b, ⟨by omega, rfl⟩, (), b, ⟨b, b, ⟨rfl, rfl⟩, room, rfl⟩, hf⟩

-- Whole bytes are appended as they are.
theorem storeUint_be_ends {width bits value : Nat} (hb : bits = 8 * width) (hw : width ≤ 8)
    (hv : value < 256 ^ width) (h : b.bits + bits ≤ maxBits) :
    ∃ b', (storeUint value bits).Ends b () b' ∧
      b.Appends (Bytes.toBits (Bytes.be width value)) b' := by
  rw [Bytes.toBits_be, ← hb]
  refine storeUint_ends (by omega) ?_ h
  rw [hb, Nat.pow_mul]
  exact hv

theorem storeByte_ends (byte : UInt8) (h : b.bits + 8 ≤ maxBits) :
    ∃ b', (storeUint byte.toNat 8).Ends b () b' ∧ b.Appends (Bytes.toBits [byte]) b' := by
  have single : Bytes.be 1 byte.toNat = [byte] := by simp [Bytes.be]
  rw [← single]
  exact storeUint_be_ends rfl (by decide) byte.toNat_lt h

theorem storeDepth_ends (depth : UInt16) (h : b.bits + 16 ≤ maxBits) :
    ∃ b', (storeUint depth.toNat 16).Ends b () b' ∧ b.Appends (depthBytes depth).toBits b' :=
  storeUint_be_ends rfl (by decide) depth.toNat_lt h

theorem storeBytes_ends (bytes : Bytes) (h : b.bits + 8 * bytes.length ≤ maxBits) :
    ∃ b', (storeBytes bytes).Ends b () b' ∧ b.Appends bytes.toBits b' := by
  have ⟨b', hf, ha⟩ := forM_ends (b := b) (fun byte => Bytes.toBits [byte]) bytes
    (fun byte => Bytes.toBits_length [byte])
    (fun byte _ => storeByte_ends byte) (by simpa [Nat.mul_comm] using h)
  have whole : bytes.flatMap (fun byte => Bytes.toBits [byte]) = bytes.toBits := by
    rw [← Bytes.toBits_flatMap, List.flatMap_singleton']
  refine ⟨b', ?_, whole ▸ ha⟩
  simp only [storeBytes, roomFor, ends_bind, ends_failIf, ends_get]
  have small : ¬bytes.length * 8 > 65535 := by
    simp only [maxBits] at h
    omega
  have room : ¬bytes.length * 8 > b.bitsLeft := by
    simp only [bitsLeft]
    omega
  exact ⟨b, b, ⟨rfl, rfl⟩, (), b, ⟨small, rfl⟩, (), b, ⟨b, b, ⟨rfl, rfl⟩, room, rfl⟩, hf⟩

theorem storeRef_ends (cell : Cell) (h : b.refs.length < maxRefs) :
    (storeRef cell).Ends b () (b.pushRef cell h) := by
  rw [storeRef, ends_bind]
  refine ⟨b, b, by simp, ?_⟩
  rw [dif_pos h, ends_set]

-- Stores keep what holds of every reference, when it holds of the one they add.
theorem storeBit_refs {P : Cell → Prop} (bit : Bool) :
    Yields (fun b : Builder => ∀ r ∈ b.refs, P r) (fun _ => True) (storeBit bit) := by
  refine Yields.get.bind fun b hb => ?_
  split
  case isTrue =>
    intro _ _ _ _ he
    exact ⟨trivial, ends_set.mp he ▸ hb⟩
  case isFalse => exact fun _ _ _ _ he => absurd he ends_throw

theorem storeRef_refs {P : Cell → Prop} {cell : Cell} (h : P cell) :
    Yields (fun b : Builder => ∀ r ∈ b.refs, P r) (fun _ => True) (storeRef cell) := by
  refine Yields.get.bind fun b hb => ?_
  split
  case isTrue =>
    intro _ _ _ _ he
    refine ⟨trivial, ends_set.mp he ▸ fun r hr => ?_⟩
    exact (List.mem_append.mp hr).elim (hb r) (List.mem_singleton.mp · ▸ h)
  case isFalse => exact fun _ _ _ _ he => absurd he ends_throw

theorem closed_tagged (b : Builder) : Tagged b.closed b.bits := by
  have hl := b.length_eq
  unfold closed
  by_cases h0 : b.bits % 8 = 0
  case pos => exact ⟨by simpa [h0] using hl, fun h => absurd h0 h⟩
  case neg =>
    rw [if_pos h0]
    have last := bitAt_setLast b.bits (show b.data.length = b.bits / 8 + 1 by omega)
    refine ⟨by rw [setLast_length, hl], fun _ => ⟨by simp [last], fun i hi => ?_⟩⟩
    rw [last, b.padded i hi.le]
    simpa using hi.ne'

theorem bitAt_closed (b : Builder) {i : Nat} (hi : i < b.bits) : b.closed.bitAt i = b.data.bitAt i := by
  have hl := b.length_eq
  unfold closed
  split
  case isFalse => rfl
  case isTrue h0 =>
    rw [bitAt_setLast _ (by omega)]
    simp [hi.ne]

variable [Sha256]

-- An ordinary cell over well-formed references can always be built.
theorem build_ok (b : Builder) (hr : ∀ r ∈ b.refs, r.WellFormed) :
    ∃ c, b.build = .ok c ∧ c.WellFormed ∧ c.levelMask = childrenMask (b.refs.map Cell.identity) ∧
      ∃ identity, c = ⟨b.closed, b.bits, b.refs, .ordinary, identity⟩ := by
  have parts : Cell.Parts b.closed b.bits b.refs .ordinary
      (childrenMask (b.refs.map Cell.identity)) := by
    constructor
    case bits_le => exact b.bits_le
    case mask_lt => exact Cell.childrenMask_refs_lt hr
    case tagged => exact b.closed_tagged
    case leading => nofun
    case arity => nofun
    case branch => nofun
    case refs => exact hr
  have ⟨c, hc⟩ := parts.fromParts_ok b.refs_le rfl
  have ⟨wf, mask, shape⟩ := parts.wellFormed hc
  exact ⟨c, hc, wf, mask, shape⟩

end Builder

end TonNet
