import TonNet.Cell.Stores
import TonNet.Cell.Theorems.Content

-- The typed stores by what they write, and the loads that read it back.

namespace TonNet

open Fallible Method

namespace Builder

theorem uintBits_mod (value bits : Nat) : uintBits (value % 2 ^ bits) bits = uintBits value bits := by
  refine List.map_congr_left fun i hi => ?_
  have lt : i < bits := by simpa using hi
  simp [Nat.testBit_mod_two_pow, lt]

theorem uintBits_byte (byte : UInt8) : uintBits byte.toNat 8 = Bytes.toBits [byte] := by
  have single : Bytes.be 1 byte.toNat = [byte] := by simp [Bytes.be]
  rw [← single, Bytes.toBits_be]
  rfl

theorem storeBytes_writes (bytes : Bytes) : Writes (storeBytes bytes) bytes.toBits [] () := by
  have h := Writes.forM bytes fun byte => storeUint_writes (by decide) byte.toNat_lt
  have whole : bytes.flatMap (fun byte => uintBits byte.toNat 8) = bytes.toBits := by
    simp only [uintBits_byte]
    rw [← Bytes.toBits_flatMap, List.flatMap_singleton']
  rw [List.flatMap_eq_nil_iff.mpr fun _ _ => rfl, whole] at h
  refine (h.roomFor (n := bytes.length * 8) (by simp [Nat.mul_comm])).check fun b room _ => ?_
  rw [Bytes.toBits_length, maxBits] at room
  omega

theorem storeBits_writes' (bits : List Bool) : Writes (storeBits bits) bits [] () :=
  (storeBits_writes bits).roomFor (Nat.min_le_left ..)

theorem storeUintOf_writes {width value bits : Nat} (le : bits ≤ width) (fits : value < 2 ^ bits) :
    Writes (storeUintOf width value bits) (uintBits value bits) [] () :=
  ((storeOffsets_writes value bits).failIf (by omega)).failIf (by omega)

theorem storeIntOf_writes {width bits : Nat} {value : BitVec width} (le : bits ≤ width)
    (fits : outOfField value bits = false) :
    Writes (storeIntOf value bits) (uintBits value.toNat bits) [] () :=
  ((storeOffsets_writes value.toNat bits).failIf (by simp [fits])).failIf (not_lt.mpr le)

theorem storeMaybeRef_writes (cell : Option Cell) :
    Writes (storeMaybeRef cell) [cell.isSome] cell.toList () := by
  cases cell
  case none => exact storeBit_writes false
  case some cell =>
    have h := (storeBit_writes true).seq (storeRef_writes cell)
    refine (h.roomFor (n := 1) (by simp)).check fun b _ room => ?_
    simp only [List.nil_append, List.length_singleton] at room
    omega

end Builder

namespace Slice

open Builder

variable {width bits : Nat}

theorem signExtend_eq (raw : Nat) (pos : bits ≠ 0) (le : bits ≤ width) :
    signExtend width raw bits = (BitVec.ofNat bits raw).signExtend width := by
  refine BitVec.eq_of_getLsbD_eq fun i hi => ?_
  have top : (BitVec.ofNat width raw <<< (width - bits)).msb = raw.testBit (bits - 1) := by
    rw [BitVec.msb_eq_getLsbD_last, BitVec.getLsbD_shiftLeft, BitVec.getLsbD_ofNat,
      show width - 1 - (width - bits) = bits - 1 by omega]
    simp [show width - 1 < width by omega, show ¬width - 1 < width - bits by omega,
      show bits - 1 < width by omega]
  have top' : (BitVec.ofNat bits raw).msb = raw.testBit (bits - 1) := by
    rw [BitVec.msb_eq_getLsbD_last, BitVec.getLsbD_ofNat]
    simp [show bits - 1 < bits by omega]
  have low : width - bits + i < width ↔ i < bits := by omega
  rw [signExtend, if_neg pos, BitVec.getLsbD_sshiftRight, BitVec.getLsbD_signExtend, top, top']
  simp only [low, BitVec.getLsbD_shiftLeft, BitVec.getLsbD_ofNat, Nat.add_sub_cancel_left]
  by_cases lt : i < bits
  case pos => simp [lt, hi]
  case neg => simp [lt, hi]

-- The range of a signed field. An integer as wide as the field is always in it.
theorem fits_iff {value : BitVec width} (pos : bits ≠ 0) (le : bits ≤ width) :
    outOfField value bits = false ↔ -2 ^ (bits - 1) ≤ value.toInt ∧ value.toInt < 2 ^ (bits - 1) := by
  rw [outOfField, if_neg pos]
  split
  case isTrue =>
    simp only [decide_eq_false_iff_not, not_or, not_le, not_lt, ge_iff_le]
    exact and_comm
  case isFalse full =>
    obtain rfl : bits = width := by omega
    exact iff_of_true rfl ⟨BitVec.le_toInt value, BitVec.toInt_lt⟩

-- A field that is wide enough for a number is read as that number.
theorem signExtend_of_fits {value : BitVec width} (le : bits ≤ width)
    (fits : outOfField value bits = false) : signExtend width (value.toNat % 2 ^ bits) bits = value := by
  by_cases pos : bits = 0
  case pos =>
    have zero : value = 0 := by simpa only [outOfField, if_pos pos, decide_eq_false_iff_not, not_not] using fits
    rw [signExtend, if_pos pos, zero]
  case neg =>
    have ⟨above, below⟩ := (fits_iff pos le).mp fits
    have double : (2 : Int) ^ bits = 2 * 2 ^ (bits - 1) := by
      rw [← pow_succ', show bits - 1 + 1 = bits by omega]
    rw [signExtend_eq _ pos le]
    apply BitVec.eq_of_toInt_eq
    rw [BitVec.toInt_signExtend_of_le le, BitVec.toInt_eq_toNat_bmod, BitVec.toNat_ofNat, Nat.mod_mod,
      Int.natCast_mod, Int.emod_bmod]
    calc (value.toNat : Int).bmod (2 ^ bits)
      _ = ((value.toNat : Int).bmod (2 ^ width)).bmod (2 ^ bits) :=
        (Int.bmod_bmod_of_dvd (Nat.pow_dvd_pow 2 le)).symm
      _ = value.toInt.bmod (2 ^ bits) := by rw [BitVec.toInt_eq_toNat_bmod]
      _ = value.toInt := Int.bmod_eq_of_le (by push_cast; omega) (by push_cast; omega)

theorem Reads.map {α β : Type} {x : Load α} {bits : List Bool} {refs : List Cell} {a : α}
    (h : Reads x bits refs a) (f : α → β) : Reads (do let a ← x; return f a) bits refs (f a) := by
  have h := h.bind (f := fun a => Pure.pure (f a)) (.pure (f a))
  rwa [List.append_nil, List.append_nil] at h

theorem loadUintOf_reads_mod (value : Nat) {n : Nat} (le : n ≤ width) :
    Reads (loadUintOf width n) (uintBits value n) [] (value % 2 ^ n) := by
  rw [← uintBits_mod]
  exact loadUintOf_reads le (Nat.mod_lt _ (Nat.two_pow_pos n))

theorem loadInt_reads {value : BitVec 64} (le : bits ≤ 64) (fits : outOfField value bits = false) :
    Reads (loadInt bits) (uintBits value.toNat bits) [] value := by
  show Reads _ ([] ++ uintBits value.toNat bits) ([] ++ []) value
  refine Reads.bind (Reads.failIf (not_lt.mpr le)) ?_
  have same := signExtend_of_fits le fits
  split
  case isTrue none =>
    rw [signExtend, if_pos none] at same
    subst none
    rw [← same]
    exact .pure _
  case isFalse =>
    have h := (loadUintOf_reads_mod value.toNat le).map fun raw => signExtend 64 raw bits
    rwa [same] at h

theorem loadInt128_reads {value : BitVec 128} (le : bits ≤ 128) (fits : outOfField value bits = false) :
    Reads (loadInt128 bits) (uintBits value.toNat bits) [] value := by
  have h := (loadUintOf_reads_mod value.toNat le).map fun raw => signExtend 128 raw bits
  rwa [signExtend_of_fits le fits] at h

theorem loadBits_reads (bits : List Bool) : Reads (loadBits bits.length) bits [] bits := by
  intro s rest restRefs hb hr
  have ⟨s', moves, cell, hs, same, data⟩ := advance_of_ahead hb
  refine ⟨s', ?_, hs, same.trans hr⟩
  have here : (List.range bits.length).map (fun i => s'.cell.data.bitAt (s.bit + i)) = bits := by
    refine List.ext_getElem (by simp) fun i hi hi' => ?_
    simp [cell, data i hi', List.getD_eq_getElem?_getD, List.getElem?_eq_getElem hi']
  simp only [loadBits, ends_bind, ends_get, ends_pure]
  exact ⟨s.bit, s', moves, s', s', ⟨rfl, rfl⟩, here, rfl⟩

-- The number that the bits of one byte spell.
theorem uintAt_of_bits {data bytes : Bytes} {start i : Nat} (hi : i < bytes.length)
    (same : ∀ j < 8, data.bitAt (start + j) = bytes.bitAt (8 * i + j)) :
    UInt8.ofNat (uintAt data start 8) = bytes.get ⟨i, hi⟩ := by
  have value : uintAt data start 8 = (bytes.get ⟨i, hi⟩).toNat := by
    refine Nat.eq_of_testBit_eq fun k => ?_
    rw [uintAt_testBit]
    by_cases hk : k < 8
    case pos =>
      have byte : (8 * i + (8 - 1 - k)) / 8 = i := by omega
      have bit : 7 - (8 * i + (8 - 1 - k)) % 8 = k := by omega
      rw [same _ (by omega), Bytes.bitAt, byte, bit]
      simp [hk, hi]
    case neg =>
      have clear : (bytes.get ⟨i, hi⟩).toNat.testBit k = false :=
        Nat.testBit_lt_two_pow (lt_of_lt_of_le (bytes.get ⟨i, hi⟩).toNat_lt
          (Nat.pow_le_pow_right (by decide) (not_lt.mp hk)))
      rw [decide_eq_false hk, Bool.false_and, clear]
  rw [value, UInt8.ofNat_toNat]

theorem loadBytesInto_reads {bytes : Bytes} (short : bytes.toBits.length ≤ maxBits) (into : Bytes) :
    Reads (loadBytesInto bytes.length into) bytes.toBits [] (into ++ bytes) := by
  intro s rest restRefs hb hr
  have ⟨s', moves, cell, hs, same, data⟩ := advance_of_ahead hb
  rw [Bytes.toBits_length] at moves data
  refine ⟨s', ?_, hs, same.trans hr⟩
  have here : (List.range bytes.length).map (fun byte =>
      UInt8.ofNat (uintAt s'.cell.data (s.bit + byte * 8) 8)) = bytes := by
    refine List.ext_getElem (by simp) fun i hi hi' => ?_
    rw [List.getElem_map, List.getElem_range]
    refine uintAt_of_bits hi' fun j hj => ?_
    have inside : 8 * i + j < 8 * bytes.length := by omega
    rw [cell, Nat.add_assoc, Nat.mul_comm i, data _ inside, Bytes.toBits]
    simp [inside]
  have few : ¬bytes.length * 8 ≥ 2 ^ 64 := by
    rw [Bytes.toBits_length, maxBits] at short
    omega
  rw [loadBytesInto, ends_bind_of_ends (ends_get.mpr ⟨rfl, rfl⟩), ends_failIf_bind]
  simp only [ends_bind, ends_get, ends_pure]
  exact ⟨few, s.bit, s', Nat.mul_comm 8 _ ▸ moves, s', s', ⟨rfl, rfl⟩, by rw [here], rfl⟩

theorem loadMaybeRef_reads (cell : Option Cell) : Reads loadMaybeRef [cell.isSome] cell.toList cell := by
  cases cell
  case none => exact (loadBit_reads false).bind (.pure none)
  case some cell => exact (loadBit_reads true).bind ((loadRef_reads cell).bind (.pure (some cell)))

theorem Reads.mapped {α β : Type} {x : Load α} {bits : List Bool} {refs : List Cell} {a : α}
    (h : Reads x bits refs a) (f : α → β) : Reads (f <$> x) bits refs (f a) := by
  rw [map_eq_pure_bind]
  exact h.map f

theorem refsAhead_pastRefs {s : Slice} (n : Nat) (h : n ≤ s.remainingRefs) :
    (s.pastRefs n h).refsAhead = s.refsAhead.drop n := by
  simp [refsAhead, pastRefs]

theorem skipBitsAndRefs_reads (bits : List Bool) (refs : List Cell) :
    Reads (skipBitsAndRefs bits.length refs.length) bits refs () := by
  intro s rest restRefs hb hr
  have le : bits.length ≤ s.remainingBits := by
    rw [← ahead_length, hb, List.length_append]
    omega
  have le' : refs.length ≤ s.remainingRefs := by
    rw [← refsAhead_length, hr, List.length_append]
    omega
  refine ⟨(s.past bits.length le).pastRefs refs.length le', ?_, ?_, ?_⟩
  · rw [skipBitsAndRefs, ends_bind_of_ends (a := s) (t := s) (by simp), dif_pos le, dif_pos le', ends_set]
  · exact (ahead_past _ le).trans (by rw [hb, List.drop_left])
  · exact (refsAhead_pastRefs _ _).trans (by rw [refsAhead_past, hr, List.drop_left])

-- A narrower number is in the range of its own width.
theorem fits_signExtend (value : BitVec bits) (pos : bits ≠ 0) (le : bits ≤ width) :
    outOfField (value.signExtend width) bits = false := by
  rw [fits_iff pos le, BitVec.toInt_signExtend_of_le le]
  exact ⟨BitVec.le_toInt value, BitVec.toInt_lt⟩

theorem setWidth_signExtend {value : BitVec bits} (le : bits ≤ width) :
    (value.signExtend width).setWidth bits = value := by
  ext i hi
  rw [BitVec.getElem_setWidth, BitVec.getLsbD_signExtend, if_pos hi, decide_eq_true (hi.trans_le le),
    Bool.true_and, BitVec.getLsbD_eq_getElem hi]

end Slice

-- The bits of an address: a form, no anycast, the workchain and the account.
def MsgAddress.toBits : MsgAddress → List Bool
  | .none                  => Builder.uintBits 0b00 2
  | .std workchain account =>
    Builder.uintBits 0b10 2 ++ ([false] ++
      (Builder.uintBits (workchain.toBitVec.signExtend 64).toNat 8 ++ account.bytes.toBits))

theorem Builder.storeAddress_writes (address : MsgAddress) :
    Writes (storeAddress address) address.toBits [] () := by
  cases address
  case none => exact storeUint_writes (by decide) (by decide)
  case std workchain account =>
    have le : 8 ≤ 64 := by decide
    have chain := storeIntOf_writes le (Slice.fits_signExtend workchain.toBitVec (by decide) le)
    exact (storeUint_writes (by decide) (by decide)).seq
      ((storeBit_writes false).seq (chain.seq (storeBytes_writes account.bytes)))

theorem Slice.loadAddress_reads (address : MsgAddress) :
    Reads loadAddress address.toBits [] address := by
  unfold loadAddress
  cases address
  case none =>
    have tag : Reads (loadUint 2) (Builder.uintBits 0b00 2) [] 0b00 := loadUint_reads (by decide) (by decide)
    rw [show MsgAddress.none.toBits = Builder.uintBits 0b00 2 ++ [] from rfl]
    exact tag.bind (.pure _)
  case std workchain account =>
    have le : 8 ≤ 64 := by decide
    have chain := loadInt_reads le (fits_signExtend workchain.toBitVec (by decide) le)
    have short : account.bytes.toBits.length ≤ maxBits := by
      rw [Bytes.toBits_length, account.length_eq]
      decide
    have bytes := loadBytesInto_reads short []
    rw [account.length_eq, List.nil_append] at bytes
    have tag : Reads (loadUint 2) (Builder.uintBits 0b10 2) [] 0b10 := loadUint_reads (by decide) (by decide)
    refine tag.bind ((loadBit_reads false).bind ?_)
    rw [← List.nil_append (Builder.uintBits (workchain.toBitVec.signExtend 64).toNat 8 ++ _)]
    refine Reads.bind (.failIf Bool.false_ne_true) (chain.bind ?_)
    rw [← List.append_nil account.bytes.toBits, setWidth_signExtend le]
    refine bytes.bind ?_
    rw [Hash.ofBytes?_bytes]
    exact .pure _

end TonNet
