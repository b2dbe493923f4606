import TonNet.Boc.Theorems.Header
import TonNet.Boc.Theorems.Read
import TonNet.Lib.Crc

-- A bag that carries a checksum: no other string of its length that differs from it in four bytes in
-- a row is a bag, the four bytes of the checksum among them.

namespace TonNet

open Fallible Method

variable {bytes other : Bytes}

def crc32cPoly : BitVec 32 := 0x82F63B78

theorem crc32cPoly_top : crc32cPoly.getLsbD (32 - 1) = true := by
  decide

theorem crc32cBit_toBitVec (crc : UInt32) : (crc32cBit crc).toBitVec = Crc.bit crc32cPoly crc.toBitVec := by
  have low : crc &&& 1 ≠ 0 ↔ crc.toBitVec.getLsbD 0 = true := by
    have parity : (crc &&& 1).toNat = crc.toNat % 2 := by
      rw [UInt32.toNat_and]
      exact Nat.and_two_pow_sub_one_eq_mod _ 1
    show _ ↔ crc.toNat.testBit 0 = true
    rw [ne_eq, ← UInt32.toNat_inj, parity, Nat.testBit_zero, decide_eq_true_iff, UInt32.toNat_zero]
    omega
  unfold crc32cBit Crc.bit
  rw [if_congr low rfl rfl]
  split <;> rfl

theorem crc32cBits_toBitVec (crc : UInt32) (n : Nat) :
    (crc32cBit^[n] crc).toBitVec = (Crc.bit crc32cPoly)^[n] crc.toBitVec := by
  induction n generalizing crc
  case zero => rfl
  case succ n hi => rw [Function.iterate_succ_apply, hi, crc32cBit_toBitVec]; rfl

theorem crc32cUpdate_toBitVec (crc : UInt32) (bytes : Bytes) :
    (crc32cUpdate crc bytes).toBitVec = Crc.feedAll crc32cPoly crc.toBitVec bytes := by
  induction bytes generalizing crc
  case nil => rfl
  case cons byte bytes hi =>
    have widened : byte.toUInt32.toBitVec = .ofNat 32 byte.toNat := by
      apply BitVec.eq_of_toNat_eq
      rw [BitVec.toNat_ofNat, Nat.mod_eq_of_lt (lt_trans byte.toNat_lt (by decide))]
      exact UInt8.toNat_toUInt32 byte
    have fed : (crc32cBit^[8] (crc ^^^ byte.toUInt32)).toBitVec = Crc.feed crc32cPoly crc.toBitVec byte := by
      rw [crc32cBits_toBitVec, UInt32.toBitVec_xor, widened]
      rfl
    rw [crc32cUpdate, List.foldl_cons]
    exact (hi _).trans (by rw [fed]; rfl)

-- The register over a bag and its checksum, whatever the bag.
theorem feedAll_of_checkChecksum (h : checkChecksum bytes = .ok ()) :
    Crc.feedAll crc32cPoly crc32cInit.toBitVec bytes = (Crc.bit crc32cPoly)^[32] (BitVec.allOnes 32) := by
  simp only [checkChecksum, failIf_bind_eq_ok, failIf_eq_ok, not_not, not_lt] at h
  have ⟨le, same⟩ := h
  have length : (bytes.drop (bytes.length - 4)).length = 4 := by
    rw [List.length_drop]
    omega
  have split := Crc.feedAll_append crc32cPoly crc32cInit.toBitVec (bytes.take (bytes.length - 4))
    (bytes.drop (bytes.length - 4))
  have last (r : BitVec 32) : Crc.feedAll crc32cPoly r (bytes.drop (bytes.length - 4)) =
      (Crc.bit crc32cPoly)^[32] (r ^^^ Crc.ofLe 32 (bytes.drop (bytes.length - 4))) := by
    rw [Crc.feedAll_eq r (by rw [length]), length]
  rw [List.take_append_drop, last] at split
  have stored : Crc.ofLe 32 (bytes.drop (bytes.length - 4)) =
      ~~~(crc32cUpdate crc32cInit (bytes.take (bytes.length - 4))).toBitVec :=
    congrArg UInt32.toBitVec same.symm
  rw [split, stored, crc32cUpdate_toBitVec, BitVec.not_def, BitVec.xor_comm, BitVec.xor_assoc,
    BitVec.xor_self, BitVec.xor_zero]

-- What the header reader holds a bag with the flag to.
theorem readHeader_checksum {options : ParseOptions} {header : Header} {r : Reader}
    (h : (readHeader bytes options).Ends ⟨bytes, 0⟩ header r) (flag : (bytes.getD 4 0).toNat &&& 0x40 ≠ 0) :
    checkChecksum bytes = .ok () := by
  have ⟨_, r₁, start, h⟩ := ends_bind.mp h
  have ⟨_, _, opens, h⟩ := ends_bind.mp h
  have ⟨flags, _, byte, h⟩ := ends_bind.mp h
  have ⟨_, _, _, h⟩ := ends_bind.mp h
  have ⟨_, _, _, h⟩ := ends_bind.mp h
  have ⟨_, _, _, h⟩ := ends_bind.mp h
  have ⟨_, _, checks, _⟩ := ends_bind.mp h
  obtain ⟨_, _, rfl⟩ := ends_take.mp start
  obtain ⟨_, rfl⟩ := ends_failIf.mp opens
  obtain ⟨_, rfl, lies, _⟩ := ends_byte.mp byte
  rw [← lies.getD, onlyIf, if_pos flag] at checks
  exact (ends_ofExcept.mp checks).left

theorem checkChecksum_burst {i : Nat} (length : other.length = bytes.length)
    (agree : ∀ j, j < i ∨ i + 4 ≤ j → other[j]? = bytes[j]?) (h : checkChecksum bytes = .ok ())
    (h' : checkChecksum other = .ok ()) : other = bytes := by
  have long : 4 ≤ bytes.length := by
    simp only [checkChecksum, failIf_bind_eq_ok, not_lt] at h
    exact h.left
  have same := (feedAll_of_checkChecksum h').trans (feedAll_of_checkChecksum h).symm
  exact Crc.eq_of_feedAll crc32cPoly_top _ (by decide) length long agree same

theorem parseBoc_refuses_burst [Sha256] {cells : List Cell} {i : Nat} (accepts : parseBoc bytes = .ok cells)
    (flag : (bytes.getD 4 0).toNat &&& 0x40 ≠ 0) (length : other.length = bytes.length)
    (flags : other.getD 4 0 = bytes.getD 4 0) (agree : ∀ j, j < i ∨ i + 4 ≤ j → other[j]? = bytes[j]?)
    (differs : other ≠ bytes) : ∃ error, parseBoc other = .error error := by
  rcases parsed : parseBoc other with error | cells'
  case error => exact ⟨error, rfl⟩
  case ok =>
    have ⟨_, _, _, _, _, header, _⟩ := parseBocWith_eq_ok.mp accepts
    have ⟨_, _, _, _, _, header', _⟩ := parseBocWith_eq_ok.mp parsed
    exact absurd (checkChecksum_burst length agree (readHeader_checksum header flag)
      (readHeader_checksum header' (flags ▸ flag))) differs

section Sealed

attribute [local instance] Sha256.standard

-- An empty cell under its checksum, and the same with a bit of the checksum and one of the cell turned.
def sealedBag : Bytes :=
  .be 17 0xb5ee9c724101010100020000004cacb9cd

def brokenBag : Bytes :=
  .be 17 0xb5ee9c724101010100020000014dacb9cd

theorem parseBoc_refuses_burst_broken :
    (parseBoc sealedBag).toOption.isSome ∧ ∃ error, parseBoc brokenBag = .error error := by
  have run : (parseBoc sealedBag).toOption.isSome := by decide +kernel
  have ⟨cells, accepts⟩ := Option.isSome_iff_exists.mp run
  have agree (j : Nat) (outside : j < 10 ∨ 10 + 4 ≤ j) : brokenBag[j]? = sealedBag[j]? := by
    by_cases past : j < 17
    case pos =>
      have all : ∀ j < 17, j < 10 ∨ 10 + 4 ≤ j → brokenBag[j]? = sealedBag[j]? := by decide +kernel
      exact all j past outside
    case neg =>
      have none : brokenBag.length = 17 ∧ sealedBag.length = 17 := by decide +kernel
      rw [List.getElem?_eq_none (by omega), List.getElem?_eq_none (by omega)]
  exact ⟨run, parseBoc_refuses_burst (toOption_eq_some.mp accepts) (by decide +kernel) (by decide +kernel)
    (by decide +kernel) agree (by decide +kernel)⟩

end Sealed

end TonNet
