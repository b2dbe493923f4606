import TonNet.Lib.Bytes
import Mathlib.Logic.Function.Iterate

-- A reflected cyclic redundancy check of any width. The register is linear in what is fed to it and
-- never forgets, so no two strings that differ in as many bytes in a row as it holds leave it alike.

namespace Crc

variable {w : Nat}

-- One bit of the division by a polynomial.
def bit (poly r : BitVec w) : BitVec w :=
  if r.getLsbD 0 then (r >>> 1) ^^^ poly else r >>> 1

-- The bytes of a number, least significant first.
def ofLe (w : Nat) (bytes : Bytes) : BitVec w :=
  .ofNat w (Bytes.ofBe bytes.reverse)

def feed (poly r : BitVec w) (byte : UInt8) : BitVec w :=
  (bit poly)^[8] (r ^^^ .ofNat w byte.toNat)

def feedAll (poly r : BitVec w) (bytes : Bytes) : BitVec w :=
  bytes.foldl (feed poly) r

variable {poly r s : BitVec w} {bytes x y : Bytes}

theorem bit_xor (poly r s : BitVec w) : bit poly (r ^^^ s) = bit poly r ^^^ bit poly s := by
  unfold bit
  rw [BitVec.getLsbD_xor, BitVec.ushiftRight_xor_distrib]
  cases r.getLsbD 0 <;> cases s.getLsbD 0
  case false.false => rfl
  case false.true => exact BitVec.xor_assoc ..
  case true.false =>
    show (r >>> 1 ^^^ s >>> 1) ^^^ poly = (r >>> 1 ^^^ poly) ^^^ s >>> 1
    ac_rfl
  case true.true =>
    show r >>> 1 ^^^ s >>> 1 = (r >>> 1 ^^^ poly) ^^^ (s >>> 1 ^^^ poly)
    calc r >>> 1 ^^^ s >>> 1
      _ = (r >>> 1 ^^^ s >>> 1) ^^^ (poly ^^^ poly) := by rw [BitVec.xor_self, BitVec.xor_zero]
      _ = (r >>> 1 ^^^ poly) ^^^ (s >>> 1 ^^^ poly) := by ac_rfl

theorem bits_xor (poly r s : BitVec w) (n : Nat) :
    (bit poly)^[n] (r ^^^ s) = (bit poly)^[n] r ^^^ (bit poly)^[n] s := by
  induction n generalizing r s
  case zero => rfl
  case succ n hi => rw [Function.iterate_succ_apply, bit_xor, hi]; rfl

-- The top bit of the polynomial shows that a bit was shifted out.
theorem eq_zero_of_bit (top : poly.getLsbD (w - 1) = true) (h : bit poly r = 0#w) : r = 0#w := by
  have high : (r >>> 1).getLsbD (w - 1) = false := by
    rw [BitVec.getLsbD_ushiftRight]
    exact BitVec.getLsbD_of_ge _ _ (by omega)
  unfold bit at h
  split at h
  case isTrue =>
    have same : r >>> 1 = poly := BitVec.xor_eq_zero_iff.mp h
    rw [same, top] at high
    nomatch high
  case isFalse low =>
    apply BitVec.eq_of_getLsbD_eq
    intro i _
    rw [BitVec.getLsbD_zero]
    cases i
    case zero => exact Bool.eq_false_iff.mpr low
    case succ i _ =>
      have := congrArg (·.getLsbD i) h
      rwa [BitVec.getLsbD_ushiftRight, Nat.add_comm, BitVec.getLsbD_zero] at this

theorem bit_injective (top : poly.getLsbD (w - 1) = true) : Function.Injective (bit poly) := by
  intro r s same
  have none : bit poly (r ^^^ s) = 0#w := by rw [bit_xor, same, BitVec.xor_self]
  exact BitVec.xor_eq_zero_iff.mp (eq_zero_of_bit top none)

theorem feedAll_injective (top : poly.getLsbD (w - 1) = true) (bytes : Bytes) :
    Function.Injective (feedAll poly · bytes) := by
  induction bytes
  case nil => exact Function.injective_id
  case cons byte bytes hi =>
    intro r s same
    exact (BitVec.xor_left_inj _).mp ((bit_injective top).iterate 8 (hi same))

theorem feedAll_append (poly r : BitVec w) (x y : Bytes) :
    feedAll poly r (x ++ y) = feedAll poly (feedAll poly r x) y :=
  List.foldl_append

theorem bit_even {n : Nat} (h : n * 2 < 2 ^ w) : bit poly (.ofNat w (n * 2)) = .ofNat w n := by
  have low : (BitVec.ofNat w (n * 2)).getLsbD 0 = false := by
    simp [BitVec.getLsbD_ofNat, Nat.testBit_zero]
  rw [bit, low, if_neg Bool.false_ne_true]
  apply BitVec.eq_of_toNat_eq
  rw [BitVec.toNat_ushiftRight, BitVec.toNat_ofNat, BitVec.toNat_ofNat, Nat.mod_eq_of_lt h,
    Nat.mod_eq_of_lt (by omega), Nat.shiftRight_eq_div_pow]
  omega

-- Zeros shift out without a trace.
theorem bits_shifted {n : Nat} (k : Nat) (h : n * 2 ^ k < 2 ^ w) :
    (bit poly)^[k] (.ofNat w (n * 2 ^ k)) = .ofNat w n := by
  induction k
  case zero => rw [Function.iterate_zero_apply, Nat.pow_zero, Nat.mul_one]
  case succ k hi =>
    rw [Nat.pow_succ, ← Nat.mul_assoc] at h
    rw [Function.iterate_succ_apply, Nat.pow_succ, ← Nat.mul_assoc, bit_even h, hi (by omega)]

theorem ofLe_cons (byte : UInt8) (bytes : Bytes) :
    ofLe w (byte :: bytes) = .ofNat w byte.toNat ^^^ .ofNat w (Bytes.ofBe bytes.reverse * 2 ^ 8) := by
  have value : Bytes.ofBe (byte :: bytes).reverse = 2 ^ 8 * Bytes.ofBe bytes.reverse + byte.toNat := by
    rw [List.reverse_cons, Bytes.ofBe_append, Nat.mul_comm]
    rfl
  apply BitVec.eq_of_getLsbD_eq
  intro i lt
  rw [ofLe, value, BitVec.getLsbD_xor, BitVec.getLsbD_ofNat, BitVec.getLsbD_ofNat, BitVec.getLsbD_ofNat,
    Nat.testBit_two_pow_mul_add _ byte.toNat_lt, Nat.testBit_mul_two_pow]
  by_cases low : i < 8
  case pos => simp [lt, low, not_le.mpr low]
  case neg =>
    have none : byte.toNat.testBit i = false :=
      Nat.testBit_lt_two_pow (lt_of_lt_of_le byte.toNat_lt (Nat.pow_le_pow_right (by decide) (not_lt.mp low)))
    simp [lt, low, not_lt.mp low, none]

-- As many bytes as the register holds act on it as the number that they write.
theorem feedAll_eq (r : BitVec w) {bytes : Bytes} (h : 8 * bytes.length ≤ w) :
    feedAll poly r bytes = (bit poly)^[8 * bytes.length] (r ^^^ ofLe w bytes) := by
  induction bytes generalizing r
  case nil => exact (BitVec.xor_zero).symm
  case cons byte bytes hi =>
    rw [List.length_cons] at h
    have small : Bytes.ofBe bytes.reverse * 2 ^ 8 < 2 ^ w := by
      have lt := Bytes.ofBe_lt bytes.reverse
      rw [List.length_reverse] at lt
      calc Bytes.ofBe bytes.reverse * 2 ^ 8
        _ < 256 ^ bytes.length * 2 ^ 8 := Nat.mul_lt_mul_of_pos_right lt (by decide)
        _ = 2 ^ (8 * (bytes.length + 1)) := by rw [show 256 = 2 ^ 8 from rfl, ← Nat.pow_mul, ← Nat.pow_add]; rfl
        _ ≤ 2 ^ w := Nat.pow_le_pow_right (by decide) h
    calc feedAll poly r (byte :: bytes)
      _ = feedAll poly (feed poly r byte) bytes := rfl
      _ = (bit poly)^[8 * bytes.length] (feed poly r byte ^^^ ofLe w bytes) := hi _ (by omega)
      _ = (bit poly)^[8 * bytes.length] ((bit poly)^[8] (r ^^^ ofLe w (byte :: bytes))) := by
        have apart : (bit poly)^[8] (r ^^^ ofLe w (byte :: bytes)) = feed poly r byte ^^^ ofLe w bytes := by
          rw [ofLe_cons, ← BitVec.xor_assoc, bits_xor, bits_shifted 8 small]
          rfl
        rw [apart]
      _ = (bit poly)^[8 * (bytes.length + 1)] (r ^^^ ofLe w (byte :: bytes)) := by
        rw [← Function.iterate_add_apply, Nat.mul_add]

theorem ofLe_inj (length : x.length = y.length) (h : 8 * x.length ≤ w) (same : ofLe w x = ofLe w y) :
    x = y := by
  have small {x : Bytes} (h : 8 * x.length ≤ w) : Bytes.ofBe x.reverse < 2 ^ w := by
    refine lt_of_lt_of_le (Bytes.ofBe_lt _) ?_
    rw [List.length_reverse, show 256 = 2 ^ 8 from rfl, ← Nat.pow_mul]
    exact Nat.pow_le_pow_right (by decide) h
  have value := congrArg BitVec.toNat same
  rw [ofLe, ofLe, BitVec.toNat_ofNat, BitVec.toNat_ofNat, Nat.mod_eq_of_lt (small h),
    Nat.mod_eq_of_lt (small (length ▸ h))] at value
  have bytes := congrArg (Bytes.be x.length) value
  rw [← List.length_reverse, Bytes.be_ofBe, List.length_reverse, length, ← List.length_reverse, Bytes.be_ofBe] at bytes
  exact List.reverse_injective bytes

-- A burst: the strings agree but for a window that the register holds.
theorem feedAll_burst (top : poly.getLsbD (w - 1) = true) (r : BitVec w) {front back : Bytes}
    (length : x.length = y.length) (h : 8 * x.length ≤ w)
    (same : feedAll poly r (front ++ (x ++ back)) = feedAll poly r (front ++ (y ++ back))) : x = y := by
  rw [feedAll_append, feedAll_append, feedAll_append, feedAll_append] at same
  have window : feedAll poly (feedAll poly r front) x = feedAll poly (feedAll poly r front) y :=
    feedAll_injective top back same
  generalize feedAll poly r front = s at window
  rw [feedAll_eq s h, feedAll_eq s (length ▸ h), length] at window
  have number := (bit_injective top).iterate _ window
  rw [BitVec.xor_comm, BitVec.xor_comm _ (ofLe w y), BitVec.xor_left_inj] at number
  exact ofLe_inj length h number

-- Two strings that agree outside of a window.
theorem exists_window {n i : Nat} (length : y.length = x.length) (long : n ≤ x.length)
    (agree : ∀ j, j < i ∨ i + n ≤ j → y[j]? = x[j]?) :
    ∃ front a b back, a.length = n ∧ b.length = n ∧ x = front ++ (a ++ back) ∧ y = front ++ (b ++ back) := by
  -- a window that reaches past the end is moved back to it
  have ⟨k, fits, agree⟩ : ∃ k, k + n ≤ x.length ∧ ∀ j, j < k ∨ k + n ≤ j → y[j]? = x[j]? := by
    by_cases fits : i + n ≤ x.length
    case pos => exact ⟨i, fits, agree⟩
    case neg =>
      refine ⟨x.length - n, by omega, fun j outside => ?_⟩
      rcases outside with before | past
      case inl => exact agree j (.inl (by omega))
      case inr => rw [List.getElem?_eq_none (by omega), List.getElem?_eq_none (by omega)]
  have front : y.take k = x.take k := by
    apply List.ext_getElem?
    intro j
    rw [List.getElem?_take, List.getElem?_take]
    split
    case isTrue lt => exact agree j (.inl lt)
    case isFalse => rfl
  have back : y.drop (k + n) = x.drop (k + n) := by
    apply List.ext_getElem?
    intro j
    rw [List.getElem?_drop, List.getElem?_drop]
    exact agree _ (.inr (by omega))
  have parts (l : Bytes) : l = l.take k ++ ((l.drop k).take n ++ l.drop (k + n)) := by
    rw [← List.drop_drop, List.take_append_drop, List.take_append_drop]
  refine ⟨x.take k, (x.drop k).take n, (y.drop k).take n, x.drop (k + n), ?_, ?_, parts x, ?_⟩
  · rw [List.length_take, List.length_drop]
    omega
  · rw [List.length_take, List.length_drop]
    omega
  · rw [← front, ← back]
    exact parts y

-- So no window hides a difference from the register.
theorem eq_of_feedAll (top : poly.getLsbD (w - 1) = true) (r : BitVec w) {n i : Nat} (fits : 8 * n ≤ w)
    (length : y.length = x.length) (long : n ≤ x.length) (agree : ∀ j, j < i ∨ i + n ≤ j → y[j]? = x[j]?)
    (same : feedAll poly r y = feedAll poly r x) : y = x := by
  obtain ⟨front, a, b, back, ha, hb, rfl, rfl⟩ := exists_window length long agree
  rw [feedAll_burst top r (hb.trans ha.symm) (by rw [hb]; exact fits) same]

-- The check that takes the most significant bit first is this one in a mirror.
def bitBe (poly r : BitVec w) : BitVec w :=
  if r.msb then (r <<< 1) ^^^ poly else r <<< 1

def mirrored (byte : UInt8) : UInt8 :=
  ⟨byte.toBitVec.reverse⟩

theorem reverse_xor (r s : BitVec w) : (r ^^^ s).reverse = r.reverse ^^^ s.reverse := by
  apply BitVec.eq_of_getLsbD_eq
  intro i _
  rw [BitVec.getLsbD_xor, BitVec.getLsbD_reverse, BitVec.getLsbD_reverse, BitVec.getLsbD_reverse,
    BitVec.getMsbD_xor]

theorem reverse_shiftLeft (r : BitVec w) (n : Nat) : (r <<< n).reverse = r.reverse >>> n := by
  apply BitVec.eq_of_getLsbD_eq
  intro i _
  rw [BitVec.getLsbD_reverse, BitVec.getMsbD_shiftLeft, BitVec.getLsbD_ushiftRight, BitVec.getLsbD_reverse,
    Nat.add_comm]

theorem reverse_bitBe (poly r : BitVec w) : (bitBe poly r).reverse = bit poly.reverse r.reverse := by
  have low : r.reverse.getLsbD 0 = r.msb := BitVec.getLsbD_reverse
  unfold bitBe bit
  rw [low]
  split
  case isTrue => rw [reverse_xor, reverse_shiftLeft]
  case isFalse => rw [reverse_shiftLeft]

theorem reverse_bitsBe (poly r : BitVec w) (n : Nat) :
    ((bitBe poly)^[n] r).reverse = (bit poly.reverse)^[n] r.reverse := by
  induction n generalizing r
  case zero => rfl
  case succ n hi => rw [Function.iterate_succ_apply, hi, reverse_bitBe]; rfl

theorem mirrored_injective : Function.Injective mirrored := by
  have twice (byte : UInt8) : mirrored (mirrored byte) = byte := by
    revert byte
    apply Bytes.forall_byte
    decide +kernel
  exact Function.LeftInverse.injective twice

-- The register over its own content is clear.
theorem feedAll_self (poly r : BitVec w) (fits : 8 * bytes.length ≤ w) (own : ofLe w bytes = r) :
    feedAll poly r bytes = 0#w := by
  have clear (n : Nat) : (bit poly)^[n] 0#w = 0#w := by
    have sum := bits_xor poly 0#w 0#w n
    rwa [BitVec.xor_self, BitVec.xor_self] at sum
  rw [feedAll_eq r fits, own, BitVec.xor_self, clear]

end Crc
