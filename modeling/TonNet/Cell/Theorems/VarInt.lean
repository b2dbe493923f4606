import TonNet.Cell.Theorems.Typed

-- Variable integers: a length, then as many bytes. The writer takes the fewest bytes that hold the
-- number, and the reader any length that its field spells.

namespace TonNet

open Fallible Method

namespace Builder

theorem bitCount_le {n k : Nat} : bitCount n ≤ k ↔ n < 2 ^ k := by
  unfold bitCount
  split
  case isTrue zero => simp [zero]
  case isFalse pos => rw [Nat.succ_le_iff, Nat.log2_lt pos]

theorem byteLen_le {value : BitVec 128} {m : Nat} : byteLen value ≤ m ↔ value.toNat < 2 ^ (m * 8) := by
  unfold byteLen
  split
  case isTrue zero => simp [zero]
  case isFalse =>
    rw [← bitCount_le]
    omega

theorem byteLen_le_sixteen (value : BitVec 128) : byteLen value ≤ 16 :=
  byteLen_le.mpr value.isLt

theorem toNat_not_of_neg {width : Nat} {value : BitVec width} (neg : value.toInt < 0) :
    ((~~~value).toNat : Int) = -value.toInt - 1 := by
  have small := value.isLt
  rw [BitVec.toInt_eq_toNat_cond] at neg ⊢
  rw [BitVec.toNat_not]
  split at neg
  case isTrue => omega
  case isFalse wraps =>
    rw [if_neg wraps]
    omega

theorem toNat_of_nonneg {width : Nat} {value : BitVec width} (nonneg : ¬value.toInt < 0) :
    (value.toNat : Int) = value.toInt := by
  have small := value.isLt
  rw [BitVec.toInt_eq_toNat_cond] at nonneg ⊢
  split at nonneg
  case isTrue low => rw [if_pos low]
  case isFalse => omega

-- The length counts the sign.
theorem signedByteLen_le {value : BitVec 128} {m : Nat} (le : m ≤ 16) :
    signedByteLen value ≤ m ↔ outOfField value (m * 8) = false := by
  by_cases none : m = 0
  case pos =>
    subst none
    unfold signedByteLen outOfField
    split <;> simp_all
  case neg =>
    rw [Slice.fits_iff (by omega) (by omega)]
    have half := Int.pow_pos (n := 2) (m := m * 8 - 1) (by decide)
    unfold signedByteLen
    split
    case isTrue zero =>
      subst zero
      simp [half.le]
    case isFalse =>
      have fewer {k : Nat} : (k + 1 + 7) / 8 ≤ m ↔ k ≤ m * 8 - 1 := by omega
      dsimp only
      split
      case isTrue neg =>
        rw [fewer, bitCount_le, ← Int.ofNat_lt, toNat_not_of_neg neg]
        push_cast
        omega
      case isFalse nonneg =>
        rw [fewer, bitCount_le, ← Int.ofNat_lt, toNat_of_nonneg nonneg]
        push_cast
        omega

theorem signedByteLen_le_sixteen (value : BitVec 128) : signedByteLen value ≤ 16 :=
  (signedByteLen_le le_rfl).mpr rfl

theorem uintBits_getElem? (value n i : Nat) :
    (uintBits value n)[i]? = if i < n then some (value.testBit (n - 1 - i)) else none := by
  by_cases hi : i < n
  case pos => simp [uintBits, hi]
  case neg => simp [uintBits, hi]

theorem mem_take_uintBits {value n k : Nat} {bit : Bool} :
    bit ∈ (uintBits value n).take k ↔ ∃ i < n, n ≤ i + k ∧ value.testBit i = bit := by
  simp only [List.mem_iff_getElem?, List.getElem?_take, uintBits_getElem?]
  constructor
  · rintro ⟨i, h⟩
    split_ifs at h with hk hn
    exact ⟨n - 1 - i, by omega, by omega, Option.some_inj.mp h⟩
  · rintro ⟨i, hn, hk, rfl⟩
    exact ⟨n - 1 - i, by rw [if_pos (by omega), if_pos (by omega), show n - 1 - (n - 1 - i) = i by omega]⟩

theorem uintBits_inj {value value' n : Nat} (small : value < 2 ^ n) (small' : value' < 2 ^ n)
    (same : uintBits value n = uintBits value' n) : value = value' := by
  refine Nat.eq_of_testBit_eq fun i => ?_
  by_cases hi : i < n
  case pos =>
    have bit := congrArg (·[n - 1 - i]?) same
    simp only [uintBits_getElem?] at bit
    rwa [if_pos (by omega), if_pos (by omega), Option.some_inj, show n - 1 - (n - 1 - i) = i by omega] at bit
  case neg =>
    have wide : 2 ^ n ≤ 2 ^ i := Nat.pow_le_pow_right (by decide) (not_lt.mp hi)
    rw [Nat.testBit_lt_two_pow (lt_of_lt_of_le small wide),
      Nat.testBit_lt_two_pow (lt_of_lt_of_le small' wide)]

-- Any bits are those of a number.
theorem exists_uintBits (bits : List Bool) : ∃ raw < 2 ^ bits.length, uintBits raw bits.length = bits := by
  refine ⟨(BitVec.ofBoolListBE bits).toNat, (BitVec.ofBoolListBE bits).isLt, List.ext_getElem? fun i => ?_⟩
  rw [uintBits_getElem?]
  by_cases hi : i < bits.length
  case pos =>
    have bit := @BitVec.getMsbD_ofBoolListBE bits i
    rw [BitVec.getMsbD, BitVec.getLsbD] at bit
    simp_all
  case neg => simp [hi]

-- The bytes in front of the last `most` are clear.
def ZeroLed (most : Nat) (body : List Bool) : Prop :=
  ∀ bit ∈ body.take (body.length - most * 8), bit = false

-- The bytes in front of the last `most` repeat the sign of these.
def SignLed (most : Nat) (body : List Bool) : Prop :=
  ∀ bit ∈ body.take (body.length - most * 8 + 1), bit = body.headD false

theorem lt_two_pow_iff_testBit {value k n : Nat} (small : value < 2 ^ n) :
    value < 2 ^ k ↔ ∀ i < n, k ≤ i → value.testBit i = false := by
  constructor
  · intro lt i _ le
    exact Nat.testBit_lt_two_pow (lt_of_lt_of_le lt (Nat.pow_le_pow_right (by decide) le))
  · intro clear
    refine Nat.lt_pow_two_of_testBit _ fun i le => ?_
    by_cases hi : i < n
    case pos => exact clear i hi le
    case neg =>
      have wide : 2 ^ n ≤ 2 ^ i := Nat.pow_le_pow_right (by decide) (not_lt.mp hi)
      exact Nat.testBit_lt_two_pow (lt_of_lt_of_le small wide)

theorem zeroLed_uintBits {raw n most : Nat} (small : raw < 2 ^ n) :
    ZeroLed most (uintBits raw n) ↔ raw < 2 ^ (most * 8) := by
  rw [lt_two_pow_iff_testBit small, ZeroLed, uintBits_length]
  simp only [mem_take_uintBits]
  constructor
  · exact fun led i hi le => led _ ⟨i, hi, by omega, rfl⟩
  · rintro clear _ ⟨i, hi, le, rfl⟩
    exact clear i hi (by omega)

-- A number is in the range of a signed field when all bits from the field's sign on are the same.
theorem toInt_bounds_iff {n : Nat} (x : BitVec n) (k : Nat) :
    -2 ^ k ≤ x.toInt ∧ x.toInt < 2 ^ k ↔ ∀ i < n, k ≤ i → x.getLsbD i = x.msb := by
  have half := Int.pow_pos (n := 2) (m := k) (by decide)
  by_cases neg : x.toInt < 0
  case pos =>
    have sign : x.msb = true := by rwa [BitVec.msb_eq_toInt, decide_eq_true_eq]
    have magnitude := toNat_not_of_neg neg
    have bounds : -2 ^ k ≤ x.toInt ∧ x.toInt < 2 ^ k ↔ (~~~x).toNat < 2 ^ k := by
      rw [← Int.ofNat_lt, magnitude]
      push_cast
      omega
    rw [bounds, lt_two_pow_iff_testBit (~~~x).isLt, sign]
    refine forall_congr' fun i => forall_congr' fun hi => forall_congr' fun _ => ?_
    have bit : (~~~x).toNat.testBit i = !x.getLsbD i := by
      rw [BitVec.testBit_toNat, BitVec.getLsbD_not]
      simp [hi]
    rw [bit]
    simp
  case neg =>
    have sign : x.msb = false := by rwa [BitVec.msb_eq_toInt, decide_eq_false_iff_not]
    have bounds : -2 ^ k ≤ x.toInt ∧ x.toInt < 2 ^ k ↔ x.toNat < 2 ^ k := by
      rw [← Int.ofNat_lt, toNat_of_nonneg neg]
      push_cast
      omega
    rw [bounds, lt_two_pow_iff_testBit x.isLt, sign]
    simp only [BitVec.testBit_toNat]

-- The bits of a length and of the bytes behind it.
def varBits (max len raw : Nat) : List Bool :=
  uintBits len ((max - 1).log2 + 1) ++ uintBits raw (len * 8)

section

variable {max : Nat}

theorem varBits_length (n raw : Nat) : (varBits max n raw).length = (max - 1).log2 + 1 + n * 8 := by
  simp [varBits]

theorem lenBits_le (small : max < 2 ^ 32) : (max - 1).log2 + 1 ≤ 32 := by
  by_cases zero : max - 1 = 0
  case pos => simp [zero]
  case neg => exact Nat.succ_le_iff.mpr ((Nat.log2_lt zero).mpr (by omega))

theorem lt_lenBits {len : Nat} (lt : len < max) : len < 2 ^ ((max - 1).log2 + 1) :=
  lt_of_le_of_lt (by omega) (Nat.lt_log2_self (n := max - 1))

theorem varBits_writes {len raw : Nat} {bytes : Store Unit} (small : max < 2 ^ 32) (lt : len < max)
    (h : Writes bytes (uintBits raw (len * 8)) [] ()) :
    Writes (do storeUint len ((max - 1).log2 + 1); bytes) (varBits max len raw) [] () :=
  (storeUint_writes ((lenBits_le small).trans (by decide)) (lt_lenBits lt)).seq h

-- The two halves of a variable integer, past the checks of its store.
theorem storeVarUint_halves {value : BitVec 128} (small : max < 2 ^ 32) (lt : byteLen value < max) :
    Writes (do
      storeUint (byteLen value) ((max - 1).log2 + 1)
      storeUint128 value.toNat (byteLen value * 8)) (varBits max (byteLen value) value.toNat) [] () := by
  have fits := byteLen_le_sixteen value
  exact varBits_writes small lt (storeUintOf_writes (by omega) (byteLen_le.mp le_rfl))

theorem storeVarInt_halves {value : BitVec 128} (small : max < 2 ^ 32) (lt : signedByteLen value < max) :
    Writes (do
      storeUint (signedByteLen value) ((max - 1).log2 + 1)
      storeInt128 value (signedByteLen value * 8))
      (varBits max (signedByteLen value) value.toNat) [] () := by
  have fits := signedByteLen_le_sixteen value
  exact varBits_writes small lt (storeIntOf_writes (by omega) ((signedByteLen_le fits).mp le_rfl))

theorem storeVarUint_writes {value : BitVec 128} (two : 2 ≤ max) (small : max < 2 ^ 32)
    (lt : byteLen value < max) :
    Writes (storeVarUint value max) (varBits max (byteLen value) value.toNat) [] () :=
  (((storeVarUint_halves small lt).roomFor (varBits_length ..).ge).failIf (by omega)).failIf (by omega)

theorem storeVarInt_writes {value : BitVec 128} (two : 2 ≤ max) (small : max < 2 ^ 32)
    (lt : signedByteLen value < max) :
    Writes (storeVarInt value max) (varBits max (signedByteLen value) value.toNat) [] () :=
  (((storeVarInt_halves small lt).roomFor (varBits_length ..).ge).failIf (by omega)).failIf (by omega)

variable {value : BitVec 128} {b b' : Builder}

-- The two checks that a store of a variable integer starts with.
theorem storeVarUint_lt (h : (storeVarUint value max).Ends b () b') : 2 ≤ max ∧ byteLen value < max := by
  simp only [storeVarUint, ends_bind, ends_failIf] at h
  obtain ⟨_, _, ⟨two, _⟩, _, _, ⟨lt, _⟩, _⟩ := h
  exact ⟨not_lt.mp two, not_le.mp lt⟩

theorem storeVarInt_lt (h : (storeVarInt value max).Ends b () b') :
    2 ≤ max ∧ signedByteLen value < max := by
  simp only [storeVarInt, ends_bind, ends_failIf] at h
  obtain ⟨_, _, ⟨two, _⟩, _, _, ⟨lt, _⟩, _⟩ := h
  exact ⟨not_lt.mp two, not_le.mp lt⟩

end

end Builder

namespace Slice

open Builder

variable {s s' : Slice} {max : Nat}

theorem uintAt_lt (data : Bytes) (start n : Nat) : uintAt data start n < 2 ^ n := by
  refine Nat.lt_pow_two_of_testBit _ fun i hi => ?_
  rw [uintAt_testBit, decide_eq_false (not_lt.mpr hi), Bool.false_and]

theorem loadUintOf_ends {width n value : Nat} (h : (loadUintOf width n).Ends s value s') :
    n ≤ width ∧ value < 2 ^ n ∧ s'.bit = s.bit + n := by
  simp only [loadUintOf, ends_bind, ends_failIf, ends_get, ends_pure] at h
  obtain ⟨_, _, ⟨le, rfl⟩, _, _, run, _, _, ⟨rfl, rfl⟩, rfl, rfl⟩ := h
  obtain ⟨_, rfl, rfl⟩ := advance_ends.mp run
  exact ⟨not_lt.mp le, uintAt_lt .., rfl⟩

theorem loadUintOf_ahead {width n value : Nat} (h : (loadUintOf width n).Ends s value s') :
    s.ahead = uintBits value n ++ s'.ahead := by
  simp only [loadUintOf, ends_bind, ends_failIf, ends_get, ends_pure] at h
  obtain ⟨_, _, ⟨_, rfl⟩, _, _, run, _, _, ⟨rfl, rfl⟩, rfl, rfl⟩ := h
  obtain ⟨room, rfl, rfl⟩ := advance_ends.mp run
  have front : s.ahead.take n = uintBits (uintAt (s.past n room).cell.data s.bit n) n := by
    refine List.ext_getElem? fun i => ?_
    rw [uintBits_getElem?, List.getElem?_take]
    by_cases hi : i < n
    case pos =>
      rw [if_pos hi, if_pos hi, ahead, List.getElem?_map, List.getElem?_range (by omega), uintAt_testBit]
      simp [show n - 1 - i < n by omega, show n - 1 - (n - 1 - i) = i by omega]
      rfl
    case neg => rw [if_neg hi, if_neg hi]
  rw [← front, ahead_past, List.take_append_drop]

-- A refused value rewinds the cursor and never ends.
theorem readVar_ends {r : Nat × Nat} : (readVar max).Ends s r s' ↔
    2 ≤ max ∧ ∃ len t, (loadUint ((max - 1).log2 + 1)).Ends s len t ∧ len * 8 < 2 ^ 32 ∧
      ∃ raw, (loadUint128 (len * 8)).Ends t raw s' ∧ (raw, len * 8) = r := by
  have rewinds (e : CellError) (start a : Slice) (r : Nat × Nat) (b : Slice) :
      ¬(do set start; throw e : Load (Nat × Nat)).Ends a r b := by
    simp [ends_bind]
  have body (start t : Slice) (len : Nat) :
      (if len * 8 ≥ 2 ^ 32 then (do set start; throw (.tooWide len 128) : Load (Nat × Nat))
        else tryCatch (do let raw ← loadUint128 (len * 8); return (raw, len * 8))
          fun err => do set start; throw err).Ends t r s' ↔
      len * 8 < 2 ^ 32 ∧ ∃ raw, (loadUint128 (len * 8)).Ends t raw s' ∧ (raw, len * 8) = r := by
    split
    case isTrue wide => exact iff_of_false (rewinds _ _ _ _ _) (by omega)
    case isFalse narrow =>
      rw [ends_tryCatch fun e => rewinds e start, ends_bind, and_iff_right (not_le.mp narrow)]
      exact ⟨fun ⟨raw, t, run, same⟩ => ⟨raw, (ends_pure.mp same).right ▸ run, (ends_pure.mp same).left⟩,
        fun ⟨raw, run, same⟩ => ⟨raw, s', run, ends_pure.mpr ⟨same, rfl⟩⟩⟩
  rw [readVar, ends_bind]
  constructor
  · rintro ⟨_, _, check, h⟩
    obtain ⟨two, rfl⟩ := ends_failIf.mp check
    have ⟨start, t, here, h⟩ := ends_bind.mp h
    obtain ⟨rfl, rfl⟩ := ends_get.mp here
    have ⟨len, t, length, h⟩ := ends_bind.mp h
    exact ⟨not_lt.mp two, len, t, length, (body _ _ _).mp h⟩
  · rintro ⟨two, len, t, length, value⟩
    refine ⟨(), s, ends_failIf.mpr ⟨not_lt.mpr two, rfl⟩, ends_bind.mpr ⟨s, s, by simp, ?_⟩⟩
    exact ends_bind.mpr ⟨len, t, length, (body s t len).mpr value⟩

-- The bits that a variable integer at the front of others is read from: a length, and as many bytes.
structure Spells (max len : Nat) (body bits : List Bool) : Prop where
  spelled : len < 2 ^ ((max - 1).log2 + 1)
  le      : len ≤ 16
  length  : body.length = len * 8
  front   : uintBits len ((max - 1).log2 + 1) ++ body <+: bits

theorem Spells.unique {len len' : Nat} {body body' bits : List Bool} (h : Spells max len body bits)
    (h' : Spells max len' body' bits) : body = body' := by
  obtain ⟨rest, same⟩ := h.front
  obtain ⟨rest', same'⟩ := h'.front
  rw [← same', List.append_assoc, List.append_assoc] at same
  obtain ⟨lens, rests⟩ := List.append_inj same (by simp)
  obtain rfl : len = len' := uintBits_inj h.spelled h'.spelled lens
  exact (List.append_inj rests (h.length.trans h'.length.symm)).left

theorem readVar_spent {raw n : Nat} (h : (readVar max).Ends s (raw, n) s') :
    ∃ len, n = len * 8 ∧ raw < 2 ^ n ∧ Spells max len (uintBits raw n) s.ahead ∧
      s'.bit = s.bit + ((max - 1).log2 + 1 + n) := by
  obtain ⟨_, len, t, length, _, raw', bytes, pair⟩ := readVar_ends.mp h
  obtain ⟨rfl, rfl⟩ := Prod.mk.inj pair
  have ⟨_, spelled, passed⟩ := loadUintOf_ends length
  have ⟨narrow, fits, passed'⟩ := loadUintOf_ends bytes
  have ahead := loadUintOf_ahead length
  rw [loadUintOf_ahead bytes, ← List.append_assoc] at ahead
  exact ⟨len, rfl, fits, ⟨spelled, by omega, uintBits_length .., ⟨_, ahead.symm⟩⟩, by omega⟩

-- What is read from a signed field fits that field.
theorem signExtend_fits {width bits : Nat} (raw : Nat) (le : bits ≤ width) :
    outOfField (signExtend width raw bits) bits = false := by
  by_cases none : bits = 0
  case pos => simp [outOfField, signExtend, none]
  case neg =>
    rw [fits_iff none le, signExtend_eq raw none le, BitVec.toInt_signExtend_of_le le]
    exact ⟨BitVec.le_toInt _, BitVec.toInt_lt⟩

theorem signLed_uintBits {raw len most : Nat} (pos : 1 ≤ most) (le : len ≤ 16) :
    SignLed most (uintBits raw (len * 8)) ↔ signedByteLen (signExtend 128 raw (len * 8)) ≤ most := by
  have top (some : len ≠ 0) : (uintBits raw (len * 8)).headD false = raw.testBit (len * 8 - 1) := by
    rw [List.headD_eq_head?_getD, List.head?_eq_getElem?, uintBits_getElem?, if_pos (by omega)]
    rfl
  have own := (signedByteLen_le le).mpr (signExtend_fits raw (by omega : len * 8 ≤ 128))
  by_cases wide : len ≤ most
  case pos =>
    refine iff_of_true (fun bit mem => ?_) (own.trans wide)
    rw [uintBits_length] at mem
    obtain ⟨i, hi, front, rfl⟩ := mem_take_uintBits.mp mem
    rw [top (by omega), show i = len * 8 - 1 by omega]
  case neg =>
    rw [signedByteLen_le (by omega), fits_iff (by omega) (by omega), signExtend_eq raw (by omega) (by omega),
      BitVec.toInt_signExtend_of_le (by omega), toInt_bounds_iff, BitVec.msb_eq_getLsbD_last,
      SignLed, uintBits_length, top (by omega)]
    simp only [mem_take_uintBits, BitVec.getLsbD_ofNat]
    constructor
    · intro led i hi front
      simp [hi, led _ ⟨i, hi, by omega, rfl⟩, show len * 8 - 1 < len * 8 by omega]
    · rintro same _ ⟨i, hi, front, rfl⟩
      simpa [hi, show len * 8 - 1 < len * 8 by omega] using same i hi (by omega)

theorem readVar_reads (raw : Nat) {len : Nat} (two : 2 ≤ max) (small : max < 2 ^ 32)
    (fits : len < 2 ^ ((max - 1).log2 + 1)) (le : len ≤ 16) :
    Reads (readVar max) (varBits max len raw) [] (raw % 2 ^ (len * 8), len * 8) := by
  intro s rest restRefs hb hr
  rw [varBits, List.append_assoc] at hb
  have bits := lenBits_le small
  have ⟨t, length, tb, tr⟩ := loadUint_reads (bits.trans (by decide)) fits s _ restRefs hb hr
  have ⟨s', value, sb, sr⟩ := loadUintOf_reads_mod raw (by omega : len * 8 ≤ 128) t rest restRefs tb tr
  exact ⟨s', readVar_ends.mpr ⟨two, len, t, length, by omega, _, value, rfl⟩, sb, sr⟩

theorem Spells.readVar {len : Nat} {body : List Bool} (two : 2 ≤ max) (small : max < 2 ^ 32)
    (h : Spells max len body s.ahead) : ∃ r s', (readVar max).Ends s r s' := by
  obtain ⟨raw, _, same⟩ := exists_uintBits body
  obtain ⟨rest, ahead⟩ := h.front
  rw [← same, h.length] at ahead
  obtain ⟨s', run, _⟩ := readVar_reads raw two small h.spelled h.le s rest s.refsAhead ahead.symm rfl
  exact ⟨_, s', run⟩

-- `load_var_uint` as it is typed.
def loadVarU128 (max : Nat) : Load (BitVec 128) := do
  let raw ← loadVarUint max
  return BitVec.ofNat 128 raw

theorem loadVarUint_reads {value : BitVec 128} {len : Nat} (two : 2 ≤ max) (small : max < 2 ^ 32)
    (spelled : len < 2 ^ ((max - 1).log2 + 1)) (le : len ≤ 16) (fits : byteLen value ≤ len) :
    Reads (loadVarUint max) (varBits max len value.toNat) [] value.toNat := by
  have h := (readVar_reads value.toNat two small spelled le).map Prod.fst
  rwa [Nat.mod_eq_of_lt (byteLen_le.mp fits)] at h

theorem loadVarU128_reads {value : BitVec 128} {len : Nat} (two : 2 ≤ max) (small : max < 2 ^ 32)
    (spelled : len < 2 ^ ((max - 1).log2 + 1)) (le : len ≤ 16) (fits : byteLen value ≤ len) :
    Reads (loadVarU128 max) (varBits max len value.toNat) [] value := by
  have h := (loadVarUint_reads two small spelled le fits).map (BitVec.ofNat 128)
  rwa [BitVec.ofNat_toNat, BitVec.setWidth_eq] at h

theorem loadVarInt_reads {value : BitVec 128} {len : Nat} (two : 2 ≤ max) (small : max < 2 ^ 32)
    (spelled : len < 2 ^ ((max - 1).log2 + 1)) (le : len ≤ 16) (fits : signedByteLen value ≤ len) :
    Reads (loadVarInt max) (varBits max len value.toNat) [] value := by
  have h := (readVar_reads value.toNat two small spelled le).map fun p => signExtend 128 p.1 p.2
  rwa [signExtend_of_fits (by omega) ((signedByteLen_le le).mp fits)] at h

end Slice

-- A reader and a writer of variable integers of which `len` is the fewest bytes. That these are not
-- more than `max - 1` is seen by the bytes in front of the last `max - 1`.
structure VarCodec (max : Nat) (load : Load (BitVec 128)) (store : BitVec 128 → Store Unit)
    (len : BitVec 128 → Nat) (led : Nat → List Bool → Prop) : Prop where
  spent   : ∀ {s value s'}, load.Ends s value s' → ∃ n body, Slice.Spells max n body s.ahead ∧
    len value ≤ n ∧ (led (max - 1) body ↔ len value ≤ max - 1) ∧
    s'.bit = s.bit + ((max - 1).log2 + 1 + n * 8)
  returns : ∀ {s n body}, Slice.Spells max n body s.ahead → ∃ value s', load.Ends s value s'
  reads   : ∀ {value n}, len value ≤ n → n ≤ 16 → n < 2 ^ ((max - 1).log2 + 1) →
    Slice.Reads load (Builder.varBits max n value.toNat) [] value
  le      : ∀ value, len value ≤ 16
  writes  : ∀ {value}, len value < max →
    Builder.Writes (store value) (Builder.varBits max (len value) value.toNat) [] ()
  refuses : ∀ {value b b'}, (store value).Ends b () b' → len value < max
  spells  : ∀ {n}, 1 ≤ n → n ≤ 16 → ∃ value, len value = n

section Codec

open Builder Slice

variable {max : Nat}

theorem varUint_codec (two : 2 ≤ max) (small : max < 2 ^ 32) :
    VarCodec max (loadVarU128 max) (storeVarUint · max) byteLen ZeroLed where
  spent   := by
    intro s value s' h
    have ⟨_, t, loaded, same⟩ := ends_bind.mp h
    have ⟨⟨raw, n⟩, t, run, same'⟩ := ends_bind.mp loaded
    obtain ⟨rfl, rfl⟩ := ends_pure.mp same'
    obtain ⟨rfl, rfl⟩ := ends_pure.mp same
    obtain ⟨len, rfl, fits, spells, passed⟩ := readVar_spent run
    have whole : 2 ^ (len * 8) ≤ 2 ^ 128 := Nat.pow_le_pow_right (by decide) (by have := spells.le; omega)
    have same : (BitVec.ofNat 128 raw).toNat = raw := by
      rw [BitVec.toNat_ofNat, Nat.mod_eq_of_lt (lt_of_lt_of_le fits whole)]
    refine ⟨len, _, spells, byteLen_le.mpr (same.symm ▸ fits), ?_, passed⟩
    rw [zeroLed_uintBits fits, byteLen_le, same]
  returns := by
    intro s n body spells
    obtain ⟨⟨raw, _⟩, s', run⟩ := spells.readVar two small
    exact ⟨BitVec.ofNat 128 raw, s', ends_bind.mpr ⟨raw, s', ends_bind.mpr ⟨_, s', run, by simp⟩, by simp⟩⟩
  reads   := fun fits le spelled => loadVarU128_reads two small spelled le fits
  le      := byteLen_le_sixteen
  writes  := storeVarUint_writes two small
  refuses := fun h => (storeVarUint_lt h).right
  spells  := by
    intro n pos le
    have bound : 2 ^ (n * 8 - 1) < 2 ^ 128 := Nat.pow_lt_pow_right (by decide) (by omega)
    have value : (BitVec.ofNat 128 (2 ^ (n * 8 - 1))).toNat = 2 ^ (n * 8 - 1) := by
      rw [BitVec.toNat_ofNat, Nat.mod_eq_of_lt bound]
    refine ⟨BitVec.ofNat 128 (2 ^ (n * 8 - 1)), le_antisymm (byteLen_le.mpr ?_) ?_⟩
    · rw [value]
      exact Nat.pow_lt_pow_right (by decide) (by omega)
    · by_contra fewer
      have small := byteLen_le.mp (Nat.le_sub_one_of_lt (not_le.mp fewer))
      rw [value] at small
      have := (Nat.pow_lt_pow_iff_right (by decide)).mp small
      omega

theorem varInt_codec (two : 2 ≤ max) (small : max < 2 ^ 32) :
    VarCodec max (loadVarInt max) (storeVarInt · max) signedByteLen SignLed where
  spent   := by
    intro s value s' h
    have ⟨⟨raw, n⟩, t, run, same⟩ := ends_bind.mp h
    obtain ⟨rfl, rfl⟩ := ends_pure.mp same
    obtain ⟨len, rfl, _, spells, passed⟩ := readVar_spent run
    have le := spells.le
    have fits := (signedByteLen_le le).mpr (signExtend_fits raw (by omega : len * 8 ≤ 128))
    exact ⟨len, _, spells, fits, signLed_uintBits (by omega) le, passed⟩
  returns := by
    intro s n body spells
    obtain ⟨⟨raw, bits⟩, s', run⟩ := spells.readVar two small
    exact ⟨signExtend 128 raw bits, s', ends_bind.mpr ⟨_, s', run, by simp⟩⟩
  reads   := fun fits le spelled => loadVarInt_reads two small spelled le fits
  le      := signedByteLen_le_sixteen
  writes  := storeVarInt_writes two small
  refuses := fun h => (storeVarInt_lt h).right
  spells  := by
    intro n pos le
    have bound : 2 ^ (n * 8 - 2) < 2 ^ 127 := Nat.pow_lt_pow_right (by decide) (by omega)
    have value : (BitVec.ofNat 128 (2 ^ (n * 8 - 2))).toInt = 2 ^ (n * 8 - 2) := by
      have low : (BitVec.ofNat 128 (2 ^ (n * 8 - 2))).toNat = 2 ^ (n * 8 - 2) := by
        rw [BitVec.toNat_ofNat, Nat.mod_eq_of_lt (by omega)]
      rw [BitVec.toInt_eq_toNat_of_lt (by omega), low]
      push_cast
      rfl
    have double : (2 : Int) ^ (n * 8 - 1) = 2 * 2 ^ (n * 8 - 2) := by
      rw [← pow_succ', show n * 8 - 2 + 1 = n * 8 - 1 by omega]
    have half := Int.pow_pos (n := 2) (m := n * 8 - 2) (by decide)
    refine ⟨BitVec.ofNat 128 (2 ^ (n * 8 - 2)), le_antisymm ((signedByteLen_le le).mpr ?_) ?_⟩
    · rw [fits_iff (by omega) (by omega), value]
      omega
    · by_contra fewer
      have small := (signedByteLen_le (by omega)).mp (Nat.le_sub_one_of_lt (not_le.mp fewer))
      by_cases one : n = 1
      case pos =>
        subst one
        exact absurd small (by decide)
      case neg =>
        rw [fits_iff (by omega) (by omega), value] at small
        have := (pow_lt_pow_iff_right₀ (by decide)).mp small.right
        omega

end Codec

section Restores

open Builder Slice

variable [Sha256] {max : Nat} {load : Load (BitVec 128)} {store : BitVec 128 → Store Unit}
  {len : BitVec 128 → Nat} {led : Nat → List Bool → Prop} {s : Slice}

-- What the reader returns the writer takes, in no more bits, and it is read back.
def Restores (load : Load (BitVec 128)) (store : BitVec 128 → Store Unit) (s : Slice) : Prop :=
  ∀ value s', load.Ends s value s' → ∃ b c, (store value).Ends .new () b ∧ s.bit + b.bits ≤ s'.bit ∧
    b.build = .ok c ∧ load.value c.parse = .ok value

-- Both of them have the numbers of at most `most` bytes.
def Spans (load : Load (BitVec 128)) (store : BitVec 128 → Store Unit) (len : BitVec 128 → Nat)
    (most : Nat) : Prop :=
  ∀ value, ((∃ s s', load.Ends s value s') ↔ len value ≤ most) ∧
    ((∃ b b', (store value).Ends b () b') ↔ len value ≤ most)

-- There is a cell with any bits that fit one.
theorem exists_makes (bits : List Bool) (le : bits.length ≤ maxBits) : ∃ c, Makes bits [] c := by
  have ⟨b, toBits, refs⟩ := exists_of_bits bits [] le (Nat.zero_le _)
  have ⟨c, built, _⟩ := b.build_ok (by simp [refs])
  exact ⟨c, b, toBits, refs, built⟩

theorem Slice.Reads.value {α : Type} {x : Load α} {a : α} {c : Cell} {bits : List Bool}
    {refs : List Cell} (h : Reads x bits refs a) (makes : Makes bits refs c) :
    ∃ s, x.Ends c.parse a s ∧ s.ahead = [] ∧ s.refsAhead = [] := by
  have ⟨_, same, refs⟩ := makes.cell
  exact h c.parse [] [] (by simp [same]) (by simp [refs])

namespace VarCodec

variable (codec : VarCodec max load store len led) (small : max < 2 ^ 32)
include codec small

-- A number of fewer than `max` bytes is stored, and read back.
theorem stores {value : BitVec 128} (lt : len value < max) : ∃ b c, (store value).Ends .new () b ∧
    b.bits = (max - 1).log2 + 1 + len value * 8 ∧ b.build = .ok c ∧ ∃ s, load.Ends c.parse value s := by
  have bits := lenBits_le small
  have room := codec.le value
  obtain ⟨b, stored, toBits, refs⟩ := (codec.writes lt).ends (b := .new)
    (by rw [varBits_length, new_bits, maxBits]; omega) (Nat.zero_le _)
  obtain ⟨c, built, _⟩ := b.build_ok (by simp [refs])
  have makes : Makes (varBits max (len value) value.toNat) [] c := ⟨b, toBits, refs, built⟩
  obtain ⟨s, back, _⟩ := (codec.reads le_rfl room (lt_lenBits lt)).value makes
  have count := congrArg List.length toBits
  rw [toBits_length, toBits_new, List.nil_append, varBits_length] at count
  exact ⟨b, c, stored, count, built, s, back⟩

theorem restores_iff (two : 2 ≤ max) :
    Restores load store s ↔ ∀ n body, Spells max n body s.ahead → led (max - 1) body := by
  constructor
  · intro restores n body spells
    obtain ⟨value, s', read⟩ := codec.returns spells
    obtain ⟨_, _, spells', _, settled, _⟩ := codec.spent read
    obtain ⟨b, _, stored, _⟩ := restores value s' read
    rw [spells.unique spells', settled]
    exact Nat.le_sub_one_of_lt (codec.refuses stored)
  · intro all value s' read
    obtain ⟨n, body, spells, le, settled, passed⟩ := codec.spent read
    have fits := settled.mp (all n body spells)
    obtain ⟨b, c, stored, count, built, _, back⟩ := codec.stores small (by omega : len value < max)
    exact ⟨b, c, stored, by omega, built, value_of_ends back⟩

-- The length field spells `max` itself, unless `max` is a power of two.
theorem spans_iff (two : 2 ≤ max) : Spans load store len (max - 1) ↔ (∃ k, max = 2 ^ k) ∨ 16 < max := by
  have bits := lenBits_le small
  constructor
  · intro spans
    by_contra none
    obtain ⟨slack, le⟩ := not_or.mp none
    have spelled : max < 2 ^ ((max - 1).log2 + 1) := by
      have := Nat.lt_log2_self (n := max - 1)
      have : max ≠ 2 ^ ((max - 1).log2 + 1) := fun same => slack ⟨_, same⟩
      omega
    obtain ⟨value, same⟩ := codec.spells (n := max) (by omega) (by omega)
    obtain ⟨c, makes⟩ := exists_makes (varBits max max value.toNat) (by rw [varBits_length, maxBits]; omega)
    obtain ⟨s, read, _⟩ := (codec.reads same.le (by omega) spelled).value makes
    have := (spans value).left.mp ⟨_, s, read⟩
    omega
  · intro whole value
    have taken (le : len value ≤ max - 1) :
        (∃ s s', load.Ends s value s') ∧ ∃ b b', (store value).Ends b () b' := by
      obtain ⟨b, _, stored, _, _, s, read⟩ := codec.stores small (by omega : len value < max)
      exact ⟨⟨_, s, read⟩, _, b, stored⟩
    refine ⟨⟨?_, fun le => (taken le).left⟩, ?_, fun le => (taken le).right⟩
    · rintro ⟨s, s', read⟩
      obtain ⟨n, _, spells, le, _⟩ := codec.spent read
      have spelled := spells.spelled
      have most := spells.le
      obtain ⟨k, rfl⟩ | large := whole
      case inl =>
        have exact : (2 ^ k - 1).log2 < k := (Nat.log2_lt (by omega)).mpr (by omega)
        have := lt_of_lt_of_le spelled (Nat.pow_le_pow_right (by decide) exact)
        omega
      case inr => omega
    · rintro ⟨b, b', stored⟩
      exact Nat.le_sub_one_of_lt (codec.refuses stored)

end VarCodec

-- A number that is read can be stored back unless its length, of `max` bytes or more, is needed, and
-- there are such lengths unless `max` is a power of two or more bytes than there are.
theorem varInteger_restores_iff (two : 2 ≤ max) (small : max < 2 ^ 32) :
    (∀ s : Slice,
      (Restores (loadVarU128 max) (storeVarUint · max) s ↔
        ∀ len body, Spells max len body s.ahead → ZeroLed (max - 1) body) ∧
      (Restores (loadVarInt max) (storeVarInt · max) s ↔
        ∀ len body, Spells max len body s.ahead → SignLed (max - 1) body)) ∧
    (Spans (loadVarU128 max) (storeVarUint · max) byteLen (max - 1) ∧
      Spans (loadVarInt max) (storeVarInt · max) signedByteLen (max - 1) ↔
        (∃ k, max = 2 ^ k) ∨ 16 < max) := by
  have unsigned := varUint_codec two small
  have signed := varInt_codec two small
  refine ⟨fun s => ⟨unsigned.restores_iff small two, signed.restores_iff small two⟩, ?_⟩
  rw [unsigned.spans_iff small two, signed.spans_iff small two, and_self_iff]

end Restores

section Sized

open Builder Slice

attribute [local instance] Sha256.standard

-- Four bytes behind three clear ones, under a length of seven, for a type of at most four bytes.
theorem varInteger_restores_padded : ∃ c, Makes (varBits 5 7 0x01020304) [] c ∧
    (∃ value s, (loadVarU128 5).Ends c.parse value s) ∧ Restores (loadVarU128 5) (storeVarUint · 5) c.parse := by
  obtain ⟨c, makes⟩ := exists_makes (varBits 5 7 0x01020304) (by rw [varBits_length]; decide)
  have spells : Spells 5 7 (uintBits 0x01020304 56) c.parse.ahead := by
    rw [Cell.parse_ahead, makes.cell.right.left]
    exact ⟨by decide, by decide, rfl, List.prefix_rfl⟩
  refine ⟨c, makes, (varUint_codec (by decide) (by decide)).returns spells, ?_⟩
  rw [((varInteger_restores_iff (by decide) (by decide)).left c.parse).left]
  intro len body here
  rw [← spells.unique here]
  unfold ZeroLed
  decide

-- A length of seven in the three bits that a type of at most four bytes has for it.
def sizedRun : Option (Nat × Except CellError Unit) := do
  let (_, b) ← ((do storeUint 7 3; storeUint (2 ^ 56 - 1) 56 : Store Unit).call .new).toOption
  let c ← b.build.toOption
  let (value, _) ← ((loadVarU128 5).call c.parse).toOption
  return (value.toNat, (storeVarUint value 5).value .new)

theorem varInteger_sized : ∃ (c : Cell) (value : BitVec 128) (s : Slice),
    (loadVarU128 5).Ends c.parse value s ∧ value.toNat = 2 ^ 56 - 1 ∧
    (storeVarUint value 5).value .new = .error (.malformed "value is too wide for this VarUInteger") := by
  have run : sizedRun =
      some (2 ^ 56 - 1, .error (.malformed "value is too wide for this VarUInteger")) := by
    decide +kernel
  simp only [sizedRun, Option.bind_eq_bind, Option.bind_eq_some_iff, toOption_eq_some, Option.pure_def,
    Option.some_inj, Prod.mk.injEq, Prod.exists] at run
  obtain ⟨_, b, _, c, _, value, s, read, same, refused⟩ := run
  exact ⟨c, value, s, call_eq_ok.mp read, same, refused⟩

end Sized

end TonNet
