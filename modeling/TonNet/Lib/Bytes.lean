import TonNet.Lib.Lists
import Mathlib.Data.Bool.Basic
import Mathlib.Data.List.Induction
import Mathlib.Data.List.Lex
import Mathlib.Data.Nat.Bitwise

-- Byte strings: big-endian numbers and single bits.

abbrev Bytes := List UInt8

namespace Bytes

-- The `width` bytes of a number, most significant first, dropping what does not fit.
def be : (width n : Nat) → Bytes
  | 0,         _ => []
  | width + 1, n => be width (n / 256) ++ [UInt8.ofNat n]

-- The number a byte string spells, most significant byte first.
def ofBe (data : Bytes) : Nat :=
  data.foldl (fun acc byte => acc * 256 + byte.toNat) 0

-- Bit `i` of a byte string, counting from the most significant bit of its first byte.
def bitAt (data : Bytes) (i : Nat) : Bool :=
  (data.getD (i / 8) 0).toNat.testBit (7 - i % 8)

@[simp]
theorem be_length (width n : Nat) : (be width n).length = width := by
  induction width generalizing n
  case zero => rfl
  case succ hi => simp [be, hi]

theorem be_add (front back n : Nat) :
    be (front + back) n = be front (n / 256 ^ back) ++ be back n := by
  induction back generalizing n
  case zero => simp [be]
  case succ back hi =>
    rw [← Nat.add_assoc, be, hi, be, Nat.div_div_eq_div_mul, Nat.pow_succ', List.append_assoc]

theorem ofBe_append (data : Bytes) (byte : UInt8) :
    ofBe (data ++ [byte]) = ofBe data * 256 + byte.toNat := by
  simp [ofBe]

theorem ofBe_be (width n : Nat) : ofBe (be width n) = n % 256 ^ width := by
  induction width generalizing n
  case zero => simp [be, ofBe, Nat.mod_one]
  case succ width hi =>
    have split : n % 256 ^ (width + 1) = n % 256 + 256 * (n / 256 % 256 ^ width) := by
      rw [Nat.pow_succ', Nat.mod_mul]
    rw [be, ofBe_append, hi, split, UInt8.toNat_ofNat']
    omega

theorem be_ofBe (data : Bytes) : be data.length (ofBe data) = data := by
  induction data using List.reverseRecOn
  case nil => rfl
  case append_singleton data byte hi =>
    have small := byte.toNat_lt
    have quotient : (ofBe data * 256 + byte.toNat) / 256 = ofBe data := by omega
    have last : UInt8.ofNat (ofBe data * 256 + byte.toNat) = byte := by
      apply UInt8.toNat_inj.mp
      rw [UInt8.toNat_ofNat']
      omega
    rw [List.length_append, List.length_singleton, be, ofBe_append, quotient, hi, last]

theorem ofBe_lt (data : Bytes) : ofBe data < 256 ^ data.length := by
  rw [← be_ofBe data, ofBe_be, be_length]
  exact Nat.mod_lt _ (Nat.pow_pos (by decide))

theorem be_inj {width m n : Nat} (hm : m < 256 ^ width) (hn : n < 256 ^ width)
    (h : be width m = be width n) : m = n := by
  have := congrArg ofBe h
  rwa [ofBe_be, ofBe_be, Nat.mod_eq_of_lt hm, Nat.mod_eq_of_lt hn] at this

theorem bitAt_of_length_le {data : Bytes} {i : Nat} (h : 8 * data.length ≤ i) :
    bitAt data i = false := by
  rw [bitAt, List.getD_eq_default _ _ (by omega)]
  simp

theorem bitAt_append_left {a : Bytes} (b : Bytes) {i : Nat} (h : i < 8 * a.length) :
    bitAt (a ++ b) i = bitAt a i := by
  rw [bitAt, bitAt, List.getD_append _ _ _ _ (by omega)]

theorem bitAt_append_right (a b : Bytes) (i : Nat) :
    bitAt (a ++ b) (8 * a.length + i) = bitAt b i := by
  have div : (8 * a.length + i) / 8 - a.length = i / 8 := by omega
  have mod : (8 * a.length + i) % 8 = i % 8 := by omega
  rw [bitAt, bitAt, List.getD_append_right _ _ _ _ (by omega), div, mod]

theorem bitAt_singleton (byte : UInt8) {i : Nat} (h : i < 8) :
    bitAt [byte] i = byte.toNat.testBit (7 - i) := by
  rw [bitAt, Nat.div_eq_of_lt h, Nat.mod_eq_of_lt h]
  rfl

-- Byte strings of one length are equal when they have the same bits.
theorem ext_bitAt {a b : Bytes} (hl : a.length = b.length)
    (h : ∀ i < 8 * a.length, bitAt a i = bitAt b i) : a = b := by
  apply List.ext_getElem hl
  intro j hj hj'
  apply UInt8.toNat_inj.mp
  apply Nat.eq_of_testBit_eq
  intro k
  by_cases hk : k < 8
  case pos =>
    have := h (8 * j + (7 - k)) (by omega)
    have div : (8 * j + (7 - k)) / 8 = j := by omega
    have mod : 7 - (8 * j + (7 - k)) % 8 = k := by omega
    rw [bitAt, bitAt, div, mod, List.getD_eq_getElem _ _ hj, List.getD_eq_getElem _ _ hj'] at this
    exact this
  case neg =>
    have hpow : 2 ^ 8 ≤ 2 ^ k := Nat.pow_le_pow_right (by decide) (by omega)
    have ha := a[j].toNat_lt
    have hb := b[j].toNat_lt
    rw [Nat.testBit_lt_two_pow (by omega), Nat.testBit_lt_two_pow (by omega)]

-- Bits of a big-endian number, most significant first.
theorem bitAt_be {width n i : Nat} (h : i < 8 * width) :
    bitAt (be width n) i = n.testBit (8 * width - 1 - i) := by
  induction width generalizing n
  case zero => omega
  case succ width hi =>
    rw [be]
    by_cases hw : i < 8 * width
    case pos =>
      have shift : 8 * (width + 1) - 1 - i = 8 * width - 1 - i + 8 := by omega
      rw [bitAt_append_left _ (by simpa using hw), hi hw, shift,
        show (256 : Nat) = 2 ^ 8 by rfl, Nat.testBit_div_two_pow]
    case neg =>
      obtain ⟨j, rfl⟩ := Nat.exists_eq_add_of_le (not_lt.mp hw)
      have split := bitAt_append_right (be width (n / 256)) [UInt8.ofNat n] j
      rw [be_length] at split
      have last : 8 * (width + 1) - 1 - (8 * width + j) = 7 - j := by omega
      rw [split, bitAt_singleton _ (by omega), UInt8.toNat_ofNat', Nat.testBit_mod_two_pow, last]
      simp
      omega

-- Setting one bit leaves the others.
theorem bitAt_modify {data : Bytes} {index : Nat} (h : index / 8 < data.length) (i : Nat) :
    bitAt (data.modify (index / 8) (· ||| UInt8.ofNat (1 <<< (7 - index % 8)))) i =
      (decide (i = index) || data.bitAt i) := by
  have hlt : 7 - index % 8 < 8 := by omega
  have hpow : 1 <<< (7 - index % 8) < 256 := by
    rw [Nat.one_shiftLeft]
    exact Nat.pow_lt_pow_right (by decide) hlt
  have mask (k : Nat) : (UInt8.ofNat (1 <<< (7 - index % 8))).toNat.testBit k =
      decide (7 - index % 8 = k) := by
    rw [UInt8.toNat_ofNat', Nat.mod_eq_of_lt hpow, Nat.one_shiftLeft, Nat.testBit_two_pow]
  simp only [bitAt, List.getD_eq_getElem?_getD, List.getElem?_modify]
  by_cases hi : index / 8 = i / 8
  case pos =>
    have hin : i / 8 < data.length := by omega
    simp only [hi, if_true, List.getElem?_eq_getElem hin, Option.map_eq_map, Option.map_some,
      Option.getD_some, UInt8.toNat_or, Nat.testBit_or, mask]
    rw [Bool.or_comm]
    congr 1
    rw [decide_eq_decide]
    omega
  case neg =>
    have : i ≠ index := by rintro rfl; exact hi rfl
    simp [hi, this]

-- A byte string as its bits, eight to a byte.
def toBits (data : Bytes) : List Bool :=
  (List.range (8 * data.length)).map data.bitAt

@[simp]
theorem toBits_length (data : Bytes) : data.toBits.length = 8 * data.length := by
  simp [toBits]

theorem toBits_append (a b : Bytes) : toBits (a ++ b) = a.toBits ++ b.toBits := by
  simp only [toBits, List.length_append, Nat.mul_add, List.range_add, List.map_append, List.map_map]
  congr 1
  · exact List.map_congr_left fun i hi => bitAt_append_left b (List.mem_range.mp hi)
  · exact List.map_congr_left fun i _ => bitAt_append_right a b i

theorem toBits_flatMap {α : Type} (f : α → Bytes) (l : List α) :
    toBits (l.flatMap f) = l.flatMap fun a => (f a).toBits := by
  induction l
  case nil => rfl
  case cons a l hi => rw [List.flatMap_cons, toBits_append, hi, List.flatMap_cons]

theorem toBits_be (width n : Nat) :
    toBits (be width n) = (List.range (8 * width)).reverse.map n.testBit := by
  apply List.ext_getElem (by simp)
  intro i h _
  have hi : i < 8 * width := by simpa using h
  simp [toBits, bitAt_be hi, List.getElem_reverse]

theorem toBits_inj {a b : Bytes} (h : a.toBits = b.toBits) : a = b := by
  have hl : a.length = b.length := by
    have := congrArg List.length h
    simp only [toBits_length] at this
    omega
  refine ext_bitAt hl fun i hi => ?_
  have := congrArg (·[i]?) h
  simpa [toBits, hi, hl ▸ hi] using this

-- Numbers with the same bits from `n` up compare as their bits below.
theorem lt_of_bits_lt {v w : Nat} (n : Nat) (above : ∀ i ≥ n, v.testBit i = w.testBit i)
    (h : (List.range n).reverse.map v.testBit < (List.range n).reverse.map w.testBit) : v < w := by
  induction n
  case zero => simp at h
  case succ n hi =>
    simp only [List.range_succ, List.reverse_append, List.reverse_singleton, List.singleton_append,
      List.map_cons, List.cons_lt_cons_iff] at h
    cases h
    case inl differ =>
      have ⟨clear, set⟩ := Bool.lt_iff.mp differ
      exact Nat.lt_of_testBit n clear set fun i lt => above i lt
    case inr same =>
      refine hi (fun i le => ?_) same.right
      obtain rfl | lt := Nat.eq_or_lt_of_le le
      · exact same.left
      · exact above i lt

theorem byte_lt_iff {x y : UInt8} : x < y ↔ toBits [x] < toBits [y] := by
  have spelled (x : UInt8) : toBits [x] = (List.range 8).reverse.map x.toNat.testBit := by
    have := toBits_be 1 x.toNat
    rwa [be, be, List.nil_append, UInt8.ofNat_toNat] at this
  have less {x y : UInt8} (h : toBits [x] < toBits [y]) : x < y := by
    rw [spelled, spelled] at h
    refine UInt8.lt_iff_toNat_lt.mpr (lt_of_bits_lt 8 (fun i le => ?_) h)
    have small (z : UInt8) : z.toNat < 2 ^ i :=
      lt_of_lt_of_le z.toNat_lt (Nat.pow_le_pow_right (by decide) le)
    rw [Nat.testBit_lt_two_pow (small x), Nat.testBit_lt_two_pow (small y)]
  refine ⟨fun h => ?_, less⟩
  by_contra not
  obtain same | gt := eq_or_lt_of_le (not_lt.mp not)
  · have := List.cons.inj (toBits_inj same)
    simp [this.left] at h
  · exact absurd (less gt) (UInt8.lt_asymm h)

-- Byte strings are in the order of their bits.
theorem lt_iff_toBits_lt {a b : Bytes} : a < b ↔ a.toBits < b.toBits := by
  induction a generalizing b
  case nil =>
    cases b
    case nil => simp
    case cons y b =>
      have ⟨bit, bits, cons⟩ : ∃ bit bits, toBits (y :: b) = bit :: bits :=
        List.exists_cons_of_length_pos (by simp)
      rw [cons]
      exact iff_of_true (List.nil_lt_cons ..) (List.nil_lt_cons ..)
  case cons x a hi =>
    cases b
    case nil => simp [toBits]
    case cons y b =>
      have cons (x : UInt8) (a : Bytes) : toBits (x :: a) = toBits [x] ++ a.toBits := toBits_append [x] a
      have same : toBits [x] = toBits [y] ↔ x = y :=
        ⟨fun h => (List.cons.inj (toBits_inj h)).left, fun h => h ▸ rfl⟩
      rw [cons x, cons y, List.append_lt_append_iff (by simp), List.cons_lt_cons_iff, byte_lt_iff, same, hi]

-- What holds of the 256 bytes holds of every byte.
theorem forall_byte {p : UInt8 → Prop} (h : ∀ i : Fin 256, p (.ofFin i)) (c : UInt8) : p c := by
  rw [← UInt8.ofFin_toFin c]
  exact h _

-- Bits shifted in below others.
theorem shift_or (x : Nat) {b k w : Nat} (hk : k ≤ w) (hb : b < 2 ^ k) :
    (x <<< k % 2 ^ w) ||| b = x * 2 ^ k % 2 ^ w + b := by
  have split : 2 ^ w = 2 ^ (w - k) * 2 ^ k := by rw [← pow_add, Nat.sub_add_cancel hk]
  have shifted : x <<< k % 2 ^ w = (x % 2 ^ (w - k)) <<< k := by
    rw [Nat.shiftLeft_eq, Nat.shiftLeft_eq, split, Nat.mul_mod_mul_right]
  rw [shifted, ← Nat.shiftLeft_add_eq_or_of_lt hb, ← shifted, Nat.shiftLeft_eq]

end Bytes
