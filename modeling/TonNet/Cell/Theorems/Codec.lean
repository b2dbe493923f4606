import TonNet.Cell.Codec
import Mathlib.Data.List.DropRight

-- A byte string has one spelling in base64, the one that the encoder writes.

namespace TonNet.CellCodec

open Fallible

variable {a b c d v : UInt8} {text bytes : Bytes}

theorem sextet_digit (v : UInt8) : sextet (digit v) = .ok (v &&& 63) := by
  rw [← toOption_eq_some]
  revert v
  apply Bytes.forall_byte
  decide +kernel

theorem of_sextet_eq_ok (h : sextet c = .ok v) : v.toNat < 64 ∧ digit v = c := by
  have all : ∀ c v, (sextet c).toOption = some v → v.toNat < 64 ∧ digit v = c := by
    apply Bytes.forall_byte
    decide +kernel
  exact all c v (toOption_eq_some.mpr h)

theorem digit_ne_pad (v : UInt8) : digit v ≠ pad := by
  revert v
  apply Bytes.forall_byte
  decide +kernel

theorem toNat_and3 (v : UInt8) : (v &&& 3).toNat = v.toNat % 4 := by
  rw [UInt8.toNat_and]
  exact Nat.and_two_pow_sub_one_eq_mod _ 2

theorem toNat_and15 (v : UInt8) : (v &&& 15).toNat = v.toNat % 16 := by
  rw [UInt8.toNat_and]
  exact Nat.and_two_pow_sub_one_eq_mod _ 4

theorem toNat_and63 (v : UInt8) : (v &&& 63).toNat = v.toNat % 64 := by
  rw [UInt8.toNat_and]
  exact Nat.and_two_pow_sub_one_eq_mod _ 6

theorem and63_lt (v : UInt8) : (v &&& 63).toNat < 64 := by
  rw [toNat_and63]
  exact Nat.mod_lt _ (by decide)

-- A digit stands for the low six bits.
theorem digit_congr (h : a.toNat % 64 = b.toNat % 64) : digit a = digit b := by
  have same : a &&& 63 = b &&& 63 := by
    rw [← UInt8.toNat_inj, toNat_and63, toNat_and63, h]
  rw [digit, digit, same]

-- The low bits of one byte in front of the high bits of another.
theorem toNat_joined (a b : UInt8) {k m : UInt8} (hk : k.toNat < 8) (hm : m.toNat < 8)
    (h : b.toNat / 2 ^ m.toNat < 2 ^ k.toNat) :
    ((a <<< k) ||| (b >>> m)).toNat = a.toNat * 2 ^ k.toNat % 256 + b.toNat / 2 ^ m.toNat := by
  rw [UInt8.toNat_or, UInt8.toNat_shiftLeft, UInt8.toNat_shiftRight, Nat.mod_eq_of_lt hk,
    Nat.mod_eq_of_lt hm, Nat.shiftRight_eq_div_pow]
  exact Bytes.shift_or _ hk.le h

theorem toNat_shl4_shr4 (a b : UInt8) :
    ((a <<< 4) ||| (b >>> 4)).toNat = a.toNat * 16 % 256 + b.toNat / 16 :=
  toNat_joined a b (by decide) (by decide) (Nat.div_lt_of_lt_mul b.toNat_lt)

theorem toNat_shl2_shr6 (a b : UInt8) :
    ((a <<< 2) ||| (b >>> 6)).toNat = a.toNat * 4 % 256 + b.toNat / 64 :=
  toNat_joined a b (by decide) (by decide) (Nat.div_lt_of_lt_mul b.toNat_lt)

theorem toNat_shl2_shr4 (a : UInt8) (h : b.toNat < 64) :
    ((a <<< 2) ||| (b >>> 4)).toNat = a.toNat * 4 % 256 + b.toNat / 16 :=
  toNat_joined a b (by decide) (by decide) (Nat.div_lt_of_lt_mul h)

theorem toNat_shl4_shr2 (a : UInt8) (h : b.toNat < 64) :
    ((a <<< 4) ||| (b >>> 2)).toNat = a.toNat * 16 % 256 + b.toNat / 4 :=
  toNat_joined a b (by decide) (by decide) (Nat.div_lt_of_lt_mul h)

theorem toNat_shl6 (a : UInt8) (h : b.toNat < 64) :
    ((a <<< 6) ||| b).toNat = a.toNat * 64 % 256 + b.toNat := by
  rw [UInt8.toNat_or, UInt8.toNat_shiftLeft]
  exact Bytes.shift_or _ (by decide : 6 ≤ 8) h

theorem toNat_shr2 (a : UInt8) : (a >>> 2).toNat = a.toNat / 4 := by
  rw [UInt8.toNat_shiftRight]
  exact Nat.shiftRight_eq_div_pow _ 2

-- The characters that carry the bits of a byte string.
def digits : Bytes → Bytes
  | first :: second :: third :: rest =>
    digit (first >>> 2) :: digit ((first <<< 4) ||| (second >>> 4)) ::
      digit ((second <<< 2) ||| (third >>> 6)) :: digit third :: digits rest
  | [first, second] =>
    [digit (first >>> 2), digit ((first <<< 4) ||| (second >>> 4)), digit ((second <<< 2) ||| ((0 : UInt8) >>> 6))]
  | [first] => [digit (first >>> 2), digit ((first <<< 4) ||| ((0 : UInt8) >>> 4))]
  | [] => []

-- How many pads fill its last quantum.
def pads : Bytes → Nat
  | _ :: _ :: _ :: rest => pads rest
  | [_, _]              => 1
  | [_]                 => 2
  | []                  => 0

theorem base64Encode_eq (bytes : Bytes) :
    base64Encode bytes = digits bytes ++ List.replicate (pads bytes) pad := by
  fun_induction base64Encode bytes
  case case1 hi => simp [quantum, digits, pads, hi]
  case case2 => rfl
  case case3 => rfl
  case case4 => rfl

theorem exists_of_mem_digits : c ∈ digits bytes → ∃ v, digit v = c := by
  fun_induction digits bytes <;> grind

theorem length_digits (bytes : Bytes) : ((digits bytes).length + pads bytes) % 4 = 0 ∧ pads bytes ≤ 2 := by
  fun_induction pads bytes <;> simp [digits]
  omega

theorem decodeQuanta_digits (bytes : Bytes) : decodeQuanta (digits bytes) = .ok bytes := by
  fun_induction digits bytes
  case case1 first second third rest hi =>
    have := first.toNat_lt
    have := second.toNat_lt
    have := third.toNat_lt
    simp only [decodeQuanta, sextet_digit, ok_bind, hi, pure_eq_ok, List.cons.injEq, and_true, ← UInt8.toNat_inj,
      toNat_shl2_shr4 _ (and63_lt _), toNat_shl4_shr2 _ (and63_lt _), toNat_shl6 _ (and63_lt _), toNat_and63,
      toNat_shl4_shr4, toNat_shl2_shr6, toNat_shr2]
    omega
  case case2 first second =>
    have := first.toNat_lt
    have := second.toNat_lt
    simp only [decodeQuanta, sextet_digit, ok_bind, failIf_bind_eq_ok, pure_eq_ok, List.cons.injEq, and_true,
      not_not, ← UInt8.toNat_inj, toNat_shl2_shr4 _ (and63_lt _), toNat_shl4_shr2 _ (and63_lt _), toNat_and63,
      toNat_and3, toNat_shl4_shr4, toNat_shl2_shr6, toNat_shr2, UInt8.toNat_zero]
    omega
  case case3 first =>
    have := first.toNat_lt
    simp only [decodeQuanta, sextet_digit, ok_bind, failIf_bind_eq_ok, pure_eq_ok, List.cons.injEq, and_true,
      not_not, ← UInt8.toNat_inj, toNat_shl2_shr4 _ (and63_lt _), toNat_and63, toNat_and15, toNat_shl4_shr4,
      toNat_shr2, UInt8.toNat_zero]
    omega
  case case4 => rfl

theorem digits_of_decodeQuanta {body : Bytes} (h : decodeQuanta body = .ok bytes) : digits bytes = body := by
  fun_induction decodeQuanta body generalizing bytes
  case case1 hi =>
    simp only [bind_eq_ok, pure_eq_ok] at h
    obtain ⟨a, ha, b, hb, c, hc, d, hd, out, rest, rfl⟩ := h
    obtain ⟨_, first⟩ := of_sextet_eq_ok ha
    obtain ⟨lb, second⟩ := of_sextet_eq_ok hb
    obtain ⟨lc, third⟩ := of_sextet_eq_ok hc
    obtain ⟨ld, fourth⟩ := of_sextet_eq_ok hd
    have x := toNat_shl2_shr4 a lb
    have y := toNat_shl4_shr2 b lc
    have z := toNat_shl6 c ld
    rw [digits, hi rest, ← first, ← second, ← third, ← fourth, List.cons.injEq, List.cons.injEq, List.cons.injEq,
      List.cons.injEq]
    refine ⟨digit_congr ?_, digit_congr ?_, digit_congr ?_, digit_congr ?_, rfl⟩
    all_goals
      simp only [toNat_shr2, toNat_shl4_shr4, toNat_shl2_shr6, x, y, z]
      omega
  case case2 =>
    simp only [bind_eq_ok, failIf_eq_ok, not_not, pure_eq_ok] at h
    obtain ⟨a, ha, b, hb, c, hc, _, clear, rfl⟩ := h
    obtain ⟨_, first⟩ := of_sextet_eq_ok ha
    obtain ⟨lb, second⟩ := of_sextet_eq_ok hb
    obtain ⟨lc, third⟩ := of_sextet_eq_ok hc
    have x := toNat_shl2_shr4 a lb
    have y := toNat_shl4_shr2 b lc
    have clear : c.toNat % 4 = 0 := by rw [← toNat_and3, clear, UInt8.toNat_zero]
    rw [digits, ← first, ← second, ← third, List.cons.injEq, List.cons.injEq, List.cons.injEq]
    refine ⟨digit_congr ?_, digit_congr ?_, digit_congr ?_, rfl⟩
    all_goals
      simp only [toNat_shr2, toNat_shl4_shr4, toNat_shl2_shr6, x, y, UInt8.toNat_zero]
      omega
  case case3 =>
    simp only [bind_eq_ok, failIf_eq_ok, not_not, pure_eq_ok] at h
    obtain ⟨a, ha, b, hb, _, clear, rfl⟩ := h
    obtain ⟨_, first⟩ := of_sextet_eq_ok ha
    obtain ⟨lb, second⟩ := of_sextet_eq_ok hb
    have x := toNat_shl2_shr4 a lb
    have clear : b.toNat % 16 = 0 := by rw [← toNat_and15, clear, UInt8.toNat_zero]
    rw [digits, ← first, ← second, List.cons.injEq, List.cons.injEq]
    refine ⟨digit_congr ?_, digit_congr ?_, rfl⟩
    all_goals
      simp only [toNat_shr2, toNat_shl4_shr4, x, UInt8.toNat_zero]
      omega
  case case4 => exact absurd h throw_ne_ok
  case case5 =>
    obtain rfl := pure_eq_ok.mp h
    rfl

theorem decodeQuanta_eq_ok {body : Bytes} : decodeQuanta body = .ok bytes ↔ digits bytes = body :=
  ⟨digits_of_decodeQuanta, (· ▸ decodeQuanta_digits bytes)⟩

theorem padding_append {body : Bytes} (h : ∀ c ∈ body, c ≠ pad) (n : Nat) :
    padding (body ++ List.replicate n pad) = n := by
  have stop : body.reverse.takeWhile (· = pad) = [] := by
    rw [List.takeWhile_eq_nil_iff]
    intro nonempty
    exact (h _ (List.mem_reverse.mp (List.get_mem _ _)) <| of_decide_eq_true ·)
  rw [padding, List.reverse_append, List.reverse_replicate, List.takeWhile_append_of_pos (by simp), stop,
    List.append_nil, List.length_replicate]

-- A text is what is left of it and its padding.
theorem take_padding (text : Bytes) :
    text.take (text.length - padding text) ++ List.replicate (padding text) pad = text := by
  have length : (text.rtakeWhile (· = pad)).length = padding text := List.length_reverse
  have pads : text.rtakeWhile (· = pad) = List.replicate (padding text) pad :=
    List.eq_replicate_iff.mpr ⟨length, fun c mem => by simpa using List.mem_rtakeWhile_imp mem⟩
  have split : text.rdropWhile (· = pad) ++ text.rtakeWhile (· = pad) = text :=
    List.rdropWhile_append_rtakeWhile ..
  have lengths := congrArg List.length split
  rw [List.length_append, length] at lengths
  have front : (text.rdropWhile (· = pad) ++ text.rtakeWhile (· = pad)).take (text.length - padding text) =
      text.rdropWhile (· = pad) :=
    List.take_left' (by omega)
  rw [split] at front
  rw [front, ← pads, split]

theorem base64Decode_eq_ok : base64Decode text = .ok bytes ↔ base64Encode bytes = text := by
  simp only [base64Decode, failIf_bind_eq_ok, decodeQuanta_eq_ok, not_not, not_lt, base64Encode_eq]
  obtain ⟨whole, few⟩ := length_digits bytes
  constructor
  · rintro ⟨quanta, short, body⟩
    have split := take_padding text
    rw [← body] at split
    have same : padding text = pads bytes := by
      have := congrArg List.length split
      rw [List.length_append, List.length_replicate] at this
      omega
    rw [← same, split]
  · rintro rfl
    have free (c : UInt8) (mem : c ∈ digits bytes) : c ≠ pad := by
      obtain ⟨v, rfl⟩ := exists_of_mem_digits mem
      exact digit_ne_pad v
    rw [padding_append free, List.length_append, List.length_replicate,
      Nat.add_sub_cancel, List.take_left]
    exact ⟨whole, few, rfl⟩

theorem pads_eq_zero (whole : bytes.length % 3 = 0) : pads bytes = 0 := by
  fun_induction pads bytes
  case case1 hi => exact hi (by simp only [List.length_cons] at whole; omega)
  case case2 => nomatch whole
  case case3 => nomatch whole
  case case4 => rfl

theorem length_digits_of_whole (whole : bytes.length % 3 = 0) : 3 * (digits bytes).length = 4 * bytes.length := by
  fun_induction digits bytes
  case case1 hi =>
    simp only [List.length_cons] at whole ⊢
    have := hi (by omega)
    omega
  case case2 => nomatch whole
  case case3 => nomatch whole
  case case4 => rfl

theorem toNat_of_digit_eq (h : digit a = digit b) : a.toNat % 64 = b.toNat % 64 := by
  have same := congrArg sextet h
  rw [sextet_digit, sextet_digit, Except.ok.injEq, ← UInt8.toNat_inj, toNat_and63, toNat_and63] at same
  exact same

-- Each byte of a whole quantum is there in two digits next to each other.
theorem byte_of_digits : (x y : Bytes) → (j : Nat) → y.length = x.length → x.length % 3 = 0 →
    (digits y)[4 * (j / 3) + j % 3]? = (digits x)[4 * (j / 3) + j % 3]? →
    (digits y)[4 * (j / 3) + j % 3 + 1]? = (digits x)[4 * (j / 3) + j % 3 + 1]? → y[j]? = x[j]?
  | a :: b :: c :: x, d :: e :: f :: y, j, length, whole, left, right => by
    have := a.toNat_lt
    have := b.toNat_lt
    have := c.toNat_lt
    have := d.toNat_lt
    have := e.toNat_lt
    have := f.toNat_lt
    simp only [List.length_cons] at length whole
    match j with
    | 0 =>
      have left := toNat_of_digit_eq (Option.some_inj.mp left)
      have right := toNat_of_digit_eq (Option.some_inj.mp right)
      rw [toNat_shr2, toNat_shr2] at left
      rw [toNat_shl4_shr4, toNat_shl4_shr4] at right
      exact congrArg some (UInt8.toNat_inj.mp (by omega))
    | 1 =>
      have left := toNat_of_digit_eq (Option.some_inj.mp left)
      have right := toNat_of_digit_eq (Option.some_inj.mp right)
      rw [toNat_shl4_shr4, toNat_shl4_shr4] at left
      rw [toNat_shl2_shr6, toNat_shl2_shr6] at right
      exact congrArg some (UInt8.toNat_inj.mp (by omega))
    | 2 =>
      have left := toNat_of_digit_eq (Option.some_inj.mp left)
      have right := toNat_of_digit_eq (Option.some_inj.mp right)
      rw [toNat_shl2_shr6, toNat_shl2_shr6] at left
      exact congrArg some (UInt8.toNat_inj.mp (by omega))
    | j + 3 =>
      have place : 4 * ((j + 3) / 3) + (j + 3) % 3 = 4 * (j / 3) + j % 3 + 4 := by omega
      rw [place] at left right
      exact byte_of_digits x y j (by omega) (by omega) left right
  | [], [], _, _, _, _, _ => rfl
  | [_], _, _, _, whole, _, _ => nomatch whole
  | [_, _], _, _, _, whole, _, _ => nomatch whole
  | _ :: _ :: _ :: _, [], _, length, _, _, _ => nomatch length
  | _ :: _ :: _ :: x, [_], _, length, _, _, _ => by
    simp only [List.length_cons, List.length_nil] at length
    omega
  | _ :: _ :: _ :: x, [_, _], _, length, _, _, _ => by
    simp only [List.length_cons, List.length_nil] at length
    omega
  | [], _ :: _, _, length, _, _, _ => nomatch length

-- So one digit reaches no further than two bytes.
theorem window_of_digits {x y : Bytes} {i : Nat} (length : y.length = x.length) (whole : x.length % 3 = 0)
    (same : ∀ j, j ≠ i → (digits y)[j]? = (digits x)[j]?) :
    ∃ k, ∀ j, j < k ∨ k + 2 ≤ j → y[j]? = x[j]? := by
  refine ⟨i / 4 * 3 + (i % 4 - 1), fun j outside => ?_⟩
  exact byte_of_digits x y j length whole (same _ (by omega)) (same _ (by omega))

theorem length_decodePairs (h : decodePairs text = .ok bytes) : bytes.length = text.length / 2 := by
  fun_induction decodePairs text generalizing bytes
  case case1 hi =>
    simp only [bind_eq_ok, pure_eq_ok] at h
    obtain ⟨_, _, _, _, out, rest, rfl⟩ := h
    rw [List.length_cons, hi rest, List.length_cons, List.length_cons]
    omega
  case case2 text short =>
    obtain rfl := pure_eq_ok.mp h
    rcases text with _ | ⟨high, _ | ⟨low, rest⟩⟩
    case nil => rfl
    case cons.nil => simp
    case cons.cons => exact (short high low rest rfl).elim

theorem length_hexDecode (h : hexDecode text = .ok bytes) : text.length = 2 * bytes.length := by
  simp only [hexDecode, failIf_bind_eq_ok, not_not] at h
  rw [length_decodePairs h.right]
  omega

end TonNet.CellCodec
