import TonNet.Codec
import TonNet.Cell.Theorems.Codec

-- The address codec reads what the cell codec reads, in either alphabet.

namespace TonNet.Codec

open Fallible
open CellCodec (pad padding digits decodeQuanta base64Encode)

variable {c v : UInt8} {acc : UInt32} {out : Bytes}

-- A character in the standard alphabet.
def standard (c : UInt8) : UInt8 :=
  if c = '-'.toUInt8 then '+'.toUInt8 else if c = '_'.toUInt8 then '/'.toUInt8 else c

theorem sextet_eq (c : UInt8) :
    sextet c = (CellCodec.sextet (standard c)).toOption.map UInt8.toUInt32 := by
  revert c
  apply Bytes.forall_byte
  decide +kernel

theorem standard_eq_pad : standard c = pad ↔ c = pad := by
  revert c
  apply Bytes.forall_byte
  decide +kernel

theorem toNat_shl6 (acc : UInt32) (h : v.toNat < 64) :
    ((acc <<< 6) ||| v.toUInt32).toNat = acc.toNat * 64 % 2 ^ 32 + v.toNat := by
  rw [UInt32.toNat_or, UInt32.toNat_shiftLeft, UInt8.toNat_toUInt32]
  exact Bytes.shift_or _ (by decide : 6 ≤ 32) h

theorem toNat_shr (acc : UInt32) {k : UInt32} (hk : k.toNat < 32) :
    (acc >>> k).toUInt8.toNat = acc.toNat / 2 ^ k.toNat % 256 := by
  rw [UInt32.toNat_toUInt8, UInt32.toNat_shiftRight, Nat.mod_eq_of_lt hk, Nat.shiftRight_eq_div_pow]

-- Where two sextets meet in the accumulator stands the byte that they share.
theorem byte_four (acc : UInt32) {a b : UInt8} (ha : a.toNat < 64) (hb : b.toNat < 64) :
    (((((acc <<< 6) ||| a.toUInt32) <<< 6) ||| b.toUInt32) >>> 4).toUInt8 = (a <<< 2) ||| (b >>> 4) := by
  rw [← UInt8.toNat_inj, toNat_shr _ (by decide), toNat_shl6 _ hb, toNat_shl6 _ ha,
    CellCodec.toNat_shl2_shr4 _ hb, show (4 : UInt32).toNat = 4 from rfl]
  omega

theorem byte_two (acc : UInt32) {a b : UInt8} (ha : a.toNat < 64) (hb : b.toNat < 64) :
    (((((acc <<< 6) ||| a.toUInt32) <<< 6) ||| b.toUInt32) >>> 2).toUInt8 = (a <<< 4) ||| (b >>> 2) := by
  rw [← UInt8.toNat_inj, toNat_shr _ (by decide), toNat_shl6 _ hb, toNat_shl6 _ ha,
    CellCodec.toNat_shl4_shr2 _ hb, show (2 : UInt32).toNat = 2 from rfl]
  omega

theorem byte_zero (acc : UInt32) {a b : UInt8} (ha : a.toNat < 64) (hb : b.toNat < 64) :
    (((((acc <<< 6) ||| a.toUInt32) <<< 6) ||| b.toUInt32) >>> 0).toUInt8 = (a <<< 6) ||| b := by
  rw [← UInt8.toNat_inj, toNat_shr _ (by decide), toNat_shl6 _ hb, toNat_shl6 _ ha,
    CellCodec.toNat_shl6 _ hb, show (0 : UInt32).toNat = 0 from rfl]
  omega

namespace Reader

theorem push_none {r : Reader} {e : CellError} (h : CellCodec.sextet (standard c) = .error e) :
    r.push c = none := by
  rw [push, sextet_eq, h]
  rfl

-- A sextet that does not yet make up a byte, and one that does.
theorem push_few {bits : UInt32} (h : CellCodec.sextet (standard c) = .ok v) (few : ¬bits + 6 ≥ 8) :
    push ⟨acc, bits, out⟩ c = some ⟨(acc <<< 6) ||| v.toUInt32, bits + 6, out⟩ := by
  rw [push, sextet_eq, h]
  exact if_neg few

theorem push_full {bits : UInt32} (h : CellCodec.sextet (standard c) = .ok v) (full : bits + 6 ≥ 8) :
    push ⟨acc, bits, out⟩ c =
      some ⟨(acc <<< 6) ||| v.toUInt32, bits + 6 - 8,
        out ++ [(((acc <<< 6) ||| v.toUInt32) >>> (bits + 6 - 8)).toUInt8]⟩ := by
  rw [push, sextet_eq, h]
  exact if_pos full

theorem push_zero (h : CellCodec.sextet (standard c) = .ok v) :
    push ⟨acc, 0, out⟩ c = some ⟨(acc <<< 6) ||| v.toUInt32, 6, out⟩ :=
  push_few h (by decide)

theorem push_six (h : CellCodec.sextet (standard c) = .ok v) :
    push ⟨acc, 6, out⟩ c =
      some ⟨(acc <<< 6) ||| v.toUInt32, 4, out ++ [(((acc <<< 6) ||| v.toUInt32) >>> 4).toUInt8]⟩ :=
  push_full h (by decide)

theorem push_four (h : CellCodec.sextet (standard c) = .ok v) :
    push ⟨acc, 4, out⟩ c =
      some ⟨(acc <<< 6) ||| v.toUInt32, 2, out ++ [(((acc <<< 6) ||| v.toUInt32) >>> 2).toUInt8]⟩ :=
  push_full h (by decide)

theorem push_two (h : CellCodec.sextet (standard c) = .ok v) :
    push ⟨acc, 2, out⟩ c =
      some ⟨(acc <<< 6) ||| v.toUInt32, 0, out ++ [(((acc <<< 6) ||| v.toUInt32) >>> 0).toUInt8]⟩ :=
  push_full h (by decide)

-- What the last byte has left over.
theorem finish_eq {bits : UInt32} (h : bits.toNat < 32) :
    finish ⟨acc, bits, out⟩ = if acc.toNat % 2 ^ bits.toNat ≠ 0 then none else some out := by
  have one : ((1 : UInt32) <<< bits).toNat = 2 ^ bits.toNat := by
    rw [UInt32.toNat_shiftLeft, Nat.mod_eq_of_lt h, UInt32.toNat_one, Nat.one_shiftLeft]
    exact Nat.mod_eq_of_lt (Nat.pow_lt_pow_right (by decide) h)
  have least : (1 : UInt32) ≤ (1 : UInt32) <<< bits := by
    rw [UInt32.le_iff_toNat_le, one]
    exact Nat.one_le_two_pow
  have mask : (acc &&& (((1 : UInt32) <<< bits) - 1)).toNat = acc.toNat % 2 ^ bits.toNat := by
    rw [UInt32.toNat_and, UInt32.toNat_sub_of_le _ _ least, one]
    exact Nat.and_two_pow_sub_one_eq_mod ..
  rw [finish, ← mask]
  simp only [ne_eq, ← UInt32.toNat_inj, UInt32.toNat_zero]

theorem finish_zero : finish ⟨acc, 0, out⟩ = some out := by
  rw [finish_eq (by decide)]
  exact if_neg (by simp [Nat.mod_one])

theorem finish_two (h : v.toNat < 64) :
    finish ⟨(acc <<< 6) ||| v.toUInt32, 2, out⟩ = if v &&& 0b11 ≠ 0 then none else some out := by
  rw [finish_eq (by decide), toNat_shl6 acc h]
  refine if_congr (not_congr ?_) rfl rfl
  rw [← UInt8.toNat_inj, CellCodec.toNat_and3, UInt8.toNat_zero, show (2 : UInt32).toNat = 2 from rfl]
  omega

theorem finish_four (h : v.toNat < 64) :
    finish ⟨(acc <<< 6) ||| v.toUInt32, 4, out⟩ = if v &&& 0b1111 ≠ 0 then none else some out := by
  rw [finish_eq (by decide), toNat_shl6 acc h]
  refine if_congr (not_congr ?_) rfl rfl
  rw [← UInt8.toNat_inj, CellCodec.toNat_and15, UInt8.toNat_zero, show (4 : UInt32).toNat = 4 from rfl]
  omega

-- The loop over a body in the alphabet, one quantum after the other.
theorem read_eq : (body : Bytes) → (acc : UInt32) → (out : Bytes) → body.length % 4 ≠ 1 →
    (∀ c ∈ body, ∃ v, CellCodec.sextet (standard c) = .ok v) →
    (body.foldlM push ⟨acc, 0, out⟩ >>= finish) =
      (decodeQuanta (body.map standard)).toOption.map (out ++ ·)
  | a :: b :: c :: d :: rest, acc, out, h, all => by
    simp only [List.forall_mem_cons] at all
    obtain ⟨⟨x, ha⟩, ⟨y, hb⟩, ⟨z, hc⟩, ⟨w, hd⟩, all⟩ := all
    have la := (CellCodec.of_sextet_eq_ok ha).left
    have lb := (CellCodec.of_sextet_eq_ok hb).left
    have lc := (CellCodec.of_sextet_eq_ok hc).left
    have ld := (CellCodec.of_sextet_eq_ok hd).left
    have length : rest.length % 4 ≠ 1 := by
      simp only [List.length_cons] at h
      omega
    simp only [List.foldlM_cons, push_zero ha, push_six hb, push_four hc, push_two hd, Option.bind_eq_bind,
      Option.bind_some, byte_four acc la lb]
    rw [← Option.bind_eq_bind, read_eq rest _ _ length all]
    simp only [List.map_cons, decodeQuanta, ha, hb, hc, hd, ok_bind]
    rw [byte_two _ lb lc, byte_zero _ lc ld]
    cases decodeQuanta (rest.map standard)
    case error => rfl
    case ok bytes => simp [Except.toOption, pure, Except.pure]
  | [a, b, c], acc, out, h, all => by
    simp only [List.forall_mem_cons] at all
    obtain ⟨⟨x, ha⟩, ⟨y, hb⟩, ⟨z, hc⟩, -⟩ := all
    have la := (CellCodec.of_sextet_eq_ok ha).left
    have lb := (CellCodec.of_sextet_eq_ok hb).left
    have lc := (CellCodec.of_sextet_eq_ok hc).left
    simp only [List.foldlM_cons, List.foldlM_nil, push_zero ha, push_six hb, push_four hc, Option.bind_eq_bind,
      Option.bind_some, Option.pure_def, finish_two lc, byte_four acc la lb, byte_two _ lb lc, List.map_cons,
      List.map_nil, decodeQuanta, ha, hb, hc, ok_bind, failIf]
    split
    case isTrue => rfl
    case isFalse => simp [Except.toOption, pure, Except.pure]
  | [a, b], acc, out, h, all => by
    simp only [List.forall_mem_cons] at all
    obtain ⟨⟨x, ha⟩, ⟨y, hb⟩, -⟩ := all
    have la := (CellCodec.of_sextet_eq_ok ha).left
    have lb := (CellCodec.of_sextet_eq_ok hb).left
    simp only [List.foldlM_cons, List.foldlM_nil, push_zero ha, push_six hb, Option.bind_eq_bind,
      Option.bind_some, Option.pure_def, finish_four lb, byte_four acc la lb, List.map_cons,
      List.map_nil, decodeQuanta, ha, hb, ok_bind, failIf]
    split
    case isTrue => rfl
    case isFalse => simp [Except.toOption, pure, Except.pure]
  | [a], acc, out, h, all => absurd rfl h
  | [], acc, out, h, all => by
    simp [finish_zero, decodeQuanta, Except.toOption, pure, Except.pure]

theorem read_outside {body : Bytes} {e : CellError} (mem : c ∈ body)
    (h : CellCodec.sextet (standard c) = .error e) (r : Reader) : body.foldlM push r = none := by
  induction body generalizing r
  case nil => simp at mem
  case cons a body hi =>
    rw [List.foldlM_cons]
    obtain rfl | mem := List.mem_cons.mp mem
    · rw [push_none h]
      rfl
    · cases r.push a
      case none => rfl
      case some r => exact hi mem r

end Reader

theorem padding_standard (input : Bytes) : padding (input.map standard) = padding input := by
  have same : ((fun c => decide (c = pad)) ∘ standard) = fun c => decide (c = pad) := by
    funext c
    exact decide_eq_decide.mpr standard_eq_pad
  rw [padding, padding, ← List.map_reverse, List.takeWhile_map, List.length_map, same]

theorem base64Decode_eq_some {input bytes : Bytes} :
    base64Decode input = some bytes ↔ CellCodec.base64Decode (input.map standard) = .ok bytes := by
  simp only [base64Decode, CellCodec.base64Decode, failIf_bind_eq_ok, padding_standard, List.length_map,
    ← List.map_take, not_not, not_lt]
  by_cases whole : input.length % 4 = 0
  case neg => simp [whole]
  by_cases short : padding input ≤ 2
  case neg => simp [short, whole, not_le.mp short]
  generalize body_eq : input.take (input.length - padding input) = body
  have length : body.length % 4 ≠ 1 := by
    rw [← body_eq, List.length_take]
    omega
  by_cases all : ∀ c ∈ body, ∃ v, CellCodec.sextet (standard c) = .ok v
  case pos =>
    have free : pad ∉ body := fun mem => by
      obtain ⟨v, value⟩ := all pad mem
      cases value
    rw [if_neg (not_not.mpr whole), if_neg (not_or.mpr ⟨not_lt.mpr short, free⟩),
      Reader.read_eq body 0 [] length all]
    simp [whole, short, toOption_eq_some]
  case neg =>
    push Not at all
    obtain ⟨c, mem, outside⟩ := all
    obtain ⟨e, outside⟩ : ∃ e, CellCodec.sextet (standard c) = .error e := by
      rcases sextet : CellCodec.sextet (standard c) with e | v
      case error => exact ⟨e, rfl⟩
      case ok => exact absurd sextet (outside v)
    rw [Reader.read_outside mem outside]
    refine iff_of_false (by simp) ?_
    rintro ⟨_, _, decoded⟩
    obtain ⟨v, digit⟩ := CellCodec.exists_of_mem_digits
      (CellCodec.digits_of_decodeQuanta decoded ▸ List.mem_map_of_mem mem)
    rw [← digit, CellCodec.sextet_digit] at outside
    cases outside

-- `-_8=`
example : base64Decode [45, 95, 56, 61] = some [0xfb, 0xff] := by
  decide

-- Each codec reads a text as the one spelling of its bytes.
theorem base64_spellings :
    (∀ bytes, CellCodec.base64Decode (base64Encode bytes) = .ok bytes) ∧
    (∀ text bytes, CellCodec.base64Decode text = .ok bytes ↔ base64Encode bytes = text) ∧
    ∀ input bytes, base64Decode input = some bytes ↔
      CellCodec.base64Decode (input.map standard) = .ok bytes :=
  ⟨fun _ => CellCodec.base64Decode_eq_ok.mpr rfl, fun _ _ => CellCodec.base64Decode_eq_ok,
    fun _ _ => base64Decode_eq_some⟩

end TonNet.Codec
