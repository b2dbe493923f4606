import TonNet.Address
import TonNet.Lib.Crc
import TonNet.Theorems.Codec

-- What the checksum of a user-friendly address catches: one character mistyped, and in general any two
-- bytes in a row.

namespace TonNet

open Fallible Codec

variable {s : List Char} {c d : Char} {x y : Bytes}

theorem splitOnce_eq_none : splitOnce d s = none ↔ d ∉ s := by
  induction s
  case nil => simp [splitOnce]
  case cons c s hi =>
    rw [splitOnce]
    split
    case isTrue same => simp [same]
    case isFalse differs => simp [hi, Ne.symm differs]

theorem of_splitOnce_eq_some {before after : List Char} (h : splitOnce d s = some (before, after)) :
    s = before ++ d :: after := by
  induction s generalizing before
  case nil => nomatch h
  case cons c s hi =>
    rw [splitOnce] at h
    split at h
    case isTrue same =>
      obtain ⟨rfl, rfl⟩ := Prod.mk.inj (Option.some_inj.mp h)
      rw [same]
      rfl
    case isFalse =>
      obtain ⟨⟨before, after⟩, rest, same⟩ := Option.map_eq_some_iff.mp h
      obtain ⟨rfl, rfl⟩ := Prod.mk.inj same
      rw [hi rest]
      rfl

-- A character that one byte stands for.
def Ascii (c : Char) : Prop :=
  c.toNat ≤ 127

instance (c : Char) : Decidable (Ascii c) :=
  inferInstanceAs (Decidable (c.toNat ≤ 127))

theorem Ascii.utf8 (h : Ascii c) : String.utf8EncodeChar c = [c.toUInt8] :=
  if_pos h

theorem ascii_of_utf8 (h : ∀ byte ∈ String.utf8EncodeChar c, byte.toNat ≤ 127) : Ascii c := by
  unfold String.utf8EncodeChar at h
  dsimp only at h
  split at h
  case isTrue le => exact le
  case isFalse =>
    -- the first byte of a longer form has its top bit set
    split at h
    case isTrue =>
      have := h _ List.mem_cons_self
      rw [UInt8.toNat_ofNat'] at this
      omega
    case isFalse =>
      split at h
      all_goals
        have := h _ List.mem_cons_self
        rw [UInt8.toNat_ofNat'] at this
        omega

theorem Ascii.toUInt8_inj (hc : Ascii c) (hd : Ascii d) (same : c.toUInt8 = d.toUInt8) : c = d := by
  have value {c : Char} (h : Ascii c) : c.toUInt8.toNat = c.toNat := by
    show c.val.toUInt8.toNat = c.toNat
    rw [UInt32.toNat_toUInt8]
    exact Nat.mod_eq_of_lt (lt_of_le_of_lt h (by decide))
  apply Char.ext
  apply UInt32.toNat_inj.mp
  exact (value hc).symm.trans ((congrArg UInt8.toNat same).trans (value hd))

theorem asBytes_of_ascii (h : ∀ c ∈ s, Ascii c) : asBytes s = s.map Char.toUInt8 := by
  rw [asBytes, List.map_eq_flatMap]
  exact List.flatMap_congr fun c mem => (h c mem).utf8

theorem ascii_of_asBytes (h : ∀ byte ∈ asBytes s, byte.toNat ≤ 127) : ∀ c ∈ s, Ascii c :=
  fun c mem => ascii_of_utf8 fun byte here => h byte (List.mem_flatMap.mpr ⟨c, mem, here⟩)

namespace Codec

theorem standard_sextet_le {byte v : UInt8} (h : CellCodec.sextet (standard byte) = .ok v) :
    byte.toNat ≤ 127 := by
  have all : ∀ byte, (CellCodec.sextet (standard byte)).toOption.isSome → byte.toNat ≤ 127 := by
    apply Bytes.forall_byte
    decide +kernel
  exact all byte (by rw [h]; rfl)

theorem of_standard_eq {a b : UInt8} (same : standard a = standard b) :
    a = b ∨ a = '-'.toUInt8 ∧ b = '+'.toUInt8 ∨ a = '+'.toUInt8 ∧ b = '-'.toUInt8 ∨
      a = '_'.toUInt8 ∧ b = '/'.toUInt8 ∨ a = '/'.toUInt8 ∧ b = '_'.toUInt8 := by
  have apart : '+'.toUInt8 ≠ '/'.toUInt8 := by decide
  unfold standard at same
  grind

theorem base64Decode_congr (h : x.map standard = y.map standard) : base64Decode x = base64Decode y := by
  apply Option.ext
  intro bytes
  rw [base64Decode_eq_some, base64Decode_eq_some, h]

-- The checksum of an address, as the register of the mirrored check.
def crc16Poly : BitVec 16 := 0x8408

theorem crc16Poly_top : crc16Poly.getLsbD (16 - 1) = true := by
  decide

theorem crc16Bit_toBitVec (crc : UInt16) :
    (crc16Bit crc).toBitVec = Crc.bitBe 0x1021 crc.toBitVec := by
  have high : crc &&& 0x8000 ≠ 0 ↔ crc.toBitVec.msb = true := by
    have masked : (crc &&& 0x8000).toNat = (crc.toNat.testBit 15).toNat * 2 ^ 15 := by
      rw [UInt16.toNat_and]
      exact Nat.and_two_pow _ 15
    rw [ne_eq, ← UInt16.toNat_inj, masked, BitVec.msb_eq_getLsbD_last]
    show _ ↔ crc.toNat.testBit 15 = true
    cases crc.toNat.testBit 15 <;> simp
  unfold crc16Bit Crc.bitBe
  rw [if_congr high rfl rfl]
  split <;> rfl

theorem crc16Bits_toBitVec (crc : UInt16) (n : Nat) :
    (crc16Bit^[n] crc).toBitVec = (Crc.bitBe 0x1021)^[n] crc.toBitVec := by
  induction n generalizing crc
  case zero => rfl
  case succ n hi => rw [Function.iterate_succ_apply, hi, crc16Bit_toBitVec]; rfl

-- A byte stands at the other end of the mirrored register.
theorem reverse_high (byte : UInt8) :
    (BitVec.ofNat 16 (byte.toNat * 2 ^ 8)).reverse = .ofNat 16 (Crc.mirrored byte).toNat := by
  revert byte
  apply Bytes.forall_byte
  decide +kernel

theorem reverse_low (byte : UInt8) :
    (BitVec.ofNat 16 byte.toNat).reverse = .ofNat 16 ((Crc.mirrored byte).toNat * 2 ^ 8) := by
  revert byte
  apply Bytes.forall_byte
  decide +kernel

theorem shifted_toBitVec (byte : UInt8) :
    (byte.toUInt16 <<< (8 : UInt16)).toBitVec = .ofNat 16 (byte.toNat * 2 ^ 8) := by
  revert byte
  apply Bytes.forall_byte
  decide +kernel

theorem reverse_crc16 (data : Bytes) :
    (crc16 data).toBitVec.reverse = Crc.feedAll crc16Poly 0#16 (data.map Crc.mirrored) := by
  have run (crc : UInt16) :
      (data.foldl (fun crc byte => crc16Bit^[8] (crc ^^^ (byte.toUInt16 <<< (8 : UInt16)))) crc).toBitVec.reverse =
        Crc.feedAll crc16Poly crc.toBitVec.reverse (data.map Crc.mirrored) := by
    induction data generalizing crc
    case nil => rfl
    case cons byte data hi =>
      have fed : (crc16Bit^[8] (crc ^^^ (byte.toUInt16 <<< (8 : UInt16)))).toBitVec.reverse =
          Crc.feed crc16Poly crc.toBitVec.reverse (Crc.mirrored byte) := by
        rw [crc16Bits_toBitVec, Crc.reverse_bitsBe, UInt16.toBitVec_xor, Crc.reverse_xor, shifted_toBitVec,
          reverse_high]
        rfl
      rw [List.foldl_cons, hi, fed]
      rfl
  exact run 0

-- Behind the bytes it is over, the checksum clears the register.
theorem feedAll_checksum {data : Bytes} {high low : UInt8}
    (own : Bytes.be 2 (crc16 data).toNat = [high, low]) :
    Crc.feedAll crc16Poly 0#16 ((data ++ [high, low]).map Crc.mirrored) = 0#16 := by
  have value : (crc16 data).toBitVec = Crc.ofLe 16 [low, high] := by
    rw [Crc.ofLe, List.reverse_cons, List.reverse_singleton, List.singleton_append, ← own, Bytes.ofBe_be,
      Nat.mod_eq_of_lt (show (crc16 data).toNat < 256 ^ 2 from (crc16 data).toNat_lt)]
    exact ((BitVec.ofNat_toNat ..).trans (BitVec.setWidth_eq _)).symm
  rw [List.map_append, Crc.feedAll_append, ← reverse_crc16]
  apply Crc.feedAll_self
  case fits => exact le_refl _
  case own =>
    have single (byte : UInt8) : Bytes.ofBe [byte].reverse = byte.toNat := Nat.zero_add _
    rw [value, List.map_cons, List.map_singleton, Crc.ofLe_cons, Crc.ofLe_cons, single, single, Crc.reverse_xor,
      reverse_low, reverse_high, BitVec.xor_comm]

end Codec

namespace Packed

variable {raw raw' : Packed} {data : Bytes}

theorem ofBytes?_eq_some : ofBytes? data = some raw ↔ data = raw.bytes := by
  unfold ofBytes?
  split
  case isTrue =>
    rw [Option.some_inj, Packed.mk.injEq]
  case isFalse short => exact iff_of_false nofun fun same => short (same ▸ raw.length_eq)

-- The address ends in the checksum over the rest of it.
def Sealed (raw : Packed) : Prop :=
  .be 2 (crc16 (raw.bytes.take 34)).toNat = raw.stored

theorem bytes_eq (raw : Packed) : raw.bytes.take 34 ++ raw.stored = raw.bytes := by
  have length := raw.length_eq
  have last : raw.bytes.drop 34 = raw.stored := by
    rw [List.drop_eq_getElem_cons (by omega), List.drop_eq_getElem_cons (by omega),
      List.drop_eq_nil_of_le (by omega), stored, List.getD_eq_getElem _ _ (by omega),
      List.getD_eq_getElem _ _ (by omega)]
  rw [← last, List.take_append_drop]

theorem Sealed.feedAll (h : raw.Sealed) :
    Crc.feedAll crc16Poly 0#16 (raw.bytes.map Crc.mirrored) = 0#16 := by
  rw [← raw.bytes_eq]
  exact feedAll_checksum h

-- Two sealed addresses do not lie within two bytes in a row of one another.
theorem Sealed.eq_of_window (h : raw.Sealed) (h' : raw'.Sealed) {k : Nat}
    (agree : ∀ j, j < k ∨ k + 2 ≤ j → raw'.bytes[j]? = raw.bytes[j]?) : raw'.bytes = raw.bytes := by
  apply Crc.mirrored_injective.list_map
  apply Crc.eq_of_feedAll crc16Poly_top 0#16 (le_refl (8 * 2))
  case length => rw [List.length_map, List.length_map, raw.length_eq, raw'.length_eq]
  case long =>
    rw [List.length_map, raw.length_eq]
    decide
  case agree =>
    intro j outside
    rw [List.getElem?_map, List.getElem?_map, agree j outside]
  case same => rw [h.feedAll, h'.feedAll]

end Packed

namespace Address

open CellCodec (digits)

variable {address : Address} {raw : Packed}

-- The packed address that a text spells.
def Spells (s : List Char) (raw : Packed) : Prop :=
  base64Decode (asBytes s) = some raw.bytes

theorem parseUserFriendly_eq_ok :
    parseUserFriendly s = .ok address ↔ ∃ raw : Packed, Spells s raw ∧ raw.Sealed ∧
      raw.tag &&& ~~~(testOnlyBit ||| nonBounceableBit) = addressTag ∧
      address = ⟨raw.workchain.toInt32, raw.accountId, raw.tag &&& nonBounceableBit = 0,
        raw.tag &&& testOnlyBit ≠ 0⟩ := by
  simp only [parseUserFriendly, okOr_bind_eq_ok, failIf_bind_eq_ok, not_not, Option.bind_eq_bind,
    Option.bind_eq_some_iff, Packed.ofBytes?_eq_some, exists_eq_right, pure_eq_ok, eq_comm (a := address)]
  rfl

theorem parse_of_friendly (friendly : ':' ∉ s) : parse s = parseUserFriendly s := by
  rw [parse, splitOnce_eq_none.mpr friendly]

theorem Spells.digits_eq (h : Spells s raw) : (asBytes s).map standard = digits raw.bytes := by
  have encoded := CellCodec.base64Decode_eq_ok.mp (base64Decode_eq_some.mp h)
  have whole : raw.bytes.length % 3 = 0 := by rw [raw.length_eq]
  rwa [CellCodec.base64Encode_eq, CellCodec.pads_eq_zero whole, List.replicate_zero, List.append_nil,
    eq_comm] at encoded

theorem Spells.ascii (h : Spells s raw) : ∀ c ∈ s, Ascii c := by
  apply ascii_of_asBytes
  intro byte mem
  have ⟨v, digit⟩ := CellCodec.exists_of_mem_digits (h.digits_eq ▸ List.mem_map_of_mem mem)
  apply standard_sextet_le
  rw [← digit, CellCodec.sextet_digit]

theorem Spells.map_eq (h : Spells s raw) : s.map (standard ∘ Char.toUInt8) = digits raw.bytes := by
  rw [← List.map_map, ← asBytes_of_ascii h.ascii, h.digits_eq]

theorem Spells.length_eq (h : Spells s raw) : s.length = 48 := by
  have whole : raw.bytes.length % 3 = 0 := by rw [raw.length_eq]
  have length := CellCodec.length_digits_of_whole whole
  rw [← h.map_eq, List.length_map, raw.length_eq] at length
  omega

-- Two texts that spell packed addresses and differ in one character.
theorem Spells.window {raw' : Packed} {i : Nat} {c' : Char} (h : Spells s raw) (h' : Spells (s.set i c') raw') :
    ∃ k, ∀ j, j < k ∨ k + 2 ≤ j → raw'.bytes[j]? = raw.bytes[j]? := by
  apply CellCodec.window_of_digits
  case length => rw [raw.length_eq, raw'.length_eq]
  case whole => rw [raw.length_eq]
  case same =>
    intro j other
    rw [← h.map_eq, ← h'.map_eq, List.map_set, List.getElem?_set_ne (Ne.symm other)]

-- The one freedom that the two alphabets leave a character.
def Swaps (c c' : Char) : Prop :=
  c = '-' ∧ c' = '+' ∨ c = '+' ∧ c' = '-' ∨ c = '_' ∧ c' = '/' ∨ c = '/' ∧ c' = '_'

theorem swaps_of_standard (hc : Ascii c) (hd : Ascii d) (differs : d ≠ c)
    (same : standard c.toUInt8 = standard d.toUInt8) : Swaps c d := by
  rcases of_standard_eq same with same | ⟨h, h'⟩ | ⟨h, h'⟩ | ⟨h, h'⟩ | ⟨h, h'⟩
  · exact absurd (hc.toUInt8_inj hd same).symm differs
  · exact .inl ⟨hc.toUInt8_inj (by decide) h, hd.toUInt8_inj (by decide) h'⟩
  · exact .inr (.inl ⟨hc.toUInt8_inj (by decide) h, hd.toUInt8_inj (by decide) h'⟩)
  · exact .inr (.inr (.inl ⟨hc.toUInt8_inj (by decide) h, hd.toUInt8_inj (by decide) h'⟩))
  · exact .inr (.inr (.inr ⟨hc.toUInt8_inj (by decide) h, hd.toUInt8_inj (by decide) h'⟩))

theorem Swaps.standard_eq (h : Swaps c d) : Ascii d ∧ d ≠ ':' ∧ standard c.toUInt8 = standard d.toUInt8 := by
  rcases h with ⟨rfl, rfl⟩ | ⟨rfl, rfl⟩ | ⟨rfl, rfl⟩ | ⟨rfl, rfl⟩ <;> exact ⟨by decide, by decide, rfl⟩

variable {i : Nat} {c' : Char}

-- A colon makes an address a raw one, and what stands behind it is too short for an account.
theorem parse_colon (h : Spells s raw) (colon : ':' ∈ s.set i ':') : ∃ error, parse (s.set i ':') = .error error := by
  have all : ∀ c ∈ s.set i ':', Ascii c := fun c mem =>
    (List.mem_or_eq_of_mem_set mem).elim (h.ascii c) (· ▸ by decide)
  rcases split : splitOnce ':' (s.set i ':') with - | ⟨before, after⟩
  case none => exact absurd colon (splitOnce_eq_none.mp split)
  case some =>
    have whole := of_splitOnce_eq_some split
    have short : (asBytes after).length < 64 := by
      have length := congrArg List.length whole
      rw [List.length_set, h.length_eq, List.length_append, List.length_cons] at length
      have bytes : asBytes after = after.map Char.toUInt8 := asBytes_of_ascii fun c mem =>
        all c (whole ▸ List.mem_append_right _ (List.mem_cons_of_mem _ mem))
      rw [bytes, List.length_map]
      omega
    rw [parse, split]
    rcases parsed : parseRaw (s.set i ':') before after with error | address
    case error => exact ⟨error, parsed⟩
    case ok =>
      simp only [parseRaw, okOr_bind_eq_ok, Option.bind_eq_bind, Option.bind_eq_some_iff,
        Hash.ofBytes?_eq_some] at parsed
      obtain ⟨_, _, account, ⟨_, hex, rfl⟩, _⟩ := parsed
      have length := CellCodec.length_hexDecode (toOption_eq_some.mp hex)
      rw [account.length_eq] at length
      omega

-- One character mistyped.
theorem refuses_iff (friendly : ':' ∉ s) (accepts : parse s = .ok address) (here : s[i]? = some c)
    (differs : c' ≠ c) : (∃ error, parse (s.set i c') = .error error) ↔ ¬Swaps c c' := by
  rw [parse_of_friendly friendly] at accepts
  have ⟨raw, spells, own, tag, _⟩ := parseUserFriendly_eq_ok.mp accepts
  obtain ⟨lt, rfl⟩ := List.getElem?_eq_some_iff.mp here
  have there : (s.set i c')[i]? = some c' := List.getElem?_set_self lt
  constructor
  · rintro ⟨error, refused⟩ swaps
    have ⟨ascii, colon, same⟩ := swaps.standard_eq
    have friendly' : ':' ∉ s.set i c' := fun mem =>
      (List.mem_or_eq_of_mem_set mem).elim friendly (colon ·.symm)
    have spells' : Spells (s.set i c') raw := by
      have all : ∀ c ∈ s.set i c', Ascii c := fun c mem =>
        (List.mem_or_eq_of_mem_set mem).elim (spells.ascii c) (· ▸ ascii)
      have texts : (asBytes (s.set i c')).map standard = (asBytes s).map standard := by
        rw [asBytes_of_ascii all, asBytes_of_ascii spells.ascii, List.map_set, List.map_set, ← same,
          ← List.map_set, ← List.map_set, List.set_getElem_self]
      exact (base64Decode_congr texts).trans spells
    rw [parse_of_friendly friendly', parseUserFriendly_eq_ok.mpr ⟨raw, spells', own, tag, rfl⟩] at refused
    nomatch refused
  · intro apart
    by_cases friendly' : ':' ∈ s.set i c'
    case pos =>
      obtain rfl : ':' = c' := (List.mem_or_eq_of_mem_set friendly').resolve_left friendly
      exact parse_colon spells friendly'
    case neg =>
      rw [parse_of_friendly friendly']
      rcases parsed : parseUserFriendly (s.set i c') with error | address
      case error => exact ⟨error, rfl⟩
      case ok =>
        have ⟨raw', spells', own', _⟩ := parseUserFriendly_eq_ok.mp parsed
        have ⟨k, agree⟩ := spells.window spells'
        have texts := spells'.map_eq
        rw [own.eq_of_window own' agree, ← spells.map_eq] at texts
        have digit := congrArg (·[i]?) texts
        simp only [List.getElem?_map, here, there, Option.map_some, Option.some_inj, Function.comp_apply] at digit
        exact absurd (swaps_of_standard (spells.ascii _ (List.mem_of_getElem? here))
          (spells'.ascii c' (List.mem_of_getElem? there)) differs digit.symm) apart

-- The bytes of an address that is accepted in its user-friendly form.
def Friendly (s : List Char) (raw : Bytes) : Prop :=
  ':' ∉ s ∧ (∃ address, parse s = .ok address) ∧ base64Decode (asBytes s) = some raw

theorem Friendly.sealed {bytes : Bytes} (h : Friendly s bytes) : ∃ raw : Packed, raw.bytes = bytes ∧ raw.Sealed := by
  have ⟨friendly, ⟨_, accepts⟩, decoded⟩ := h
  rw [parse_of_friendly friendly] at accepts
  have ⟨raw, spells, own, _⟩ := parseUserFriendly_eq_ok.mp accepts
  exact ⟨raw, Option.some_inj.mp (spells.symm.trans decoded), own⟩

-- An address of 48 characters does not survive a change of one of them that is more than a change of
-- alphabet, and no two addresses lie within two bytes in a row of one another.
theorem parse_catches_typo :
    (∀ s address, ':' ∉ s → parse s = .ok address → s.length = 48 ∧
      ∀ i c c', s[i]? = some c → c' ≠ c →
        ((∃ error, parse (s.set i c') = .error error) ↔ ¬Swaps c c')) ∧
    ∀ s s' raw raw' k, Friendly s raw → Friendly s' raw' →
      (∀ j, j < k ∨ k + 2 ≤ j → raw'[j]? = raw[j]?) → raw' = raw := by
  constructor
  · intro s address friendly accepts
    have ⟨_, spells, _⟩ := parseUserFriendly_eq_ok.mp ((parse_of_friendly friendly).symm.trans accepts)
    exact ⟨spells.length_eq, fun i c c' => refuses_iff friendly accepts⟩
  · intro s s' raw raw' k h h' agree
    obtain ⟨_, rfl, own⟩ := h.sealed
    obtain ⟨_, rfl, own'⟩ := h'.sealed
    exact own.eq_of_window own' agree

section Mistyped

def walletText : List Char :=
  "EQD8uRo6OBbQ97jCx2EIuKm8Wmt6Vb15-KsQHFLbKSMiYM0w".toList

-- The last character mistyped, and the one dash in the other alphabet.
theorem parse_catches_typo_walletText :
    (∃ error, parse (walletText.set 47 'x') = .error error) ∧
      ¬∃ error, parse (walletText.set 32 '+') = .error error := by
  have accepted : ∃ address, parse walletText = .ok address := by
    have run : (parse walletText).toOption.isSome = true := by decide +kernel
    have ⟨address, parsed⟩ := Option.isSome_iff_exists.mp run
    exact ⟨address, toOption_eq_some.mp parsed⟩
  have ⟨address, accepts⟩ := accepted
  have ⟨_, typo⟩ := parse_catches_typo.left walletText address (by decide +kernel) accepts
  constructor
  · exact (typo 47 'w' 'x' (by decide +kernel) (by decide)).mpr (by simp [Swaps])
  · intro refused
    exact (typo 32 '-' '+' (by decide +kernel) (by decide)).mp refused (.inl ⟨rfl, rfl⟩)

end Mistyped

end Address

end TonNet
