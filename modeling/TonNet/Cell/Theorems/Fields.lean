import TonNet.Cell.Theorems.VarInt

-- Any sequence of typed stores is read back by the loads of the same types.

namespace TonNet

open Fallible Method Builder Slice

-- The types that a field of a message can have.
inductive Field
  | uint (width : Nat)
  | int (width : Nat)
  | u8
  | u16
  | u32
  | i32
  | uint128 (width : Nat)
  | int128 (width : Nat)
  | varUint (max : UInt32)
  | varInt (max : UInt32)
  | coins
  | bit
  | bits (count : Nat)
  | bytes (count : Nat)
  | ref
  | maybeRef
  | dict (keyBits : Nat)
  | address

-- What a field holds.
inductive Item
  | uint (width : Nat) (value : BitVec 64)
  | int (width : Nat) (value : BitVec 64)
  | u8 (value : UInt8)
  | u16 (value : UInt16)
  | u32 (value : UInt32)
  | i32 (value : Int32)
  | uint128 (width : Nat) (value : BitVec 128)
  | int128 (width : Nat) (value : BitVec 128)
  | varUint (max : UInt32) (value : BitVec 128)
  | varInt (max : UInt32) (value : BitVec 128)
  | coins (value : BitVec 128)
  | bit (value : Bool)
  | bits (value : List Bool)
  | bytes (value : Bytes)
  | ref (value : Cell)
  | maybeRef (value : Option Cell)
  | dict (value : Dict)
  | address (value : MsgAddress)

namespace Item

def field : Item → Field
  | uint width _    => .uint width
  | int width _     => .int width
  | u8 _            => .u8
  | u16 _           => .u16
  | u32 _           => .u32
  | i32 _           => .i32
  | uint128 width _ => .uint128 width
  | int128 width _  => .int128 width
  | varUint max _   => .varUint max
  | varInt max _    => .varInt max
  | coins _         => .coins
  | bit _           => .bit
  | bits value      => .bits value.length
  | bytes value     => .bytes value.length
  | ref _           => .ref
  | maybeRef _      => .maybeRef
  | dict value      => .dict value.keyBits
  | address _       => .address

def store : Item → Store Unit
  | uint width value    => storeUint value.toNat width
  | int width value     => storeInt value width
  | u8 value            => storeU8 value
  | u16 value           => storeU16 value
  | u32 value           => storeU32 value
  | i32 value           => storeI32 value
  | uint128 width value => storeUint128 value.toNat width
  | int128 width value  => storeInt128 value width
  | varUint max value   => storeVarUint value max.toNat
  | varInt max value    => storeVarInt value max.toNat
  | coins value         => storeCoins value
  | bit value           => storeBit value
  | bits value          => storeBits value
  | bytes value         => storeBytes value
  | ref value           => storeRef value
  | maybeRef value      => storeMaybeRef value
  | dict value          => storeDict value
  | address value       => storeAddress value

-- Both ways to make a dictionary check its width.
def Made : Item → Prop
  | dict value => Dict.fromRoot value.root value.keyBits = .ok value
  | _          => True

end Item

def Field.load : Field → Load Item
  | uint width    => (.uint width <| .ofNat 64 ·) <$> loadUint width
  | int width     => .int width <$> loadInt width
  | u8            => .u8 <$> loadU8
  | u16           => (.u16 <| .ofNat ·) <$> loadU16
  | u32           => .u32 <$> loadU32
  | i32           => .i32 <$> loadI32
  | uint128 width => (.uint128 width <| .ofNat 128 ·) <$> loadUint128 width
  | int128 width  => .int128 width <$> loadInt128 width
  | varUint max   => (.varUint max <| .ofNat 128 ·) <$> loadVarUint max.toNat
  | varInt max    => .varInt max <$> loadVarInt max.toNat
  | coins         => (.coins <| .ofNat 128 ·) <$> loadCoins
  | bit           => .bit <$> loadBit
  | bits count    => .bits <$> loadBits count
  | bytes count   => .bytes <$> loadBytes count
  | ref           => .ref <$> loadRef
  | maybeRef      => .maybeRef <$> loadMaybeRef
  | dict keyBits  => .dict <$> loadDict keyBits
  | address       => .address <$> loadAddress

-- What was written for the item, wherever its store ends.
def Item.Carried (item : Item) : Prop :=
  ∀ b b', item.store.Ends b () b' →
    ∃ bits refs, Writes item.store bits refs () ∧ Reads item.field.load bits refs item

section

variable {b b' : Builder} {width n : Nat}

theorem storeUintOf_fits {value : BitVec width} (h : (storeUintOf width value.toNat n).Ends b () b') :
    n ≤ width ∧ value.toNat < 2 ^ n := by
  simp only [storeUintOf, ends_bind, ends_failIf] at h
  obtain ⟨_, _, ⟨le, _⟩, _, _, ⟨fits, _⟩, _⟩ := h
  refine ⟨not_lt.mp le, ?_⟩
  rcases (not_lt.mp le).lt_or_eq with lt | rfl
  · exact not_le.mp fun ge => fits ⟨lt, ge⟩
  · exact value.isLt

theorem storeIntOf_fits {value : BitVec width} (h : (storeIntOf value n).Ends b () b') :
    n ≤ width ∧ outOfField value n = false := by
  simp only [storeIntOf, ends_bind, ends_failIf] at h
  obtain ⟨_, _, ⟨le, _⟩, _, _, ⟨fits, _⟩, _⟩ := h
  exact ⟨not_lt.mp le, Bool.eq_false_iff.mpr fits⟩

end

namespace Item

theorem uint_carried (width : Nat) (value : BitVec 64) : (uint width value).Carried := by
  intro b b' h
  have ⟨le, fits⟩ := storeUintOf_fits h
  have reads := (loadUint_reads le fits).mapped fun value => uint width (.ofNat 64 value)
  rw [BitVec.ofNat_toNat, BitVec.setWidth_eq] at reads
  exact ⟨_, _, storeUint_writes le fits, reads⟩

theorem uint128_carried (width : Nat) (value : BitVec 128) : (uint128 width value).Carried := by
  intro b b' h
  have ⟨le, fits⟩ := storeUintOf_fits h
  have reads := (loadUintOf_reads le fits).mapped fun value => uint128 width (.ofNat 128 value)
  rw [BitVec.ofNat_toNat, BitVec.setWidth_eq] at reads
  exact ⟨_, _, storeUintOf_writes le fits, reads⟩

theorem int_carried (width : Nat) (value : BitVec 64) : (int width value).Carried := by
  intro b b' h
  have ⟨le, fits⟩ := storeIntOf_fits h
  exact ⟨_, _, storeIntOf_writes le fits, (loadInt_reads le fits).mapped (int width)⟩

theorem int128_carried (width : Nat) (value : BitVec 128) : (int128 width value).Carried := by
  intro b b' h
  have ⟨le, fits⟩ := storeIntOf_fits h
  exact ⟨_, _, storeIntOf_writes le fits, (loadInt128_reads le fits).mapped (int128 width)⟩

theorem u8_carried (value : UInt8) : (u8 value).Carried := by
  intro b b' _
  have le : 8 ≤ 64 := by decide
  have reads := ((loadUint_reads le value.toNat_lt).map UInt8.ofNat).mapped u8
  rw [UInt8.ofNat_toNat] at reads
  exact ⟨_, _, storeUint_writes le value.toNat_lt, reads⟩

theorem u16_carried (value : UInt16) : (u16 value).Carried := by
  intro b b' _
  have le : 16 ≤ 64 := by decide
  have reads := (loadUint_reads le value.toNat_lt).mapped fun value => u16 (.ofNat value)
  rw [UInt16.ofNat_toNat] at reads
  exact ⟨_, _, storeUint_writes le value.toNat_lt, reads⟩

theorem u32_carried (value : UInt32) : (u32 value).Carried := by
  intro b b' _
  have le : 32 ≤ 64 := by decide
  have reads := ((loadUint_reads le value.toNat_lt).map UInt32.ofNat).mapped u32
  rw [UInt32.ofNat_toNat] at reads
  exact ⟨_, _, storeUint_writes le value.toNat_lt, reads⟩

theorem i32_carried (value : Int32) : (i32 value).Carried := by
  intro b b' _
  have le : 32 ≤ 64 := by decide
  have writes := storeIntOf_writes le (fits_signExtend value.toBitVec (by decide) le)
  have reads := ((loadUintOf_reads_mod (value.toBitVec.signExtend 64).toNat le).map
    fun value => (UInt32.ofNat value).toInt32).mapped i32
  have back : (UInt32.ofNat ((value.toBitVec.signExtend 64).toNat % 2 ^ 32)).toInt32 = value := by
    rw [← BitVec.toNat_setWidth, setWidth_signExtend le]
    exact Int32.toBitVec_inj.mp (BitVec.eq_of_toNat_eq (by simp))
  rw [back] at reads
  exact ⟨_, _, writes, reads⟩

-- Coins are the variable integers of a type.
theorem loadVarUint_carried {max : Nat} {value : BitVec 128} {b b' : Builder} (small : max < 2 ^ 32)
    (h : (storeVarUint value max).Ends b () b') (f : BitVec 128 → Item) :
    ∃ bits refs, Writes (storeVarUint value max) bits refs () ∧
      Reads ((f <| .ofNat 128 ·) <$> loadVarUint max) bits refs (f value) := by
  have ⟨two, lt⟩ := storeVarUint_lt h
  have reads := (loadVarUint_reads two small (lt_lenBits lt) (byteLen_le_sixteen value) le_rfl).mapped
    (f <| .ofNat 128 ·)
  rw [BitVec.ofNat_toNat, BitVec.setWidth_eq] at reads
  exact ⟨_, _, storeVarUint_writes two small lt, reads⟩

theorem varInt_carried (max : UInt32) (value : BitVec 128) : (varInt max value).Carried := by
  intro b b' h
  have ⟨two, lt⟩ := storeVarInt_lt h
  have small : max.toNat < 2 ^ 32 := max.toNat_lt
  have reads := loadVarInt_reads two small (lt_lenBits lt) (signedByteLen_le_sixteen value) le_rfl
  exact ⟨_, _, storeVarInt_writes two small lt, reads.mapped (varInt max)⟩

theorem bytes_carried (value : Bytes) : (bytes value).Carried := by
  intro b b' h
  have writes := storeBytes_writes value
  obtain ⟨_, wrote, _⟩ := (writes _ _ _).mp h
  exact ⟨_, _, writes, (loadBytesInto_reads (b'.length_le_of_toBits wrote) []).mapped bytes⟩

theorem dict_carried {value : Dict} (made : (dict value).Made) : (dict value).Carried := by
  intro b b' _
  have opened : Reads (Method.ofExcept (Dict.fromRoot value.root value.keyBits)) [] [] value :=
    .ofExcept made
  have reads := (Reads.bind (f := fun root => Method.ofExcept (Dict.fromRoot root value.keyBits))
    (loadMaybeRef_reads value.root) opened).mapped dict
  rw [List.append_nil, List.append_nil] at reads
  exact ⟨_, _, storeMaybeRef_writes value.root, reads⟩

theorem carried {item : Item} (made : item.Made) : item.Carried := by
  cases item
  case uint width value    => exact uint_carried width value
  case int width value     => exact int_carried width value
  case u8 value            => exact u8_carried value
  case u16 value           => exact u16_carried value
  case u32 value           => exact u32_carried value
  case i32 value           => exact i32_carried value
  case uint128 width value => exact uint128_carried width value
  case int128 width value  => exact int128_carried width value
  case varUint max value   => exact fun _ _ h => loadVarUint_carried max.toNat_lt h (varUint max)
  case varInt max value    => exact varInt_carried max value
  case coins value         => exact fun _ _ h => loadVarUint_carried (by decide) h coins
  case bit value           => exact fun _ _ _ => ⟨_, _, storeBit_writes value, (loadBit_reads value).mapped bit⟩
  case bits value          => exact fun _ _ _ => ⟨_, _, storeBits_writes' value, (loadBits_reads value).mapped bits⟩
  case bytes value         => exact bytes_carried value
  case ref value           => exact fun _ _ _ => ⟨_, _, storeRef_writes value, (loadRef_reads value).mapped ref⟩
  case maybeRef value      =>
    exact fun _ _ _ => ⟨_, _, storeMaybeRef_writes value, (loadMaybeRef_reads value).mapped maybeRef⟩
  case dict value          => exact dict_carried made
  case address value       =>
    exact fun _ _ _ => ⟨_, _, storeAddress_writes value, (loadAddress_reads value).mapped address⟩

theorem all_carried {items : List Item} (made : ∀ item ∈ items, item.Made) {b b' : Builder}
    (h : (items.forM store).Ends b () b') :
    ∃ bits refs, Writes (items.forM store) bits refs () ∧
      Reads ((items.map field).mapM Field.load) bits refs items := by
  induction items generalizing b
  case nil => exact ⟨[], [], .pure (), .pure []⟩
  case cons item items hi =>
    have ⟨first, rest⟩ := List.forall_mem_cons.mp made
    have ⟨_, t, stored, others⟩ := ends_bind.mp h
    have ⟨written, refs, writes, reads⟩ := carried first b t stored
    have ⟨more, moreRefs, writes', reads'⟩ := hi rest others
    refine ⟨written ++ more, refs ++ moreRefs, writes.seq writes', ?_⟩
    rw [List.map_cons, List.mapM_cons]
    exact reads.bind (reads'.map (item :: ·))

end Item

section

variable [Sha256]

theorem fields_restored {items : List Item} (made : ∀ item ∈ items, item.Made) {b : Builder}
    (stored : (items.forM Item.store).Ends .new () b) :
    (∀ c, b.build = .ok c → ∃ s, ((items.map Item.field).mapM Field.load).Ends c.parse items s ∧
      s.isEmpty) ∧
    ((∀ r ∈ b.refs, r.WellFormed) → ∃ c, b.build = .ok c) := by
  have ⟨bits, refs, writes, reads⟩ := Item.all_carried made stored
  have ⟨_, wrote, linked⟩ := (writes _ _ _).mp stored
  constructor
  case left =>
    intro c built
    have ⟨s, ends, noBits, noRefs⟩ := reads.value ⟨b, wrote, linked, built⟩
    refine ⟨s, ends, ?_⟩
    have bits := congrArg List.length noBits
    have refs := congrArg List.length noRefs
    rw [ahead_length] at bits
    rw [refsAhead_length] at refs
    simp [isEmpty, bits, refs]
  case right =>
    intro wf
    have ⟨c, built, _⟩ := b.build_ok wf
    exact ⟨c, built⟩

end

section Message

attribute [local instance] Sha256.standard

-- The head of a message: numbers of every kind, an address and an empty dictionary.
def message : List Item :=
  [.bit true, .int 7 (-64), .uint 64 (-1), .varInt 4 (-1), .coins 1000000007, .i32 (-5), .bits [true, false],
    .bytes [0xde, 0xad], .address (.std (-1) .zero), .maybeRef none, .dict ⟨none, 256⟩, .int128 128 (-1),
    .uint128 3 5]

theorem message_restored : ∃ b, (message.forM Item.store).Ends .new () b ∧
    ∀ c, b.build = .ok c → ∃ s, ((message.map Item.field).mapM Field.load).Ends c.parse message s ∧
      s.isEmpty := by
  have run : ((message.forM Item.store).call .new).toOption.isSome := by decide +kernel
  have ⟨⟨_, b⟩, ends⟩ := Option.isSome_iff_exists.mp run
  have stored := call_eq_ok.mp (toOption_eq_some.mp ends)
  have made : ∀ item ∈ message, item.Made := by simp [message, Item.Made, Dict.fromRoot, failIf, maxBits]
  exact ⟨b, stored, (fields_restored made stored).left⟩

end Message

end TonNet
