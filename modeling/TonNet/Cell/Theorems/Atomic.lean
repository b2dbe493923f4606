import TonNet.Cell.Theorems.Fields
import TonNet.Lib.Atomic

-- What a store that fails leaves behind.

namespace TonNet

open Fallible Method

namespace Builder

section

variable {b : Builder} {α : Type} {x : Store α} {a : α} {bits : List Bool} {refs : List Cell} {n : Nat}

theorem Writes.atomicAt_of_room (h : Writes x bits refs a) (room : b.bits + bits.length ≤ maxBits)
    (room' : b.refs.length + refs.length ≤ maxRefs) : AtomicAt x b := by
  have ⟨_, ends, _⟩ := h.ends room room'
  exact .of_ends ends

-- Where there is room a store ends, so that only the checks it starts with can fail.
theorem Writes.atomicAt (h : Writes x bits refs a)
    (short : maxBits < b.bits + bits.length ∨ maxRefs < b.refs.length + refs.length → AtomicAt x b) :
    AtomicAt x b := by
  by_cases room : b.bits + bits.length ≤ maxBits ∧ b.refs.length + refs.length ≤ maxRefs
  case pos => exact h.atomicAt_of_room room.left room.right
  case neg => exact short (by omega)

theorem atomicAt_roomFor (h : b.bits + n ≤ maxBits → AtomicAt x b) : AtomicAt (do roomFor n; x) b := by
  have le := b.bits_le
  unfold roomFor
  rw [bind_assoc]
  refine .get (.failIf fun fits => h ?_)
  rw [bitsLeft] at fits
  omega

-- A store of bits that makes room for all of them first.
theorem atomicAt_of_writes (h : Writes (do roomFor n; x) bits [] a)
    (short : maxBits < b.bits + bits.length → maxBits < b.bits + n) :
    AtomicAt (do roomFor n; x) b := by
  have le := b.refs_le
  refine h.atomicAt fun out => atomicAt_roomFor fun room => ?_
  rw [List.length_nil] at out
  omega

end

section

variable (b : Builder)

theorem storeBit_atomicAt (bit : Bool) : AtomicAt (storeBit bit) b := by
  refine (storeBit_writes bit).atomicAt fun out => .get ?_
  have le := b.refs_le
  rw [List.length_nil, List.length_singleton] at out
  rw [dif_neg (by rw [bitsLeft]; omega)]
  exact .throw

theorem storeRef_atomicAt (cell : Cell) : AtomicAt (storeRef cell) b := by
  refine (storeRef_writes cell).atomicAt fun out => .get ?_
  have le := b.bits_le
  rw [List.length_nil, List.length_singleton] at out
  rw [dif_neg (by omega)]
  exact .throw

theorem storeOffsets_atomicAt (value n : Nat) : AtomicAt (do
    roomFor n
    (List.range n).reverse.forM fun offset => storeBit (value.testBit offset)) b :=
  atomicAt_of_writes (storeOffsets_writes value n) (by simp)

theorem storeUintOf_atomicAt (width value n : Nat) : AtomicAt (storeUintOf width value n) b :=
  .failIf fun _ => .failIf fun _ => storeOffsets_atomicAt b value n

theorem storeIntOf_atomicAt {width : Nat} (value : BitVec width) (n : Nat) :
    AtomicAt (storeIntOf value n) b :=
  .failIf fun _ => .failIf fun _ => storeOffsets_atomicAt b value.toNat n

theorem storeVarUint_atomicAt (value : BitVec 128) {max : Nat} (small : max < 2 ^ 32) :
    AtomicAt (storeVarUint value max) b := by
  refine .failIf fun _ => .failIf fun lt => atomicAt_roomFor fun room => ?_
  refine (storeVarUint_halves small (not_le.mp lt)).atomicAt_of_room ?_ b.refs_le
  rwa [varBits_length]

theorem storeVarInt_atomicAt (value : BitVec 128) {max : Nat} (small : max < 2 ^ 32) :
    AtomicAt (storeVarInt value max) b := by
  refine .failIf fun _ => .failIf fun lt => atomicAt_roomFor fun room => ?_
  refine (storeVarInt_halves small (not_le.mp lt)).atomicAt_of_room ?_ b.refs_le
  rwa [varBits_length]

theorem storeSameBit_atomicAt (bit : Bool) (count : Nat) : AtomicAt (storeSameBit bit count) b :=
  atomicAt_of_writes (storeSameBit_writes bit count) (by simp)

theorem storeBits_atomicAt (bits : List Bool) : AtomicAt (storeBits bits) b :=
  atomicAt_of_writes (storeBits_writes' bits) (by rw [maxBits]; omega)

theorem storeBytes_atomicAt (bytes : Bytes) : AtomicAt (storeBytes bytes) b := by
  refine (storeBytes_writes bytes).atomicAt fun out => .get (.failIf fun _ => ?_)
  have le := b.refs_le
  rw [List.length_nil, Bytes.toBits_length] at out
  exact atomicAt_roomFor fun room => by omega

theorem storeMaybeRef_atomicAt (cell : Option Cell) : AtomicAt (storeMaybeRef cell) b := by
  cases cell
  case none => exact storeBit_atomicAt b false
  case some cell =>
    refine (storeMaybeRef_writes (some cell)).atomicAt fun out => .get (.failIf fun free => ?_)
    rw [Option.toList_some, List.length_singleton, List.length_singleton] at out
    exact atomicAt_roomFor fun room => by omega

theorem storeSlice_atomicAt {slice : Slice} (le : slice.cell.bits ≤ maxBits) :
    AtomicAt (storeSlice slice) b := by
  refine (storeSlice_writes slice).atomicAt fun out => ?_
  rw [Slice.ahead_length, Slice.refsAhead_length] at out
  have fewer : slice.remainingBits ≤ maxBits := by
    have := slice.endBit_le
    rw [Slice.remainingBits]
    omega
  unfold storeSlice
  rw [if_pos (fewer.trans (by decide))]
  refine atomicAt_roomFor fun room => .get (.failIf fun free => ?_)
  rw [refsLeft] at free
  have := b.refs_le
  omega

theorem storeBuilder_atomicAt (other : Builder) : AtomicAt (storeBuilder other) b := by
  refine (storeBuilder_writes other).atomicAt fun out => ?_
  rw [toBits_length] at out
  refine atomicAt_roomFor fun room => .get (.failIf fun free => ?_)
  rw [refsLeft] at free
  have := b.refs_le
  omega

end
end Builder
end TonNet
