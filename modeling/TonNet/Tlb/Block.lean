import TonNet.Tlb.Decode

-- A block: its header, its configuration and the state it leaves.

namespace TonNet

open Fallible

def blockTag : UInt32 := 0x11ef55aa
def blockInfoTag : UInt32 := 0x9bc7a987
def blockExtraTag : UInt32 := 0x4a33f6fd
def mcBlockExtraTag : Nat := 0xcca5

def infoReference : Nat := 0
def stateUpdateReference : Nat := 2
def extraReference : Nat := 3

def maxShardPrefixBits : Nat := 60

structure BlockHeader where
  workchain                 : Int32
  shard                     : UInt64
  seqno                     : UInt32
  keyBlock                  : Bool
  genUtime                  : UInt32
  genValidatorListHashShort : UInt32
  genCatchainSeqno          : UInt32
  prevKeyBlockSeqno         : UInt32
deriving DecidableEq

structure Block where
  cell : Cell

def readShardIdent : Decode (Int32 × UInt64) := do
  failIf ((← Slice.loadUint 2) ≠ 0) (.wrongConstructor "a shard identifier")
  let prefixBits ← Slice.loadUint 6
  failIf (prefixBits > maxShardPrefixBits) (.malformed "a shard prefix longer than 60 bits")
  let workchain ← Slice.loadI32
  let shard ← Slice.loadUint 64
  -- Only the declared bits are kept, and the bit after them closes them off.
  let bits := UInt64.ofNat prefixBits
  let significant := UInt64.ofNat shard &&& ~~~((0xffffffffffffffff : UInt64) >>> bits >>> 1)
  return (workchain, significant ||| 1 <<< (63 - bits))

def skipCurrency : Decode Unit := do
  let _ ← Slice.loadVarUint 16
  let _ ← Slice.loadMaybeRef
  return ()

namespace Block

def fromCell (cell : Cell) : Except BlockError Block := do
  let tag ← Slice.loadU32.value cell.parse
  failIf (tag ≠ blockTag) (.wrongConstructor "block")
  return ⟨cell⟩

def loadHeader : Decode BlockHeader := do
  failIf ((← Slice.loadU32) ≠ blockInfoTag) (.wrongConstructor "a block header")
  -- version
  Slice.skipBits 32
  -- not_master, after_merge, before_split, after_split, want_split, want_merge
  Slice.skipBits 6
  let keyBlock ← Slice.loadBit
  -- vert_seqno_incr
  Slice.skipBits 1
  -- flags
  Slice.skipBits 8
  let seqno ← Slice.loadU32
  -- vert_seq_no
  Slice.skipBits 32
  let (workchain, shard) ← readShardIdent
  let genUtime ← Slice.loadU32
  -- start_lt, end_lt
  Slice.skipBits (64 + 64)
  let genValidatorListHashShort ← Slice.loadU32
  let genCatchainSeqno ← Slice.loadU32
  -- min_ref_mc_seqno
  Slice.skipBits 32
  let prevKeyBlockSeqno ← Slice.loadU32
  return {
    workchain, shard, seqno, keyBlock, genUtime, genValidatorListHashShort, genCatchainSeqno,
    prevKeyBlockSeqno
  }

def header (block : Block) : Except BlockError BlockHeader := do
  let info ← okOr (block.cell.reference infoReference) (.malformed "a block without a header")
  failIf info.isExotic .notCovered
  loadHeader.value info.parse

-- The masterchain extra stands behind three references and a maybe-bit of the block's extra.
def loadCustom : Decode Cell := do
  failIf ((← Slice.loadU32) ≠ blockExtraTag) (.wrongConstructor "a block extra")
  -- in_msg_descr
  let _ ← Slice.loadRef
  -- out_msg_descr
  let _ ← Slice.loadRef
  -- account_blocks
  let _ ← Slice.loadRef
  -- rand_seed, created_by
  Slice.skipBits (256 + 256)
  okOr (← Slice.loadMaybeRef) .notAKeyBlock

-- The configuration is there only when the bit after the tag is set.
def loadConfig : Decode Cell := do
  failIf ((← Slice.loadUint 16) ≠ mcBlockExtraTag) (.wrongConstructor "a masterchain block extra")
  failIf (!(← Slice.loadBit)) .notAKeyBlock
  -- shard_hashes
  let _ ← Slice.loadMaybeRef
  -- shard_fees root
  let _ ← Slice.loadMaybeRef
  -- the fees half of its augmentation, then the created half
  skipCurrency
  skipCurrency
  -- prev_blk_signatures and the two messages
  let _ ← Slice.loadRef
  -- config_addr
  Slice.skipBits 256
  Slice.loadRef

def config (block : Block) : Except BlockError Cell := do
  let extra ← okOr (block.cell.reference extraReference) (.malformed "a block without an extra")
  failIf extra.isExotic .notCovered
  let custom ← loadCustom.value extra.parse
  failIf custom.isExotic .notCovered
  loadConfig.value custom.parse

-- A Merkle update holds a type byte, the old hash, then the new hash.
def newStateHash (block : Block) : Except BlockError Hash := do
  let update ← okOr (block.cell.reference stateUpdateReference)
    (.malformed "block without a state update")
  failIf (update.cellType ≠ .merkleUpdate) (.malformed "block state update is not a merkle update")
  okOr (Hash.ofBytes? ((update.data.drop 33).take 32)) (.malformed "merkle update is too short")

end Block

end TonNet
