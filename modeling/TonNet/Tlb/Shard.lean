import TonNet.Tlb.Decode

-- A shard state: the accounts it holds, and for the masterchain the blocks its shards are at.

namespace TonNet

open Fallible

def shardStateTag : UInt32 := 0x9023afe2
def accountsReference : Nat := 1
def customReference : Nat := 3
def accountKeyBits : Nat := 256
def mcStateExtraTag : Nat := 0xcc26
def workchainKeyBits : Nat := 32
def shardDescrTags : List Nat := [0xa, 0xb]
def maxSplitDepth : Nat := 60

structure ShardAccountEntry where
  account       : Cell
  lastTransHash : Hash
  lastTransLt   : Nat

def ShardAccountEntry.accountHash (entry : ShardAccountEntry) : Hash :=
  entry.account.hash

-- The account record behind the augmentation of its leaf: how deep the subtree splits and the
-- balance under it come first.
def ShardAccountEntry.load : Decode ShardAccountEntry := do
  Slice.skipBits 5
  let _ ← Coins.load
  let _ ← Slice.loadMaybeRef
  let account ← Slice.loadRef
  let lastTransHash ← loadHash
  let lastTransLt ← Slice.loadUint 64
  return { account, lastTransHash, lastTransLt }

structure ShardDescr where
  seqNo    : UInt32
  rootHash : Hash
deriving DecidableEq

def ShardDescr.load : Decode ShardDescr := do
  failIf ((← Slice.loadUint 4) ∉ shardDescrTags) (.wrongConstructor "shard_descr")
  let seqNo ← Slice.loadU32
  -- reg_mc_seqno, start_lt, end_lt
  Slice.skipBits (32 + 64 + 64)
  let rootHash ← loadHash
  return { seqNo, rootHash }

-- The walk down a workchain's shard tree, one bit of the account id for every fork.
def findShardFrom (accountId : Hash) : Nat → Nat → Cell → Except BlockError (Lookup ShardDescr)
  | 0, _, _              => throw (.malformed "shard tree deeper than a shard splits")
  | passes + 1, depth, node => do
    if node.isExotic then return .pruned
    else
      let (fork, slice) ← Slice.loadBit.call node.parse
      if !fork then
        let descr ← ShardDescr.load.value slice
        return .found descr
      else
        let byte ← okOr accountId.bytes[depth / 8]?
          (.malformed "shard tree deeper than an account id can steer")
        let branch := (byte.toNat.testBit (7 - depth % 8)).toNat
        let node ← okOr (node.reference branch) (.malformed "shard tree fork without both halves")
        findShardFrom accountId passes (depth + 1) node

def findShard (root : Cell) (accountId : Hash) : Except BlockError (Lookup ShardDescr) :=
  findShardFrom accountId (maxSplitDepth + 1) 0 root

structure McStateExtra where
  cell : Cell

namespace McStateExtra

def fromCell (cell : Cell) : Except BlockError McStateExtra := do
  let tag ← (Slice.loadUint 16).value cell.parse
  failIf (tag ≠ mcStateExtraTag) (.wrongConstructor "masterchain_state_extra")
  return ⟨cell⟩

-- The root of the shard dictionary, behind the tag that was checked before.
def loadShards : Decode (Option Cell) := do
  Slice.skipBits 16
  Slice.loadMaybeRef

def shardFor (extra : McStateExtra) (workchain : Int32) (accountId : Hash) :
    Except BlockError (Lookup ShardDescr) := do
  match ← loadShards.value extra.cell.parse with
  | none      => return .absent
  | some root =>
    let shards ← Dict.fromRoot (some root) workchainKeyBits
    match ← shards.get (.be 4 workchain.toUInt32.toNat) with
    | .absent      => return .absent
    | .pruned      => return .pruned
    | .found entry =>
      let slice ← entry.slice
      let tree ← Slice.loadRef.value slice
      findShard tree accountId

end McStateExtra

structure ShardState where
  cell : Cell

namespace ShardState

def fromCell (cell : Cell) : Except BlockError ShardState := do
  let tag ← Slice.loadU32.value cell.parse
  failIf (tag ≠ shardStateTag) (.wrongConstructor "shard_state")
  return ⟨cell⟩

def accounts (state : ShardState) : Except BlockError Cell :=
  okOr (state.cell.reference accountsReference) (.malformed "shard state without accounts")

def account (state : ShardState) (accountId : Hash) :
    Except BlockError (Lookup ShardAccountEntry) := do
  let accounts ← state.accounts
  -- A pruned dictionary reads like an empty one, so it is told apart first.
  if accounts.isExotic then return .pruned
  else
    match ← Slice.loadMaybeRef.value accounts.parse with
    | none      => return .absent
    | some root =>
      let dict ← Dict.fromRoot (some root) accountKeyBits
      match ← dict.get accountId.bytes with
      | .absent      => return .absent
      | .pruned      => return .pruned
      | .found entry =>
        let leaf ← entry.slice
        let account ← ShardAccountEntry.load.value leaf
        return .found account

-- Whether an extra follows.
def skipToCustom : Decode Bool := do
  -- the constructor tag, already checked, and the global id
  Slice.skipBits (32 + 32)
  failIf ((← Slice.loadUint 2) ≠ 0) (.malformed "shard identifier")
  Slice.skipBits (6 + 32 + 64)
  -- seq_no, vert_seq_no, gen_utime, gen_lt, min_ref_mc_seqno, before_split
  Slice.skipBits (32 + 32 + 32 + 64 + 32 + 1)
  Slice.loadBit

def masterchainExtra (state : ShardState) : Except BlockError (Lookup McStateExtra) := do
  if !(← skipToCustom.value state.cell.parse) then return .absent
  else
    let cell ← okOr (state.cell.reference customReference)
      (.malformed "shard state without its extra")
    if cell.isExotic then return .pruned
    else
      let extra ← McStateExtra.fromCell cell
      return .found extra

end ShardState

end TonNet
