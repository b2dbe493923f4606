import TonNet.Boc.Parse
import TonNet.Proof.Merkle
import TonNet.Tlb.Account
import TonNet.Tlb.Block
import TonNet.Tlb.Shard

-- Reading an account out of what a server sent, against the hash of a block that is trusted.

namespace TonNet

open Fallible

def masterchain : Int32 := -1

structure AccountRead where
  trustedBlockHash : Hash
  workchain        : Int32
  accountId        : Hash
  shardProof       : Bytes
  proof            : Bytes
  state            : Bytes

def verifyBlockState (roots : List Cell) (blockHash : Hash) : Except BlockError Hash := do
  let content ← rootedAt roots blockHash
  let block ← Block.fromCell content
  block.newStateHash

def verifyShardState (roots : List Cell) (stateHash : Hash) : Except BlockError ShardState := do
  let content ← rootedAt roots stateHash
  ShardState.fromCell content

variable [Sha256]

def coveredBlock (proof : Bytes) (rootHash : Hash) : Except BlockError Block := do
  let roots ← parseBoc proof
  let root ← okOr roots.head? (.malformed "a proof with no root cell")
  let content ← verifyMerkleProof root rootHash
  Block.fromCell content

def verifyShardBlock (shardProof : Bytes) (trustedBlockHash : Hash) (workchain : Int32)
    (accountId : Hash) : Except BlockError Hash := do
  let roots ← parseBoc shardProof
  let stateHash ← verifyBlockState roots trustedBlockHash
  let state ← verifyShardState roots stateHash
  -- A withheld extra and a state that has none both leave the shard record unproved.
  match ← state.masterchainExtra with
  | .absent | .pruned => throw .notCovered
  | .found extra      =>
    match ← extra.shardFor workchain accountId with
    | .found descr => return descr.rootHash
    | .absent      => throw (.malformed "no shard record for the workchain")
    | .pruned      => throw .notCovered

-- The block the account's state has to come from. For a shard account it is derived from the
-- masterchain state rather than taken from what the server named it.
def accountBlock (read : AccountRead) : Except BlockError Hash :=
  if read.workchain = masterchain then return read.trustedBlockHash
  else verifyShardBlock read.shardProof read.trustedBlockHash read.workchain read.accountId

-- The state bytes against the entry the proof holds.
def bindAccount (state : Bytes) (entry : ShardAccountEntry) : Except BlockError Account := do
  failIf state.isEmpty .notBound
  let roots ← parseBoc state
  let root ← okOr roots.head? (.malformed "account state has no root cell")
  -- A pruned branch below leaves the hash as it was and raises the mask.
  failIf (root.isExotic ∨ root.levelMask ≠ 0) .notBound
  failIf (root.hash ≠ entry.accountHash) .notBound
  Account.fromCell root

def verifyAccount (read : AccountRead) : Except BlockError Account := do
  let blockHash ← accountBlock read
  let roots ← parseBoc read.proof
  let stateHash ← verifyBlockState roots blockHash
  let state ← verifyShardState roots stateHash
  match ← state.account read.accountId with
  | .found entry => bindAccount read.state entry
  | .pruned      => throw .notCovered
  | .absent      =>
    if read.state.isEmpty then return Account.nonexistent
    else throw .notBound

end TonNet
