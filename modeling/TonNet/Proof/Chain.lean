import TonNet.Proof.Account
import TonNet.Proof.Signature
import TonNet.Proof.Validators

-- Following a chain of links from a block that is trusted to one that is not yet.

namespace TonNet

open Fallible Keyed Wire

def masterchainShard : UInt64 := 0x8000000000000000

structure ProvenBlock where
  id       : BlockIdExt
  keyBlock : Bool
  genUtime : UInt32
deriving DecidableEq

def isMasterchain (id : BlockIdExt) : Bool :=
  id.workchain = masterchain ∧ id.shard = masterchainShard

-- What the check of a chain does that costs something.
inductive Noted
  | chain (proof : PartialBlockProof)
  | link (step : BlockLink)
  | parse (proof : Bytes)
  | tally (set : ValidatorSet) (signatures : List Signature)
  | verify

-- The check runs wherever its failures can be thrown and what it does can be noted. A plain run notes
-- nothing.
class Noting (m : Type → Type) where
  note : Noted → m Unit

export Noting (note)

@[default_instance]
instance : Noting (Except BlockError) where
  note _ := pure ()

@[simp]
theorem note_bind {α : Type} (event : Noted) (f : Unit → Except BlockError α) :
    (note event >>= f) = f () :=
  rfl

variable {m : Type → Type} [Monad m] [MonadExcept BlockError m] [MonadLiftT (Except BlockError) m]
  [Noting m]

section Weight

variable [Ed25519] (set : ValidatorSet) (message : Bytes)

-- The loop over the signatures. An attempt is spent on every entry that names a member not yet
-- counted, and no more attempts are made than `budget`.
def carriedFrom (budget : Nat) :
    List Signature → (attempts : Nat) → (counted : List Hash) → (weight : Nat) → m Nat
  | [], _, _, weight                            => return weight
  | entry :: entries, attempts, counted, weight =>
    match set.find entry.nodeIdShort with
    | none           => carriedFrom budget entries attempts counted weight
    | some validator =>
      match binarySearch counted entry.nodeIdShort with
      | .ok _        => carriedFrom budget entries attempts counted weight
      | .error place =>
        if attempts ≥ budget then return weight
        else do
          note .verify
          if !Ed25519.verify validator.publicKey message entry.signature then
            carriedFrom budget entries (attempts + 1) counted weight
          else do
            let counted := counted.insertIdx place entry.nodeIdShort
            failIf (weight + validator.weight ≥ 2 ^ 64)
              (.malformed "validator weights that overflow")
            let weight := weight + validator.weight
            -- Past the threshold nothing further can change the answer.
            if set.carries weight then return weight
            else carriedFrom budget entries (attempts + 1) counted weight

def carriedWeight (signatures : List Signature) : m Nat := do
  note (.tally set signatures)
  carriedFrom set message (set.len * 2) signatures 0 [] 0

end Weight

variable [Sha256] [Ed25519] [Tl]

-- A Simplex signature covers a vote that names a candidate by its hash, so the candidate has to
-- name the block the link claims.
def signedMessage (signatures : SignatureSet) (dest : BlockIdExt) : Except BlockError Bytes :=
  match signatures with
  | .ordinary _                         => return blockIdMessage dest.rootHash dest.fileHash
  | .simplex _ sessionId slot candidate => do
    let named ← okOr (Tl.readPrefix candidate)
      (.chainBroken "has a signed candidate that cannot be read")
    failIf (named.block ≠ dest)
      (.chainBroken "has signatures for a block other than the one the link claims")
    return simplexMessage sessionId slot candidate

-- The set a link is checked against, out of the source block's own configuration.
def sourceSet (link : Wire.Forward) : m ValidatorSet := do
  note (.parse link.configProof)
  let block ← coveredBlock link.configProof link.source.rootHash
  let config ← block.config
  ValidatorSet.fromConfig config

def destHeader (link : Wire.Forward) : m BlockHeader := do
  note (.parse link.destProof)
  let block ← coveredBlock link.destProof link.dest.rootHash
  block.header

def verifyForward (link : Wire.Forward) (source : BlockIdExt) : m ProvenBlock := do
  failIf (link.source ≠ source)
    (.chainBroken "has a link that does not start where the last one ended")
  failIf (!isMasterchain link.source ∨ !isMasterchain link.dest)
    (.chainBroken "has a link outside the masterchain")
  failIf (link.dest.seqno ≤ link.source.seqno)
    (.chainBroken "has a forward link that does not move forward")
  let set ← sourceSet link
  let header ← destHeader link
  failIf (header.seqno ≠ link.dest.seqno.toUInt32 ∨ header.workchain ≠ link.dest.workchain ∨
      header.shard ≠ link.dest.shard)
    (.chainBroken "has a destination header for a different block")
  -- An ordinary block taken for a key block would continue the chain without a configuration.
  failIf (header.keyBlock ≠ link.toKeyBlock)
    (.chainBroken "has a destination that is not the kind of block the link says")
  let message ← signedMessage link.signatures link.dest
  let carried ← carriedWeight set message link.signatures.signatures
  failIf (!set.carries carried) (.notEnoughWeight carried set.totalWeight)
  return { id := link.dest, keyBlock := header.keyBlock, genUtime := header.genUtime }

def verifyLink (step : BlockLink) (source : BlockIdExt) : m ProvenBlock := do
  note (.link step)
  match step with
  | .back _ _     => throw .backwardLink
  | .forward link => verifyForward link source

-- Each step is checked against where the last one ended.
def verifySteps (anchor : BlockIdExt) (steps : List BlockLink) : m (Option ProvenBlock) :=
  steps.foldlM (fun proven step => do
    let source := (proven.map ProvenBlock.id).getD anchor
    let block ← verifyLink step source
    return some block) none

def verifyChain (anchor : BlockIdExt) (proof : PartialBlockProof) : m ProvenBlock := do
  note (.chain proof)
  failIf (proof.source ≠ anchor)
    (.chainBroken "starts at a block other than the one it was asked about")
  failIf proof.steps.isEmpty (.chainBroken "has no steps")
  let proven ← verifySteps anchor proof.steps
  let last ← okOr proven (.chainBroken "has no steps")
  failIf (last.id ≠ proof.dest) (.chainBroken "ends somewhere other than it says")
  return last

end TonNet
