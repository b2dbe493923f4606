import TonNet.Hash

-- The messages of the liteserver protocol that a sync reads, as the wire carries them.

namespace TonNet.Wire

@[ext]
structure BlockIdExt where
  workchain : Int32
  shard     : UInt64
  seqno     : Int32
  rootHash  : Hash
  fileHash  : Hash
deriving DecidableEq

structure Signature where
  nodeIdShort : Hash
  signature   : Bytes
deriving DecidableEq

inductive SignatureSet
  | ordinary (signatures : List Signature)
  | simplex (signatures : List Signature) (sessionId : Hash) (slot : Int32) (candidate : Bytes)
deriving DecidableEq

def SignatureSet.signatures : SignatureSet → List Signature
  | ordinary signatures      => signatures
  | simplex signatures _ _ _ => signatures

-- A forward link.
structure Forward where
  toKeyBlock  : Bool
  source      : BlockIdExt
  dest        : BlockIdExt
  destProof   : Bytes
  configProof : Bytes
  signatures  : SignatureSet
deriving DecidableEq

inductive BlockLink
  | back (destProof stateProof : Bytes)
  | forward (link : Forward)
deriving DecidableEq

structure PartialBlockProof where
  complete : Bool
  source   : BlockIdExt
  dest     : BlockIdExt
  steps    : List BlockLink
deriving DecidableEq

end TonNet.Wire
