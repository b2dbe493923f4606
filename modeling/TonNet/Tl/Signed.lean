import TonNet.Tl.Lite

-- What a validator's signature covers, and the serializer that turns it into bytes.

namespace TonNet

structure BlockId where
  rootCellHash : Hash
  fileHash     : Hash
deriving DecidableEq

structure CandidateId where
  slot : Int32
  hash : Hash
deriving DecidableEq

inductive Vote
  | notarize (id : CandidateId)
  | finalize (id : CandidateId)
deriving DecidableEq

structure DataToSign where
  sessionId : Hash
  data      : Bytes
deriving DecidableEq

inductive CandidateBlock
  | ordinary (block : Wire.BlockIdExt)
  | empty (block : Wire.BlockIdExt)
deriving DecidableEq

def CandidateBlock.block : CandidateBlock → Wire.BlockIdExt
  | ordinary block => block
  | empty block    => block

def blockIdTag : Nat := 0xc50b6e70
def dataToSignTag : Nat := 0xa8e33df8

-- The serializer is derived by a library. Everything is stated for an arbitrary one.
class Tl where
  blockId    : BlockId → Bytes
  vote       : Vote → Bytes
  dataToSign : DataToSign → Bytes
  -- Reads a candidate off the front of a byte string, whatever follows it.
  readPrefix : Bytes → Option CandidateBlock

-- What the library promises: a boxed value opens with its constructor id, in little-endian order,
-- and values of one type that differ are written differently.
structure Tl.Lawful [Tl] : Prop where
  blockId_inj       : Function.Injective Tl.blockId
  vote_inj          : Function.Injective Tl.vote
  dataToSign_inj    : Function.Injective Tl.dataToSign
  blockId_boxed     : ∀ m, (Tl.blockId m).take 4 = (Bytes.be 4 blockIdTag).reverse
  dataToSign_boxed  : ∀ m, (Tl.dataToSign m).take 4 = (Bytes.be 4 dataToSignTag).reverse

end TonNet
