import TonNet.Tl.Lite

-- What a liteserver reports, in the client's own terms.

namespace TonNet.Lite

@[ext]
structure BlockIdExt where
  workchain : Int32
  shard     : UInt64
  seqno     : UInt32
  rootHash  : Hash
  fileHash  : Hash
deriving DecidableEq

namespace BlockIdExt

-- The wire carries the sequence number signed. The same bits are counted unsigned here, in both
-- directions without a check.
def ofWire (block : Wire.BlockIdExt) : BlockIdExt where
  workchain := block.workchain
  shard     := block.shard
  seqno     := block.seqno.toUInt32
  rootHash  := block.rootHash
  fileHash  := block.fileHash

def toWire (block : BlockIdExt) : Wire.BlockIdExt where
  workchain := block.workchain
  shard     := block.shard
  seqno     := block.seqno.toInt32
  rootHash  := block.rootHash
  fileHash  := block.fileHash

@[simp]
theorem toWire_ofWire (block : Wire.BlockIdExt) : (ofWire block).toWire = block :=
  rfl

end BlockIdExt

structure MasterchainInfo where
  last : BlockIdExt
deriving DecidableEq

end TonNet.Lite
