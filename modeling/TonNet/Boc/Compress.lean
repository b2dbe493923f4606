import TonNet.Boc.Serialize

-- A bag of cells under LZ4.

namespace TonNet

open Fallible

-- The two calls of `lz4_flex`.
class Lz4 where
  compressPrependSize     : Bytes → Bytes
  decompressSizePrepended : Bytes → Option Bytes

-- What the code relies on of them: the length stands in front as four little-endian bytes, nothing comes
-- back longer than it names, and what was compressed comes back.
structure Lz4.Lawful [Lz4] : Prop where
  named    : ∀ bytes : Bytes, ∃ block : Bytes, compressPrependSize bytes = toLe (.ofNat bytes.length) ++ block
  within   : ∀ {bytes expanded : Bytes}, decompressSizePrepended bytes = some expanded →
    expanded.length ≤ (ofLe (bytes.take 4)).toNat
  restores : ∀ bytes : Bytes, bytes.length < 2 ^ 32 →
    decompressSizePrepended (compressPrependSize bytes) = some bytes

variable [Lz4]

def maxDecompressed : Nat := 64 <<< 20

def compress (bag : Bytes) : Bytes :=
  Lz4.compressPrependSize bag

-- A length of four bytes is always one the platform can hold.
def decompress (bytes : Bytes) : Except CellError Bytes := do
  failIf (bytes.length < 4) .truncated
  let named := (ofLe (bytes.take 4)).toNat
  failIf (named > maxDecompressed) (.malformed "compressed bag expands past the cap")
  okOr (Lz4.decompressSizePrepended bytes) (.malformed "bytes are not valid lz4")

variable [Sha256]

end TonNet
