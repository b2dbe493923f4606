import TonNet.Tl.Signed

namespace TonNet

-- Whether a signature over a message is a public key's. The curve is not part of the program, so
-- this is an arbitrary predicate.
class Ed25519 where
  verify : (publicKey : Hash) → (message signature : Bytes) → Bool

variable [Tl]

def blockIdMessage (rootHash fileHash : Hash) : Bytes :=
  Tl.blockId { rootCellHash := rootHash, fileHash }

def simplexMessage [Sha256] (sessionId : Hash) (slot : Int32) (candidate : Bytes) : Bytes :=
  Tl.dataToSign {
    sessionId
    data := Tl.vote (.finalize { slot, hash := Sha256.digest candidate })
  }

end TonNet
