import TonNet.Adnl.Frame

-- The packet that opens a session, and the messages that its frames carry.

namespace TonNet

open Fallible

inductive Message
  | query (queryId : Hash) (query : Bytes)
  | answer (queryId : Hash) (answer : Bytes)
deriving DecidableEq

-- The envelope's serializer is derived by a library. Everything is stated for an arbitrary one.
class AdnlTl where
  publicKey   : (key : Hash) → Bytes
  message     : Message → Bytes
  readMessage : Bytes → Option Message

-- What the handshake takes from the curve and from SHA-512.
class Curve25519 where
  sha512         : Bytes → Bytes
  mulBaseClamped : (scalar : Bytes) → Hash
  -- The point that a key decodes to, and its multiple.
  Point          : Type
  decompress     : Hash → Option Point
  mulClamped     : Point → (scalar : Bytes) → Hash

-- `[u8; 160]`
structure Params where
  bytes     : Bytes
  length_eq : bytes.length = 160

structure HandshakeSecrets where
  keySeed : Hash
  params  : Params

structure Handshake where
  packet  : Bytes
  ciphers : SessionCiphers

inductive HandshakeError
  | invalidServerKey
  | degenerateSharedSecret
deriving DecidableEq

variable [Sha256] [Aes256Ctr] [AdnlTl] [Curve25519]

def clientHandshake (serverKey : Hash) (secrets : HandshakeSecrets) : Except HandshakeError Handshake := do
  let serverKeyId := Sha256.digest (AdnlTl.publicKey serverKey)
  let scalar := (Curve25519.sha512 secrets.keySeed.bytes).take 32
  let clientPub := Curve25519.mulBaseClamped scalar
  let serverPoint ← okOr (Curve25519.decompress serverKey) .invalidServerKey
  let shared := Curve25519.mulClamped serverPoint scalar
  failIf (shared = .zero) .degenerateSharedSecret
  let checksum := Sha256.digest secrets.params.bytes
  let key := shared.bytes.take 16 ++ checksum.bytes.drop 16
  let iv := checksum.bytes.take 4 ++ shared.bytes.drop 20
  let encrypted := (Cipher.mk (Aes256Ctr.keystream key iv) 0).applied secrets.params.bytes
  return {
    packet  := serverKeyId.bytes ++ clientPub.bytes ++ checksum.bytes ++ encrypted
    ciphers := .fromParams secrets.params.bytes
  }

end TonNet
