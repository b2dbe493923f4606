import TonNet.Hash
import TonNet.Lib.Fallible
import TonNet.Lib.Keystream

-- Sealing and opening one frame of a session.

namespace TonNet

open Fallible

-- The counter mode of a block cipher as the keystream that a key and an iv start.
class Aes256Ctr where
  keystream : (key iv : Bytes) → Nat → UInt8

-- The smallest and the largest body of a frame.
def minFrame : Nat := 64
def maxFrame : Nat := 2 ^ 24

inductive FrameError
  | implausibleLength (length : Nat)
  | bodyTooShort
  | payloadTooLarge (length : Nat)
  | checksum
deriving DecidableEq

-- `rx` decrypts what comes from the server, `tx` encrypts what goes to it.
structure SessionCiphers where
  rx : Cipher
  tx : Cipher

namespace SessionCiphers

abbrev Session := Method SessionCiphers FrameError

-- The client's ciphers. The server takes the same parameters the other way round.
def fromParams [Aes256Ctr] (params : Bytes) : SessionCiphers where
  rx := ⟨Aes256Ctr.keystream (params.take 32) ((params.drop 64).take 16), 0⟩
  tx := ⟨Aes256Ctr.keystream ((params.drop 32).take 32) ((params.drop 80).take 16), 0⟩

def applyTx (data : Bytes) : Session Bytes := do
  let s ← get
  set { s with tx := s.tx.past data.length }
  return s.tx.applied data

def applyRx (data : Bytes) : Session Bytes := do
  let s ← get
  set { s with rx := s.rx.past data.length }
  return s.rx.applied data

-- `u32::from_le_bytes` and its inverse.
def lengthOf (bytes : Bytes) : Nat :=
  Bytes.ofBe bytes.reverse

def lengthBytes (length : Nat) : Bytes :=
  (Bytes.be 4 length).reverse

def openLen (bytes : Bytes) : Session Nat := do
  let bytes ← applyRx bytes
  let length := lengthOf bytes
  failIf (¬(minFrame ≤ length ∧ length ≤ maxFrame)) (.implausibleLength length)
  return length

variable [Sha256]

-- A frame before it is encrypted: how long its body is, and the body.
def bodyOf (nonce : Hash) (payload : Bytes) : Bytes :=
  nonce.bytes ++ (payload ++ (Sha256.digest (nonce.bytes ++ payload)).bytes)

def plain (nonce : Hash) (payload : Bytes) : Bytes :=
  lengthBytes (payload.length + minFrame) ++ bodyOf nonce payload

-- `seal`
def sealFrame (nonce : Hash) (payload : Bytes) : Session Bytes := do
  let body := payload.length + minFrame
  failIf (body > maxFrame) (.payloadTooLarge payload.length)
  applyTx (plain nonce payload)

def openBody (body : Bytes) : Session Bytes := do
  failIf (body.length < minFrame) .bodyTooShort
  let body ← applyRx body
  failIf (body.length < 32) .bodyTooShort
  let nonce := body.take 32
  let rest := body.drop 32
  let payload := rest.take (rest.length - 32)
  let stored := rest.drop (rest.length - 32)
  failIf (stored ≠ (Sha256.digest (nonce ++ payload)).bytes) .checksum
  return payload

end SessionCiphers

end TonNet
