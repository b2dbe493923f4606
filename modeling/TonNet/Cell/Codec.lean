import TonNet.Cell.Error
import TonNet.Lib.Bytes
import TonNet.Lib.Fallible

-- Base64 and hex as a bag of cells and a hash are written in them. A text is the bytes of its characters.

namespace TonNet.CellCodec

open Fallible

def pad : UInt8 := '='.toUInt8

def digit (value : UInt8) : UInt8 :=
  let sextet := value &&& 0b00111111
  if sextet ≤ 25 then 'A'.toUInt8 + sextet
  else if sextet ≤ 51 then 'a'.toUInt8 + sextet - 26
  else if sextet ≤ 61 then '0'.toUInt8 + sextet - 52
  else if sextet = 62 then '+'.toUInt8
  else '/'.toUInt8

def sextet (character : UInt8) : Except CellError UInt8 :=
  if 'A'.toUInt8 ≤ character ∧ character ≤ 'Z'.toUInt8 then
    return character - 'A'.toUInt8
  else if 'a'.toUInt8 ≤ character ∧ character ≤ 'z'.toUInt8 then
    return character - 'a'.toUInt8 + 26
  else if '0'.toUInt8 ≤ character ∧ character ≤ '9'.toUInt8 then
    return character - '0'.toUInt8 + 52
  else if character = '+'.toUInt8 then
    return 62
  else if character = '/'.toUInt8 then
    return 63
  else
    throw (.encoding "base64 holds a character outside its alphabet")

-- The four characters of a chunk of which `carried` bytes are there.
def quantum (first second third : UInt8) (carried : Nat) : Bytes :=
  [digit (first >>> 2), digit ((first <<< 4) ||| (second >>> 4)), digit ((second <<< 2) ||| (third >>> 6)),
    digit third].take (carried + 1) ++ List.replicate (3 - carried) pad

def base64Encode : Bytes → Bytes
  | first :: second :: third :: rest => quantum first second third 3 ++ base64Encode rest
  | [first, second]                  => quantum first second 0 2
  | [first]                          => quantum first 0 0 1
  | []                               => []

-- The loop over the quanta of a body whose padding has been cut away.
def decodeQuanta : Bytes → Except CellError Bytes
  | first :: second :: third :: fourth :: rest => do
    let first ← sextet first
    let second ← sextet second
    let third ← sextet third
    let fourth ← sextet fourth
    let out ← decodeQuanta rest
    return ((first <<< 2) ||| (second >>> 4)) :: ((second <<< 4) ||| (third >>> 2)) ::
      ((third <<< 6) ||| fourth) :: out
  | [first, second, third] => do
    let first ← sextet first
    let second ← sextet second
    let third ← sextet third
    failIf (third &&& 0b11 ≠ 0) (.encoding "base64 sets a bit no byte carries")
    return [(first <<< 2) ||| (second >>> 4), (second <<< 4) ||| (third >>> 2)]
  | [first, second] => do
    let first ← sextet first
    let second ← sextet second
    failIf (second &&& 0b1111 ≠ 0) (.encoding "base64 sets a bit no byte carries")
    return [(first <<< 2) ||| (second >>> 4)]
  | [_] => throw (.encoding "base64 ends in a character that spells no byte")
  | []  => return []

-- How many pads a text ends in.
def padding (text : Bytes) : Nat :=
  (text.reverse.takeWhile (· = pad)).length

-- The padding is part of the text, so what is left when it is cut away is always there.
def base64Decode (text : Bytes) : Except CellError Bytes := do
  failIf (text.length % 4 ≠ 0) (.encoding "base64 is not a whole number of quanta")
  failIf (padding text > 2) (.encoding "base64 pads a quantum away entirely")
  decodeQuanta (text.take (text.length - padding text))

def nibble (character : UInt8) : Except CellError UInt8 :=
  if '0'.toUInt8 ≤ character ∧ character ≤ '9'.toUInt8 then
    return character - '0'.toUInt8
  else if 'a'.toUInt8 ≤ character ∧ character ≤ 'f'.toUInt8 then
    return character - 'a'.toUInt8 + 10
  else if 'A'.toUInt8 ≤ character ∧ character ≤ 'F'.toUInt8 then
    return character - 'A'.toUInt8 + 10
  else
    throw (.encoding "hex holds a character that is not one")

-- The loop over the pairs of a text of even length.
def decodePairs : Bytes → Except CellError Bytes
  | high :: low :: rest => do
    let high ← nibble high
    let low ← nibble low
    let out ← decodePairs rest
    return ((high <<< 4) ||| low) :: out
  | _ => return []

def hexDecode (text : Bytes) : Except CellError Bytes := do
  failIf (text.length % 2 ≠ 0) (.encoding "hex is not a whole number of bytes")
  decodePairs text

end TonNet.CellCodec
