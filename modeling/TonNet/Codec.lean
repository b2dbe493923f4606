import TonNet.Cell.Codec
import Mathlib.Logic.Function.Iterate

-- Base64 as an address is written in it, in either alphabet, the checksum over an address, and hex.

namespace TonNet.Codec

open CellCodec (pad padding)

def sextet (c : UInt8) : Option UInt32 :=
  if 'A'.toUInt8 ≤ c ∧ c ≤ 'Z'.toUInt8 then
    some (c - 'A'.toUInt8).toUInt32
  else if 'a'.toUInt8 ≤ c ∧ c ≤ 'z'.toUInt8 then
    some (c - 'a'.toUInt8 + 26).toUInt32
  else if '0'.toUInt8 ≤ c ∧ c ≤ '9'.toUInt8 then
    some (c - '0'.toUInt8 + 52).toUInt32
  else if c = '+'.toUInt8 ∨ c = '-'.toUInt8 then
    some 62
  else if c = '/'.toUInt8 ∨ c = '_'.toUInt8 then
    some 63
  else
    none

-- The bits that have been read, how many of them no byte has taken yet, and the bytes.
structure Reader where
  acc  : UInt32
  bits : UInt32
  out  : Bytes

namespace Reader

def push (r : Reader) (c : UInt8) : Option Reader := do
  let acc := (r.acc <<< 6) ||| (← sextet c)
  let bits := r.bits + 6
  if bits ≥ 8 then
    return { acc, bits := bits - 8, out := r.out ++ [(acc >>> (bits - 8)).toUInt8] }
  else
    return { acc, bits, out := r.out }

def finish (r : Reader) : Option Bytes :=
  if r.acc &&& ((1 <<< r.bits) - 1) ≠ 0 then none else some r.out

end Reader

def base64Decode (input : Bytes) : Option Bytes :=
  if input.length % 4 ≠ 0 then none
  else
    let body := input.take (input.length - padding input)
    if padding input > 2 ∨ pad ∈ body then none
    else body.foldlM Reader.push ⟨0, 0, []⟩ >>= Reader.finish

def crc16Bit (crc : UInt16) : UInt16 :=
  if crc &&& 0x8000 ≠ 0 then (crc <<< 1) ^^^ 0x1021 else crc <<< 1

def crc16 (data : Bytes) : UInt16 :=
  data.foldl (fun crc byte => crc16Bit^[8] (crc ^^^ (byte.toUInt16 <<< (8 : UInt16)))) 0

def decodeHex (input : Bytes) : Option Bytes :=
  (CellCodec.hexDecode input).toOption

end TonNet.Codec
