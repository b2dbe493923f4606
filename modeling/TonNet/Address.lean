import TonNet.Client.Error
import TonNet.Codec
import TonNet.Hash

-- An account address in its raw and its user-friendly form. A text is the list of its characters.

namespace TonNet

open Fallible Codec

def addressTag : UInt8 := 0x11

def testOnlyBit : UInt8 := 0x80

def nonBounceableBit : UInt8 := 0x40

structure Address where
  workchain  : Int32
  accountId  : Hash
  bounceable : Bool
  testOnly   : Bool
deriving DecidableEq

-- `s.as_bytes()`
def asBytes (s : List Char) : Bytes :=
  s.flatMap String.utf8EncodeChar

-- `s.split_once(separator)`
def splitOnce (separator : Char) : List Char → Option (List Char × List Char)
  | []     => none
  | c :: s =>
    if c = separator then some ([], s)
    else (splitOnce separator s).map fun (before, after) => (c :: before, after)

def decimal (digits : List Char) : Option Nat :=
  if digits = [] then none
  else digits.foldlM (fun n c => if c.isDigit then some (n * 10 + (c.toNat - '0'.toNat)) else none) 0

-- `s.parse::<i32>()`
def parseInt32 : List Char → Option Int32
  | '-' :: digits => do
    let n ← decimal digits
    if n ≤ 2 ^ 31 then some (.ofInt (-n)) else none
  | '+' :: digits => do
    let n ← decimal digits
    if n < 2 ^ 31 then some (.ofNat n) else none
  | digits => do
    let n ← decimal digits
    if n < 2 ^ 31 then some (.ofNat n) else none

-- `[u8; 36]`: the tag, the workchain, the account id and the checksum over them.
structure Packed where
  bytes     : Bytes
  length_eq : bytes.length = 36

namespace Packed

def ofBytes? (data : Bytes) : Option Packed :=
  if h : data.length = 36 then some ⟨data, h⟩ else none

def tag (raw : Packed) : UInt8 :=
  raw.bytes.getD 0 0

def workchain (raw : Packed) : Int8 :=
  (raw.bytes.getD 1 0).toInt8

def accountId (raw : Packed) : Hash :=
  ⟨(raw.bytes.drop 2).take 32, by rw [List.length_take, List.length_drop, raw.length_eq]; rfl⟩

def stored (raw : Packed) : Bytes :=
  [raw.bytes.getD 34 0, raw.bytes.getD 35 0]

end Packed

-- `{byte:#04x}`
def hexByte (byte : UInt8) : String :=
  .ofList ['0', 'x', (byte.toNat / 16).digitChar, (byte.toNat % 16).digitChar]

namespace Address

-- An error that quotes the text it is about.
def quoting (text : String) (s : List Char) : Error :=
  .address (text ++ " `" ++ .ofList s ++ "`")

def parseRaw (whole workchain account : List Char) : Except Error Address := do
  let workchain ← okOr (parseInt32 workchain) (quoting "invalid workchain in" whole)
  let accountId ← okOr (decodeHex (asBytes account) >>= Hash.ofBytes?)
    (quoting "account id is not 32 hex bytes in" whole)
  return { workchain, accountId, bounceable := true, testOnly := false }

def parseUserFriendly (s : List Char) : Except Error Address := do
  let raw ← okOr (base64Decode (asBytes s) >>= Packed.ofBytes?)
    (quoting "not a 36-byte user-friendly address:" s)
  failIf (.be 2 (crc16 (raw.bytes.take 34)).toNat ≠ raw.stored) (quoting "address checksum mismatch in" s)
  failIf (raw.tag &&& ~~~(testOnlyBit ||| nonBounceableBit) ≠ addressTag)
    (quoting ("unknown address tag " ++ hexByte raw.tag ++ " in") s)
  return {
    workchain  := raw.workchain.toInt32
    accountId  := raw.accountId
    bounceable := raw.tag &&& nonBounceableBit = 0
    testOnly   := raw.tag &&& testOnlyBit ≠ 0
  }

def parse (s : List Char) : Except Error Address :=
  match splitOnce ':' s with
  | some (workchain, account) => parseRaw s workchain account
  | none                      => parseUserFriendly s

end Address

end TonNet
