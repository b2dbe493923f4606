import TonNet.Lib.Fallible
import TonNet.Lib.Bytes
import TonNet.Cell.Error

-- A bag of cells up to its first cell: the byte reader, the checksum and the header.

namespace TonNet

open Fallible

def magic : Bytes := [0xb5, 0xee, 0x9c, 0x72]

def withHashes : Nat := 0x10

def maxCells : Nat := 1 <<< 17

def maxDepth : Nat := 1024

structure ParseOptions where
  maxCells : Nat := TonNet.maxCells

def ParseOptions.cellCeiling (options : ParseOptions) : Nat :=
  min options.maxCells TonNet.maxCells

def crc32cInit : UInt32 := 0xFFFFFFFF

-- One bit of the reflected division.
def crc32cBit (crc : UInt32) : UInt32 :=
  if crc &&& 1 ≠ 0 then (crc >>> 1) ^^^ 0x82F63B78 else crc >>> 1

def crc32cUpdate (crc : UInt32) (bytes : Bytes) : UInt32 :=
  bytes.foldl (fun crc byte => crc32cBit^[8] (crc ^^^ byte.toUInt32)) crc

def crc32c (bytes : Bytes) : UInt32 :=
  ~~~(crc32cUpdate crc32cInit bytes)

structure Reader where
  bytes : Bytes
  pos   : Nat

abbrev Read := Method Reader CellError

namespace Reader

def take (n : Nat) : Read Bytes := do
  let r ← get
  failIf (r.pos + n > r.bytes.length) .truncated
  set { r with pos := r.pos + n }
  return (r.bytes.drop r.pos).take n

def skip (n : Nat) : Read Unit := do
  let _ ← take n
  return ()

def byte : Read Nat := do
  let taken ← take 1
  let byte ← okOr taken.head? .truncated
  return byte.toNat

def uint (n : Nat) : Read Nat := do
  let taken ← take n
  return Bytes.ofBe taken

def remaining : Read Nat := do
  let r ← get
  return r.bytes.length - r.pos

def consumed : Read Nat := do
  let r ← get
  return r.pos

end Reader

structure Header where
  count        : Nat
  refSize      : Nat
  rootList     : List Nat
  hasIndex     : Bool
  hasChecksum  : Bool
  hasCacheBits : Bool
  cellArea     : Nat
  bodyOffset   : Nat

-- `u32::from_le_bytes`
def ofLe (bytes : Bytes) : UInt32 :=
  UInt32.ofNat (Bytes.ofBe bytes.reverse)

-- A checksum, when present, trails the whole bag and covers everything before it.
def checkChecksum (bytes : Bytes) : Except CellError Unit := do
  failIf (bytes.length < 4) .truncated
  let split := bytes.length - 4
  failIf (crc32c (bytes.take split) ≠ ofLe (bytes.drop split)) .checksum

-- One entry of the root list.
def readRoot (refSize count : Nat) : Read Nat := do
  let index ← Reader.uint refSize
  failIf (index ≥ count) .badReference
  return index

def readHeader (bytes : Bytes) (options : ParseOptions) : Read Header := do
  let start ← Reader.take 4
  failIf (start ≠ magic) .notABagOfCells
  let flags ← Reader.byte
  let hasIndex := flags &&& 0x80 ≠ 0
  let hasChecksum := flags &&& 0x40 ≠ 0
  let hasCacheBits := flags &&& 0x20 ≠ 0
  let refSize := flags &&& 0x07
  let offsetSize ← Reader.byte
  failIf (¬(1 ≤ refSize ∧ refSize ≤ 4)) (.header "reference size")
  failIf (¬(1 ≤ offsetSize ∧ offsetSize ≤ 8)) (.header "offset size")
  onlyIf hasChecksum (Method.ofExcept (checkChecksum bytes))
  let count ← Reader.uint refSize
  let roots ← Reader.uint refSize
  let absent ← Reader.uint refSize
  let cellArea ← Reader.uint offsetSize
  failIf (absent ≠ 0) (.header "absent cells")
  let ceiling := options.cellCeiling
  failIf (count > ceiling) (.tooManyCells ceiling)
  failIf (roots = 0 ∨ roots > ceiling) (.header "root count")
  let remaining ← Reader.remaining
  -- Every cell costs at least its two descriptor bytes, and every root entry its index.
  failIf (count * 2 > remaining) .truncated
  failIf (roots * refSize > remaining) .truncated
  let rootList ← (List.range roots).mapM fun _ => readRoot refSize count
  onlyIf hasIndex (Reader.skip (count * offsetSize))
  let consumed ← Reader.consumed
  let bodyEnd := if hasChecksum then bytes.length - 4 else bytes.length
  failIf (consumed + cellArea ≠ bodyEnd) (.header "cell area size")
  return {
    count, refSize, rootList, hasIndex, hasChecksum, hasCacheBits, cellArea
    bodyOffset := consumed
  }

end TonNet
