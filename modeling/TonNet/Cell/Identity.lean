import TonNet.Lib.Fallible
import TonNet.Hash
import TonNet.Cell.Error
import TonNet.Cell.Level

-- A cell's identity: its representation hashes and depths, and the rules that compute them.

namespace TonNet

open Fallible

inductive CellType
  | ordinary
  | prunedBranch
  | libraryReference
  | merkleProof
  | merkleUpdate
deriving DecidableEq, Repr

namespace CellType

-- The leading data byte that names an exotic kind.
def tag : CellType → Option UInt8
  | ordinary         => none
  | prunedBranch     => some 0x01
  | libraryReference => some 0x02
  | merkleProof      => some 0x03
  | merkleUpdate     => some 0x04

def fromTag (tag : UInt8) : Option CellType :=
  if tag = 0x01 then some prunedBranch
  else if tag = 0x02 then some libraryReference
  else if tag = 0x03 then some merkleProof
  else if tag = 0x04 then some merkleUpdate
  else none

-- Whether this kind covers another tree, so its content sits one level down.
def isMerkle : CellType → Bool
  | merkleProof | merkleUpdate => true
  | _                          => false

-- How many levels further up a cell's references answer.
def childLevelShift (cellType : CellType) : Nat :=
  if cellType.isMerkle then 1 else 0

-- How many references an exotic kind has.
def expectedRefs : CellType → Option Nat
  | ordinary                        => none
  | prunedBranch | libraryReference => some 0
  | merkleProof                     => some 1
  | merkleUpdate                    => some 2

theorem fromTag_eq_some_iff {tag : UInt8} {cellType : CellType} :
    fromTag tag = some cellType ↔ cellType.tag = some tag := by
  unfold fromTag
  cases cellType <;> simp only [CellType.tag] <;> grind

end CellType

-- The most representation hashes a cell can have: one per level a three-bit mask marks, and one
-- besides.
def maxHashes : Nat := 4

-- The hashes and depths above the lowest.
structure Extra where
  hashes : List Hash
  depths : List UInt16
deriving DecidableEq

structure Identity where
  levelMask : Nat
  hash0     : Hash
  depth0    : UInt16
  extra     : Option Extra
deriving DecidableEq

namespace Identity

def blank (levelMask : Nat) : Except CellError Identity := do
  let count := countOnes levelMask + 1
  failIf (count > maxHashes)
    (.malformed "cell level mask marks more levels than the cell model has")
  return {
    levelMask
    hash0  := .zero
    depth0 := 0
    extra  :=
      if count > 1 then
        some ⟨List.replicate (maxHashes - 1) .zero, List.replicate (maxHashes - 1) 0⟩
      else none
  }

-- Records the hash and depth for the level at `index`, counting from the lowest.
def set (identity : Identity) (index : Nat) (hash : Hash) (depth : UInt16) :
    Except CellError Identity :=
  let pastTheEnd := CellError.malformed "cell has more hashes than its level mask allows"
  if index = 0 then
    return { identity with hash0 := hash, depth0 := depth }
  else do
    let extra ← okOr identity.extra pastTheEnd
    failIf (extra.hashes.length ≤ index - 1) pastTheEnd
    failIf (extra.depths.length ≤ index - 1) pastTheEnd
    return { identity with
      extra := some ⟨extra.hashes.set (index - 1) hash, extra.depths.set (index - 1) depth⟩
    }

-- How many hashes and depths the cell has.
def count (identity : Identity) : Nat :=
  countOnes identity.levelMask + 1

def hash (identity : Identity) (index : Nat) : Option Hash :=
  if index = 0 then some identity.hash0
  else if index ≥ identity.count then none
  else identity.extra.bind (·.hashes[index - 1]?)

def depth (identity : Identity) (index : Nat) : Option UInt16 :=
  if index = 0 then some identity.depth0
  else if index ≥ identity.count then none
  else identity.extra.bind (·.depths[index - 1]?)

-- The hash for `level`, with levels above the cell's own answering with its topmost.
def hashAt (identity : Identity) (level : Nat) : Hash :=
  let index := hashIndex identity.levelMask level
  (identity.hash (min index (identity.count - 1))).getD identity.hash0

def depthAt (identity : Identity) (level : Nat) : UInt16 :=
  let index := hashIndex identity.levelMask level
  (identity.depth (min index (identity.count - 1))).getD identity.depth0

def reprHash (identity : Identity) : Hash :=
  identity.hashAt (levelOf identity.levelMask)

end Identity

def readHash (data : Bytes) (start : Nat) : Except CellError Hash :=
  okOr (Hash.ofBytes? ((data.drop start).take 32))
    (.malformed "exotic cell is too short for its hash")

-- `u16::from_be_bytes`
def depthOf? : Bytes → Option UInt16
  | [high, low] => some (UInt16.ofNat (high.toNat * 256 + low.toNat))
  | _           => none

def readDepth (data : Bytes) (start : Nat) : Except CellError UInt16 :=
  okOr (depthOf? ((data.drop start).take 2)) (.malformed "exotic cell is too short for its depth")

-- `u16::to_be_bytes`
def depthBytes (depth : UInt16) : Bytes :=
  Bytes.be 2 depth.toNat

-- `u16::saturating_add(1)`
def saturatingSucc (depth : UInt16) : UInt16 :=
  if depth = 65535 then depth else depth + 1

-- The depth of a cell over the given references, each answering at `childLevel`.
def depthOver (refs : List Identity) (childLevel : Nat) : UInt16 :=
  refs.foldl (fun depth child => max depth (saturatingSucc (child.depthAt childLevel))) 0

-- The bytes a representation hash is taken over: the two descriptors, the body, every reference's
-- depth and then every reference's hash.
def representation (bits : Nat) (refs : List Identity) (cellType : CellType)
    (mask thisLevel : Nat) (body : Bytes) : Bytes :=
  let childLevel := thisLevel + cellType.childLevelShift
  let exotic := cellType ≠ .ordinary
  [UInt8.ofNat (refsDescriptor refs.length exotic mask thisLevel),
    UInt8.ofNat (bitsDescriptor bits)] ++
  body ++
  refs.flatMap (fun child => depthBytes (child.depthAt childLevel)) ++
  refs.flatMap (fun child => (child.hashAt childLevel).bytes)

-- The lowest hash is taken over the cell's data, a higher one over the hash below it.
def levelBody (data : Bytes) (identity : Identity) (written : Nat) : Bytes :=
  match if written = 0 then none else identity.hash (written - 1) with
  | none          => data
  | some previous => previous.bytes

variable [Sha256]

-- One pass of the hashing loop. Only a level that opens a new hash index produces a hash.
def computeLevel (data : Bytes) (bits : Nat) (refs : List Identity) (cellType : CellType)
    (mask : Nat) (acc : Identity × Nat) (thisLevel : Nat) : Except CellError (Identity × Nat) :=
  let (identity, written) := acc
  if hashIndex mask thisLevel ≠ written then
    return (identity, written)
  else do
    let body := levelBody data identity written
    let identity ← identity.set written
      (Sha256.digest (representation bits refs cellType mask thisLevel body))
      (depthOver refs (thisLevel + cellType.childLevelShift))
    return (identity, written + 1)

-- Below its own level a pruned branch is the subtree it replaced.
def copyStored (data : Bytes) (stored : Nat) (identity : Identity) (index : Nat) :
    Except CellError Identity := do
  let hash ← readHash data (2 + 32 * index)
  let depth ← readDepth data (2 + 32 * stored + 2 * index)
  identity.set index hash depth

-- Computes every representation hash and depth a cell has.
def compute (data : Bytes) (bits : Nat) (refs : List Identity) (cellType : CellType)
    (mask : Nat) : Except CellError Identity := do
  let blank ← Identity.blank mask
  let level := levelOf mask
  let stored := countOnes mask
  let (identity, written) ←
    if cellType = .prunedBranch then do
      let identity ← (List.range stored).foldlM (copyStored data stored) blank
      -- At its own level it is only a cell, hashed as it stands.
      let own := [UInt8.ofNat (refsDescriptor 0 true mask level),
        UInt8.ofNat (bitsDescriptor bits)] ++ data
      let identity ← identity.set stored (Sha256.digest own) 0
      pure (identity, stored + 1)
    else
      (List.range (level + 1)).foldlM (computeLevel data bits refs cellType mask) (blank, 0)
  failIf (written ≠ identity.count)
    (.malformed "cell has fewer hashes than its level mask calls for")
  return identity

-- The level mask a cell's kind and children imply.
def impliedMask (cellType : CellType) (childrenMask stored : Nat) : Nat :=
  match cellType with
  | .prunedBranch               => stored
  | .libraryReference           => 0
  | .merkleProof | .merkleUpdate => childrenMask >>> 1
  | .ordinary                   => childrenMask

def childrenMask (refs : List Identity) : Nat :=
  refs.foldl (fun acc child => acc ||| child.levelMask) 0

def summarize (data : Bytes) (bits : Nat) (refs : List Identity) (cellType : CellType)
    (mask : Nat) : Except CellError Identity := do
  failIf (mask ≠ impliedMask cellType (childrenMask refs) mask)
    (.malformed "cell level mask is not the one its children imply")
  compute data bits refs cellType mask

end TonNet
