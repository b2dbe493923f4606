import TonNet.Lib.Keyed
import TonNet.Tlb.Decode

-- The validators that may sign masterchain blocks, read out of a block's configuration.

namespace TonNet

open Fallible Keyed

def currentValidators : Int32 := 34
def currentTempValidators : Int32 := 35

def validatorsTag : Nat := 0x11
def validatorsExtTag : Nat := 0x12
def validatorTag : Nat := 0x53
def validatorAddrTag : Nat := 0x73
def ed25519PubkeyTag : Nat := 0x8e81278a

def pubEd25519 : Nat := 0x4813b4c6

structure Validator where
  publicKey : Hash
  weight    : Nat
deriving DecidableEq

abbrev Members := List (Hash × Validator)

def Members.weight (members : Members) : Nat :=
  Keyed.weight Validator.weight members

-- The weights are added as `u64`.
structure Roll where
  members     : Members
  totalWeight : Nat
  weighed     : totalWeight = members.weight
  fits        : totalWeight < 2 ^ 64

structure ValidatorSet where
  utimeSince  : UInt32
  utimeUntil  : UInt32
  total       : Nat
  main        : Nat
  members     : Members
  totalWeight : Nat
  sorted      : (members.map Prod.fst).Pairwise (· < ·)
  weighed     : totalWeight = members.weight
  fits        : totalWeight < 2 ^ 64

-- The constructor id in little-endian order, then the key.
def shortId [Sha256] (publicKey : Hash) : Hash :=
  Sha256.digest ((Bytes.be 4 pubEd25519).reverse ++ publicKey.bytes)

def readValidator : Decode Validator := do
  let tag ← Slice.loadUint 8
  -- The two forms differ only in a trailing adnl address, which signing does not use.
  failIf (tag ≠ validatorTag ∧ tag ≠ validatorAddrTag) (.wrongConstructor "a validator descriptor")
  failIf ((← Slice.loadUint 32) ≠ ed25519PubkeyTag) (.wrongConstructor "an ed25519 public key")
  let bytes ← Slice.loadBytes 32
  let publicKey ← okOr (Hash.ofBytes? bytes)
    (.malformed "an ed25519 public key that is not 32 bytes")
  let weight ← Slice.loadUint 64
  return { publicKey, weight }

namespace Roll

def empty : Roll where
  members     := []
  totalWeight := 0
  weighed     := rfl
  fits        := by decide

def push (roll : Roll) (shortId : Hash) (validator : Validator) : Except BlockError Roll :=
  if h : roll.totalWeight + validator.weight < 2 ^ 64 then return {
    members     := roll.members ++ [(shortId, validator)]
    totalWeight := roll.totalWeight + validator.weight
    weighed     := by simp [Members.weight, Keyed.weight, roll.weighed]
    fits        := h
  }
  else throw (.malformed "validator weights that overflow")

end Roll

namespace ValidatorSet

-- What a set declares before its list of members.
structure Header where
  utimeSince : UInt32
  utimeUntil : UInt32
  total      : Nat
  main       : Nat
  list       : Cell

def loadExtended : Decode Bool := do
  let tag ← Slice.loadUint 8
  if tag = validatorsExtTag then return true
  else if tag = validatorsTag then return false
  else throw (.wrongConstructor "a validator set")

-- The declared weight of the extended form is over every validator in every shard, so it is read
-- past. The members below are weighed from their own entries.
def loadList (extended : Bool) : Decode Cell := do
  if extended then
    let _ ← Slice.loadUint 64
    okOr (← Slice.loadMaybeRef) (.malformed "a validator set with no list")
  else Slice.loadRef

def loadHeader : Decode Header := do
  let extended ← loadExtended
  let utimeSince ← Slice.loadU32
  let utimeUntil ← Slice.loadU32
  let total ← Slice.loadU16
  let main ← Slice.loadU16
  failIf (main = 0 ∨ main > total)
    (.malformed "a validator set with no main validators, or more main than total")
  let list ← loadList extended
  return { utimeSince, utimeUntil, total, main, list }

def enroll [Sha256] (listDict : Dict) (roll : Roll) (index : Nat) : Except BlockError Roll := do
  match ← listDict.get (.be 2 index) with
  | .absent      => throw (.malformed "a validator set missing an entry the count promises")
  | .pruned      => throw .notCovered
  | .found entry =>
    let slice ← entry.slice
    let validator ← readValidator.value slice
    roll.push (shortId validator.publicKey) validator

-- A key counted twice would be paid twice towards a threshold, so a repeat is refused.
def close (header : Header) (roll : Roll) : Except BlockError ValidatorSet :=
  if h : repeats (sortByKey roll.members) then
    throw (.malformed "a validator set that names the same key twice")
  else return {
    header with
    members     := sortByKey roll.members
    totalWeight := roll.totalWeight
    sorted      := strictly_sorted (sortByKey_sorted _) h
    weighed     := roll.weighed.trans (weight_perm (sortByKey_perm _)).symm
    fits        := roll.fits
  }

def fromCell [Sha256] (param : Cell) : Except BlockError ValidatorSet := do
  let header ← loadHeader.value param.parse
  let listDict ← Dict.fromRoot (some header.list) 16
  let roll ← (List.range header.main).foldlM (enroll listDict) Roll.empty
  close header roll

-- A pruned branch shows nothing, so only an absence that is covered licenses the fallback.
def currentSet (params : Dict) : Except BlockError DictEntry := do
  match ← params.get (.be 4 currentTempValidators.toUInt32.toNat) with
  | .found entry => return entry
  | .pruned      => throw .notCovered
  | .absent      =>
    match ← params.get (.be 4 currentValidators.toUInt32.toNat) with
    | .found entry => return entry
    | .absent      => throw (.malformed "a configuration without the validator set")
    | .pruned      => throw .notCovered

-- Every configuration parameter is stored behind a reference.
def fromConfig [Sha256] (config : Cell) : Except BlockError ValidatorSet := do
  let params ← Dict.fromRoot (some config) 32
  let entry ← currentSet params
  let slice ← entry.slice
  let param ← Slice.loadRef.value slice
  fromCell param

def find (set : ValidatorSet) (shortId : Hash) : Option Validator :=
  match binarySearch (set.members.map Prod.fst) shortId with
  | .ok place => (set.members[place]?).map Prod.snd
  | .error _  => none

def carries (set : ValidatorSet) (weight : Nat) : Bool :=
  weight * 3 > set.totalWeight * 2

def len (set : ValidatorSet) : Nat :=
  set.members.length

end ValidatorSet

end TonNet
