import TonNet.Boc.Parse
import TonNet.Tlb.Decode

namespace TonNet

open Fallible

def storageExtraNone : Nat := 0b000
def storageExtraInfo : Nat := 0b001

inductive AccountStatus
  | nonexistent
  | uninit
  | frozen (stateHash : Hash)
  | active (code data : Option Cell)

structure Account where
  balance     : Coins
  status      : AccountStatus
  lastTransLt : Nat

def skipAnycast : Decode Unit := do
  if ← Slice.loadBit then
    let depth ← Slice.loadUint 5
    Slice.skipBits depth
  else return ()

def skipAddress : Decode Unit := do
  match ← Slice.loadUint 2 with
  -- addr_std: an eight-bit workchain and a 256-bit account id
  | 0b10 =>
    skipAnycast
    Slice.skipBits (8 + 256)
  -- addr_var: a wider workchain and an account id of a stated length
  | 0b11 =>
    skipAnycast
    let len ← Slice.loadUint 9
    Slice.skipBits (32 + len)
  | _    => throw (.malformed "account address")

def skipStorageInfo : Decode Unit := do
  -- cells, bits
  let _ ← Slice.loadVarUint 7
  let _ ← Slice.loadVarUint 7
  let extra ← Slice.loadUint 3
  failIf (extra ≠ storageExtraNone ∧ extra ≠ storageExtraInfo) (.malformed "account storage extra")
  -- dict_hash
  onlyIf (extra = storageExtraInfo) (Slice.skipBits 256)
  -- last_paid
  Slice.skipBits 32
  -- due_payment
  if ← Slice.loadBit then
    let _ ← Slice.loadVarUint 16
    return ()
  else return ()

def loadStatus : Decode AccountStatus := do
  if ← Slice.loadBit then
    -- split_depth
    let split ← Slice.loadBit
    onlyIf split (Slice.skipBits 5)
    -- special, the tick and tock flags
    let special ← Slice.loadBit
    onlyIf special (Slice.skipBits 2)
    let code ← Slice.loadMaybeRef
    let data ← Slice.loadMaybeRef
    -- library
    let _ ← Slice.loadMaybeRef
    return .active code data
  else if ← Slice.loadBit then
    let stateHash ← loadHash
    return .frozen stateHash
  else return .uninit

namespace Account

def nonexistent : Account where
  balance     := .zero
  status      := .nonexistent
  lastTransLt := 0

def load : Decode Account := do
  if !(← Slice.loadBit) then return nonexistent
  else
    skipAddress
    skipStorageInfo
    let lastTransLt ← Slice.loadUint 64
    let balance ← Coins.load
    -- The other currencies are stepped over.
    let _ ← Slice.loadMaybeRef
    let status ← loadStatus
    return { balance, status, lastTransLt }

def fromCell (cell : Cell) : Except BlockError Account :=
  load.value cell.parse

def decode [Sha256] (state : Bytes) : Except BlockError Account := do
  if state.isEmpty then return nonexistent
  else
    let roots ← parseBoc state
    let root ← okOr roots.head? (.malformed "account state has no root cell")
    fromCell root

end Account

end TonNet
