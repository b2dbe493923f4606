import TonNet.Adnl.Connection
import TonNet.Lite.Types
import Mathlib.Data.List.Infix

-- The queries of the liteserver protocol, each a round trip over the encrypted connection.

namespace TonNet

open Fallible

namespace Wire

structure AccountId where
  workchain : Int32
  id        : Hash
deriving DecidableEq

structure MasterchainInfo where
  last          : BlockIdExt
  stateRootHash : Hash

structure AccountState where
  id         : BlockIdExt
  shardblk   : BlockIdExt
  shardProof : Bytes
  proof      : Bytes
  state      : Bytes

structure SendMsgStatus where
  status : Int32

structure Error where
  code    : Int32
  message : Bytes

-- A request, as it is put into the query envelope.
inductive Request
  | getMasterchainInfo
  | getAccountState (id : BlockIdExt) (account : AccountId)
  | getBlockProof (knownBlock : BlockIdExt) (targetBlock : Option BlockIdExt)
  | sendMessage (body : Bytes)

end Wire

-- What the codec fails with.
structure TlError where
  message : String
deriving DecidableEq

-- The codec of these messages is derived by a library. Everything is stated for an arbitrary one.
class LiteTl where
  request             : Wire.Request → Bytes
  query               : (data : Bytes) → Bytes
  readMasterchainInfo : Bytes → Except TlError Wire.MasterchainInfo
  readAccountState    : Bytes → Except TlError Wire.AccountState
  readPartialProof    : Bytes → Except TlError Wire.PartialBlockProof
  readSendMsgStatus   : Bytes → Except TlError Wire.SendMsgStatus
  readError           : Bytes → Except TlError Wire.Error
  -- `String::from_utf8_lossy`
  lossy               : Bytes → String

-- A transport in the world it is used in: besides the bytes, what the operating system draws for the
-- query that is started now, and what its two clocks show. The first clock counts nanoseconds.
class World (τ : Type) extends Transport τ where
  draw    : τ → Option Hash × Option Hash
  instant : τ → Nat
  now     : τ → UInt64

namespace Lite

-- A value that is believed because the server said so, with the proof that came along unchecked.
structure ServerReported (α : Type) where
  value : α
  proof : Bytes

def ServerReported.tryMap {α β ε : Type} (reported : ServerReported α) (read : α → Except ε β) :
    Except ε (ServerReported β) := do
  let value ← read reported.value
  return { value, proof := reported.proof }

structure AccountState where
  block      : BlockIdExt
  shardBlock : BlockIdExt
  shardProof : Bytes
  state      : Bytes

-- What a server says back to a message it was offered.
structure Accepted where
  status : Int32

end Lite

inductive LiteError
  | adnl (error : AdnlError)
  | liteServer (code : Int32) (message : String)
  | duplicateSend (code : Int32) (message : String)
  | decode (error : TlError)
deriving DecidableEq

-- Why a query stops before its end. A dropped one reports nothing.
inductive LiteStopped
  | failed (error : LiteError)
  | dropped
deriving DecidableEq

def Stopped.lite : Stopped → LiteStopped
  | .failed error => .failed (.adnl error)
  | .dropped      => .dropped

def duplicateSend : String := "duplicate message"

-- A refusal of what the server had been given before is told apart by its text alone.
def nameADuplicate : LiteError → LiteError
  | .liteServer code message =>
    if duplicateSend.toList <:+: message.toList then .duplicateSend code message
    else .liteServer code message
  | other => other

section

variable [LiteTl]

def buildQuery (request : Wire.Request) : Bytes :=
  LiteTl.query (LiteTl.request request)

-- An answer that reads as an error is one, whatever else it may read as.
def decodeAnswer {ρ : Type} (read : Bytes → Except TlError ρ) (answer : Bytes) : Except LiteError ρ :=
  match LiteTl.readError answer with
  | .ok error => throw (.liteServer error.code (LiteTl.lossy error.message))
  | .error _  => (read answer).mapError .decode

end

-- One connection, and one query over it at a time.
structure LiteClient (τ : Type) where
  connection : AdnlConnection τ

namespace LiteClient

variable {τ ρ : Type}

abbrev Query (τ : Type) := Method (LiteClient τ) LiteStopped

-- What a method of the connection does, as a method of its client.
def onConnection (operation : AdnlConnection.Driver τ ρ) : Query τ ρ := do
  let client ← get
  set { client with connection := (operation.outcome client.connection).2 }
  Method.ofExcept ((operation.value client.connection).mapError Stopped.lite)

variable [World τ] [Sha256] [AdnlTl] [LiteTl]

def ask (request : Wire.Request) : Query τ Bytes := do
  let client ← get
  let (queryId, nonce) := World.draw client.connection.transport
  onConnection (AdnlConnection.query (buildQuery request) queryId nonce)

def masterchainInfo : Query τ (Lite.ServerReported Lite.MasterchainInfo) := do
  let answer ← ask .getMasterchainInfo
  let info ← Method.ofExcept ((decodeAnswer LiteTl.readMasterchainInfo answer).mapError .failed)
  return { value := { last := .ofWire info.last }, proof := [] }

def accountState (block : Lite.BlockIdExt) (account : Wire.AccountId) :
    Query τ (Lite.ServerReported Lite.AccountState) := do
  let answer ← ask (.getAccountState block.toWire account)
  let state ← Method.ofExcept ((decodeAnswer LiteTl.readAccountState answer).mapError .failed)
  return {
    value := {
      block      := .ofWire state.id
      shardBlock := .ofWire state.shardblk
      shardProof := state.shardProof
      state      := state.state }
    proof := state.proof }

def sendMessage (boc : Bytes) : Query τ Lite.Accepted := do
  let answer ← ask (.sendMessage boc)
  let status ← Method.ofExcept
    (((decodeAnswer LiteTl.readSendMsgStatus answer).mapError nameADuplicate).mapError .failed)
  return { status := status.status }

def blockProof (known target : Lite.BlockIdExt) : Query τ Wire.PartialBlockProof := do
  let answer ← ask (.getBlockProof known.toWire (some target.toWire))
  Method.ofExcept ((decodeAnswer LiteTl.readPartialProof answer).mapError .failed)

variable [Aes256Ctr] [Curve25519]

def connect (transport : τ) (serverKey : Hash) (keySeed : Option Hash) (params : Option Params) :
    Except LiteStopped (LiteClient τ) := do
  let connection ← (AdnlConnection.connect transport serverKey keySeed params).mapError Stopped.lite
  return { connection }

end LiteClient

end TonNet
