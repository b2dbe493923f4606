import TonNet.Address
import TonNet.Client.Sync
import TonNet.Lite.Client
import TonNet.Proof.Account

-- The client over its connection: every call it serves, down to the bytes.

namespace TonNet

open Fallible

section Messages

def TransportError.message : TransportError → String
  | io error       => s!"transport i/o failed: {error}"
  | connectTimeout => "transport connect timed out"

def HandshakeError.message : HandshakeError → String
  | invalidServerKey       => "server public key is not a valid ed25519 point"
  | degenerateSharedSecret => "the key exchange produced no shared secret"

def FrameError.message : FrameError → String
  | implausibleLength length => s!"implausible frame length {length}"
  | bodyTooShort             => "frame body too short"
  | payloadTooLarge length   => s!"payload of {length} bytes does not fit one frame"
  | checksum                 => "frame checksum mismatch"

def AdnlError.message : AdnlError → String
  | transport error => error.message
  | handshake error => error.message
  | frame error     => error.message
  | malformed       => "server sent a malformed adnl message"
  | noAnswer        => "no answer to the query"
  | noRandomness    => "the operating system supplied no randomness"
  | desynchronized  => "the session lost its place in the stream"

end Messages

namespace Error

-- A read that checked nothing has no proof to fail.
def decoding (error : BlockError) : Error :=
  .cell error.message

def ofBlock (error : BlockError) : Error :=
  .proof error.message

def ofTransport (error : TransportError) : Error :=
  .transport error.message

def ofAdnl : AdnlError → Error
  | .transport error => ofTransport error
  | .handshake _     => .handshake
  | .desynchronized  => .connectionLost
  | other            => .decode other.message

def ofLite : LiteError → Error
  | .adnl error                 => ofAdnl error
  | .liteServer code message    => .liteServer code message
  | .duplicateSend code message => .liteServer code message
  | .decode error               => .decode error.message

-- A query that its deadline drops has timed out.
def ofStopped : LiteStopped → Error
  | .failed error => ofLite error
  | .dropped      => .timeout

end Error

-- A value that was proven against a block.
structure Verified (α : Type) where
  value  : α
  anchor : Lite.BlockIdExt

structure LiteServer where
  addr : String
  key  : Hash

structure Config where
  liteservers : List LiteServer
  initBlock   : Option Lite.BlockIdExt
  maxHeadAge  : UInt32

namespace AccountRead

def inMasterchain (trustedBlockHash accountId : Hash) (proof state : Bytes) : AccountRead where
  trustedBlockHash := trustedBlockHash
  workchain        := masterchain
  accountId        := accountId
  shardProof       := []
  proof            := proof
  state            := state

def inShard (trustedBlockHash : Hash) (workchain : Int32) (accountId : Hash)
    (shardProof proof state : Bytes) : AccountRead where
  trustedBlockHash := trustedBlockHash
  workchain        := workchain
  accountId        := accountId
  shardProof       := shardProof
  proof            := proof
  state            := state

end AccountRead

structure NetClient (τ : Type) extends Client where
  lite : LiteClient τ

namespace NetClient

variable {τ α : Type}

abbrev Calls (τ : Type) := Method (NetClient τ) Error

-- Runs one query under a deadline. Where the caller drops the whole call there is no more of it
-- either, and nothing but the connection has changed.
def within (query : LiteClient.Query τ α) : Calls τ α := do
  let client ← get
  set { client with lite := (query.outcome client.lite).2 }
  Method.ofExcept ((query.value client.lite).mapError Error.ofStopped)

variable [World τ] [Sha256] [AdnlTl] [LiteTl]

def masterchainInfo : Calls τ (Lite.ServerReported Lite.MasterchainInfo) :=
  within LiteClient.masterchainInfo

def accountState (address : Address) (block : Lite.BlockIdExt) :
    Calls τ (Lite.ServerReported Lite.AccountState) :=
  within (LiteClient.accountState block { workchain := address.workchain, id := address.accountId })

def accountReported (address : Address) : Calls τ (Lite.ServerReported Account) := do
  let head ← masterchainInfo
  let reported ← accountState address head.value.last
  Method.ofExcept ((reported.tryMap fun state => Account.decode state.state).mapError .decoding)

-- What there is to verify of a reported account.
def accountRead (address : Address) (trusted : Lite.BlockIdExt)
    (reported : Lite.ServerReported Lite.AccountState) : AccountRead :=
  if address.workchain = masterchain then
    .inMasterchain trusted.rootHash address.accountId reported.proof reported.value.state
  else
    .inShard trusted.rootHash address.workchain address.accountId reported.value.shardProof
      reported.proof reported.value.state

def accountAt (address : Address) (trusted : Lite.BlockIdExt) : Calls τ (Verified Account) := do
  failIf (trusted.workchain ≠ masterchain ∨ trusted.shard ≠ masterchainShard)
    (.proof (s!"the trusted block is in workchain {trusted.workchain}, and only a masterchain " ++
      "block anchors a read"))
  let reported ← accountState address trusted
  let account ← Method.ofExcept ((verifyAccount (accountRead address trusted reported)).mapError .ofBlock)
  return { value := account, anchor := trusted }

variable [Ed25519] [Tl]

-- `started.elapsed()`, in whole seconds.
def elapsed (started : Nat) (client : NetClient τ) : Nat :=
  (World.instant client.lite.connection.transport - started) / 10 ^ 9

def around (started : Nat) : Surroundings (Calls τ) where
  elapsed _                 := return elapsed started (← get)
  blockProof _ known target := within (LiteClient.blockProof known target)
  proveReply anchor reply   := proveReply anchor reply
  now                       := return World.now (← get).lite.connection.transport

def walkFrom (start : Lite.BlockIdExt) : Calls τ Progress := do
  let client ← get
  Surroundings.walkFrom (return (← masterchainInfo).value)
    (return around (World.instant (← get).lite.connection.transport)) client.maxHeadAge start

def sync : Calls τ SyncReport := do
  let client ← get
  let start ← okOr client.start (.config "config names no init block to start a sync from")
  let state ← walkFrom start
  let client ← get
  set { client with anchor := some state.trustedKeyBlock }
  return { head := state.anchor, links := state.walk.links, rounds := state.walk.rounds }

def account (address : Address) : Calls τ (Verified Account) := do
  let report ← sync
  accountAt address report.head

-- The calls a client serves, and what each answers with.
inductive Call
  | masterchainInfo
  | sync
  | account (address : Address)
  | accountAt (address : Address) (trusted : Lite.BlockIdExt)
  | accountReported (address : Address)
  | accountState (address : Address) (block : Lite.BlockIdExt)

inductive Answer
  | info (info : Lite.ServerReported Lite.MasterchainInfo)
  | synced (report : SyncReport)
  | verified (account : Verified Account)
  | reported (account : Lite.ServerReported Account)
  | state (state : Lite.ServerReported Lite.AccountState)

def serve : Call → Calls τ Answer
  | .masterchainInfo            => .info <$> masterchainInfo
  | .sync                       => .synced <$> sync
  | .account address            => .verified <$> account address
  | .accountAt address trusted  => .verified <$> accountAt address trusted
  | .accountReported address    => .reported <$> accountReported address
  | .accountState address block => .state <$> accountState address block

-- The client after a history of calls, whatever came of each.
def after (client : NetClient τ) (calls : List Call) : NetClient τ :=
  calls.foldl (fun client call => ((serve call).outcome client).2) client

section Connect

variable [Aes256Ctr] [Curve25519]

-- What the world does when a server is dialled, and what it draws for the handshake.
structure Dialled (τ : Type) where
  transport : Except TransportError τ
  keySeed   : Option Hash
  params    : Option Params

-- How an attempt to connect to one server goes.
def attempt (dialled : Dialled τ) (key : Hash) : Except LiteStopped (LiteClient τ) := do
  let transport ← dialled.transport.mapError fun error => .failed (.adnl (.transport error))
  LiteClient.connect transport key dialled.keySeed dialled.params

-- `dial` is what each attempt meets. There is no result when the caller drops the call.
def connectTo (config : Config) (dial : Nat → LiteServer → Dialled τ) :
    (servers : List LiteServer) → (tried : Nat) → (lastError : Option Error) →
      Option (Except Error (NetClient τ))
  | [], _, lastError             =>
    some (.error (lastError.getD (.config "config has no liteservers")))
  | server :: servers, tried, _ =>
    match attempt (dial tried server) server.key with
    | .ok lite               =>
      some (.ok { lite, anchor := none, initBlock := config.initBlock, maxHeadAge := config.maxHeadAge })
    | .error (.failed error) => connectTo config dial servers (tried + 1) (some (.ofLite error))
    | .error .dropped        => none

def connect (config : Config) (dial : Nat → LiteServer → Dialled τ) :
    Option (Except Error (NetClient τ)) :=
  connectTo config dial config.liteservers 0 none

def connectFrom (config : Config) (dial : Nat → LiteServer → Dialled τ) (anchor : Lite.BlockIdExt) :
    Option (Except Error (NetClient τ)) := do
  let connected ← connect config dial
  return do
    let client ← connected
    let (_, client) ← sync.call { client with anchor := some anchor }
    return client

end Connect

end NetClient

end TonNet
