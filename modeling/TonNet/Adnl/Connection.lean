import TonNet.Adnl.Handshake

-- The driver: a session over a transport whose futures can fail or be dropped.

namespace TonNet

open Fallible SessionCiphers

inductive TransportError
  | io (error : String)
  | connectTimeout
deriving DecidableEq

inductive AdnlError
  | transport (error : TransportError)
  | handshake (error : HandshakeError)
  | frame (error : FrameError)
  | malformed
  | noAnswer
  | noRandomness
  | desynchronized
deriving DecidableEq

-- How an await is left: with what the future is ready with, or because the caller drops it.
inductive Awaited (α : Type)
  | ready (result : Except TransportError α)
  | dropped

-- Why a call stops before its end. A dropped one reports nothing.
inductive Stopped
  | failed (error : AdnlError)
  | dropped
deriving DecidableEq

def Awaited.outcome {α : Type} : Awaited α → Except Stopped α
  | ready result => result.mapError (.failed ∘ .transport)
  | dropped      => .error .dropped

-- A byte stream together with whoever polls it, so that every way an await can go is some state of
-- it. `accepted` and `taken` are the bytes that have gone into the stream and come out of it; what a
-- write or a read that stops partway has moved is left open.
class Transport (τ : Type) where
  accepted  : τ → Bytes
  taken     : τ → Bytes
  writeAll  : Bytes → τ → Awaited Unit × τ
  readExact : Nat → τ → Awaited Bytes × τ
  writes {buf : Bytes} {t t' : τ} : writeAll buf t = (.ready (.ok ()), t') →
    accepted t' = accepted t ++ buf ∧ taken t' = taken t
  reads {n : Nat} {bytes : Bytes} {t t' : τ} : readExact n t = (.ready (.ok bytes), t') →
    bytes.length = n ∧ accepted t' = accepted t ∧ taken t' = taken t ++ bytes

def maxFramesPerQuery : Nat := 8

structure AdnlConnection (τ : Type) where
  transport : τ
  ciphers   : SessionCiphers
  intact    : Bool

namespace AdnlConnection

variable {τ α : Type}

abbrev Driver (τ : Type) := Method (AdnlConnection τ) Stopped

def await (operation : τ → Awaited α × τ) : Driver τ α := do
  let conn ← get
  set { conn with transport := (operation conn.transport).2 }
  Method.ofExcept (operation conn.transport).1.outcome

def withCiphers (operation : Session α) : Driver τ α := do
  let conn ← get
  set { conn with ciphers := (operation.outcome conn.ciphers).2 }
  Method.ofExcept ((operation.value conn.ciphers).mapError (.failed ∘ .frame))

def setIntact (intact : Bool) : Driver τ Unit := do
  let conn ← get
  set { conn with intact }

def isIntact (conn : AdnlConnection τ) : Bool :=
  conn.intact

def check : Driver τ Unit := do
  let conn ← get
  failIf (conn.intact = false) (.failed .desynchronized)

-- The flag is down while a frame moves, and stays down when the frame does not get through.
def inWindow (moves : Driver τ α) : Driver τ α := do
  setIntact false
  let a ← moves
  setIntact true
  return a

-- `getrandom::fill`
def random {m : Type → Type} [Monad m] [MonadExcept Stopped m] (draw : Option α) : m α :=
  okOr draw (.failed .noRandomness)

variable [Transport τ] [Sha256]

def send (nonce : Hash) (message : Bytes) : Driver τ Unit := do
  check
  let frame ← withCiphers (sealFrame nonce message)
  inWindow (await (Transport.writeAll frame))

def recv : Driver τ Bytes := do
  check
  inWindow do
    let front ← await (Transport.readExact 4)
    let len ← withCiphers (openLen front)
    let body ← await (Transport.readExact len)
    withCiphers (openBody body)

variable [AdnlTl]

-- The frames that are read for an answer, at most `frames` more.
def awaitAnswer (queryId : Hash) : (frames undecodable : Nat) → Driver τ Bytes
  | 0, undecodable =>
    throw (.failed (if undecodable = maxFramesPerQuery then .malformed else .noAnswer))
  | frames + 1, undecodable => do
    let payload ← recv
    if payload = [] then
      awaitAnswer queryId frames undecodable
    else
      match AdnlTl.readMessage payload with
      | some (.answer answered answer) =>
        if answered = queryId then return answer else awaitAnswer queryId frames undecodable
      | some (.query _ _) => awaitAnswer queryId frames undecodable
      | none              => awaitAnswer queryId frames (undecodable + 1)

-- `queryId` and `nonce` are what the operating system supplies.
def query (query : Bytes) (queryId nonce : Option Hash) : Driver τ Bytes := do
  let queryId ← random queryId
  let message := AdnlTl.message (.query queryId query)
  let nonce ← random nonce
  send nonce message
  awaitAnswer queryId maxFramesPerQuery 0

variable [Aes256Ctr] [Curve25519]

def connect (transport : τ) (serverKey : Hash) (keySeed : Option Hash) (params : Option Params) :
    Except Stopped (AdnlConnection τ) := do
  let keySeed ← random keySeed
  let params ← random params
  let handshake ← (clientHandshake serverKey ⟨keySeed, params⟩).mapError (.failed ∘ .handshake)
  let (sent, transport) := Transport.writeAll handshake.packet transport
  sent.outcome
  return { transport, ciphers := handshake.ciphers, intact := true }

end AdnlConnection

end TonNet
