import TonNet.Client.Error
import TonNet.Lite.Types
import TonNet.Proof.Chain

-- Walking from the block a client trusts to the head a server names.

namespace TonNet

open Fallible Wire

def maxLinksPerReply : Nat := 64
def maxLinksPerSync : Nat := 4096
def maxRounds : Nat := 512
def maxProofBytes : Nat := 2 ^ 20
def maxSignatures : Nat := 1024
def maxClockSkew : Nat := 300

def proofWithin (proof : Bytes) : Except Error Unit :=
  failIf (proof.length > maxProofBytes)
    (.sync s!"a {proof.length} byte proof, past the {maxProofBytes} byte bound")

def stepWithin : BlockLink → Except Error Unit
  | .back destProof stateProof => [destProof, stateProof].forM proofWithin
  | .forward link              => do
    [link.destProof, link.configProof].forM proofWithin
    let count := link.signatures.signatures.length
    failIf (count > maxSignatures)
      (.sync s!"a set of {count} signatures, past the {maxSignatures} bound")

def withinBounds (reply : PartialBlockProof) : Except Error Unit := do
  failIf (reply.steps.length > maxLinksPerReply)
    (.sync s!"a reply with {reply.steps.length} links, past the {maxLinksPerReply} a reply may carry")
  reply.steps.forM stepWithin

structure Walk where
  rounds : Nat
  links  : Nat
deriving DecidableEq

namespace Walk

def new : Walk where
  rounds := 0
  links  := 0

def tooManyRounds : Error :=
  .sync s!"more than {maxRounds} replies without reaching the head"

def round (walk : Walk) (links : Nat) : Except Error Walk := do
  let rounds := walk.rounds + 1
  failIf (rounds > maxRounds) tooManyRounds
  let links := walk.links + links
  failIf (links > maxLinksPerSync)
    (.sync s!"more than {maxLinksPerSync} links without reaching the head")
  return { rounds, links }

end Walk

structure SyncReport where
  head   : Lite.BlockIdExt
  links  : Nat
  rounds : Nat
deriving DecidableEq

def advanced (before after : Lite.BlockIdExt) : Except Error Unit :=
  failIf (after.seqno ≤ before.seqno)
    (.sync s!"a reply left the anchor at {before.seqno}, so the walk cannot end")

-- The clock is read once, and its seconds are added and subtracted with saturation.
def freshEnough (now : UInt64) (genUtime limitSeconds : UInt32) : Except Error Unit := do
  let stamped := genUtime.toNat
  failIf (stamped > min (now.toNat + maxClockSkew) (2 ^ 64 - 1))
    (.clockBehind (stamped - now.toNat) maxClockSkew)
  let age := now.toNat - stamped
  failIf (age > limitSeconds.toNat) (.stale age limitSeconds.toNat)

def worthContinuing (elapsed : Nat) (limitSeconds : UInt32) : Except Error Unit :=
  if limitSeconds = 0 then return ()
  else failIf (elapsed > limitSeconds.toNat)
    (.sync (s!"the walk has run {elapsed}s without finishing, longer than the " ++
      s!"{limitSeconds}s a head is allowed to be old"))

-- The last step of a reply that leads to a key block.
def lastKeyBlock (reply : PartialBlockProof) : Option Lite.BlockIdExt :=
  reply.steps.reverse.findSome? fun
    | .forward link => if link.toKeyBlock then some (.ofWire link.dest) else none
    | .back _ _     => none

-- What the server answers and the clock shows while one call runs. A call that timed out, was
-- refused or could not be decoded is an answer that is an error.
structure Session where
  masterchainInfo : Except Error Lite.MasterchainInfo
  blockProof      : (round : Nat) → (known target : Lite.BlockIdExt) →
    Except Error PartialBlockProof
  elapsed         : (round : Nat) → Nat
  now             : UInt64

-- Where the walk of one call stands.
structure Progress where
  anchor          : Lite.BlockIdExt
  trustedKeyBlock : Lite.BlockIdExt
  walk            : Walk
deriving DecidableEq

inductive Turn
  | finished (state : Progress)
  | unfinished (state : Progress)
deriving DecidableEq

-- What a walk calls on, wherever it runs: its clocks, the server and the check of a chain.
structure Surroundings (m : Type → Type) where
  elapsed    : (round : Nat) → m Nat
  blockProof : (round : Nat) → (known target : Lite.BlockIdExt) → m PartialBlockProof
  proveReply : (anchor : Lite.BlockIdExt) → (reply : PartialBlockProof) → m ProvenBlock
  now        : m UInt64

namespace Surroundings

variable {m : Type → Type} [Monad m] [MonadExcept Error m] [MonadLiftT (Except Error) m]

section

variable (around : Surroundings m) (maxHeadAge : UInt32) (target : Lite.BlockIdExt)

-- One round of the loop.
def turn (state : Progress) : m Turn := do
  worthContinuing (← around.elapsed state.walk.rounds) maxHeadAge
  let reply ← around.blockProof state.walk.rounds state.anchor target
  withinBounds reply
  let walk ← state.walk.round reply.steps.length
  let proven ← around.proveReply state.anchor reply
  let reached := .ofWire proven.id
  advanced state.anchor reached
  let trustedKeyBlock := (lastKeyBlock reply).getD state.trustedKeyBlock
  let state := { anchor := reached, trustedKeyBlock, walk }
  if reply.complete then
    failIf (reached ≠ target)
      (.sync (s!"the server called the chain complete at {reached.seqno} without reaching the " ++
        s!"{target.seqno} it named"))
    freshEnough (← around.now) proven.genUtime maxHeadAge
    return .finished state
  else
    failIf (!proven.keyBlock)
      (.sync "an unfinished chain stopped at a block no chain can continue from")
    return .unfinished state

-- The loop. A round past the bound is refused by the round itself, so there are never more passes.
def walkOn : (passes : Nat) → Progress → m Progress
  | 0, _              => throw Walk.tooManyRounds
  | passes + 1, state => do
    match ← around.turn maxHeadAge target state with
    | .finished state   => return state
    | .unfinished state => walkOn passes state

end

-- The walk's own clock starts once the head is known.
def walkFrom (masterchainInfo : m Lite.MasterchainInfo) (starting : m (Surroundings m))
    (maxHeadAge : UInt32) (start : Lite.BlockIdExt) : m Progress := do
  let info ← masterchainInfo
  let target := info.last
  failIf (target.seqno ≤ start.seqno)
    (.sync (s!"the server's head at {target.seqno} is not ahead of the trusted block at " ++
      s!"{start.seqno}"))
  let around ← starting
  around.walkOn maxHeadAge target (maxRounds + 1) ⟨start, start, .new⟩

end Surroundings

section Walk

variable [Sha256] [Ed25519] [Tl] (session : Session) (maxHeadAge : UInt32)
  (target : Lite.BlockIdExt)

-- The chain from the anchor that a reply proves.
def proveReply (anchor : Lite.BlockIdExt) (reply : PartialBlockProof) : Except Error ProvenBlock :=
  (verifyChain anchor.toWire reply).mapError fun failure : BlockError => .sync failure.message

def Session.around : Surroundings (Except Error) where
  elapsed round := return session.elapsed round
  blockProof    := session.blockProof
  proveReply    := proveReply
  now           := return session.now

def turn : Progress → Except Error Turn :=
  session.around.turn maxHeadAge target

def walkOn : (passes : Nat) → Progress → Except Error Progress :=
  session.around.walkOn maxHeadAge target

end Walk

structure Client where
  anchor     : Option Lite.BlockIdExt
  initBlock  : Option Lite.BlockIdExt
  maxHeadAge : UInt32

namespace Client

def start (client : Client) : Option Lite.BlockIdExt :=
  match client.anchor, client.initBlock with
  | some anchor, _    => some anchor
  | none, some init   => some init
  | none, none        => none

variable [Sha256] [Ed25519] [Tl]

def walkFrom (maxHeadAge : UInt32) (session : Session) : (start : Lite.BlockIdExt) → Except Error Progress :=
  Surroundings.walkFrom session.masterchainInfo (return session.around) maxHeadAge

def sync (session : Session) : Method Client Error SyncReport := do
  let client ← get
  let start ← okOr client.start (.config "config names no init block to start a sync from")
  let state ← Method.ofExcept (walkFrom client.maxHeadAge session start)
  set { client with anchor := some state.trustedKeyBlock }
  return { head := state.anchor, links := state.walk.links, rounds := state.walk.rounds }

-- The client after a history of calls, whatever came of each.
def after (client : Client) (history : List Session) : Client :=
  history.foldl (fun client session => ((sync session).outcome client).2) client

end Client

end TonNet
