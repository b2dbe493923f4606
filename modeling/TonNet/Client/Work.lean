import TonNet.Client.Sync

-- The work a sync does for a server, noted where the code does it.

namespace TonNet

open Fallible Wire

-- One call of the signature check: the set, the signatures it was handed, and how many of them it
-- verified.
structure Tally where
  set           : ValidatorSet
  signatures    : List Signature
  verifications : Nat

structure Work where
  -- the blocks it asked the server to continue from
  asked   : List Lite.BlockIdExt := []
  -- the replies whose chain it checked
  chains  : List PartialBlockProof := []
  -- the links it checked
  links   : List BlockLink := []
  -- the proofs it parsed
  parsed  : List Bytes := []
  -- the last call is the first
  tallied : List Tally := []

namespace Work

def ask (work : Work) (known : Lite.BlockIdExt) : Work :=
  { work with asked := work.asked ++ [known] }

def verifying : List Tally → List Tally
  | []              => []
  | tally :: before => { tally with verifications := tally.verifications + 1 } :: before

def noted (work : Work) : Noted → Work
  | .chain proof          => { work with chains := work.chains ++ [proof] }
  | .link step            => { work with links := work.links ++ [step] }
  | .parse proof          => { work with parsed := work.parsed ++ [proof] }
  | .tally set signatures => { work with tallied := ⟨set, signatures, 0⟩ :: work.tallied }
  | .verify               => { work with tallied := verifying work.tallied }

instance : Noting (Method Work BlockError) where
  note event := modify (·.noted event)

variable [Sha256] [Ed25519] [Tl]

def around (session : Session) : Surroundings (Method Work Error) where
  elapsed round                 := return session.elapsed round
  blockProof round known target := do
    modify (·.ask known)
    session.blockProof round known target
  proveReply anchor reply       :=
    Method.mapErr (fun failure : BlockError => .sync failure.message) (verifyChain anchor.toWire reply)
  now                           := return session.now

def walkFrom (maxHeadAge : UInt32) (session : Session) :
    (start : Lite.BlockIdExt) → Method Work Error Progress :=
  Surroundings.walkFrom session.masterchainInfo (return around session) maxHeadAge

end Work

variable [Sha256] [Ed25519] [Tl]

-- All the work of one call, whatever came of it. Nothing but the walk does any.
def Client.syncWork (client : Client) (session : Session) : Work :=
  match client.start with
  | none       => {}
  | some start => ((Work.walkFrom client.maxHeadAge session start).outcome {}).2

end TonNet
