import TonNet.Adnl.Theorems.Connection
import TonNet.Client.Theorems.Net

-- What a client trusts over any history of its calls, and what its verified answers rest on.

namespace TonNet

open Fallible Method Wire

namespace Client

theorem start_of_anchor {client : Client} {anchor : Lite.BlockIdExt} (h : client.anchor = some anchor) :
    client.start = some anchor := by
  rw [Client.start, h]

variable [Sha256] [Ed25519] [Tl]

-- A block that trust in `start` has been carried to: `start` itself, or a key block that accepted
-- links lead to from there.
def Established (start block : Lite.BlockIdExt) : Prop :=
  ∃ steps, OnTheWay start steps block

-- What a call may do to what a client trusts.
structure Advances (client client' : Client) : Prop where
  initBlock  : client'.initBlock = client.initBlock
  maxHeadAge : client'.maxHeadAge = client.maxHeadAge
  anchor     : client'.anchor = client.anchor ∨ ∃ start anchor, client.start = some start ∧
    client'.anchor = some anchor ∧ Established start anchor ∧ start.seqno ≤ anchor.seqno

namespace Established

variable {start mid block : Lite.BlockIdExt} {steps : List BlockLink} {head : ProvenBlock}

theorem led (e : Established start mid) (t : Trail mid.toWire steps head) :
    ∃ steps', Trail start.toWire steps' head := by
  obtain ⟨_, way⟩ := e
  cases way
  case start same => exact ⟨steps, same ▸ t⟩
  case keyBlock before _ _ _ led _ id =>
    rw [id, Lite.BlockIdExt.toWire_ofWire] at t
    exact ⟨before ++ steps, led.append t⟩

theorem trans (e : Established start mid) (e' : Established mid block) : Established start block := by
  obtain ⟨_, way⟩ := e'
  cases way
  case start same => exact same ▸ e
  case keyBlock led key id =>
    obtain ⟨steps', led⟩ := e.led led
    exact ⟨steps', .keyBlock (List.append_nil steps').symm led key id⟩

end Established

namespace Advances

variable {client client' client'' : Client}

theorem refl (client : Client) : Advances client client :=
  ⟨rfl, rfl, .inl rfl⟩

theorem start_eq (h : Advances client client') (same : client'.anchor = client.anchor) :
    client'.start = client.start := by
  rw [start, start, same, h.initBlock]

theorem trans (h : Advances client client') (h' : Advances client' client'') :
    Advances client client'' where
  initBlock  := h'.initBlock.trans h.initBlock
  maxHeadAge := h'.maxHeadAge.trans h.maxHeadAge
  anchor     := by
    rcases h.anchor with same | ⟨start, anchor, started, stored, established, ascends⟩
    · have starts := h.start_eq same
      rw [← same, ← starts]
      exact h'.anchor
    · rcases h'.anchor with same | ⟨mid, anchor', started', stored', established', ascends'⟩
      · exact .inr ⟨start, anchor, started, same.trans stored, established, ascends⟩
      · obtain rfl := Option.some_inj.mp ((start_of_anchor stored).symm.trans started')
        exact .inr ⟨start, anchor', started, stored', established.trans established',
          UInt32.le_trans ascends ascends'⟩

end Advances

theorem sync_advances {client client' : Client} {session : Session} {out : Except Error SyncReport}
    (h : (sync session).outcome client = (out, client')) : Advances client client' := by
  cases out
  case error e => exact sync_failed h ▸ .refl client
  case ok report =>
    obtain ⟨start, anchor, steps, head, synced⟩ := sync_synced h
    rw [synced.stored]
    exact ⟨rfl, rfl, .inr ⟨start, anchor, synced.started, rfl, ⟨steps, synced.onTheWay⟩, synced.ascends⟩⟩

end Client

namespace NetClient

section

variable {τ : Type}

section

variable [Sha256] [Ed25519] [Tl]

-- What a call over the wire may do to what the client trusts.
def Moves (client client' : NetClient τ) : Prop :=
  Client.Advances client.toClient client'.toClient

theorem Moves.refl (client : NetClient τ) : Moves client client :=
  Client.Advances.refl _

theorem Moves.trans {client client' client'' : NetClient τ} (h : Moves client client')
    (h' : Moves client' client'') : Moves client client'' :=
  Client.Advances.trans h h'

theorem moves_of_keeps {α : Type} {x : Calls τ α} (h : Along Keeps x) : Along Moves x := by
  intro client
  have same : ((x.outcome client).2).toClient = client.toClient := h client
  rw [Moves, same]
  exact .refl _

theorem map_moves {α β : Type} {x : Calls τ α} (f : α → β) (h : Along Moves x) : Along Moves (f <$> x) := by
  rw [← bind_pure_comp]
  exact .bind Moves.trans h fun _ => Moves.refl

end

variable [World τ] [Sha256] [AdnlTl] [LiteTl]

theorem accountAt_keeps (address : Address) (trusted : Lite.BlockIdExt) :
    Along Keeps (accountAt address trusted : Calls τ _) :=
  .bind Keeps.trans failIf_keeps fun _ => .bind Keeps.trans (within_keeps _) fun _ =>
    .bind Keeps.trans Keeps.refl fun _ => Keeps.refl

theorem accountReported_keeps (address : Address) : Along Keeps (accountReported address : Calls τ _) :=
  .bind Keeps.trans (within_keeps _) fun _ => .bind Keeps.trans (within_keeps _) fun _ => Keeps.refl

variable [Ed25519] [Tl]

theorem sync_moves : Along Moves (sync : Calls τ SyncReport) := by
  intro client
  obtain ⟨session, refines, _⟩ := sync_refines client
  exact Client.sync_advances refines

-- Only a sync moves what is trusted, and an account read is a sync and a read that moves nothing.
theorem serve_moves (call : Call) : Along Moves (serve call : Calls τ Answer) := by
  cases call
  case masterchainInfo => exact map_moves _ (moves_of_keeps (within_keeps _))
  case sync => exact map_moves _ sync_moves
  case account address =>
    refine map_moves _ (.bind Moves.trans sync_moves fun report => ?_)
    exact moves_of_keeps (accountAt_keeps address report.head)
  case accountAt address trusted => exact map_moves _ (moves_of_keeps (accountAt_keeps address trusted))
  case accountReported address => exact map_moves _ (moves_of_keeps (accountReported_keeps address))
  case accountState address block => exact map_moves _ (moves_of_keeps (within_keeps _))

theorem after_moves (client : NetClient τ) (calls : List Call) : Moves client (client.after calls) := by
  induction calls generalizing client
  case nil => exact .refl client
  case cons call calls hi => exact (serve_moves call client).trans (hi _)

-- What a sync that ends has established for a client, from where its trust started.
structure Proven (start : Lite.BlockIdExt) (client later : NetClient τ) (head : Lite.BlockIdExt)
    (steps : List BlockLink) (block : ProvenBlock) : Prop where
  led      : Trail start.toWire steps block
  arrived  : head = .ofWire block.id
  notEarly : block.genUtime.toNat ≤
    (World.now later.lite.connection.transport).toNat + maxClockSkew
  notLate  : (World.now later.lite.connection.transport).toNat ≤
    block.genUtime.toNat + client.maxHeadAge.toNat

theorem sync_proven {start now : Lite.BlockIdExt} {client later : NetClient τ} {report : SyncReport}
    (started : client.start = some now) (established : Client.Established start now)
    (h : sync.Ends client report later) :
    ∃ steps block, Proven start client later report.head steps block := by
  obtain ⟨session, refines, clock⟩ := sync_refines client
  rw [show sync.outcome client = (.ok report, later) from h] at refines
  obtain ⟨start', anchor, steps, block, synced⟩ := Client.sync_synced refines
  obtain rfl := Option.some_inj.mp (started.symm.trans synced.started)
  obtain ⟨steps, led⟩ := established.led synced.led
  have now := clock report later h
  exact ⟨steps, block, led, synced.arrived, now ▸ synced.notEarly, now ▸ synced.notLate⟩

theorem account_proven {start now : Lite.BlockIdExt} {client later : NetClient τ} {address : Address}
    {answer : Verified Account} (started : client.start = some now)
    (established : Client.Established start now) (h : (account address).Ends client answer later) :
    ∃ mid steps block reported, Proven start client mid answer.anchor steps block ∧
      answer.anchor.workchain = masterchain ∧
      verifyAccount (accountRead address answer.anchor reported) = .ok answer.value := by
  obtain ⟨report, mid, synced, read⟩ := ends_bind.mp h
  obtain ⟨steps, block, proven⟩ := sync_proven started established synced
  obtain ⟨inMasterchain, read⟩ := ends_failIf_bind.mp read
  obtain ⟨reported, _, _, read⟩ := ends_bind.mp read
  obtain ⟨account, _, verified, read⟩ := ends_bind.mp read
  obtain ⟨verified, _⟩ := ends_ofExcept.mp verified
  obtain ⟨rfl, _⟩ := ends_pure.mp read
  exact ⟨mid, steps, block, reported, proven, not_not.mp (not_or.mp inMasterchain).left,
    mapError_eq_ok.mp verified⟩

-- Where a client would start a walk after a history is established from where it would have before.
theorem after_established {start : Lite.BlockIdExt} {client : NetClient τ}
    (started : client.start = some start) (calls : List Call) :
    ∃ now, (client.after calls).start = some now ∧ Client.Established start now := by
  have moves := after_moves client calls
  rcases moves.anchor with same | ⟨_, anchor, begun, stored, established, _⟩
  · exact ⟨start, (moves.start_eq same).trans started, [], .start rfl⟩
  · obtain rfl := Option.some_inj.mp (started.symm.trans begun)
    exact ⟨anchor, Client.start_of_anchor stored, established⟩

-- Whatever a client was asked before and whoever answered it, its anchor is the block its trust
-- started from or a key block led to from there, and so is the block of every verified answer.
theorem history_rooted {start : Lite.BlockIdExt} (client : NetClient τ)
    (started : client.start = some start) (calls : List Call) :
    Client.Advances client.toClient (client.after calls).toClient ∧
    (∀ report later, sync.Ends (client.after calls) report later →
      ∃ steps block, Proven start (client.after calls) later report.head steps block) ∧
    ∀ address answer later, (account address).Ends (client.after calls) answer later →
      ∃ mid steps block reported, Proven start (client.after calls) mid answer.anchor steps block ∧
        answer.anchor.workchain = masterchain ∧
        verifyAccount (accountRead address answer.anchor reported) = .ok answer.value := by
  obtain ⟨now, started', established⟩ := after_established started calls
  exact ⟨after_moves client calls, fun _ _ => sync_proven started' established,
    fun _ _ _ => account_proven started' established⟩

end

section Wire

open AdnlConnection SessionCiphers

attribute [local instance] Sha256.standard chainEd25519 chainTl samplePipe

-- Every message answers the query whose id is zero.
local instance wireTl : AdnlTl where
  publicKey key     := key.bytes
  message _         := [1]
  readMessage bytes := some (.answer .zero bytes)

-- One byte stands for a head, and one for the proof of it.
local instance wireLiteTl : LiteTl where
  request _                 := []
  query data                := data
  readMasterchainInfo bytes := if bytes = [1] then .ok ⟨blockC, .zero⟩ else .error ⟨"info"⟩
  readAccountState _        := .error ⟨"state"⟩
  readPartialProof bytes    := if bytes = [2] then .ok chainAC else .error ⟨"proof"⟩
  readSendMsgStatus _       := .error ⟨"status"⟩
  readError _               := .error ⟨"error"⟩
  lossy _                   := ""

local instance wireWorld : World Pipe where
  draw _    := (some .zero, some .zero)
  instant _ := 0
  now _     := 2030

def wireCipher : Cipher :=
  ⟨fun n => .ofNat n, 0⟩

-- A client with two answers on their way.
def wireClient : NetClient Pipe :=
  { clientA with
    lite := ⟨{
      transport := ⟨[], [], wireCipher.applied (plain .zero [1] ++ plain .zero [2]), 8⟩
      ciphers   := ⟨wireCipher, wireCipher⟩
      intact    := true }⟩ }

-- A read at a block outside the masterchain is refused before anything is asked.
def astray : Call :=
  .accountAt ⟨0, .zero, true, false⟩ ⟨0, 0, 0, .zero, .zero⟩

-- A client that is told of the head and then sent the proof of it.
theorem sync_twoLinks {client : NetClient Pipe} (started : client.start = some (.ofWire blockA))
    (age : client.maxHeadAge = 60)
    (answers : ((masterchainInfo.outcome client).1.toOption.map fun info =>
      (info.value.last, ((within (LiteClient.blockProof (.ofWire blockA) (.ofWire blockC))).value
        (masterchainInfo.outcome client).2).toOption)) = some (.ofWire blockC, some chainAC)) :
    ∃ later, sync.Ends client ⟨.ofWire blockC, 2, 1⟩ later := by
  simp only [Option.map_eq_some_iff, toOption_eq_some, Prod.mk.injEq] at answers
  obtain ⟨info, asked, named, proof⟩ := answers
  rcases answered : masterchainInfo.outcome client with ⟨_, client₁⟩
  rw [answered] at asked proof
  obtain rfl : _ = Except.ok info := asked
  have turned : ((around 0).turn 60 (.ofWire blockC) ⟨.ofWire blockA, .ofWire blockA, .new⟩).value client₁ =
      .ok (.finished ⟨.ofWire blockC, .ofWire blockB, ⟨1, 2⟩⟩) := by
    rw [turn_refines, ← turn_sessionAC]
    exact turn_congr proof (Nat.zero_div _) rfl
  have walks : (walkFrom (.ofWire blockA)).value client =
      .ok ⟨.ofWire blockC, .ofWire blockB, ⟨1, 2⟩⟩ := by
    have told : (do return (← masterchainInfo).value : Calls Pipe _).Ends client info.value client₁ :=
      ends_bind.mpr ⟨info, client₁, answered, ends_pure.mpr ⟨rfl, rfl⟩⟩
    rw [walkFrom, value_get_bind, age, Surroundings.walkFrom, value_seq, value_of_ends told, ok_bind,
      value_failIf_bind, named, told]
    refine failIf_bind_eq_ok.mpr ⟨by decide +kernel, ?_⟩
    rw [value_seq]
    refine bind_eq_ok.mpr ⟨around 0, rfl, ?_⟩
    rw [Surroundings.walkOn, value_seq]
    exact bind_eq_ok.mpr ⟨_, turned, rfl⟩
  obtain ⟨client₂, walked⟩ := value_eq_ok.mp walks
  exact ⟨_, outcome_sync started walked⟩

-- The client has asked in vain before.
theorem history_rooted_wireClient : ∃ later steps block,
    sync.Ends (wireClient.after [astray]) ⟨.ofWire blockC, 2, 1⟩ later ∧
      Proven (.ofWire blockA) (wireClient.after [astray]) later (.ofWire blockC) steps block := by
  have started : wireClient.start = some (.ofWire blockA) := rfl
  have same : wireClient.after [astray] = wireClient := rfl
  obtain ⟨later, synced⟩ := sync_twoLinks started rfl (by decide +kernel)
  rw [← same] at synced
  obtain ⟨_, rooted, _⟩ := history_rooted wireClient started [astray]
  obtain ⟨steps, block, proven⟩ := rooted _ _ synced
  exact ⟨later, steps, block, synced, proven⟩

end Wire

end NetClient

end TonNet
