import TonNet.Client.Sync
import TonNet.Proof.Theorems.Chain

-- What a history of syncs leaves a client trusting.

namespace TonNet

open Fallible Method Wire

-- A number between two others as signed numbers, when the two are in the same order unsigned.
theorem seqno_between {a b c : Int32} (ab : a < b) (bc : b ≤ c) (ac : a.toUInt32 < c.toUInt32) :
    a.toUInt32 < b.toUInt32 ∧ b.toUInt32 ≤ c.toUInt32 := by
  rw [UInt32.lt_iff_toNat_lt] at ac ⊢
  rw [UInt32.le_iff_toNat_le]
  rw [Int32.lt_iff_toInt_lt] at ab
  rw [Int32.le_iff_toInt_le] at bc
  have value (x : Int32) : x.toInt = if 2 * x.toUInt32.toNat < 2 ^ 32 then (x.toUInt32.toNat : Int)
      else (x.toUInt32.toNat : Int) - (2 ^ 32 : Nat) := BitVec.toInt_eq_toNat_cond ..
  have va := value a
  have vb := value b
  have vc := value c
  have la := a.toUInt32.toNat_lt
  have lb := b.toUInt32.toNat_lt
  have lc := c.toUInt32.toNat_lt
  split_ifs at va vb vc <;> omega

theorem freshEnough_eq_ok {now : UInt64} {genUtime limitSeconds : UInt32} :
    freshEnough now genUtime limitSeconds = .ok () ↔
      genUtime.toNat ≤ now.toNat + maxClockSkew ∧ now.toNat ≤ genUtime.toNat + limitSeconds.toNat := by
  have small := genUtime.toNat_lt
  simp only [freshEnough, failIf_bind_eq_ok, failIf_eq_ok, gt_iff_lt, not_lt]
  omega

theorem Walk.round_eq_ok {walk walk' : Walk} {links : Nat} : walk.round links = .ok walk' ↔
    walk.rounds + 1 ≤ maxRounds ∧ walk.links + links ≤ maxLinksPerSync ∧
      walk' = ⟨walk.rounds + 1, walk.links + links⟩ := by
  simp only [round, failIf_bind_eq_ok, pure_eq_ok, gt_iff_lt, not_lt]
  exact and_congr_right fun _ => and_congr_right fun _ => eq_comm

section

variable [Sha256] [Ed25519] [Tl]

namespace Trail

variable {source : BlockIdExt} {steps before rest : List BlockLink} {block : ProvenBlock}
  {link : Wire.Forward}

theorem ascends (t : Trail source steps block) : source.seqno < block.id.seqno := by
  have step {step : BlockLink} {source : BlockIdExt} {mid : ProvenBlock}
      (head : verifyLink step source = .ok mid) : source.seqno < mid.id.seqno := by
    have ⟨link, _, start, _, _, _, _, a, proven⟩ := verifyLink_eq_ok.mp head
    exact proven ▸ start ▸ a.ascends
  induction t
  case last head => exact step head
  case next head _ hi => exact Int32.lt_trans (step head) hi

-- The first steps of a run are a run.
theorem initial (t : Trail source (before ++ rest) block) (h : before ≠ []) :
    ∃ mid, Trail source before mid ∧ mid.id.seqno ≤ block.id.seqno := by
  by_cases hr : rest = []
  case pos => exact ⟨block, by simpa [hr] using t, Int32.le_refl _⟩
  case neg =>
    have ⟨mid, first, rest⟩ := t.split h hr
    exact ⟨mid, first, Int32.le_of_lt rest.ascends⟩

theorem ends_with (t : Trail source (before ++ [.forward link]) block) :
    block.id = link.dest ∧ block.keyBlock = link.toKeyBlock := by
  induction before generalizing source
  case nil =>
    cases t
    case last head =>
      have ⟨_, _, _, _, _, a, proven⟩ := verifyForward_eq_ok.mp head
      exact proven ▸ ⟨rfl, a.keyBlock⟩
    case next tail => exact absurd rfl tail.ne_nil
  case cons hi =>
    have ⟨mid, _, tail⟩ := uncons t (by simp)
    exact hi tail

-- The last key block a reply leads through, with the steps that lead to it.
theorem lastKeyBlock_eq_some {reply : PartialBlockProof} {key : Lite.BlockIdExt}
    (t : Trail source reply.steps block) (h : lastKeyBlock reply = some key) :
    ∃ before rest mid, reply.steps = before ++ rest ∧ Trail source before mid ∧
      mid.keyBlock = true ∧ key = .ofWire mid.id ∧ mid.id.seqno ≤ block.id.seqno := by
  have ⟨later, step, earlier, split, here, _⟩ := List.findSome?_eq_some_iff.mp h
  cases step
  case back => cases here
  case forward link =>
    have ⟨flag, named⟩ : link.toKeyBlock = true ∧ Lite.BlockIdExt.ofWire link.dest = key := by
      simpa using here
    have steps : reply.steps = (earlier.reverse ++ [.forward link]) ++ later.reverse := by
      rw [← List.reverse_reverse reply.steps, split]
      simp
    have ⟨mid, first, below⟩ := initial (steps ▸ t) (by simp)
    have ⟨id, kind⟩ := first.ends_with
    exact ⟨_, _, mid, steps, first, kind.trans flag, by rw [id, named], below⟩

end Trail

-- A block that is the start of a walk, or a key block on the way along its steps.
inductive OnTheWay (start : Lite.BlockIdExt) (steps : List BlockLink) (block : Lite.BlockIdExt) : Prop
  | start (same : block = start)
  | keyBlock {before rest : List BlockLink} {mid : ProvenBlock} (split : steps = before ++ rest)
    (led : Trail start.toWire before mid) (key : mid.keyBlock = true) (id : block = .ofWire mid.id)

theorem OnTheWay.mono {start block : Lite.BlockIdExt} {steps more : List BlockLink}
    (h : OnTheWay start steps block) : OnTheWay start (steps ++ more) block := by
  cases h
  case start same => exact .start same
  case keyBlock split led key id => exact .keyBlock (by rw [split, List.append_assoc]) led key id

-- Where a walk stands after it followed `steps` from its start.
structure Walked (start : Lite.BlockIdExt) (state : Progress) (steps : List BlockLink) : Prop where
  led : (steps = [] ∧ state.anchor = start) ∨
    ∃ block, Trail start.toWire steps block ∧ state.anchor = .ofWire block.id
  trusted : OnTheWay start steps state.trustedKeyBlock
  trusted_le : start.seqno ≤ state.trustedKeyBlock.seqno
  anchor_le : start.seqno ≤ state.anchor.seqno

-- What is checked of a reply, and what comes of it.
structure Turned (session : Session) (target : Lite.BlockIdExt) (state state' : Progress)
    (reply : PartialBlockProof) (proven : ProvenBlock) : Prop where
  sent     : session.blockProof state.walk.rounds state.anchor target = .ok reply
  within   : withinBounds reply = .ok ()
  round    : state.walk.round reply.steps.length = .ok state'.walk
  proves   : verifyChain state.anchor.toWire reply = .ok proven
  reached  : state'.anchor = .ofWire proven.id
  advances : state.anchor.seqno < state'.anchor.seqno
  trusted  : state'.trustedKeyBlock = (lastKeyBlock reply).getD state.trustedKeyBlock

variable {session : Session} {maxHeadAge : UInt32} {target start : Lite.BlockIdExt}
  {state state' : Progress} {reply : PartialBlockProof} {proven : ProvenBlock}

theorem turn_eq_ok {next : Turn} (h : turn session maxHeadAge target state = .ok next) :
    ∃ state' reply proven, Turned session target state state' reply proven ∧
      ((next = .finished state' ∧ state'.anchor = target ∧
        freshEnough session.now proven.genUtime maxHeadAge = .ok ()) ∨
      next = .unfinished state') := by
  simp only [turn, Surroundings.turn, Session.around, liftM_self, bind_eq_ok, pure_eq_ok, exists_eq_left',
    advanced, failIf_eq_ok, UInt32.not_le] at h
  obtain ⟨_, _, reply, sent, _, within, walk, round, proven, proves, _, advances, rest⟩ := h
  have turned (state' : Progress) (walked : state' = ⟨.ofWire proven.id,
      (lastKeyBlock reply).getD state.trustedKeyBlock, walk⟩) :
      Turned session target state state' reply proven :=
    walked ▸ ⟨sent, within, round, mapError_eq_ok.mp proves, rfl, advances, rfl⟩
  split_ifs at rest
  · simp only [bind_eq_ok, failIf_eq_ok, pure_eq_ok, exists_eq_left', ne_eq, not_not] at rest
    obtain ⟨_, reached, _, fresh, ends⟩ := rest
    exact ⟨_, reply, proven, turned _ rfl, .inl ⟨ends.symm, reached, fresh⟩⟩
  · simp only [bind_eq_ok, failIf_eq_ok, pure_eq_ok] at rest
    obtain ⟨_, _, ends⟩ := rest
    exact ⟨_, reply, proven, turned _ rfl, .inr ends.symm⟩

namespace Walked

variable {steps : List BlockLink}

theorem init (walk : Walk) : Walked start ⟨start, start, walk⟩ [] where
  led        := .inl ⟨rfl, rfl⟩
  trusted    := .start rfl
  trusted_le := UInt32.le_refl _
  anchor_le  := UInt32.le_refl _

-- A run that goes on from where a walk stands.
theorem extend (w : Walked start state steps) {more : List BlockLink} {block : ProvenBlock}
    (t : Trail state.anchor.toWire more block) : Trail start.toWire (steps ++ more) block := by
  rcases w.led with ⟨rfl, same⟩ | ⟨mid, led, same⟩
  · exact same ▸ t
  · rw [same, Lite.BlockIdExt.toWire_ofWire] at t
    exact led.append t

theorem turned (w : Walked start state steps)
    (t : Turned session target state state' reply proven) :
    Walked start state' (steps ++ reply.steps) ∧
      Trail start.toWire (steps ++ reply.steps) proven := by
  have ⟨_, _, run⟩ := verifyChain_eq_ok.mp t.proves
  have whole := w.extend run
  have ascends : start.seqno ≤ state'.anchor.seqno :=
    UInt32.le_trans w.anchor_le (UInt32.le_of_lt t.advances)
  have trusted := t.trusted
  cases last : lastKeyBlock reply
  case none =>
    rw [last, Option.getD_none] at trusted
    refine ⟨⟨.inr ⟨proven, whole, t.reached⟩, ?_, trusted ▸ w.trusted_le, ascends⟩, whole⟩
    exact trusted ▸ w.trusted.mono
  case some key =>
    rw [last, Option.getD_some] at trusted
    have ⟨before, rest, mid, split, led, kind, id, below⟩ := run.lastKeyBlock_eq_some last
    have between : state.anchor.seqno < mid.id.seqno.toUInt32 := by
      have advances := t.advances
      rw [t.reached] at advances
      exact (seqno_between led.ascends below advances).left
    refine ⟨⟨.inr ⟨proven, whole, t.reached⟩, ?_, ?_, ascends⟩, whole⟩
    · have split : steps ++ reply.steps = (steps ++ before) ++ rest := by
        rw [split, List.append_assoc]
      exact .keyBlock split (w.extend led) kind (trusted.trans id)
    · rw [trusted, id]
      exact UInt32.le_trans w.anchor_le (UInt32.le_of_lt between)

end Walked

-- A walk that ends has arrived at its target, by steps that all were accepted.
theorem walkOn_walked {passes : Nat} {steps : List BlockLink} (w : Walked start state steps)
    (h : walkOn session maxHeadAge target passes state = .ok state') :
    ∃ steps head, Walked start state' steps ∧ Trail start.toWire steps head ∧
      state'.anchor = .ofWire head.id ∧ state'.anchor = target ∧
      freshEnough session.now head.genUtime maxHeadAge = .ok () := by
  induction passes generalizing state steps
  case zero => exact absurd h throw_ne_ok
  case succ passes hi =>
    have ⟨next, turns, rest⟩ := bind_eq_ok.mp h
    have ⟨state₁, reply, proven, turned, ends⟩ := turn_eq_ok turns
    have ⟨walked, led⟩ := w.turned turned
    rcases ends with ⟨rfl, arrived, fresh⟩ | rfl
    · obtain rfl := pure_eq_ok.mp rest
      exact ⟨_, proven, walked, led, turned.reached, arrived, fresh⟩
    · exact hi walked rest

-- Passes left over make no difference, so the loop never runs out of them.
theorem walkOn_passes {passes passes' : Nat} (hr : state.walk.rounds ≤ maxRounds)
    (h : maxRounds < state.walk.rounds + passes) (h' : maxRounds < state.walk.rounds + passes') :
    walkOn session maxHeadAge target passes state =
      walkOn session maxHeadAge target passes' state := by
  induction passes generalizing state passes'
  case zero => omega
  case succ passes hi =>
    obtain ⟨passes', rfl⟩ : ∃ n, passes' = n + 1 := ⟨passes' - 1, by omega⟩
    rw [walkOn, Surroundings.walkOn, Surroundings.walkOn]
    refine bind_congr_ok fun next turns => ?_
    have ⟨state₁, reply, proven, turned, ends⟩ := turn_eq_ok turns
    have ⟨round, _, walk⟩ := Walk.round_eq_ok.mp turned.round
    rcases ends with ⟨rfl, _⟩ | rfl
    · rfl
    · apply hi <;> rw [walk] <;> dsimp only <;> omega

namespace Client

theorem outcome_sync_of_walkFrom {client : Client} (started : client.start = some start)
    (walks : walkFrom client.maxHeadAge session start = .ok state) :
    (sync session).outcome client =
      (.ok ⟨state.anchor, state.walk.links, state.walk.rounds⟩,
        { client with anchor := some state.trustedKeyBlock }) := by
  simp [sync, outcome_bind, started, okOr, walks, -bind_pure_comp]

-- A call either fails and leaves the client alone, or stores where its walk ended.
theorem outcome_sync (client : Client) (session : Session) :
    (∃ e, (sync session).outcome client = (.error e, client)) ∨
      ∃ start state, client.start = some start ∧
        walkFrom client.maxHeadAge session start = .ok state ∧
        (sync session).outcome client =
          (.ok ⟨state.anchor, state.walk.links, state.walk.rounds⟩,
            { client with anchor := some state.trustedKeyBlock }) := by
  cases started : client.start
  case none =>
    refine .inl ⟨.config "config names no init block to start a sync from", ?_⟩
    simp [sync, outcome_bind, started, okOr]
  case some start =>
    cases walks : walkFrom client.maxHeadAge session start
    case error e => exact .inl ⟨e, by simp [sync, outcome_bind, started, okOr, walks]⟩
    case ok state => exact .inr ⟨start, state, rfl, walks, outcome_sync_of_walkFrom started walks⟩

-- What a call that succeeds establishes.
structure Synced (client client' : Client) (session : Session) (report : SyncReport)
    (start anchor : Lite.BlockIdExt) (steps : List BlockLink) (head : ProvenBlock) : Prop where
  started  : client.start = some start
  named    : session.masterchainInfo = .ok ⟨report.head⟩
  led      : Trail start.toWire steps head
  arrived  : report.head = .ofWire head.id
  notEarly : head.genUtime.toNat ≤ session.now.toNat + maxClockSkew
  notLate  : session.now.toNat ≤ head.genUtime.toNat + client.maxHeadAge.toNat
  stored   : client' = { client with anchor := some anchor }
  onTheWay : OnTheWay start steps anchor
  ascends  : start.seqno ≤ anchor.seqno

theorem sync_synced {client client' : Client} {report : SyncReport}
    (h : (sync session).Ends client report client') :
    ∃ start anchor steps head, Synced client client' session report start anchor steps head := by
  rcases outcome_sync client session with ⟨e, failed⟩ | ⟨start, state, started, walks, ends⟩
  · cases failed.symm.trans h
  · obtain ⟨rfl, rfl⟩ : _ ∧ _ := by simpa using ends.symm.trans h
    have ⟨info, named, walks⟩ := bind_eq_ok.mp walks
    have ⟨_, walks⟩ := failIf_bind_eq_ok.mp walks
    have ⟨steps, head, walked, led, arrived, target, fresh⟩ := walkOn_walked (.init _) walks
    have ⟨notEarly, notLate⟩ := freshEnough_eq_ok.mp fresh
    refine ⟨start, state.trustedKeyBlock, steps, head, ?_⟩
    exact ⟨started, target ▸ named, led, arrived, notEarly, notLate, rfl, walked.trusted,
      walked.trusted_le⟩

theorem sync_failed {client client' : Client} {e : Error}
    (h : (sync session).outcome client = (.error e, client')) : client' = client := by
  rcases outcome_sync client session with ⟨e', failed⟩ | ⟨_, _, _, _, ends⟩
  · exact congrArg Prod.snd (h.symm.trans failed)
  · cases ends.symm.trans h

theorem sync_history (client : Client) (history : List Session) (session : Session) :
    (∀ e client', (sync session).outcome (client.after history) = (.error e, client') →
      client' = client.after history) ∧
    ∀ report client', (sync session).outcome (client.after history) = (.ok report, client') →
      ∃ start anchor steps head,
        Synced (client.after history) client' session report start anchor steps head :=
  ⟨fun _ _ h => sync_failed h, fun _ _ h => sync_synced h⟩

end Client

end

section TwoLinks

attribute [local instance] Sha256.standard chainEd25519 chainTl

-- A server that names the third block its head and proves it in one reply.
def sessionAC : Session where
  masterchainInfo   := .ok ⟨.ofWire blockC⟩
  blockProof _ _ _  := .ok chainAC
  elapsed _         := 0
  now               := 2030

-- A server that cannot be reached.
def sessionDown : Session :=
  { sessionAC with masterchainInfo := .error .timeout }

def clientA : Client where
  anchor     := none
  initBlock  := some (.ofWire blockA)
  maxHeadAge := 60

theorem turn_sessionAC : turn sessionAC 60 (.ofWire blockC) ⟨.ofWire blockA, .ofWire blockA, .new⟩ =
    .ok (.finished ⟨.ofWire blockC, .ofWire blockB, ⟨1, 2⟩⟩) := by
  have within : withinBounds chainAC = .ok () := by decide +kernel
  have proves : proveReply (.ofWire blockA) chainAC = .ok ⟨blockC, false, 2000⟩ := by
    rw [proveReply, Lite.BlockIdExt.toWire_ofWire, verifyChain_chainAC]
    rfl
  simp only [turn, Surroundings.turn, Session.around, liftM_self]
  refine bind_eq_ok.mpr ⟨0, rfl, bind_eq_ok.mpr ⟨(), rfl, ?_⟩⟩
  refine bind_eq_ok.mpr ⟨chainAC, rfl, bind_eq_ok.mpr ⟨(), within, ?_⟩⟩
  refine bind_eq_ok.mpr ⟨⟨1, 2⟩, rfl, bind_eq_ok.mpr ⟨_, proves, ?_⟩⟩
  decide +kernel

namespace Client

theorem walkFrom_sessionAC : walkFrom 60 sessionAC (.ofWire blockA) =
    .ok ⟨.ofWire blockC, .ofWire blockB, ⟨1, 2⟩⟩ := by
  refine bind_eq_ok.mpr ⟨_, rfl, failIf_bind_eq_ok.mpr ⟨by decide +kernel, ?_⟩⟩
  exact bind_eq_ok.mpr ⟨_, rfl, bind_eq_ok.mpr ⟨_, turn_sessionAC, rfl⟩⟩

theorem sync_history_sessionAC : ∃ start anchor steps head,
    Synced clientA { clientA with anchor := some (.ofWire blockB) } sessionAC
      ⟨.ofWire blockC, 2, 1⟩ start anchor steps head := by
  have started : clientA.start = some (.ofWire blockA) := rfl
  have down : clientA.after [sessionDown] = clientA := rfl
  have kept := sync_history clientA [sessionDown] sessionAC
  rw [down] at kept
  exact kept.right _ _ (outcome_sync_of_walkFrom started walkFrom_sessionAC)

end Client

end TwoLinks

end TonNet
