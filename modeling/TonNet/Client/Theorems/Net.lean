import TonNet.Client.Net
import TonNet.Client.Theorems.Sync
import TonNet.Lib.Atomic

-- The client over its connection against the walk it does: whatever comes over the wire is some
-- server's answers, and nothing but a finished walk changes what the client trusts.

namespace Fallible.Method

variable {σ ε α β : Type} {s : σ}

theorem value_seq (x : Method σ ε α) (f : α → Method σ ε β) :
    (x >>= f).value s = x.value s >>= fun a => (f a).value (x.outcome s).2 := by
  rw [value_bind, value]
  rcases x.outcome s with ⟨_ | _, _⟩ <;> rfl

theorem value_lift_bind (y : Except ε α) (f : α → Method σ ε β) :
    (liftM y >>= f).value s = (liftM y : Except ε α) >>= fun a => (f a).value s :=
  value_seq _ f

theorem value_get_bind (f : σ → Method σ ε β) : (get >>= f).value s = (f s).value s :=
  value_seq _ f

theorem value_failIf_bind {p : Prop} [Decidable p] {e : ε} (f : Unit → Method σ ε β) :
    (failIf p e >>= f).value s = failIf p e >>= fun u => (f u).value s := by
  unfold failIf
  split <;> rfl

end Fallible.Method

namespace TonNet.NetClient

open Fallible Method Wire

section

variable [Sha256] [Ed25519] [Tl] {session session' : Session} {maxHeadAge : UInt32}
  {target : Lite.BlockIdExt} {state state' : Progress}

theorem turn_congr
    (replies : session.blockProof state.walk.rounds state.anchor target =
      session'.blockProof state.walk.rounds state.anchor target)
    (elapsed : session.elapsed state.walk.rounds = session'.elapsed state.walk.rounds)
    (now : session.now = session'.now) :
    TonNet.turn session maxHeadAge target state = TonNet.turn session' maxHeadAge target state := by
  simp only [TonNet.turn, Surroundings.turn, Session.around, replies, elapsed, now]

-- The clock is read when a walk finishes and not before.
theorem turn_congr_unfinished
    (h : TonNet.turn session maxHeadAge target state = .ok (.unfinished state'))
    (replies : session.blockProof state.walk.rounds state.anchor target =
      session'.blockProof state.walk.rounds state.anchor target)
    (elapsed : session.elapsed state.walk.rounds = session'.elapsed state.walk.rounds) :
    TonNet.turn session' maxHeadAge target state = .ok (.unfinished state') := by
  simp only [TonNet.turn, Surroundings.turn, Session.around, ← replies, ← elapsed, bind_eq_ok, pure_eq_ok,
    exists_eq_left'] at h ⊢
  obtain ⟨_, worth, reply, sent, _, within, walk, round, proven, proves, _, advances, rest⟩ := h
  refine ⟨_, worth, reply, sent, _, within, walk, round, proven, proves, _, advances, ?_⟩
  split_ifs at rest ⊢
  case pos => simp only [bind_eq_ok, pure_eq_ok, reduceCtorEq, and_false, exists_false] at rest
  case neg => exact rest

end

section

variable {τ α : Type}

-- Two clients that trust the same.
def Keeps (client client' : NetClient τ) : Prop :=
  client'.toClient = client.toClient

theorem Keeps.refl (client : NetClient τ) : Keeps client client :=
  rfl

theorem Keeps.trans {client client' client'' : NetClient τ} (h : Keeps client client')
    (h' : Keeps client' client'') : Keeps client client'' :=
  Eq.trans h' h

theorem failIf_keeps {p : Prop} [Decidable p] {e : Error} :
    Along Keeps (failIf p e : Calls τ Unit) := by
  unfold failIf
  split <;> exact Keeps.refl

theorem within_keeps (query : LiteClient.Query τ α) : Along Keeps (within query) :=
  fun _ => rfl

variable [World τ] [Sha256] [AdnlTl] [LiteTl] [Ed25519] [Tl] {maxHeadAge : UInt32}

-- What the world answers in one round, as a server of the walk.
def answering (started : Nat) (target : Lite.BlockIdExt) (state : Progress) (client : NetClient τ) :
    Session where
  masterchainInfo  := .error .timeout
  blockProof _ _ _ := (within (LiteClient.blockProof state.anchor target)).value client
  elapsed _        := elapsed started client
  now              := World.now
    ((within (LiteClient.blockProof state.anchor target)).outcome client).2.lite.connection.transport

theorem turn_refines (started : Nat) (target : Lite.BlockIdExt) (state : Progress) (client : NetClient τ) :
    ((around started).turn maxHeadAge target state).value client =
      TonNet.turn (answering started target state client) maxHeadAge target state := by
  rw [Surroundings.turn, TonNet.turn, Surroundings.turn, value_seq]
  refine bind_congr_ok fun _ _ => ?_
  rw [value_lift_bind]
  refine bind_congr_ok fun _ _ => ?_
  rw [value_seq]
  refine bind_congr_ok fun reply _ => ?_
  rw [value_lift_bind]
  refine bind_congr_ok fun _ _ => ?_
  rw [value_lift_bind]
  refine bind_congr_ok fun walk _ => ?_
  rw [value_seq]
  refine bind_congr_ok fun proven _ => ?_
  rw [value_lift_bind]
  refine bind_congr_ok fun _ _ => ?_
  split
  · rw [value_failIf_bind]
    refine bind_congr_ok fun _ _ => ?_
    rw [value_seq]
    refine bind_congr_ok fun now _ => ?_
    rw [value_lift_bind]
    rfl
  · rw [value_failIf_bind]
    rfl

-- Nothing moves the world in a round but the query.
theorem turn_world {started : Nat} {target : Lite.BlockIdExt} {state : Progress} {client client' : NetClient τ}
    {next : Turn} (h : ((around started).turn maxHeadAge target state).Ends client next client') :
    (answering started target state client).now = World.now client'.lite.connection.transport := by
  have peel {β γ : Type} {y : Except Error β} {f : β → Calls τ γ} {c c' : NetClient τ} {a : γ}
      (h : (ofExcept y >>= f).Ends c a c') : ∃ b, (f b).Ends c a c' := by
    obtain ⟨b, _, ran, rest⟩ := ends_bind.mp h
    obtain ⟨_, rfl⟩ := ends_ofExcept.mp ran
    exact ⟨b, rest⟩
  obtain ⟨_, _, read, h⟩ := ends_bind.mp h
  obtain ⟨_, rfl⟩ := Prod.mk.inj read
  obtain ⟨_, h⟩ := peel h
  obtain ⟨reply, client₁, asked, h⟩ := ends_bind.mp h
  obtain ⟨_, h⟩ := peel h
  obtain ⟨_, h⟩ := peel h
  obtain ⟨_, h⟩ := peel h
  obtain ⟨_, h⟩ := peel h
  suffices same : client₁ = client' by
    rw [← same]
    exact congrArg (fun out => World.now (Prod.snd out).lite.connection.transport) asked
  dsimp only at h
  split at h
  · obtain ⟨_, h⟩ := ends_failIf_bind.mp h
    obtain ⟨_, _, read, h⟩ := ends_bind.mp h
    obtain ⟨_, rfl⟩ := Prod.mk.inj read
    obtain ⟨_, h⟩ := peel h
    exact (ends_pure.mp h).right
  · obtain ⟨_, h⟩ := ends_failIf_bind.mp h
    exact (ends_pure.mp h).right

theorem turn_keeps (started : Nat) (target : Lite.BlockIdExt) (state : Progress) :
    Along Keeps ((around started).turn maxHeadAge target state : Calls τ Turn) := by
  refine .bind Keeps.trans Keeps.refl fun _ => .bind Keeps.trans Keeps.refl fun _ => ?_
  refine .bind Keeps.trans (within_keeps _) fun reply => .bind Keeps.trans Keeps.refl fun _ => ?_
  refine .bind Keeps.trans Keeps.refl fun _ => .bind Keeps.trans Keeps.refl fun proven => ?_
  refine .bind Keeps.trans Keeps.refl fun _ => ?_
  dsimp only
  split
  · refine .bind Keeps.trans failIf_keeps fun _ => .bind Keeps.trans Keeps.refl fun _ => ?_
    exact .bind Keeps.trans Keeps.refl fun _ => Keeps.refl
  · exact .bind Keeps.trans failIf_keeps fun _ => Keeps.refl

theorem walkOn_keeps (started : Nat) (target : Lite.BlockIdExt) (passes : Nat) (state : Progress) :
    Along Keeps ((around started).walkOn maxHeadAge target passes state : Calls τ Progress) := by
  induction passes generalizing state
  case zero => exact Keeps.refl
  case succ passes hi =>
    refine .bind Keeps.trans (turn_keeps started target state) fun next => ?_
    cases next
    case finished => exact Keeps.refl
    case unfinished state => exact hi state

-- The answers of a whole walk. A round is asked about once, so they are in the order of the rounds.
structure Transcript where
  replies : Nat → Except Error PartialBlockProof
  elapsed : Nat → Nat
  now     : UInt64

def Transcript.cons (reply : Except Error PartialBlockProof) (elapsed : Nat) (rest : Transcript) :
    Transcript where
  replies
    | 0     => reply
    | i + 1 => rest.replies i
  elapsed
    | 0     => elapsed
    | i + 1 => rest.elapsed i
  now := rest.now

-- A server that answers from the round `first` on as the transcript says.
structure Plays (session : Session) (first : Nat) (script : Transcript) : Prop where
  replies : ∀ i known target, session.blockProof (first + i) known target = script.replies i
  elapsed : ∀ i, session.elapsed (first + i) = script.elapsed i
  now     : session.now = script.now

-- A walk over the wire is one with a server, whose clock shows what the world shows at its end.
theorem walkOn_refines (started : Nat) (target : Lite.BlockIdExt) (passes : Nat) (state : Progress)
    (client : NetClient τ) :
    ∃ script, (∀ session, Plays session state.walk.rounds script →
      ((around started).walkOn maxHeadAge target passes state).value client =
        walkOn session maxHeadAge target passes state) ∧
      ∀ state' client', ((around started).walkOn maxHeadAge target passes state).Ends client state' client' →
        script.now = World.now client'.lite.connection.transport := by
  induction passes generalizing state client
  case zero =>
    exact ⟨⟨fun _ => .error .timeout, fun _ => 0, 0⟩, fun _ _ => rfl, fun _ _ ends => absurd ends ends_throw⟩
  case succ passes hi =>
    have here : ((around started).turn maxHeadAge target state).value client = _ :=
      turn_refines started target state client
    have world {next : Turn} {client' : NetClient τ} :
        ((around started).turn maxHeadAge target state).Ends client next client' → _ := turn_world
    generalize answering started target state client = server at here world
    -- A round that is the last one is told from what it was answered alone.
    let only : Transcript := ⟨fun _ => server.blockProof state.walk.rounds state.anchor target,
      fun _ => server.elapsed state.walk.rounds, server.now⟩
    have played {session : Session} (plays : Plays session state.walk.rounds only) :
        session.around.turn maxHeadAge target state =
          ((around started).turn maxHeadAge target state).value client :=
      (turn_congr (plays.replies 0 _ _) (plays.elapsed 0) plays.now).trans here.symm
    rw [Surroundings.walkOn, value_seq]
    rcases ended : ((around started).turn maxHeadAge target state).outcome client with
      ⟨e | state' | state', client'⟩
    case error =>
      refine ⟨only, fun session plays => ?_, fun _ _ ends => ?_⟩
      · rw [walkOn, Surroundings.walkOn, played plays, Method.value, ended]
        rfl
      · obtain ⟨_, _, turned, _⟩ := ends_bind.mp ends
        cases ended.symm.trans turned
    case ok.finished =>
      refine ⟨only, fun session plays => ?_, fun _ _ ends => ?_⟩
      · rw [walkOn, Surroundings.walkOn, played plays, Method.value, ended]
        rfl
      · rw [ends_bind_of_ends ended] at ends
        exact (ends_pure.mp ends).right ▸ world ended
    case ok.unfinished =>
      obtain ⟨script, follows, clock⟩ := hi state' client'
      refine ⟨script.cons (server.blockProof state.walk.rounds state.anchor target)
        (server.elapsed state.walk.rounds), fun session plays => ?_, fun _ _ ends => ?_⟩
      · have turned : session.around.turn maxHeadAge target state = .ok (.unfinished state') :=
          turn_congr_unfinished (here.symm.trans (value_of_ends ended)) (plays.replies 0 _ _).symm
            (plays.elapsed 0).symm
        obtain ⟨state₁, reply, _, turns, ends⟩ := turn_eq_ok turned
        obtain rfl : state' = state₁ := by simpa using ends
        obtain ⟨_, _, walk⟩ := Walk.round_eq_ok.mp turns.round
        have next : state'.walk.rounds = state.walk.rounds + 1 := by rw [walk]
        rw [walkOn, Surroundings.walkOn, turned, value_of_ends ended]
        refine follows session ⟨fun j known target => ?_, fun j => ?_, plays.now⟩
        · rw [next, Nat.add_assoc, Nat.add_comm 1]
          exact plays.replies (j + 1) known target
        · rw [next, Nat.add_assoc, Nat.add_comm 1]
          exact plays.elapsed (j + 1)
      · rw [ends_bind_of_ends ended] at ends
        exact clock _ _ ends

theorem walkFrom_keeps (start : Lite.BlockIdExt) : Along Keeps (walkFrom start : Calls τ Progress) := by
  refine .bind Keeps.trans Keeps.refl fun _ => .bind Keeps.trans ?_ fun _ => ?_
  · exact .bind Keeps.trans (within_keeps _) fun _ => Keeps.refl
  · refine .bind Keeps.trans failIf_keeps fun _ client => ?_
    rw [outcome_bind]
    exact walkOn_keeps _ _ _ _ client

theorem walkFrom_refines (start : Lite.BlockIdExt) (client : NetClient τ) :
    ∃ session, (walkFrom start).value client = Client.walkFrom client.maxHeadAge session start ∧
      ∀ state client', (walkFrom start).Ends client state client' →
        session.now = World.now client'.lite.connection.transport := by
  rw [walkFrom, value_get_bind, Surroundings.walkFrom, value_seq]
  rcases asked : (do return (← masterchainInfo).value : Calls τ _).outcome client with ⟨e | info, client₁⟩
  case error =>
    refine ⟨⟨.error e, fun _ _ _ => .error .timeout, fun _ => 0, 0⟩, ?_, fun _ _ ends => ?_⟩
    · rw [Method.value, asked]
      rfl
    · obtain ⟨_, _, got, ends⟩ := ends_bind.mp ends
      obtain ⟨rfl, rfl⟩ := ends_get.mp got
      obtain ⟨_, _, answered, _⟩ := ends_bind.mp ends
      cases asked.symm.trans answered
  case ok =>
    obtain ⟨script, follows, clock⟩ := walkOn_refines (World.instant client₁.lite.connection.transport)
      info.last (maxRounds + 1) ⟨start, start, .new⟩ client₁
    refine ⟨⟨.ok info, fun round _ _ => script.replies round, script.elapsed, script.now⟩, ?_,
      fun _ _ ends => ?_⟩
    · rw [value_of_ends asked, ok_bind, value_failIf_bind]
      refine bind_congr_ok fun _ _ => ?_
      rw [value_seq]
      refine follows _ ⟨fun i _ _ => ?_, fun i => ?_, rfl⟩ <;> simp [Walk.new]
    · obtain ⟨_, _, got, ends⟩ := ends_bind.mp ends
      obtain ⟨rfl, rfl⟩ := ends_get.mp got
      rw [Surroundings.walkFrom, ends_bind_of_ends asked, ends_failIf_bind, ends_bind] at ends
      obtain ⟨_, _, _, read, ends⟩ := ends
      obtain ⟨read, rfl⟩ := Prod.mk.inj read
      cases read
      exact clock _ _ ends

-- A walk that ends leaves the last key block on its way as the anchor.
def settled (client : NetClient τ) : Except Error Progress → NetClient τ
  | .ok state => { client with anchor := some state.trustedKeyBlock }
  | .error _  => client

theorem outcome_sync {client client₁ : NetClient τ} {start : Lite.BlockIdExt}
    {walked : Except Error Progress} (started : client.start = some start)
    (walks : (walkFrom start).outcome client = (walked, client₁)) :
    sync.outcome client = (walked.map fun state => ⟨state.anchor, state.walk.links, state.walk.rounds⟩,
      client₁.settled walked) := by
  simp only [sync, outcome_bind, outcome_get, started, okOr, outcome_pure, walks]
  cases walked <;> rfl

-- Every sync over the wire is a sync of the walk with some server.
theorem sync_refines (client : NetClient τ) :
    ∃ session, (Client.sync session).outcome client.toClient =
        ((sync.outcome client).1, (sync.outcome client).2.toClient) ∧
      ∀ report client', sync.Ends client report client' →
        session.now = World.now client'.lite.connection.transport := by
  cases started : client.start
  case none =>
    refine ⟨⟨.error .timeout, fun _ _ _ => .error .timeout, fun _ => 0, 0⟩, ?_, fun _ _ ends => ?_⟩
    · simp [Client.sync, sync, outcome_bind, started, okOr]
    · simp [sync, Ends, outcome_bind, started, okOr] at ends
  case some start =>
    obtain ⟨session, refines, clock⟩ := walkFrom_refines start client
    have keeps := walkFrom_keeps start client
    rcases walks : (walkFrom start).outcome client with ⟨walked, client₁⟩
    rw [walks] at keeps
    have same : client₁.toClient = client.toClient := keeps
    rw [Method.value, walks] at refines
    have synced := outcome_sync started walks
    refine ⟨session, ?_, fun report client' ends => ?_⟩
    · rw [synced]
      cases walked
      case error e => simp [Client.sync, outcome_bind, started, okOr, ← refines, same, Except.map, settled]
      case ok state =>
        rw [Client.outcome_sync_of_walkFrom started refines.symm, ← same]
        rfl
    · rw [Ends, synced] at ends
      cases walked
      case error => simp [Except.map] at ends
      case ok state =>
        obtain ⟨_, rfl⟩ := Prod.mk.inj ends
        exact clock state client₁ walks

end

end TonNet.NetClient
