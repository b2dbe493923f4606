import TonNet.Client.Theorems.Trust

-- Which server a client ends up with, and what a client that starts from a trusted block rests on.

namespace TonNet.NetClient

open Fallible Method Wire

section

variable {τ : Type} [World τ] [Sha256] [AdnlTl] [Aes256Ctr] [Curve25519]
  {dial dial' : Nat → LiteServer → Dialled τ} {server : LiteServer} {before rest servers : List LiteServer}
  {tried : Nat} {lastError : Option Error}

def Fails (dial : Nat → LiteServer → Dialled τ) (place : Nat) (server : LiteServer) (error : LiteError) :
    Prop :=
  attempt (dial place server) server.key = .error (.failed error)

-- Every attempt at these servers, from the one numbered `tried` on, failed.
def Unreached (dial : Nat → LiteServer → Dialled τ) (tried : Nat) (servers : List LiteServer) : Prop :=
  ∀ i server, servers[i]? = some server → ∃ error, Fails dial (tried + i) server error

namespace Unreached

theorem nil : Unreached dial tried [] := by
  intro i server h
  simp at h

theorem cons_iff : Unreached dial tried (server :: servers) ↔
    (∃ error, Fails dial tried server error) ∧ Unreached dial (tried + 1) servers := by
  constructor
  · intro h
    refine ⟨h 0 server rfl, fun i server' here => ?_⟩
    rw [Nat.add_assoc, Nat.add_comm 1]
    exact h (i + 1) server' (by simpa using here)
  · rintro ⟨first, others⟩ i server' here
    cases i
    case zero =>
      obtain rfl : server = server' := by simpa using here
      exact first
    case succ i =>
      rw [Nat.add_comm i, ← Nat.add_assoc]
      exact others i server' (by simpa using here)

-- The servers are cut at the first that does not just fail.
theorem split (dial : Nat → LiteServer → Dialled τ) (servers : List LiteServer) (tried : Nat) :
    ∃ before rest, servers = before ++ rest ∧ Unreached dial tried before ∧
      ∀ server ∈ rest.head?, ∀ error, ¬Fails dial (tried + before.length) server error := by
  induction servers generalizing tried
  case nil => exact ⟨[], [], rfl, .nil, by simp⟩
  case cons server servers hi =>
    by_cases fails : ∃ error, Fails dial tried server error
    case pos =>
      obtain ⟨before, rest, rfl, unreached, stops⟩ := hi (tried + 1)
      refine ⟨server :: before, rest, rfl, cons_iff.mpr ⟨fails, unreached⟩, ?_⟩
      rwa [List.length_cons, Nat.add_comm before.length, ← Nat.add_assoc]
    case neg =>
      refine ⟨[], server :: servers, rfl, .nil, fun server' head error failed => fails ?_⟩
      obtain rfl : server = server' := by simpa using head
      exact ⟨error, failed⟩

end Unreached

-- What has gone wrong last once these servers have been tried.
inductive Reason (dial : Nat → LiteServer → Dialled τ) (tried : Nat) (lastError : Option Error) :
    List LiteServer → Option Error → Prop
  | untried : Reason dial tried lastError [] lastError
  | failed (before : List LiteServer) {server : LiteServer} {error : LiteError}
      (h : Fails dial (tried + before.length) server error) :
      Reason dial tried lastError (before ++ [server]) (some (.ofLite error))

theorem Reason.cons {error : LiteError} {reason : Option Error} (h : Fails dial tried server error)
    (others : Reason dial (tried + 1) (some (.ofLite error)) servers reason) :
    Reason dial tried lastError (server :: servers) reason := by
  cases others
  case untried => exact .failed [] h
  case failed before server' error' h' =>
    refine .failed (server :: before) ?_
    rwa [List.length_cons, Nat.add_comm before.length, ← Nat.add_assoc]

variable {config : Config}

theorem connectTo_fails {error : LiteError} (h : Fails dial tried server error) :
    connectTo config dial (server :: servers) tried lastError =
      connectTo config dial servers (tried + 1) (some (.ofLite error)) := by
  rw [connectTo, show attempt _ _ = _ from h]

theorem connectTo_unreached (config : Config) (rest : List LiteServer) (lastError : Option Error)
    (h : Unreached dial tried before) :
    ∃ reason, Reason dial tried lastError before reason ∧
      connectTo config dial (before ++ rest) tried lastError =
        connectTo config dial rest (tried + before.length) reason := by
  induction before generalizing tried lastError
  case nil => exact ⟨lastError, .untried, rfl⟩
  case cons server before hi =>
    obtain ⟨⟨error, failed⟩, others⟩ := Unreached.cons_iff.mp h
    obtain ⟨reason, why, same⟩ := hi (some (.ofLite error)) others
    refine ⟨reason, why.cons failed, ?_⟩
    rw [List.cons_append, connectTo_fails failed, same, List.length_cons, Nat.add_comm before.length,
      ← Nat.add_assoc]

-- Who comes after the first that does not just fail is never dialled.
theorem connectTo_congr (unreached : Unreached dial tried before)
    (stops : ∀ server ∈ rest.head?, ∀ error, ¬Fails dial (tried + before.length) server error)
    (same : ∀ i, i ≤ before.length → dial' (tried + i) = dial (tried + i)) :
    connectTo config dial' (before ++ rest) tried lastError =
      connectTo config dial (before ++ rest) tried lastError := by
  induction before generalizing tried lastError
  case nil =>
    cases rest
    case nil => rfl
    case cons server rest =>
      have here : dial' tried = dial tried := same 0 (Nat.le_refl 0)
      rw [List.nil_append, connectTo, connectTo, here]
      rcases met : attempt (dial tried server) server.key with (error | _) | _
      case error.failed => exact absurd met (stops server rfl error)
      all_goals rfl
  case cons server before hi =>
    obtain ⟨⟨error, failed⟩, others⟩ := Unreached.cons_iff.mp unreached
    have failed' : Fails dial' tried server error := by
      rw [Fails, show dial' tried = dial tried from same 0 (Nat.zero_le _)]
      exact failed
    have place (i : Nat) : tried + 1 + i = tried + (i + 1) := by omega
    rw [List.cons_append, connectTo_fails failed, connectTo_fails failed']
    refine hi others ?_ fun i inside => ?_
    · rw [place]
      exact stops
    · rw [place]
      exact same (i + 1) (Nat.succ_le_succ inside)

-- A server that answers, and the connection made with it.
structure Reaches (dialled : Dialled τ) (lite : LiteClient τ) (transport : τ) (handshake : Handshake) :
    Prop where
  dialled : dialled.transport = .ok transport
  packet  : Transport.accepted lite.connection.transport =
    Transport.accepted transport ++ handshake.packet
  unread  : Transport.taken lite.connection.transport = Transport.taken transport
  ciphers : lite.connection.ciphers = handshake.ciphers
  intact  : lite.connection.intact = true

theorem attempt_reaches {dialled : Dialled τ} {key : Hash} {lite : LiteClient τ}
    (h : attempt dialled key = .ok lite) :
    ∃ transport handshake secrets, clientHandshake key secrets = .ok handshake ∧
      Reaches dialled lite transport handshake := by
  obtain ⟨transport, opened, joined⟩ := bind_eq_ok.mp h
  obtain ⟨connection, shaken, same⟩ := bind_eq_ok.mp joined
  obtain rfl := pure_eq_ok.mp same
  obtain ⟨seed, params, handshake, transport', _, _, built, sent, rfl⟩ :=
    AdnlConnection.connect_eq_ok.mp (mapError_eq_ok.mp shaken)
  obtain ⟨packet, unread⟩ := Transport.writes sent
  exact ⟨transport, handshake, ⟨seed, params⟩, built, mapError_eq_ok.mp opened, packet, unread, rfl, rfl⟩

-- The servers are tried in their order, each once and none after the first that answers or is
-- dropped; where there is none the last failure is reported.
theorem connect_fails_over (config : Config) (dial : Nat → LiteServer → Dialled τ) :
    ∃ before rest, config.liteservers = before ++ rest ∧ Unreached dial 0 before ∧
      (∀ dial' : Nat → LiteServer → Dialled τ, (∀ i, i ≤ before.length → dial' i = dial i) →
        connect config dial' = connect config dial) ∧
      ((rest = [] ∧ ∃ reason, Reason dial 0 none before reason ∧
          connect config dial = some (.error (reason.getD (.config "config has no liteservers")))) ∨
        (∃ server others, rest = server :: others ∧ connect config dial = none ∧
          attempt (dial before.length server) server.key = .error .dropped) ∨
        ∃ server others lite transport handshake secrets, rest = server :: others ∧
          connect config dial = some (.ok ⟨⟨none, config.initBlock, config.maxHeadAge⟩, lite⟩) ∧
          clientHandshake server.key secrets = .ok handshake ∧
          Reaches (dial before.length server) lite transport handshake) := by
  obtain ⟨before, rest, servers, unreached, stops⟩ := Unreached.split dial config.liteservers 0
  refine ⟨before, rest, servers, unreached, fun dial' same => ?_, ?_⟩
  · rw [connect, connect, servers]
    refine connectTo_congr unreached stops fun i inside => ?_
    rw [Nat.zero_add]
    exact same i inside
  · obtain ⟨reason, why, same⟩ := connectTo_unreached config rest none unreached
    rw [Nat.zero_add] at stops same
    rw [connect, servers, same]
    cases rest
    case nil => exact .inl ⟨rfl, reason, why, rfl⟩
    case cons server others =>
      rw [connectTo]
      rcases met : attempt (dial before.length server) server.key with (error | _) | lite
      case error.failed => exact absurd met (stops server rfl error)
      case error.dropped => exact .inr (.inl ⟨server, others, rfl, rfl, met⟩)
      case ok =>
        obtain ⟨transport, handshake, secrets, built, reaches⟩ := attempt_reaches met
        exact .inr (.inr ⟨server, others, lite, transport, handshake, secrets, rfl, rfl, built, reaches⟩)

theorem connect_client {client : NetClient τ} (h : connect config dial = some (.ok client)) :
    client.toClient = ⟨none, config.initBlock, config.maxHeadAge⟩ := by
  obtain ⟨before, rest, servers, unreached, stops⟩ := Unreached.split dial config.liteservers 0
  obtain ⟨reason, _, same⟩ := connectTo_unreached config rest none unreached
  rw [connect, servers, same] at h
  cases rest
  case nil => simp [connectTo] at h
  case cons server others =>
    rw [connectTo] at h
    rcases met : attempt (dial (0 + before.length) server) server.key with (error | _) | lite <;> rw [met] at h
    case error.failed => exact absurd met (stops server rfl error)
    case error.dropped => simp at h
    case ok =>
      obtain rfl := Except.ok.inj (Option.some_inj.mp h)
      rfl

variable [LiteTl] [Ed25519] [Tl]

-- A client made from a trusted block: its config's init block is nothing it rests on.
theorem connectFrom_rooted {anchor : Lite.BlockIdExt} {client : NetClient τ}
    (connected : connectFrom config dial anchor = some (.ok client)) (calls : List Call) :
    (∃ trusted, client.anchor = some trusted ∧ Client.Established anchor trusted ∧
      anchor.seqno ≤ trusted.seqno) ∧
    client.initBlock = config.initBlock ∧ client.maxHeadAge = config.maxHeadAge ∧
    (∀ report later, sync.Ends (client.after calls) report later →
      ∃ steps block, Proven anchor (client.after calls) later report.head steps block) ∧
    ∀ address answer later, (account address).Ends (client.after calls) answer later →
      ∃ mid steps block reported, Proven anchor (client.after calls) mid answer.anchor steps block ∧
        answer.anchor.workchain = masterchain ∧
        verifyAccount (accountRead address answer.anchor reported) = .ok answer.value := by
  obtain ⟨made, opened, same⟩ := Option.bind_eq_some_iff.mp connected
  obtain ⟨first, rfl, walked⟩ := bind_eq_ok.mp (Option.some_inj.mp same)
  obtain ⟨⟨report, _⟩, walked, ⟨⟩⟩ := bind_eq_ok.mp walked
  have config := connect_client opened
  obtain ⟨session, refines, _⟩ := sync_refines { first with anchor := some anchor }
  rw [show sync.outcome _ = _ from call_eq_ok.mp walked] at refines
  obtain ⟨_, trusted, steps, _, synced⟩ := Client.sync_synced refines
  obtain rfl := Option.some_inj.mp synced.started
  have stored : client.toClient = { first.toClient with anchor := some trusted } := synced.stored
  have established : Client.Established anchor trusted := ⟨steps, synced.onTheWay⟩
  have anchored : client.anchor = some trusted := congrArg Client.anchor stored
  obtain ⟨now, started, since⟩ := after_established (Client.start_of_anchor anchored) calls
  refine ⟨⟨trusted, anchored, established, synced.ascends⟩, ?_, ?_,
    fun _ _ => sync_proven started (established.trans since),
    fun _ _ _ => account_proven started (established.trans since)⟩
  · rw [stored, config]
  · rw [stored, config]

end

section Wire

open AdnlConnection

attribute [local instance] Sha256.standard chainEd25519 chainTl sampleAes sampleCurve samplePipe wireTl wireLiteTl
  wireWorld

-- The first of two servers is not there. No block is configured to start from.
def twoServers : Config :=
  ⟨[⟨"10.0.0.1:1", .zero⟩, ⟨"10.0.0.2:2", .zero⟩], none, 60⟩

def dialTwo (place : Nat) (_ : LiteServer) : Dialled Pipe where
  transport :=
    if place = 0 then .error .connectTimeout
    else .ok { wireClient.lite.connection.transport with patience := 9 }
  keySeed   := some .zero
  params    := some zeros

def anchoredAt (client : NetClient Pipe) : NetClient Pipe :=
  { client with anchor := some (.ofWire blockA) }

theorem connectFrom_twoServers : ∃ client,
    connectFrom twoServers dialTwo (.ofWire blockA) = some (.ok client) := by
  have seen : (connect twoServers dialTwo).bind (fun made => made.toOption.map fun client =>
      ((masterchainInfo.outcome (anchoredAt client)).1.toOption.map fun info =>
        (info.value.last, ((within (LiteClient.blockProof (.ofWire blockA) (.ofWire blockC))).value
          (masterchainInfo.outcome (anchoredAt client)).2).toOption))) =
      some (some (.ofWire blockC, some chainAC)) := by
    decide +kernel
  obtain ⟨_, opened, seen⟩ := Option.bind_eq_some_iff.mp seen
  obtain ⟨client, made, answers⟩ := Option.map_eq_some_iff.mp seen
  obtain rfl := toOption_eq_some.mp made
  have age : client.maxHeadAge = 60 := congrArg Client.maxHeadAge (connect_client opened)
  have started : (anchoredAt client).start = some (.ofWire blockA) := rfl
  obtain ⟨later, synced⟩ := sync_twoLinks started age answers
  refine ⟨later, ?_⟩
  rw [connectFrom, opened]
  show some (sync.call (anchoredAt client) >>= fun walked => .ok walked.2) = _
  rw [call_eq_ok.mpr synced]
  rfl

theorem connectFrom_rooted_twoServers : ∃ client trusted,
    connectFrom twoServers dialTwo (.ofWire blockA) = some (.ok client) ∧
      client.anchor = some trusted ∧ Client.Established (.ofWire blockA) trusted := by
  obtain ⟨client, connected⟩ := connectFrom_twoServers
  obtain ⟨⟨trusted, anchored, established, _⟩, _⟩ := connectFrom_rooted connected []
  exact ⟨client, trusted, connected, anchored, established⟩

end Wire

end TonNet.NetClient
