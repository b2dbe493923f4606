import TonNet.Adnl.Theorems.Connection

-- What goes over a connection in a history of queries, and what each of them makes of the frames
-- that come back.

namespace TonNet

open Fallible Method SessionCiphers

theorem Framed.append [Sha256] {a b c : Cipher} {wire wire' : Bytes} {payloads payloads' : List Bytes}
    (h : Framed a wire payloads b) (h' : Framed b wire' payloads' c) :
    Framed a (wire ++ wire') (payloads ++ payloads') c := by
  induction h
  case nil => exact h'
  case cons nonce _ fits _ hi =>
    rw [List.append_assoc, List.cons_append]
    exact .cons nonce fits (hi h')

theorem Framed.one [Sha256] (c : Cipher) (nonce : Hash) {payload : Bytes}
    (fits : payload.length + minFrame ≤ maxFrame) :
    Framed c (c.applied (plain nonce payload)) [payload] (c.past (4 + (payload.length + minFrame))) := by
  have framed := Framed.cons nonce fits (.nil (c.past (4 + (payload.length + minFrame))))
  rwa [List.append_nil] at framed

namespace SessionCiphers

theorem lengthBytes_lengthOf {bytes : Bytes} (h : bytes.length = 4) :
    lengthBytes (lengthOf bytes) = bytes := by
  have length : bytes.reverse.length = 4 := by rw [List.length_reverse, h]
  rw [lengthBytes, lengthOf, ← length, Bytes.be_ofBe, List.reverse_reverse]

-- Only a body that was sealed is opened.
theorem openBody_sealed [Sha256] {s s' : SessionCiphers} {body payload : Bytes}
    (h : (openBody body).Ends s payload s') : ∃ nonce, s.rx.applied body = bodyOf nonce payload := by
  simp only [openBody, ends_bind, ends_failIf, ends_pure, not_lt, not_not] at h
  obtain ⟨_, _, ⟨enough, rfl⟩, opened, _, applied, _, _, ⟨_, rfl⟩, _, _, ⟨checksum, rfl⟩, rfl, rfl⟩ := h
  obtain ⟨rfl, rfl⟩ := applied.unique (applyRx_ends s body)
  have length : ((s.rx.applied body).take 32).length = 32 := by
    rw [List.length_take, Cipher.applied_length]
    exact Nat.min_eq_left (Nat.le_trans (by decide) enough)
  refine ⟨⟨_, length⟩, ?_⟩
  rw [bodyOf, ← checksum, List.take_append_drop, List.take_append_drop]

end SessionCiphers

-- The answer to a query that a payload holds.
def answerIn [AdnlTl] (queryId : Hash) (payload : Bytes) : Option Bytes :=
  if payload = [] then none else
    match AdnlTl.readMessage payload with
    | some (.answer answered answer) => if answered = queryId then some answer else none
    | _                              => none

def undecodable [AdnlTl] (payload : Bytes) : Bool :=
  payload ≠ [] ∧ AdnlTl.readMessage payload = none

-- What becomes of a query that still takes `frames` payloads, by the payloads that it takes: the
-- first that answers it ends it, and nothing else does before all of them are there.
inductive Judged [AdnlTl] (queryId : Hash) (frames skipped : Nat) : List Bytes → Except Stopped Bytes → Prop
  | answered {others : List Bytes} {payload answer : Bytes} (few : others.length < frames)
      (unrelated : ∀ other ∈ others, answerIn queryId other = none)
      (answers : answerIn queryId payload = some answer) :
      Judged queryId frames skipped (others ++ [payload]) (.ok answer)
  | unanswered {others : List Bytes} (all : others.length = frames)
      (unrelated : ∀ other ∈ others, answerIn queryId other = none) :
      Judged queryId frames skipped others (.error (.failed
        (if skipped + others.countP undecodable = maxFramesPerQuery then .malformed else .noAnswer)))

namespace Judged

variable [AdnlTl] {queryId : Hash} {frames skipped : Nat} {payload answer : Bytes} {heard : List Bytes}
  {result : Except Stopped Bytes}

theorem first (h : answerIn queryId payload = some answer) :
    Judged queryId (frames + 1) skipped [payload] (.ok answer) := by
  have none_before : ∀ other ∈ ([] : List Bytes), answerIn queryId other = none := by simp
  exact .answered (Nat.zero_lt_succ frames) none_before h

theorem countP_undecodable (payload : Bytes) (heard : List Bytes) :
    skipped + (payload :: heard).countP undecodable =
      skipped + (undecodable payload).toNat + heard.countP undecodable := by
  rw [List.countP_cons]
  cases undecodable payload <;> simp [Nat.add_comm, Nat.add_assoc]

theorem cons (h : answerIn queryId payload = none)
    (judged : Judged queryId frames (skipped + (undecodable payload).toNat) heard result) :
    Judged queryId (frames + 1) skipped (payload :: heard) result := by
  cases judged
  case answered others _ _ few unrelated answers =>
    exact .answered (Nat.succ_lt_succ few) (List.forall_mem_cons.mpr ⟨h, unrelated⟩) answers
  case unanswered all unrelated =>
    rw [← countP_undecodable]
    exact .unanswered (congrArg (· + 1) all) (List.forall_mem_cons.mpr ⟨h, unrelated⟩)

-- The payload that is taken first ends the query or leaves it as it is.
theorem front (judged : Judged queryId (frames + 1) skipped heard result) : ∃ payload rest,
    heard = payload :: rest ∧
      ((∃ answer, answerIn queryId payload = some answer ∧ rest = [] ∧ result = .ok answer) ∨
        answerIn queryId payload = none ∧
          Judged queryId frames (skipped + (undecodable payload).toNat) rest result) := by
  cases judged
  case answered others payload answer few unrelated answers =>
    cases others
    case nil => exact ⟨payload, [], rfl, .inl ⟨answer, answers, rfl, rfl⟩⟩
    case cons other others =>
      obtain ⟨first, unrelated⟩ := List.forall_mem_cons.mp unrelated
      exact ⟨other, others ++ [payload], rfl,
        .inr ⟨first, .answered (Nat.lt_of_succ_lt_succ few) unrelated answers⟩⟩
  case unanswered all unrelated =>
    cases heard
    case nil => cases all
    case cons other others =>
      obtain ⟨first, unrelated⟩ := List.forall_mem_cons.mp unrelated
      rw [countP_undecodable]
      exact ⟨other, others, rfl, .inr ⟨first, .unanswered (Nat.succ_inj.mp all) unrelated⟩⟩

end Judged

namespace AdnlConnection

section

variable {τ α β : Type} {conn conn' : AdnlConnection τ}

theorem inWindow_ends {moves : Driver τ α} {a : α}
    (h : moves.Ends { conn with intact := false } a conn') :
    (inWindow moves).Ends conn a { conn' with intact := true } := by
  have lowered : (setIntact false).Ends conn () { conn with intact := false } := rfl
  rw [inWindow, ends_bind_of_ends lowered, ends_bind_of_ends h]
  rfl

theorem await_of_ready {operation : τ → Awaited α × τ} {t t' : τ} {a : α} {s : SessionCiphers} {intact : Bool}
    (h : operation t = (.ready (.ok a), t')) : (await operation).Ends ⟨t, s, intact⟩ a ⟨t', s, intact⟩ :=
  await_ends.mpr ⟨t', h, rfl⟩

theorem withCiphers_of_ends {operation : Session α} {t : τ} {a : α} {s s' : SessionCiphers} {intact : Bool}
    (h : operation.Ends s a s') : (withCiphers operation).Ends ⟨t, s, intact⟩ a ⟨t, s', intact⟩ :=
  withCiphers_ends.mpr ⟨s', h, rfl⟩

variable [Transport τ]

-- A connection that is intact in the end was so all along.
theorem intact_of_bind {x : Driver τ α} {f : α → Driver τ β} (rest : ∀ a, Along Moves (f a))
    (up : ((x >>= f).outcome conn).2.intact = true) : (x.outcome conn).2.intact = true := by
  rw [outcome_bind] at up
  rcases out : x.outcome conn with ⟨_ | a, conn'⟩ <;> rw [out] at up
  case error => exact up
  case ok => exact ((rest a conn').intact up).left

variable [Sha256]

-- What has gone through a connection between two of its states: the frames of `sent` and those
-- of `heard`, each of them whole and sealed where the keystream stood.
structure Passed (conn conn' : AdnlConnection τ) (sent heard : List Bytes) : Prop where
  written : ∃ wire, Framed conn.ciphers.tx wire sent conn'.ciphers.tx ∧
    Transport.accepted conn'.transport = Transport.accepted conn.transport ++ wire
  read    : ∃ wire, Framed conn.ciphers.rx wire heard conn'.ciphers.rx ∧
    Transport.taken conn'.transport = Transport.taken conn.transport ++ wire

theorem Passed.refl (conn : AdnlConnection τ) : Passed conn conn [] [] where
  written := ⟨[], .nil _, (List.append_nil _).symm⟩
  read    := ⟨[], .nil _, (List.append_nil _).symm⟩

theorem Passed.trans {a b c : AdnlConnection τ} {sent sent' heard heard' : List Bytes}
    (h : Passed a b sent heard) (h' : Passed b c sent' heard') :
    Passed a c (sent ++ sent') (heard ++ heard') := by
  obtain ⟨⟨wire, framed, accepted⟩, ⟨got, opened, taken⟩⟩ := h
  obtain ⟨⟨wire', framed', accepted'⟩, ⟨got', opened', taken'⟩⟩ := h'
  refine ⟨⟨_, framed.append framed', ?_⟩, ⟨_, opened.append opened', ?_⟩⟩
  · rw [accepted', accepted, List.append_assoc]
  · rw [taken', taken, List.append_assoc]

-- A frame that gets through was sealed by the other side at this place.
theorem recv_passed (up : (recv.outcome conn).2.intact = true) :
    ∃ payload conn', recv.Ends conn payload conn' ∧ Passed conn conn' [] [payload] := by
  cases before : conn.intact
  case false =>
    rw [recv, outcome_bind, check_refuses before] at up
    exact absurd up (by simp [before])
  case true =>
    have same : (recv : Driver τ Bytes).outcome conn = _ := outcome_bind_of_ends (check_passes before)
    rw [same] at up
    rcases inWindow_outcome frame_sameFlag conn with down | ⟨payload, conn', ends, whole⟩
    case inl => cases up.symm.trans down
    case inr =>
      refine ⟨payload, _, same.trans whole, ?_⟩
      simp only [ends_bind, await_ends, withCiphers_ends] at ends
      obtain ⟨front, _, ⟨t, front_read, rfl⟩, len, _, ⟨s, opened, rfl⟩, body, _, ⟨t', body_read, rfl⟩,
        s', opens, rfl⟩ := ends
      obtain ⟨four, unsent, got⟩ := Transport.reads front_read
      obtain ⟨body_length, unsent', got'⟩ := Transport.reads body_read
      obtain ⟨length, _, fits, rfl⟩ := openLen_ends.mp opened
      obtain ⟨nonce, sealed⟩ := openBody_sealed opens
      obtain rfl := openBody_moves opens
      obtain rfl : len = payload.length + minFrame := by
        rw [← body_length, ← bodyOf_length nonce, ← sealed, Cipher.applied_length]
      have frame : conn.ciphers.rx.applied (front ++ body) = plain nonce payload := by
        rw [Cipher.applied_append, plain, ← length, lengthBytes_lengthOf (by simp [four])]
        exact congrArg _ sealed
      have wire : front ++ body = conn.ciphers.rx.applied (plain nonce payload) := by
        rw [← frame, Cipher.applied_applied]
      refine ⟨⟨[], .nil _, ?_⟩, ⟨front ++ body, ?_, ?_⟩⟩
      · rw [List.append_nil]
        exact unsent'.trans unsent
      · have framed := Framed.one conn.ciphers.rx nonce fits
        rwa [← wire, ← Cipher.past_past, ← four, ← body_length] at framed
      · rw [← List.append_assoc, ← got]
        exact got'

theorem send_passed {nonce : Hash} {message : Bytes}
    (up : ((send nonce message).outcome conn).2.intact = true) :
    maxFrame < message.length + minFrame ∧ (send nonce message).outcome conn =
        (.error (.failed (.frame (.payloadTooLarge message.length))), conn) ∨
      message.length + minFrame ≤ maxFrame ∧
        ∃ conn', (send nonce message).Ends conn () conn' ∧ Passed conn conn' [message] [] := by
  cases before : conn.intact
  case false =>
    rw [send, outcome_bind, check_refuses before] at up
    exact absurd up (by simp [before])
  case true =>
    have same : (send nonce message : Driver τ Unit).outcome conn = _ :=
      outcome_bind_of_ends (check_passes before)
    by_cases fits : message.length + minFrame ≤ maxFrame
    case neg =>
      refine .inl ⟨not_le.mp fits, ?_⟩
      rw [same, outcome_bind, outcome_withCiphers, value, sealFrame_refused (not_le.mp fits)]
      rfl
    case pos =>
      refine .inr ⟨fits, ?_⟩
      rw [outcome_bind_of_ends (withCiphers_ends.mpr ⟨_, sealFrame_ends.mpr ⟨fits, rfl, rfl⟩, rfl⟩)] at same
      rw [same] at up
      rcases inWindow_outcome (await_sameFlag _) _ with down | ⟨_, conn', ends, whole⟩
      case inl => cases up.symm.trans down
      case inr =>
        obtain ⟨t, wrote, rfl⟩ := await_ends.mp ends
        obtain ⟨more, unread⟩ := Transport.writes wrote
        refine ⟨_, same.trans whole, ⟨_, .one _ nonce fits, more⟩, ⟨[], .nil _, ?_⟩⟩
        rw [List.append_nil]
        exact unread

variable [AdnlTl]

theorem awaitAnswer_succ (queryId : Hash) (frames skipped : Nat) :
    (awaitAnswer queryId (frames + 1) skipped : Driver τ Bytes) = recv >>= fun payload =>
      (answerIn queryId payload).elim
        (awaitAnswer queryId frames (skipped + (undecodable payload).toNat)) pure := by
  rw [awaitAnswer]
  refine bind_congr fun payload => ?_
  by_cases empty : payload = []
  case pos => simp [answerIn, undecodable, empty]
  case neg =>
    simp only [answerIn, undecodable, if_neg empty]
    rcases AdnlTl.readMessage payload with _ | _ | ⟨answered, answer⟩
    case none => simp [empty]
    case some.query => simp
    case some.answer =>
      by_cases same : answered = queryId <;> simp [same]

theorem awaitAnswer_passed {queryId : Hash} {frames skipped : Nat}
    (up : ((awaitAnswer queryId frames skipped).outcome conn).2.intact = true) : ∃ heard,
    Passed conn ((awaitAnswer queryId frames skipped).outcome conn).2 [] heard ∧
      Judged queryId frames skipped heard ((awaitAnswer queryId frames skipped).value conn) := by
  induction frames generalizing conn skipped
  case zero => exact ⟨[], .refl conn, .unanswered rfl (by simp)⟩
  case succ frames hi =>
    rw [awaitAnswer_succ] at up ⊢
    have rest (payload : Bytes) : Along Moves ((answerIn queryId payload).elim
        (awaitAnswer queryId frames (skipped + (undecodable payload).toNat)) pure : Driver τ Bytes) := by
      cases answerIn queryId payload
      case none => exact awaitAnswer_moves _ _ _
      case some => exact fun conn => .refl conn
    have received := intact_of_bind rest up
    obtain ⟨payload, conn', ends, passed⟩ := recv_passed received
    rw [outcome_bind_of_ends ends] at up ⊢
    rw [value_bind_of_ends ends]
    cases answers : answerIn queryId payload <;> rw [answers] at up
    case some answer => exact ⟨[payload], passed, .first answers⟩
    case none =>
      obtain ⟨heard, passed', judged⟩ := hi up
      exact ⟨payload :: heard, passed.trans passed', judged.cons answers⟩

-- A call of `query` as seen from outside: what it has put on the wire and taken off it, and what it
-- has come back with.
structure Exchange where
  sent  : List Bytes
  heard : List Bytes
  reply : Option (Except Stopped Bytes)

-- What a call that leaves the connection intact can have been.
inductive Exchanged : Call → Exchange → Prop
  | unpolled : Exchanged .unpolled ⟨[], [], none⟩
  | undrawn {bytes : Bytes} {queryId nonce : Option Hash} (undrawn : queryId = none ∨ nonce = none) :
      Exchanged (.polled bytes queryId nonce) ⟨[], [], some (.error (.failed .noRandomness))⟩
  | tooLarge {bytes : Bytes} {queryId nonce : Hash}
      (large : maxFrame < (AdnlTl.message (.query queryId bytes)).length + minFrame) :
      Exchanged (.polled bytes (some queryId) (some nonce)) ⟨[], [], some (.error (.failed (.frame
        (.payloadTooLarge (AdnlTl.message (.query queryId bytes)).length))))⟩
  | judged {bytes : Bytes} {queryId nonce : Hash} {heard : List Bytes} {result : Except Stopped Bytes}
      (fits : (AdnlTl.message (.query queryId bytes)).length + minFrame ≤ maxFrame)
      (judged : Judged queryId maxFramesPerQuery 0 heard result) :
      Exchanged (.polled bytes (some queryId) (some nonce))
        ⟨[AdnlTl.message (.query queryId bytes)], heard, some result⟩

def reply (conn : AdnlConnection τ) : Call → Option (Except Stopped Bytes)
  | .unpolled                   => none
  | .polled bytes queryId nonce => some ((query bytes queryId nonce).value conn)

def replies (conn : AdnlConnection τ) : List Call → List (Option (Except Stopped Bytes))
  | []            => []
  | call :: calls => conn.reply call :: (conn.step call).replies calls

theorem step_exchanged {call : Call} (up : (conn.step call).intact = true) : ∃ sent heard,
    Passed conn (conn.step call) sent heard ∧ Exchanged call ⟨sent, heard, conn.reply call⟩ := by
  cases call
  case unpolled => exact ⟨[], [], .refl conn, .unpolled⟩
  case polled bytes queryId nonce =>
    cases queryId
    case none => exact ⟨[], [], .refl conn, .undrawn (.inl rfl)⟩
    case some queryId =>
      cases nonce
      case none => exact ⟨[], [], .refl conn, .undrawn (.inr rfl)⟩
      case some nonce =>
        have same : (query bytes (some queryId) (some nonce) : Driver τ Bytes) =
            send nonce (AdnlTl.message (.query queryId bytes)) >>= fun _ =>
              awaitAnswer queryId maxFramesPerQuery 0 := rfl
        rw [step, same] at up
        rw [step, reply, same]
        rcases send_passed (intact_of_bind (fun _ => awaitAnswer_moves _ _ _) up) with
          ⟨large, refused⟩ | ⟨fits, conn', ends, passed⟩
        case inl =>
          rw [value, outcome_bind, refused]
          exact ⟨[], [], .refl conn, .tooLarge large⟩
        case inr =>
          rw [outcome_bind_of_ends ends] at up ⊢
          rw [value_bind_of_ends ends]
          obtain ⟨heard, passed', judged⟩ := awaitAnswer_passed up
          exact ⟨_, heard, passed.trans passed', .judged fits judged⟩

theorem after_exchanged {calls : List Call} (up : (conn.after calls).intact = true) : ∃ exchanges,
    Passed conn (conn.after calls) (exchanges.flatMap Exchange.sent) (exchanges.flatMap Exchange.heard) ∧
      List.Forall₂ Exchanged calls exchanges ∧ conn.replies calls = exchanges.map Exchange.reply := by
  induction calls generalizing conn
  case nil => exact ⟨[], .refl conn, .nil, rfl⟩
  case cons call calls hi =>
    obtain ⟨exchanges, later, each, replies⟩ := hi up
    obtain ⟨sent, heard, passed, exchanged⟩ :=
      step_exchanged ((after_moves (conn.step call) calls).intact up).left
    exact ⟨⟨sent, heard, conn.reply call⟩ :: exchanges, passed.trans later, .cons exchanged each, 
      congrArg (_ :: ·) replies⟩

variable [Aes256Ctr] [Curve25519]

-- All that has gone over a connection that is still intact: whole frames in both directions, sealed
-- one behind the other from the handshake on. Those to the server are the queries, each once and in
-- order; those from it fall to the queries one stretch after the other, and each query has come back
-- with what its own stretch makes of it.
theorem history_exchanged {t : τ} {serverKey keySeed : Hash} {params : Params} (calls : List Call)
    (opened : connect t serverKey (some keySeed) (some params) = .ok conn)
    (up : isIntact (conn.after calls) = true) :
    ∃ handshake exchanges sent got, clientHandshake serverKey ⟨keySeed, params⟩ = .ok handshake ∧
      List.Forall₂ Exchanged calls exchanges ∧ conn.replies calls = exchanges.map Exchange.reply ∧
      Transport.accepted (conn.after calls).transport = Transport.accepted t ++ handshake.packet ++ sent ∧
      Framed handshake.ciphers.tx sent (exchanges.flatMap Exchange.sent) (conn.after calls).ciphers.tx ∧
      Transport.taken (conn.after calls).transport = Transport.taken t ++ got ∧
      Framed handshake.ciphers.rx got (exchanges.flatMap Exchange.heard) (conn.after calls).ciphers.rx := by
  obtain ⟨_, _, handshake, t', ⟨⟩, ⟨⟩, built, packet, rfl⟩ := connect_eq_ok.mp opened
  obtain ⟨written, unread⟩ := Transport.writes packet
  obtain ⟨exchanges, ⟨⟨sent, framed, accepted⟩, ⟨got, opens, taken⟩⟩, each, replies⟩ := after_exchanged up
  refine ⟨handshake, exchanges, sent, got, built, each, replies, ?_, framed, ?_, opens⟩
  · rw [accepted, written]
  · rw [taken, unread]

end

section Sample

attribute [local instance] Sha256.standard sampleAes sampleCurve sampleTl samplePipe

-- A caller that asks, drops a query it never polled, has no randomness for the next, and asks again.
def twoAnswers : Pipe :=
  { awaiting with
    incoming := (fromParams (List.replicate 160 0)).rx.applied (plain .zero [7] ++ plain .zero [7])
    patience := 7 }

def fourCalls : List Call :=
  [ask, .unpolled, .polled [5] none (some .zero), ask]

theorem history_exchanged_twoAnswers : ∃ conn exchanges,
    connect twoAnswers .zero (some .zero) (some zeros) = .ok conn ∧
      isIntact (conn.after fourCalls) = true ∧ List.Forall₂ Exchanged fourCalls exchanges ∧
      conn.replies fourCalls = exchanges.map Exchange.reply ∧
      (conn.replies fourCalls).map (Option.bind · Except.toOption) = [some [9], none, none, some [9]] := by
  have run : (connect twoAnswers .zero (some .zero) (some zeros)).toOption.map (fun conn =>
      (isIntact (conn.after fourCalls), (conn.replies fourCalls).map (Option.bind · Except.toOption))) =
        some (true, [some [9], none, none, some [9]]) := by
    decide +kernel
  obtain ⟨conn, opened, run⟩ := Option.map_eq_some_iff.mp run
  obtain ⟨up, answers⟩ := Prod.mk.inj run
  rw [toOption_eq_some] at opened
  obtain ⟨_, exchanges, _, _, _, each, replies, _⟩ := history_exchanged fourCalls opened up
  exact ⟨conn, exchanges, opened, up, each, replies, answers⟩

end Sample

section Answers

variable {τ : Type} [Sha256] [AdnlTl]

-- A server at the other end of a stream that loses nothing: what is sealed where it reads it takes,
-- and a query it answers, with whatever frames it sends before. `ahead` is what it has sent and the
-- client has not read.
class Peer (τ : Type) extends Transport τ where
  ahead   : τ → Bytes
  ciphers : τ → SessionCiphers
  Answers : (query answer : Bytes) → Prop
  answers (t : τ) (nonce queryId : Hash) {query : Bytes}
      (fits : (AdnlTl.message (.query queryId query)).length + minFrame ≤ maxFrame) :
    ∃ t' wire heard answer,
      writeAll ((ciphers t).rx.applied (plain nonce (AdnlTl.message (.query queryId query)))) t =
        (.ready (.ok ()), t') ∧
      (ciphers t').rx =
        (ciphers t).rx.past (4 + ((AdnlTl.message (.query queryId query)).length + minFrame)) ∧
      Framed (ciphers t).tx wire heard (ciphers t').tx ∧ ahead t' = ahead t ++ wire ∧
      Judged queryId maxFramesPerQuery 0 heard (.ok answer) ∧ Answers query answer
  delivers {t : τ} {next rest : Bytes} (h : ahead t = next ++ rest) :
    ∃ t', readExact next.length t = (.ready (.ok next), t') ∧ ahead t' = rest ∧ ciphers t' = ciphers t

variable [Peer τ] {conn : AdnlConnection τ} {t : τ} {rx tx : Cipher}

theorem recv_delivers {nonce : Hash} {payload rest : Bytes} (fits : payload.length + minFrame ≤ maxFrame)
    (arrives : Peer.ahead t = rx.applied (plain nonce payload) ++ rest) :
    ∃ t', recv.Ends ⟨t, ⟨rx, tx⟩, true⟩ payload
        ⟨t', ⟨rx.past (4 + (payload.length + minFrame)), tx⟩, true⟩ ∧
      Peer.ahead t' = rest ∧ Peer.ciphers t' = Peer.ciphers t := by
  rw [plain, Cipher.applied_append, lengthBytes_length, List.append_assoc] at arrives
  obtain ⟨t', front, arrives', same⟩ := Peer.delivers arrives
  obtain ⟨t'', body, last, same'⟩ := Peer.delivers arrives'
  rw [Cipher.applied_length, lengthBytes_length] at front
  rw [Cipher.applied_length, bodyOf_length] at body
  have length : (openLen (rx.applied (lengthBytes (payload.length + minFrame)))).Ends
      ⟨rx, tx⟩ (payload.length + minFrame) ⟨rx.past 4, tx⟩ := by
    refine openLen_ends.mpr ⟨?_, Nat.le_add_left .., fits, ?_⟩
    · rw [Cipher.applied_applied, lengthOf_lengthBytes fits]
    · rw [Cipher.applied_length, lengthBytes_length]
  have opened := openBody_ends ⟨rx.past 4, tx⟩ nonce payload
  refine ⟨t'', ?_, last, same'.trans same⟩
  rw [recv, ends_bind_of_ends (check_passes rfl), ← Cipher.past_past]
  refine inWindow_ends (?_ : Ends _ _ payload ⟨t'', ⟨(rx.past 4).past (payload.length + minFrame), tx⟩, false⟩)
  rw [ends_bind_of_ends (await_of_ready front), ends_bind_of_ends (withCiphers_of_ends length),
    ends_bind_of_ends (await_of_ready body)]
  exact withCiphers_of_ends opened

theorem awaitAnswer_delivers {queryId : Hash} {frames skipped : Nat} {wire : Bytes} {heard : List Bytes}
    {rx' : Cipher} {result : Except Stopped Bytes} (judged : Judged queryId frames skipped heard result)
    (framed : Framed rx wire heard rx') (arrives : Peer.ahead t = wire) :
    ∃ t', (awaitAnswer queryId frames skipped).outcome ⟨t, ⟨rx, tx⟩, true⟩ =
        (result, ⟨t', ⟨rx', tx⟩, true⟩) ∧
      Peer.ahead t' = [] ∧ Peer.ciphers t' = Peer.ciphers t := by
  induction frames generalizing t rx skipped wire heard
  case zero =>
    cases judged
    case answered few _ _ => cases few
    case unanswered all _ =>
      obtain rfl := List.length_eq_zero_iff.mp all
      cases framed
      exact ⟨t, rfl, arrives, rfl⟩
  case succ frames hi =>
    obtain ⟨payload, others, rfl, verdict⟩ := judged.front
    cases framed
    case cons nonce fits framed =>
    obtain ⟨t', ends, arrives', same⟩ := recv_delivers fits arrives
    rw [awaitAnswer_succ, outcome_bind_of_ends ends]
    rcases verdict with ⟨answer, answers, rfl, rfl⟩ | ⟨unrelated, judged⟩
    case inl =>
      cases framed
      rw [answers]
      exact ⟨t', rfl, arrives', same⟩
    case inr =>
      rw [unrelated]
      obtain ⟨t'', outcome, last, same'⟩ := hi judged framed arrives'
      exact ⟨t'', outcome, last, same'.trans same⟩

theorem send_delivers {nonce : Hash} {message : Bytes} (fits : message.length + minFrame ≤ maxFrame)
    {t' : τ} (wrote : Transport.writeAll (tx.applied (plain nonce message)) t = (.ready (.ok ()), t')) :
    (send nonce message).Ends ⟨t, ⟨rx, tx⟩, true⟩ ()
      ⟨t', ⟨rx, tx.past (4 + (message.length + minFrame))⟩, true⟩ := by
  have sealed : (sealFrame nonce message).Ends ⟨rx, tx⟩ _ _ := sealFrame_ends.mpr ⟨fits, rfl, rfl⟩
  rw [send, ends_bind_of_ends (check_passes rfl), ends_bind_of_ends (withCiphers_of_ends sealed)]
  exact inWindow_ends (await_of_ready wrote)

-- Both sides stand at the same places, and nothing is on its way.
inductive InStep : AdnlConnection τ → Prop
  | mk (t : τ) (empty : Peer.ahead t = []) :
      InStep ⟨t, ⟨(Peer.ciphers t).tx, (Peer.ciphers t).rx⟩, true⟩

-- A call whose query goes out.
def Call.Sent : Call → Prop
  | .unpolled                   => True
  | .polled bytes queryId nonce => ∃ id drawn, queryId = some id ∧ nonce = some drawn ∧
      (AdnlTl.message (.query id bytes)).length + minFrame ≤ maxFrame

-- What such a call comes back with from a server that answers.
inductive Answered (Answers : (query answer : Bytes) → Prop) : Call → Option (Except Stopped Bytes) → Prop
  | unpolled : Answered Answers .unpolled none
  | polled {bytes answer : Bytes} {queryId nonce : Option Hash} (answers : Answers bytes answer) :
      Answered Answers (.polled bytes queryId nonce) (some (.ok answer))

theorem step_answered {call : Call} (step : InStep conn) (sent : call.Sent) :
    Answered (Peer.Answers τ) call (conn.reply call) ∧ InStep (conn.step call) := by
  cases call
  case unpolled => exact ⟨.unpolled, step⟩
  case polled bytes queryId nonce =>
    obtain ⟨id, drawn, rfl, rfl, fits⟩ := sent
    obtain ⟨t, empty⟩ := step
    obtain ⟨t', wire, heard, answer, wrote, reads, framed, arrives, judged, answers⟩ :=
      Peer.answers t drawn id fits
    rw [empty, List.nil_append] at arrives
    have sends : (send drawn _).Ends ⟨t, ⟨(Peer.ciphers t).tx, (Peer.ciphers t).rx⟩, true⟩ () _ :=
      send_delivers fits wrote
    obtain ⟨t'', ends, last, same⟩ := awaitAnswer_delivers judged framed arrives
    have whole : (query bytes (some id) (some drawn)).Ends _ answer _ :=
      (outcome_bind_of_ends sends).trans ends
    rw [reply, value_of_ends whole, AdnlConnection.step, whole, ← reads, ← same]
    exact ⟨.polled answers, .mk t'' last⟩

-- Over any history of calls every query comes back with an answer to it, and none is left waiting or
-- out of step.
theorem history_answered (calls : List Call) (step : InStep conn) (sent : ∀ call ∈ calls, call.Sent) :
    List.Forall₂ (Answered (Peer.Answers τ)) calls (conn.replies calls) ∧ InStep (conn.after calls) := by
  induction calls generalizing conn
  case nil => exact ⟨.nil, step⟩
  case cons call calls hi =>
    obtain ⟨first, others⟩ := List.forall_mem_cons.mp sent
    obtain ⟨answered, step'⟩ := step_answered step first
    obtain ⟨each, last⟩ := hi step' others
    exact ⟨.cons answered each, last⟩

end Answers

section Echo

attribute [local instance] Sha256.standard

local instance echoTl : AdnlTl where
  publicKey key := key.bytes
  message
    | .query queryId query   => 0 :: (queryId.bytes ++ query)
    | .answer queryId answer => 1 :: (queryId.bytes ++ answer)
  readMessage
    | 0 :: bytes => (Hash.ofBytes? (bytes.take 32)).map (.query · (bytes.drop 32))
    | 1 :: bytes => (Hash.ofBytes? (bytes.take 32)).map (.answer · (bytes.drop 32))
    | _          => none

theorem echoTl_reads (message : Message) : AdnlTl.readMessage (AdnlTl.message message) = some message := by
  cases message <;> rename_i queryId bytes <;>
    simp [AdnlTl.readMessage, AdnlTl.message, List.take_left' queryId.length_eq,
      List.drop_left' queryId.length_eq]

-- A server that sends every query back as its answer.
structure Echo where
  accepted : Bytes
  taken    : Bytes
  ahead    : Bytes
  ciphers  : SessionCiphers

-- What it sends for the bytes it is given, and where its ciphers are then.
def Echo.respond (s : SessionCiphers) (buf : Bytes) : Option (Bytes × SessionCiphers) := do
  let ((payload, _), s) ← ((openNext buf).call s).toOption
  let .query queryId query ← AdnlTl.readMessage payload | none
  let answer := AdnlTl.message (.answer queryId query)
  return (s.tx.applied (plain .zero answer), { s with tx := s.tx.past (4 + (answer.length + minFrame)) })

theorem Echo.respond_query (s : SessionCiphers) (nonce queryId : Hash) {query : Bytes}
    (fits : (AdnlTl.message (.query queryId query)).length + minFrame ≤ maxFrame) :
    Echo.respond s (s.rx.applied (plain nonce (AdnlTl.message (.query queryId query)))) =
      some (s.tx.applied (plain .zero (AdnlTl.message (.answer queryId query))),
        ⟨s.rx.past (4 + ((AdnlTl.message (.query queryId query)).length + minFrame)),
          s.tx.past (4 + ((AdnlTl.message (.answer queryId query)).length + minFrame))⟩) := by
  have opened := openNext_ends s nonce fits []
  rw [List.append_nil] at opened
  rw [Echo.respond, call_eq_ok.mpr opened]
  simp [Except.toOption, echoTl_reads]

local instance echoPeer : Peer Echo where
  accepted := Echo.accepted
  taken := Echo.taken
  writeAll buf echo :=
    let (sent, ciphers) := (Echo.respond echo.ciphers buf).getD ([], echo.ciphers)
    (.ready (.ok ()), { echo with accepted := echo.accepted ++ buf, ahead := echo.ahead ++ sent, ciphers })
  readExact n echo :=
    if (echo.ahead.take n).length = n then
      (.ready (.ok (echo.ahead.take n)),
        { echo with taken := echo.taken ++ echo.ahead.take n, ahead := echo.ahead.drop n })
    else
      (.ready (.error (.io "closed")), echo)
  writes h := by
    obtain ⟨_, rfl⟩ := Prod.mk.inj h
    exact ⟨rfl, rfl⟩
  reads h := by
    split at h
    case isTrue length =>
      obtain ⟨⟨⟩, rfl⟩ := Prod.mk.inj h
      exact ⟨length, rfl, rfl⟩
    case isFalse => simp at h
  ahead := Echo.ahead
  ciphers := Echo.ciphers
  Answers query answer := answer = query
  answers echo nonce queryId query fits := by
    have same : (AdnlTl.message (.answer queryId query)).length =
        (AdnlTl.message (.query queryId query)).length := rfl
    have answers : answerIn queryId (AdnlTl.message (.answer queryId query)) = some query := by
      have full : AdnlTl.message (.answer queryId query) ≠ [] := List.cons_ne_nil _ _
      simp [answerIn, echoTl_reads, full]
    rw [Echo.respond_query _ _ _ fits]
    exact ⟨_, _, [_], query, rfl, rfl, .one _ .zero (same ▸ fits), rfl, .first answers, rfl⟩
  delivers {echo next rest} arrives := by
    rw [arrives, List.take_left, List.drop_left, if_pos rfl]
    exact ⟨_, rfl, rfl, rfl⟩

-- The server's ciphers, and the client that has them the other way round.
def echoCiphers : SessionCiphers :=
  ⟨⟨fun i => .ofNat i, 0⟩, ⟨fun _ => 7, 0⟩⟩

def echoing : AdnlConnection Echo :=
  ⟨⟨[], [], [], echoCiphers⟩, ⟨echoCiphers.tx, echoCiphers.rx⟩, true⟩

def twoAsks : List Call :=
  [.polled [5] (some .zero) (some .zero), .unpolled, .polled [6] (some (.ofNat 1)) (some .zero)]

theorem history_answered_echoing :
    List.Forall₂ (Answered (Peer.Answers Echo)) twoAsks (echoing.replies twoAsks) ∧
      InStep (echoing.after twoAsks) := by
  have step : InStep echoing := .mk (⟨[], [], [], echoCiphers⟩ : Echo) rfl
  refine history_answered twoAsks step fun call asked => ?_
  simp only [twoAsks, List.mem_cons, List.not_mem_nil, or_false] at asked
  rcases asked with rfl | rfl | rfl
  · exact ⟨_, _, rfl, rfl, by decide⟩
  · trivial
  · exact ⟨_, _, rfl, rfl, by decide⟩

end Echo

end AdnlConnection

end TonNet
