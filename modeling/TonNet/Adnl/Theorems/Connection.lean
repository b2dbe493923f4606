import TonNet.Adnl.Connection
import TonNet.Adnl.Theorems.Frame
import TonNet.Lib.Atomic

-- A connection over any transport and any history of queries: as long as it is intact both
-- keystreams stand where the transport does, and once it is not it never moves again.

namespace TonNet

open Fallible Method SessionCiphers

namespace SessionCiphers

variable [Sha256] {s s' : SessionCiphers} {body payload : Bytes}

-- However a body opens, the keystream has moved over all of it.
theorem openBody_moves (h : (openBody body).Ends s payload s') :
    s' = { s with rx := s.rx.past body.length } := by
  simp only [openBody, ends_bind, ends_failIf, ends_pure] at h
  obtain ⟨_, _, ⟨_, rfl⟩, _, _, applied, _, _, ⟨_, rfl⟩, _, _, ⟨_, rfl⟩, _, rfl⟩ := h
  exact (applied.unique (applyRx_ends s body)).right

end SessionCiphers

theorem Awaited.outcome_eq_ok {α : Type} {awaited : Awaited α} {a : α} :
    awaited.outcome = .ok a ↔ awaited = .ready (.ok a) := by
  rcases awaited with ⟨_ | _⟩ | _ <;> simp [outcome, Except.mapError]

namespace AdnlConnection

section

variable {τ α : Type} {conn conn' : AdnlConnection τ} {a : α}

@[simp]
theorem outcome_setIntact (conn : AdnlConnection τ) (intact : Bool) :
    (setIntact intact).outcome conn = (.ok (), { conn with intact }) :=
  rfl

theorem outcome_await (operation : τ → Awaited α × τ) (conn : AdnlConnection τ) :
    (await operation).outcome conn =
      ((operation conn.transport).1.outcome, { conn with transport := (operation conn.transport).2 }) :=
  rfl

theorem outcome_withCiphers (operation : Session α) (conn : AdnlConnection τ) :
    (withCiphers operation).outcome conn =
      ((operation.value conn.ciphers).mapError (.failed ∘ .frame),
        { conn with ciphers := (operation.outcome conn.ciphers).2 }) :=
  rfl

theorem await_ends {operation : τ → Awaited α × τ} : (await operation).Ends conn a conn' ↔
    ∃ t, operation conn.transport = (.ready (.ok a), t) ∧ conn' = { conn with transport := t } := by
  rw [Ends, outcome_await]
  constructor
  · intro ends
    obtain ⟨value, left⟩ := Prod.mk.inj ends
    exact ⟨_, Prod.ext (Awaited.outcome_eq_ok.mp value) rfl, left.symm⟩
  · rintro ⟨t, ready, rfl⟩
    rw [ready]
    rfl

theorem withCiphers_ends {operation : Session α} : (withCiphers operation).Ends conn a conn' ↔
    ∃ s, operation.Ends conn.ciphers a s ∧ conn' = { conn with ciphers := s } := by
  unfold Ends
  rw [outcome_withCiphers, value]
  rcases operation.outcome conn.ciphers with ⟨_ | _, _⟩ <;> simp [Except.mapError, eq_comm]

-- Only the window touches the flag.
def SameFlag (conn conn' : AdnlConnection τ) : Prop :=
  conn'.intact = conn.intact

theorem await_sameFlag (operation : τ → Awaited α × τ) : Along SameFlag (await operation) :=
  fun _ => rfl

theorem withCiphers_sameFlag (operation : Session α) :
    Along SameFlag (withCiphers operation : Driver τ α) :=
  fun _ => rfl

-- A frame that stops partway leaves the flag down.
theorem inWindow_outcome {moves : Driver τ α} (flag : Along SameFlag moves) (conn : AdnlConnection τ) :
    ((inWindow moves).outcome conn).2.intact = false ∨
      ∃ a conn', moves.Ends { conn with intact := false } a conn' ∧
        (inWindow moves).outcome conn = (.ok a, { conn' with intact := true }) := by
  have low := flag { conn with intact := false }
  have lowered : (setIntact false).Ends conn () { conn with intact := false } := rfl
  rw [inWindow, outcome_bind_of_ends lowered, outcome_bind]
  rcases out : moves.outcome { conn with intact := false } with ⟨_ | a, conn'⟩
  case error =>
    rw [out] at low
    exact .inl low
  case ok => exact .inr ⟨a, conn', out, rfl⟩

theorem check_passes (up : conn.intact = true) : check.Ends conn () conn := by
  obtain ⟨_, _, _⟩ := conn
  obtain rfl := up
  rfl

theorem check_refuses (down : conn.intact = false) :
    check.outcome conn = (.error (.failed .desynchronized), conn) := by
  obtain ⟨_, _, _⟩ := conn
  obtain rfl := down
  rfl

variable [Transport τ]

-- How one connection comes out of another: a broken one stays as it is, and one that is intact in
-- the end was so before, with as much on either keystream as has gone through the transport.
structure Moves (conn conn' : AdnlConnection τ) : Prop where
  broken : conn.intact = false → conn' = conn
  intact : conn'.intact = true → conn.intact = true ∧ ∃ sent got,
    Transport.accepted conn'.transport = Transport.accepted conn.transport ++ sent ∧
    Transport.taken conn'.transport = Transport.taken conn.transport ++ got ∧
    conn'.ciphers = ⟨conn.ciphers.rx.past got.length, conn.ciphers.tx.past sent.length⟩

namespace Moves

theorem refl (conn : AdnlConnection τ) : Moves conn conn where
  broken _ := rfl
  intact h := ⟨h, [], [], by simp, by simp, rfl⟩

theorem trans {a b c : AdnlConnection τ} (h : Moves a b) (h' : Moves b c) : Moves a c where
  broken down := by
    have same := h.broken down
    rw [h'.broken (same ▸ down), same]
  intact up := by
    have ⟨up, sent', got', accepted', taken', ciphers'⟩ := h'.intact up
    have ⟨up, sent, got, accepted, taken, ciphers⟩ := h.intact up
    refine ⟨up, sent ++ sent', got ++ got', ?_, ?_, ?_⟩
    · rw [accepted', accepted, List.append_assoc]
    · rw [taken', taken, List.append_assoc]
    · rw [ciphers', ciphers, Cipher.past_past, Cipher.past_past, List.length_append, List.length_append]

-- Once the flag is down nothing is said about the two ends.
theorem of_broken (up : conn.intact = true) (down : conn'.intact = false) : Moves conn conn' where
  broken h := by simp [up] at h
  intact h := by simp [down] at h

end Moves

variable [Sha256]

theorem send_moves (nonce : Hash) (message : Bytes) : Along Moves (send nonce message : Driver τ Unit) := by
  intro conn
  cases up : conn.intact
  case false =>
    rw [send, outcome_bind, check_refuses up]
    exact .refl conn
  case true =>
    rw [send, outcome_bind_of_ends (check_passes up)]
    by_cases fits : message.length + minFrame ≤ maxFrame
    case neg =>
      -- refused before the keystream has moved
      rw [outcome_bind, outcome_withCiphers, value, sealFrame_refused (not_le.mp fits)]
      exact .refl conn
    case pos =>
      rw [outcome_bind_of_ends (withCiphers_ends.mpr ⟨_, sealFrame_ends.mpr ⟨fits, rfl, rfl⟩, rfl⟩)]
      rcases inWindow_outcome (await_sameFlag _) _ with down | ⟨_, conn', ends, same⟩
      case inl => exact .of_broken up down
      case inr =>
        obtain ⟨t, wrote, rfl⟩ := await_ends.mp ends
        obtain ⟨more, unread⟩ := Transport.writes wrote
        rw [same]
        refine ⟨by simp [up], fun _ => ⟨up, _, [], more, by simp [unread], ?_⟩⟩
        rw [Cipher.applied_length, plain_length]
        rfl

-- How `recv` reads a frame while its flag is down.
theorem frame_sameFlag : Along SameFlag (do
    let front ← await (Transport.readExact 4)
    let len ← withCiphers (openLen front)
    let body ← await (Transport.readExact len)
    withCiphers (openBody body) : Driver τ Bytes) := by
  have trans {a b c : AdnlConnection τ} (h : SameFlag a b) (h' : SameFlag b c) : SameFlag a c :=
    Eq.trans h' h
  exact (await_sameFlag _).bind trans fun _ => (withCiphers_sameFlag _).bind trans fun _ =>
    (await_sameFlag _).bind trans fun _ => withCiphers_sameFlag _

theorem recv_moves : Along Moves (recv : Driver τ Bytes) := by
  intro conn
  cases up : conn.intact
  case false =>
    rw [recv, outcome_bind, check_refuses up]
    exact .refl conn
  case true =>
    rw [recv, outcome_bind_of_ends (check_passes up)]
    rcases inWindow_outcome frame_sameFlag conn with down | ⟨_, conn', ends, same⟩
    case inl => exact .of_broken up down
    case inr =>
      simp only [ends_bind, await_ends, withCiphers_ends] at ends
      obtain ⟨front, _, ⟨t, front_read, rfl⟩, len, _, ⟨s, opened, rfl⟩, body, _, ⟨t', body_read, rfl⟩,
        s', opens, rfl⟩ := ends
      have ⟨_, unsent, got⟩ := Transport.reads front_read
      have ⟨_, unsent', got'⟩ := Transport.reads body_read
      obtain ⟨_, _, _, rfl⟩ := openLen_ends.mp opened
      obtain rfl := openBody_moves opens
      rw [same]
      refine ⟨by simp [up], fun _ => ⟨up, [], front ++ body, ?_, ?_, ?_⟩⟩
      · rw [List.append_nil]
        exact unsent'.trans unsent
      · rw [← List.append_assoc, ← got]
        exact got'
      · rw [List.length_append, ← Cipher.past_past]
        rfl

variable [AdnlTl]

theorem awaitAnswer_moves (queryId : Hash) (frames undecodable : Nat) :
    Along Moves (awaitAnswer queryId frames undecodable : Driver τ Bytes) := by
  induction frames generalizing undecodable
  case zero => exact .throw .refl
  case succ frames hi =>
    refine recv_moves.bind .trans fun payload => ?_
    split
    case isTrue => exact hi _
    case isFalse =>
      split
      case h_1 =>
        split
        case isTrue => exact fun conn => .refl conn
        case isFalse => exact hi _
      case h_2 => exact hi _
      case h_3 => exact hi _

theorem query_moves (bytes : Bytes) (queryId nonce : Option Hash) :
    Along Moves (query bytes queryId nonce : Driver τ Bytes) :=
  (Along.okOr .refl).bind .trans fun _ => (Along.okOr .refl).bind .trans fun _ =>
    (send_moves _ _).bind .trans fun _ => awaitAnswer_moves _ _ _

-- A connection that has lost its place refuses a query before it looks at the transport.
theorem query_refused (down : conn.intact = false) (bytes : Bytes) (queryId nonce : Option Hash) :
    ∃ error, (query bytes queryId nonce).outcome conn = (.error (.failed error), conn) := by
  cases queryId
  case none => exact ⟨.noRandomness, rfl⟩
  case some =>
    cases nonce
    case none => exact ⟨.noRandomness, rfl⟩
    case some nonce =>
      refine ⟨.desynchronized, ?_⟩
      show (send nonce _ >>= _).outcome conn = _
      rw [outcome_bind, send, outcome_bind, check_refuses down]

-- A call of `query`. Its body does not run before it is polled.
inductive Call
  | unpolled
  | polled (query : Bytes) (queryId nonce : Option Hash)

def step (conn : AdnlConnection τ) : Call → AdnlConnection τ
  | .unpolled                     => conn
  | .polled bytes queryId nonce => ((query bytes queryId nonce).outcome conn).2

def after (conn : AdnlConnection τ) (calls : List Call) : AdnlConnection τ :=
  calls.foldl step conn

theorem step_moves (conn : AdnlConnection τ) (call : Call) : Moves conn (conn.step call) := by
  cases call
  case unpolled => exact .refl conn
  case polled => exact query_moves _ _ _ conn

theorem after_moves (conn : AdnlConnection τ) (calls : List Call) : Moves conn (conn.after calls) := by
  induction calls generalizing conn
  case nil => exact .refl conn
  case cons call calls hi => exact (step_moves conn call).trans (hi _)

theorem after_append (conn : AdnlConnection τ) (calls later : List Call) :
    conn.after (calls ++ later) = (conn.after calls).after later :=
  List.foldl_append

variable [Aes256Ctr] [Curve25519]

theorem connect_eq_ok {t : τ} {serverKey : Hash} {keySeed : Option Hash} {params : Option Params} :
    connect t serverKey keySeed params = .ok conn ↔
      ∃ seed drawn handshake t', keySeed = some seed ∧ params = some drawn ∧
        clientHandshake serverKey ⟨seed, drawn⟩ = .ok handshake ∧
        Transport.writeAll handshake.packet t = (.ready (.ok ()), t') ∧
        conn = ⟨t', handshake.ciphers, true⟩ := by
  simp only [connect, random, bind_eq_ok, okOr_eq_ok, mapError_eq_ok, pure_eq_ok, Awaited.outcome_eq_ok]
  constructor
  · rintro ⟨seed, hs, drawn, hp, handshake, built, _, sent, rfl⟩
    exact ⟨seed, drawn, handshake, _, hs, hp, built, Prod.ext sent rfl, rfl⟩
  · rintro ⟨seed, drawn, handshake, t', hs, hp, built, sent, rfl⟩
    refine ⟨seed, hs, drawn, hp, handshake, built, (), ?_, ?_⟩ <;> rw [sent]

-- The keystreams and the transport over any history of queries.
theorem query_history_in_step {t : τ} {serverKey keySeed : Hash} {params : Params} (calls : List Call)
    (opened : connect t serverKey (some keySeed) (some params) = .ok conn) :
    (isIntact (conn.after calls) = true → ∃ handshake sent got,
      clientHandshake serverKey ⟨keySeed, params⟩ = .ok handshake ∧
      Transport.accepted (conn.after calls).transport =
        Transport.accepted t ++ handshake.packet ++ sent ∧
      Transport.taken (conn.after calls).transport = Transport.taken t ++ got ∧
      (conn.after calls).ciphers.tx = handshake.ciphers.tx.past sent.length ∧
      (conn.after calls).ciphers.rx = handshake.ciphers.rx.past got.length) ∧
    (isIntact (conn.after calls) = false → ∀ later,
      conn.after (calls ++ later) = conn.after calls ∧
      ∀ bytes queryId nonce, ∃ error,
        (query bytes queryId nonce).outcome (conn.after (calls ++ later)) =
          (.error (.failed error), conn.after calls)) := by
  obtain ⟨_, _, handshake, t', ⟨⟩, ⟨⟩, built, sent, rfl⟩ := connect_eq_ok.mp opened
  have ⟨packet, unread⟩ := Transport.writes sent
  have moves := after_moves ⟨t', handshake.ciphers, true⟩ calls
  constructor
  · intro up
    have ⟨_, sent, got, accepted, taken, ciphers⟩ := moves.intact up
    refine ⟨handshake, sent, got, built, ?_, ?_, ?_, ?_⟩
    · rw [accepted, packet]
    · rw [taken, unread]
    · rw [ciphers]
    · rw [ciphers]
  · intro down later
    have same := (after_moves _ later).broken down
    rw [after_append, same]
    exact ⟨rfl, query_refused down⟩

end

section Sample

attribute [local instance] Sha256.standard

local instance sampleAes : Aes256Ctr := ⟨fun _ _ n => .ofNat n⟩

local instance sampleCurve : Curve25519 where
  sha512 bytes := bytes
  mulBaseClamped _ := .zero
  Point := Unit
  decompress _ := some ()
  mulClamped _ _ := .ofNat 1

-- One message is the answer to the query whose id is zero.
local instance sampleTl : AdnlTl where
  publicKey key := key.bytes
  message _ := [1]
  readMessage bytes := if bytes = [7] then some (.answer .zero [9]) else none

-- A stream that is dropped once it has been awaited often enough.
structure Pipe where
  accepted : Bytes
  taken    : Bytes
  incoming : Bytes
  patience : Nat

local instance samplePipe : Transport Pipe where
  accepted := Pipe.accepted
  taken := Pipe.taken
  writeAll buf pipe :=
    match pipe.patience with
    | 0            => (.dropped, { pipe with accepted := pipe.accepted ++ buf.take 1 })
    | patience + 1 => (.ready (.ok ()), { pipe with accepted := pipe.accepted ++ buf, patience })
  readExact n pipe :=
    match pipe.patience with
    | 0            => (.dropped, pipe)
    | patience + 1 =>
      if (pipe.incoming.take n).length = n then
        (.ready (.ok (pipe.incoming.take n)),
          { pipe with taken := pipe.taken ++ pipe.incoming.take n, incoming := pipe.incoming.drop n, patience })
      else
        (.ready (.error (.io "closed")), { pipe with patience })
  writes {buf t t'} h := by
    rcases t with ⟨_, _, _, _ | _⟩ <;> simp at h
    simp [← h]
  reads {n bytes t t'} h := by
    rcases t with ⟨_, _, _, _ | _⟩ <;> simp only [Prod.mk.injEq, reduceCtorEq, false_and] at h
    split at h
    case isTrue length =>
      obtain ⟨⟨⟩, rfl⟩ := Prod.mk.inj h
      exact ⟨length, rfl, rfl⟩
    case isFalse => simp at h

-- A connection with an answer on its way, whose caller waits three times more than the handshake.
def awaiting : Pipe where
  accepted := []
  taken    := []
  incoming := (fromParams (List.replicate 160 0)).rx.applied (plain .zero [7])
  patience := 4

def ask : Call :=
  .polled [5] (some .zero) (some .zero)

def zeros : Params :=
  ⟨List.replicate 160 0, List.length_replicate⟩

-- The first query is answered, the second is dropped while it writes.
theorem query_history_in_step_dropped :
    ∃ conn, connect awaiting .zero (some .zero) (some zeros) = .ok conn ∧
      (∃ handshake got, (conn.after [ask]).transport.taken = got ∧ got ≠ [] ∧
        (conn.after [ask]).ciphers.rx = (Handshake.ciphers handshake).rx.past got.length) ∧
      ∀ later, conn.after ([ask, ask] ++ later) = conn.after [ask, ask] := by
  have run : (connect awaiting .zero (some .zero) (some zeros)).toOption.map
      (fun conn => (isIntact (conn.after [ask]), decide ((conn.after [ask]).transport.taken = []),
        isIntact (conn.after [ask, ask]))) = some (true, false, false) := by
    decide +kernel
  obtain ⟨conn, opened, flags⟩ := Option.map_eq_some_iff.mp run
  rw [toOption_eq_some] at opened
  simp only [Prod.mk.injEq, decide_eq_false_iff_not] at flags
  have ⟨up, moved, down⟩ := flags
  have ⟨handshake, _, got, _, _, taken, _, rx⟩ := (query_history_in_step [ask] opened).left up
  have taken : (conn.after [ask]).transport.taken = got := taken
  exact ⟨conn, opened, ⟨handshake, got, taken, taken ▸ moved, rx⟩,
    fun later => ((query_history_in_step [ask, ask] opened).right down later).left⟩

end Sample

end AdnlConnection

end TonNet
