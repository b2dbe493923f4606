import TonNet.Adnl.Frame
import Mathlib.Logic.Function.Basic

-- Two sessions whose keystreams mirror each other: what the one side seals the other opens, in the
-- order in which it was sealed and whatever the other direction does meanwhile.

namespace TonNet

open Fallible Method SessionCiphers

namespace SessionCiphers

variable {s s' : SessionCiphers} {data : Bytes}

theorem applyTx_ends (s : SessionCiphers) (data : Bytes) :
    (applyTx data).Ends s (s.tx.applied data) { s with tx := s.tx.past data.length } :=
  rfl

theorem applyRx_ends (s : SessionCiphers) (data : Bytes) :
    (applyRx data).Ends s (s.rx.applied data) { s with rx := s.rx.past data.length } :=
  rfl

theorem lengthOf_lengthBytes {n : Nat} (h : n ≤ maxFrame) : lengthOf (lengthBytes n) = n := by
  rw [lengthOf, lengthBytes, List.reverse_reverse, Bytes.ofBe_be]
  exact Nat.mod_eq_of_lt (lt_of_le_of_lt h (by decide))

@[simp]
theorem lengthBytes_length (n : Nat) : (lengthBytes n).length = 4 := by
  simp [lengthBytes]

theorem openLen_ends {bytes : Bytes} {n : Nat} : (openLen bytes).Ends s n s' ↔
    lengthOf (s.rx.applied bytes) = n ∧ minFrame ≤ n ∧ n ≤ maxFrame ∧
      s' = { s with rx := s.rx.past bytes.length } := by
  rw [openLen, ends_bind_of_ends (applyRx_ends s bytes)]
  simp only [ends_bind, ends_failIf, ends_pure, not_not]
  constructor
  · rintro ⟨_, _, ⟨⟨least, most⟩, rfl⟩, rfl, rfl⟩
    exact ⟨rfl, least, most, rfl⟩
  · rintro ⟨rfl, least, most, rfl⟩
    exact ⟨(), _, ⟨⟨least, most⟩, rfl⟩, rfl, rfl⟩

-- The lengths that a frame is opened with.
theorem openLen_accepts {n : Nat} : (∃ s bytes s', bytes.length = 4 ∧ (openLen bytes).Ends s n s') ↔
    minFrame ≤ n ∧ n ≤ maxFrame := by
  constructor
  · rintro ⟨s, bytes, s', _, opens⟩
    have ⟨_, least, most, _⟩ := openLen_ends.mp opens
    exact ⟨least, most⟩
  · rintro ⟨least, most⟩
    let s : SessionCiphers := ⟨⟨fun _ => 0, 0⟩, ⟨fun _ => 0, 0⟩⟩
    refine ⟨s, s.rx.applied (lengthBytes n), _, by simp, openLen_ends.mpr ⟨?_, least, most, rfl⟩⟩
    rw [Cipher.applied_applied, lengthOf_lengthBytes most]

variable [Sha256]

theorem bodyOf_length (nonce : Hash) (payload : Bytes) :
    (bodyOf nonce payload).length = payload.length + minFrame := by
  simp [bodyOf, Hash.length_eq, minFrame]
  omega

theorem plain_length (nonce : Hash) (payload : Bytes) :
    (plain nonce payload).length = 4 + (payload.length + minFrame) := by
  rw [plain, List.length_append, lengthBytes_length, bodyOf_length]

theorem sealFrame_ends {nonce : Hash} {payload frame : Bytes} : (sealFrame nonce payload).Ends s frame s' ↔
    payload.length + minFrame ≤ maxFrame ∧ frame = s.tx.applied (plain nonce payload) ∧
      s' = { s with tx := s.tx.past (4 + (payload.length + minFrame)) } := by
  have sealed := applyTx_ends s (plain nonce payload)
  rw [plain_length] at sealed
  simp only [sealFrame, ends_bind, ends_failIf, not_lt]
  constructor
  · rintro ⟨_, _, ⟨fits, rfl⟩, ends⟩
    obtain ⟨same, left⟩ := ends.unique sealed
    exact ⟨fits, same, left⟩
  · rintro ⟨fits, rfl, rfl⟩
    exact ⟨(), s, ⟨fits, rfl⟩, sealed⟩

-- A frame is refused before the keystream moves.
theorem sealFrame_refused {nonce : Hash} {payload : Bytes} (large : maxFrame < payload.length + minFrame) :
    (sealFrame nonce payload).outcome s = (.error (.payloadTooLarge payload.length), s) := by
  rw [sealFrame, failIf, if_pos large]
  rfl

theorem sealFrame_refused_iff {nonce : Hash} {payload : Bytes} :
    (sealFrame nonce payload).value s = .error (.payloadTooLarge payload.length) ↔
      maxFrame < payload.length + minFrame := by
  constructor
  · intro refused
    by_contra fits
    rw [value_of_ends (sealFrame_ends.mpr ⟨not_lt.mp fits, rfl, rfl⟩)] at refused
    nomatch refused
  · intro large
    rw [value, sealFrame_refused large]

-- How a frame is taken off a stream of bytes.
def openNext (wire : Bytes) : Session (Bytes × Bytes) := do
  let length ← openLen (wire.take 4)
  let payload ← openBody ((wire.drop 4).take length)
  return (payload, wire.drop (4 + length))

theorem openBody_ends (s : SessionCiphers) (nonce : Hash) (payload : Bytes) :
    (openBody (s.rx.applied (bodyOf nonce payload))).Ends s payload
      { s with rx := s.rx.past (payload.length + minFrame) } := by
  have total := bodyOf_length nonce payload
  have applied := applyRx_ends s (s.rx.applied (bodyOf nonce payload))
  rw [Cipher.applied_applied, Cipher.applied_length, total] at applied
  have first : (bodyOf nonce payload).take 32 = nonce.bytes := List.take_left' nonce.length_eq
  have rest : (bodyOf nonce payload).drop 32 =
      payload ++ (Sha256.digest (nonce.bytes ++ payload)).bytes :=
    List.drop_left' nonce.length_eq
  have last : (payload ++ (Sha256.digest (nonce.bytes ++ payload)).bytes).length - 32 = payload.length := by
    rw [List.length_append, Hash.length_eq, Nat.add_sub_cancel]
  simp only [openBody, ends_bind, ends_failIf, ends_pure]
  refine ⟨(), s, ⟨?_, rfl⟩, _, _, applied, (), _, ⟨?_, rfl⟩, (), _, ⟨?_, rfl⟩, ?_, rfl⟩
  · rw [Cipher.applied_length, total]
    omega
  · rw [total, minFrame]
    omega
  · rw [first, rest, last, List.take_left, List.drop_left]
    exact not_not.mpr rfl
  · rw [rest, last, List.take_left]

-- A sealed frame is opened at the place of the keystream where it was sealed.
theorem openNext_ends (s : SessionCiphers) (nonce : Hash) {payload : Bytes}
    (fits : payload.length + minFrame ≤ maxFrame) (rest : Bytes) :
    (openNext (s.rx.applied (plain nonce payload) ++ rest)).Ends s (payload, rest)
      { s with rx := s.rx.past (4 + (payload.length + minFrame)) } := by
  have front_length : (s.rx.applied (lengthBytes (payload.length + minFrame))).length = 4 := by simp
  have length : (openLen (s.rx.applied (lengthBytes (payload.length + minFrame)))).Ends s
      (payload.length + minFrame) { s with rx := s.rx.past 4 } := by
    refine openLen_ends.mpr ⟨?_, Nat.le_add_left .., fits, by rw [front_length]⟩
    rw [Cipher.applied_applied, lengthOf_lengthBytes fits]
  have opened := openBody_ends { s with rx := s.rx.past 4 } nonce payload
  have body_length : ((s.rx.past 4).applied (bodyOf nonce payload)).length = payload.length + minFrame := by
    rw [Cipher.applied_length, bodyOf_length]
  rw [plain, Cipher.applied_append, lengthBytes_length, List.append_assoc, openNext,
    List.take_left' front_length, ends_bind_of_ends length, List.drop_left' front_length,
    List.take_left' body_length, ends_bind_of_ends opened, ends_pure, ← List.append_assoc,
    List.drop_left' (by rw [List.length_append, front_length, body_length])]
  exact ⟨rfl, by rw [Cipher.past_past]⟩

end SessionCiphers

inductive Side
  | client
  | server
deriving DecidableEq

def Side.peer : Side → Side
  | client => server
  | server => client

-- Two sessions and the bytes between them. `wire` is what a side has sealed and its peer has not
-- opened, `sent` the payloads that a side could seal, `opened` what its peer got of them.
structure Link where
  session : Side → SessionCiphers
  wire    : Side → Bytes
  sent    : Side → List Bytes
  opened  : Side → List (Except FrameError Bytes)

inductive LinkEvent
  | seals (side : Side) (nonce : Hash) (payload : Bytes)
  -- The peer of the side opens the next frame, if there is one.
  | opens (side : Side)

namespace Link

open Function

def start (session : Side → SessionCiphers) : Link where
  session := session
  wire _  := []
  sent _  := []
  opened _ := []

variable [Sha256]

def step (link : Link) : LinkEvent → Link
  | .seals side nonce payload =>
    match (sealFrame nonce payload).outcome (link.session side) with
    | (.ok frame, s) =>
      { link with
        session := update link.session side s
        wire    := update link.wire side (link.wire side ++ frame)
        sent    := update link.sent side (link.sent side ++ [payload]) }
    | (.error _, s)  => { link with session := update link.session side s }
  | .opens side =>
    if link.wire side = [] then link
    else
      match (openNext (link.wire side)).outcome (link.session side.peer) with
      | (.ok (payload, rest), s) =>
        { link with
          session := update link.session side.peer s
          wire    := update link.wire side rest
          opened  := update link.opened side (link.opened side ++ [.ok payload]) }
      | (.error e, s)            =>
        { link with
          session := update link.session side.peer s
          opened  := update link.opened side (link.opened side ++ [.error e]) }

def run (link : Link) (events : List LinkEvent) : Link :=
  events.foldl step link

end Link

-- The payloads that a side was given and that fit a frame.
def accepted (side : Side) (events : List LinkEvent) : List Bytes :=
  events.filterMap fun
    | .seals s _ payload => if s = side ∧ payload.length + minFrame ≤ maxFrame then some payload else none
    | .opens _           => none

theorem accepted_opens (side k : Side) (n : Nat) : accepted side (List.replicate n (.opens k)) = [] := by
  simp [accepted]

-- Frames one behind the other, sealed from one place of a keystream on to another.
inductive Framed [Sha256] : Cipher → Bytes → List Bytes → Cipher → Prop
  | nil (c : Cipher) : Framed c [] [] c
  | cons {c c' : Cipher} {wire : Bytes} {payloads : List Bytes} (nonce : Hash) {payload : Bytes}
      (fits : payload.length + minFrame ≤ maxFrame)
      (rest : Framed (c.past (4 + (payload.length + minFrame))) wire payloads c') :
      Framed c (c.applied (plain nonce payload) ++ wire) (payload :: payloads) c'

theorem Framed.snoc [Sha256] {c c' : Cipher} {wire payload : Bytes} {payloads : List Bytes}
    (h : Framed c wire payloads c') (nonce : Hash) (fits : payload.length + minFrame ≤ maxFrame) :
    Framed c (wire ++ c'.applied (plain nonce payload)) (payloads ++ [payload])
      (c'.past (4 + (payload.length + minFrame))) := by
  induction h
  case nil c =>
    have one := Framed.cons nonce fits (.nil (c.past (4 + (payload.length + minFrame))))
    rw [List.append_nil] at one
    exact one
  case cons nonce' _ fits' _ hi =>
    rw [List.append_assoc, List.cons_append]
    exact .cons nonce' fits' hi

theorem Framed.front [Sha256] {c c' : Cipher} {wire : Bytes} {payloads : List Bytes}
    (h : Framed c wire payloads c') : wire = [] ∧ payloads = [] ∨
      ∃ nonce payload rest others, payload.length + minFrame ≤ maxFrame ∧
        wire = c.applied (plain nonce payload) ++ rest ∧ payloads = payload :: others ∧
        Framed (c.past (4 + (payload.length + minFrame))) rest others c' := by
  cases h
  case nil => exact .inl ⟨rfl, rfl⟩
  case cons rest others nonce payload fits framed =>
    exact .inr ⟨nonce, payload, rest, others, fits, rfl, rfl, framed⟩

namespace Link

open Function

variable [Sha256] {link : Link}

-- What is on the wire of a side is sealed from where its peer reads on to where the side writes.
def Lane (link : Link) (side : Side) (pending : List Bytes) : Prop :=
  Framed (link.session side.peer).rx (link.wire side) pending (link.session side).tx ∧
    link.opened side ++ pending.map .ok = (link.sent side).map .ok

def Synced (link : Link) : Prop :=
  ∀ side, ∃ pending, link.Lane side pending

omit [Sha256] in
theorem rx_update (side : Side) (tx : Cipher) (k : Side) :
    (update link.session side { link.session side with tx := tx } k).rx = (link.session k).rx := by
  by_cases same : k = side
  case pos => rw [same, update_self]
  case neg => rw [update_of_ne same]

omit [Sha256] in
theorem tx_update (side : Side) (rx : Cipher) (k : Side) :
    (update link.session side { link.session side with rx := rx } k).tx = (link.session k).tx := by
  by_cases same : k = side
  case pos => rw [same, update_self]
  case neg => rw [update_of_ne same]

theorem step_refused (side : Side) (nonce : Hash) {payload : Bytes}
    (large : maxFrame < payload.length + minFrame) : link.step (.seals side nonce payload) = link := by
  rw [step, sealFrame_refused large]
  simp only [update_eq_self]

theorem step_seals (side : Side) (nonce : Hash) {payload : Bytes}
    (fits : payload.length + minFrame ≤ maxFrame) : link.step (.seals side nonce payload) =
      { link with
        session := update link.session side { link.session side with
          tx := (link.session side).tx.past (4 + (payload.length + minFrame)) }
        wire    := update link.wire side (link.wire side ++
          (link.session side).tx.applied (plain nonce payload))
        sent    := update link.sent side (link.sent side ++ [payload]) } := by
  rw [step, show (sealFrame nonce payload).outcome (link.session side) = _ from
    sealFrame_ends.mpr ⟨fits, rfl, rfl⟩]

theorem Synced.seals (h : link.Synced) (side : Side) (nonce : Hash) (payload : Bytes) :
    (link.step (.seals side nonce payload)).Synced := by
  by_cases fits : payload.length + minFrame ≤ maxFrame
  case neg => exact (step_refused side nonce (not_le.mp fits)).symm ▸ h
  case pos =>
    intro k
    have ⟨pending, framed, got⟩ := h k
    rw [step_seals side nonce fits]
    by_cases same : k = side
    case pos =>
      subst same
      refine ⟨pending ++ [payload], ?_, ?_⟩
      · simp only [rx_update, update_self]
        exact framed.snoc nonce fits
      · simp only [update_self, List.map_append, ← got, List.append_assoc]
    case neg =>
      refine ⟨pending, ?_, ?_⟩
      · simp only [rx_update, update_of_ne same]
        exact framed
      · simp only [update_of_ne same]
        exact got

theorem step_idle {side : Side} (none : link.wire side = []) : link.step (.opens side) = link := by
  rw [step, if_pos none]

theorem step_opens {side : Side} {nonce : Hash} {payload rest : Bytes}
    (fits : payload.length + minFrame ≤ maxFrame)
    (wire : link.wire side = (link.session side.peer).rx.applied (plain nonce payload) ++ rest) :
    link.step (.opens side) =
      { link with
        session := update link.session side.peer { link.session side.peer with
          rx := (link.session side.peer).rx.past (4 + (payload.length + minFrame)) }
        wire    := update link.wire side rest
        opened  := update link.opened side (link.opened side ++ [.ok payload]) } := by
  have some : link.wire side ≠ [] := by
    intro none
    have length := congrArg List.length (wire.symm.trans none)
    rw [List.length_append, Cipher.applied_length, plain_length, List.length_nil] at length
    omega
  have opens := openNext_ends (link.session side.peer) nonce fits rest
  rw [← wire] at opens
  rw [step, if_neg some, show (openNext (link.wire side)).outcome (link.session side.peer) = _ from opens]

-- The peer is where the first frame on the wire was sealed.
theorem Lane.opens {side : Side} {payload : Bytes} {pending : List Bytes}
    (lane : link.Lane side (payload :: pending)) : (link.step (.opens side)).Lane side pending := by
  obtain ⟨framed, got⟩ := lane
  rcases framed.front with ⟨_, none⟩ | ⟨nonce, _, rest, _, fits, wire, same, framed⟩
  · nomatch none
  · obtain ⟨rfl, rfl⟩ := List.cons.inj same
    rw [step_opens fits wire]
    refine ⟨?_, ?_⟩
    · simp only [update_self, tx_update]
      exact framed
    · simp only [update_self, List.append_assoc]
      exact got

theorem Lane.idle {side : Side} (lane : link.Lane side []) : link.step (.opens side) = link := by
  rcases lane.left.front with ⟨none, _⟩ | ⟨_, _, _, _, _, _, wrong, _⟩
  · exact step_idle none
  · nomatch wrong

theorem Lane.opens_other {side k : Side} {pending others : List Bytes} (lane : link.Lane side pending)
    (ne : k ≠ side) (other : link.Lane k others) : (link.step (.opens side)).Lane k others := by
  rcases lane.left.front with ⟨none, _⟩ | ⟨nonce, payload, rest, _, fits, wire, _⟩
  · exact (step_idle none).symm ▸ other
  · have apart : k.peer ≠ side.peer := by
      cases k <;> cases side <;> simp_all [Side.peer]
    rw [step_opens fits wire]
    refine ⟨?_, ?_⟩
    · simp only [update_of_ne ne, update_of_ne apart, tx_update]
      exact other.left
    · simp only [update_of_ne ne]
      exact other.right

theorem Synced.opens (h : link.Synced) (side : Side) : (link.step (.opens side)).Synced := by
  have ⟨pending, lane⟩ := h side
  intro k
  by_cases same : k = side
  case neg =>
    have ⟨others, other⟩ := h k
    exact ⟨others, lane.opens_other same other⟩
  case pos =>
    subst same
    cases pending
    case nil => exact ⟨[], lane.idle.symm ▸ lane⟩
    case cons payload pending => exact ⟨pending, lane.opens⟩

theorem Synced.run (h : link.Synced) (events : List LinkEvent) : (link.run events).Synced := by
  induction events generalizing link
  case nil => exact h
  case cons event events hi =>
    cases event
    case seals side nonce payload => exact hi (h.seals side nonce payload)
    case opens side => exact hi (h.opens side)

theorem sent_step (link : Link) (event : LinkEvent) (side : Side) :
    (link.step event).sent side = link.sent side ++ accepted side [event] := by
  cases event
  case opens k =>
    have none : accepted side [.opens k] = [] := rfl
    rw [none, List.append_nil, step]
    split
    case isTrue => rfl
    case isFalse => split <;> rfl
  case seals k nonce payload =>
    by_cases fits : payload.length + minFrame ≤ maxFrame
    case neg => simp [step_refused k nonce (not_le.mp fits), accepted, fits]
    case pos =>
      rw [step_seals k nonce fits]
      by_cases same : k = side
      case pos => simp [same, accepted, fits]
      case neg => simp [accepted, same, update_of_ne (Ne.symm same)]

theorem sent_run (link : Link) (events : List LinkEvent) (side : Side) :
    (link.run events).sent side = link.sent side ++ accepted side events := by
  induction events generalizing link
  case nil => exact (List.append_nil _).symm
  case cons event events hi =>
    have split : accepted side (event :: events) = accepted side [event] ++ accepted side events :=
      List.filterMap_append (l := [event])
    rw [split, ← List.append_assoc, ← sent_step]
    exact hi (link.step event)

-- Whoever opens often enough has it all.
theorem Lane.drain {side : Side} {pending : List Bytes} {n : Nat} (lane : link.Lane side pending)
    (enough : pending.length ≤ n) : (link.run (List.replicate n (.opens side))).Lane side [] := by
  induction n generalizing link pending
  case zero => exact List.length_eq_zero_iff.mp (Nat.le_zero.mp enough) ▸ lane
  case succ n hi =>
    cases pending
    case nil =>
      have next : (link.step (.opens side)).Lane side [] := lane.idle.symm ▸ lane
      exact hi next (Nat.zero_le n)
    case cons payload pending => exact hi lane.opens (Nat.le_of_succ_le_succ enough)

end Link

open Link

-- The two sides share the keystreams, each in the other's direction.
def Mirrored (session : Side → SessionCiphers) : Prop :=
  ∀ side, (session side).tx = (session side.peer).rx

-- What the two sides make of one set of parameters.
def sessionsOf [Aes256Ctr] (params : Bytes) : Side → SessionCiphers
  | .client => fromParams params
  | .server => ⟨(fromParams params).tx, (fromParams params).rx⟩

theorem mirrored_sessionsOf [Aes256Ctr] (params : Bytes) : Mirrored (sessionsOf params) := by
  intro side
  cases side <;> rfl

section

variable [Sha256]

-- Whatever the two sides seal and open in turns, the peer of a side gets the payloads that the side
-- could seal, in their order and nothing else. What it could not seal are the payloads of a length
-- that no frame is opened with.
theorem sealed_frames_open {session : Side → SessionCiphers} (mirrored : Mirrored session)
    (events : List LinkEvent) (side : Side) :
    ((start session).run events).sent side = accepted side events ∧
    ((start session).run events).opened side <+: (accepted side events).map .ok ∧
    (((start session).run events).run (List.replicate (accepted side events).length (.opens side))).opened side =
      (accepted side events).map .ok ∧
    ∀ (s : SessionCiphers) (nonce : Hash) (payload : Bytes),
      (sealFrame nonce payload).value s = .error (.payloadTooLarge payload.length) ↔
        ¬∃ s bytes s', bytes.length = 4 ∧ (openLen bytes).Ends s (payload.length + minFrame) s' := by
  have synced : (start session).Synced := fun side => ⟨[], by
    refine ⟨?_, rfl⟩
    rw [start, mirrored side]
    exact .nil _⟩
  have ⟨pending, lane⟩ := synced.run events side
  have sent : ((start session).run events).sent side = accepted side events := sent_run (start session) events side
  have got := lane.right
  rw [sent] at got
  refine ⟨sent, ⟨pending.map .ok, got⟩, ?_, fun s nonce payload => ?_⟩
  · have few : pending.length ≤ (accepted side events).length := by
      have := congrArg List.length got
      rw [List.length_append, List.length_map, List.length_map] at this
      omega
    have all := (lane.drain few).right
    rw [sent_run, sent, accepted_opens, List.append_nil, List.map_nil, List.append_nil] at all
    exact all
  · rw [sealFrame_refused_iff, openLen_accepts]
    omega

end

section Dialogue

attribute [local instance] Sha256.standard

local instance dialogueAes : Aes256Ctr := ⟨fun key iv n => .ofNat (key.length + iv.length + n)⟩

-- Each side seals a payload, and the client one that is too large between its two.
def dialogue (large : Bytes) : List LinkEvent :=
  [.seals .client .zero [1, 2], .seals .client .zero large, .seals .server .zero [3], .opens .server,
    .seals .client .zero [4]]

theorem accepted_dialogue {large : Bytes} (h : maxFrame ≤ large.length) :
    accepted .client (dialogue large) = [[1, 2], [4]] := by
  have refused : ¬large.length + minFrame ≤ maxFrame := by
    rw [minFrame]
    omega
  simp only [accepted, dialogue, List.filterMap_cons, List.filterMap_nil, refused, and_false, if_false]
  decide

theorem sealed_frames_open_dialogue :
    ∃ large : Bytes, large.length = maxFrame ∧
      (((start (sessionsOf (List.replicate 160 7))).run (dialogue large)).run
        (List.replicate 2 (.opens .client))).opened .client = [.ok [1, 2], .ok [4]] := by
  have ⟨large, length⟩ : ∃ large : Bytes, large.length = maxFrame := ⟨_, List.length_replicate (a := 0)⟩
  have ⟨_, _, all, _⟩ := sealed_frames_open (mirrored_sessionsOf (List.replicate 160 7)) (dialogue large) .client
  rw [accepted_dialogue length.ge] at all
  exact ⟨large, length, all⟩

end Dialogue

end TonNet
