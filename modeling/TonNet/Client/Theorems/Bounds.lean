import TonNet.Client.Theorems.Sync
import TonNet.Client.Work
import TonNet.Lib.Logged

-- What a server can make a sync do.

namespace TonNet

open Fallible Wire

-- A call of the signature check that a server may ask for.
structure Tally.Bounded (tally : Tally) : Prop where
  signatures    : tally.signatures.length ≤ maxSignatures
  verifications : tally.verifications ≤ tally.set.len * 2

namespace Work

-- What checking at most `links` links of a reply within bounds adds.
structure Adds (links : Nat) (before after : Work) : Prop where
  asked   : after.asked = before.asked
  chains  : after.chains = before.chains
  links   : after.links.length ≤ before.links.length + links
  parsed  : ∀ proof ∈ after.parsed, proof ∈ before.parsed ∨ proof.length ≤ maxProofBytes
  tallied : ∀ tally ∈ after.tallied, tally ∈ before.tallied ∨ tally.Bounded

variable {w w' w'' : Work} {m n : Nat}

theorem Adds.refl (w : Work) : Adds n w w where
  asked         := rfl
  chains        := rfl
  links         := Nat.le_add_right ..
  parsed _ h    := .inl h
  tallied _ h   := .inl h

theorem Adds.trans (h : Adds m w w') (h' : Adds n w' w'') : Adds (m + n) w w'' where
  asked         := h'.asked.trans h.asked
  chains        := h'.chains.trans h.chains
  links         := by
    have := h.links
    have := h'.links
    omega
  parsed _ mem  := (h'.parsed _ mem).elim (h.parsed _) .inr
  tallied _ mem := (h'.tallied _ mem).elim (h.tallied _) .inr

theorem Adds.mono (h : Adds m w w') (le : m ≤ n) : Adds n w w' where
  asked   := h.asked
  chains  := h.chains
  links   := by
    have := h.links
    omega
  parsed  := h.parsed
  tallied := h.tallied

variable {link : Wire.Forward} {step : BlockLink} {source anchor : BlockIdExt}

theorem stepWithin_forward (h : stepWithin (.forward link) = .ok ()) :
    link.destProof.length ≤ maxProofBytes ∧ link.configProof.length ≤ maxProofBytes ∧
      link.signatures.signatures.length ≤ maxSignatures := by
  rw [stepWithin, bind_eq_ok] at h
  have ⟨_, proofs, few⟩ := h
  rw [forM_eq_ok] at proofs
  have dest := proofs link.destProof (by simp)
  have config := proofs link.configProof (by simp)
  simp only [proofWithin, failIf_eq_ok, gt_iff_lt, not_lt] at dest config few
  exact ⟨dest, config, few⟩

theorem withinBounds_steps {reply : PartialBlockProof} (h : withinBounds reply = .ok ()) :
    ∀ step ∈ reply.steps, stepWithin step = .ok () := by
  rw [withinBounds, failIf_bind_eq_ok] at h
  exact forM_eq_ok.mp h.right

theorem note_logs {event : Noted} {F : Work → Prop} {E : Unit → Work → Prop} (h : E () (w.noted event)) :
    Logs (note event : Method Work BlockError Unit) (note event) w F E :=
  .ends rfl rfl h

section

variable [Ed25519] {set : ValidatorSet} {message : Bytes} {signatures : List Signature}

-- The signature check while it runs, and the same once it is over.
def tallying (w : Work) (set : ValidatorSet) (signatures : List Signature) (verifications : Nat) : Work :=
  { w with tallied := ⟨set, signatures, verifications⟩ :: w.tallied }

omit [Ed25519] in
theorem tallying_adds (few : signatures.length ≤ maxSignatures) {verifications : Nat}
    (spent : verifications ≤ set.len * 2) : Adds 0 w (w.tallying set signatures verifications) := by
  refine { Adds.refl w with tallied := fun tally mem => ?_ }
  cases List.mem_cons.mp mem
  case inl same => exact .inr (same ▸ ⟨few, spent⟩)
  case inr mem => exact .inl mem

-- Every attempt is spent before the verification it pays for.
theorem carriedFrom_logs {attempts verifications : Nat} {counted : List Hash} {weight : Nat}
    (few : signatures.length ≤ maxSignatures) (entries : List Signature)
    (paid : verifications ≤ attempts) (spent : verifications ≤ set.len * 2) :
    Logs (carriedFrom set message (set.len * 2) entries attempts counted weight)
      (carriedFrom set message (set.len * 2) entries attempts counted weight)
      (w.tallying set signatures verifications) (Adds 0 w) (fun _ => Adds 0 w) := by
  have added := tallying_adds (w := w) few spent
  induction entries generalizing attempts verifications counted weight
  case nil => exact .pure added
  case cons entry entries hi =>
    rw [carriedFrom, carriedFrom]
    cases set.find entry.nodeIdShort
    case none => exact hi paid spent added
    case some validator =>
      dsimp only
      cases Keyed.binarySearch counted entry.nodeIdShort
      case ok => exact hi paid spent added
      case error place =>
        dsimp only
        refine .ite (fun _ => .pure added) fun left => .bind (note_logs ?_)
        have spent : verifications + 1 ≤ set.len * 2 := by omega
        have added := tallying_adds (w := w) few spent
        have rest (counted : List Hash) (weight : Nat) :
            Logs (carriedFrom set message (set.len * 2) entries (attempts + 1) counted weight)
              (carriedFrom set message (set.len * 2) entries (attempts + 1) counted weight)
              (w.tallying set signatures (verifications + 1)) (Adds 0 w) (fun _ => Adds 0 w) :=
          hi (Nat.succ_le_succ paid) spent added
        refine .ite (fun _ => rest _ _) fun _ => .bind (.failIf added fun _ => ?_)
        exact .ite (fun _ => .pure added) fun _ => rest _ _

theorem carriedWeight_logs (few : signatures.length ≤ maxSignatures) :
    Logs (carriedWeight set message signatures) (carriedWeight set message signatures) w
      (Adds 0 w) (fun _ => Adds 0 w) :=
  .bind (note_logs (carriedFrom_logs few signatures (Nat.le_refl 0) (Nat.zero_le _)))

end

section

variable [Sha256]

omit [Sha256] in
theorem parsed_adds {proof : Bytes} (short : proof.length ≤ maxProofBytes) :
    Adds 0 w (w.noted (.parse proof)) := by
  refine { Adds.refl w with parsed := fun other mem => ?_ }
  cases List.mem_append.mp mem
  case inl mem => exact .inl mem
  case inr mem => exact .inr (List.mem_singleton.mp mem ▸ short)

theorem sourceSet_logs (short : link.configProof.length ≤ maxProofBytes) :
    Logs (sourceSet link) (sourceSet link) w (Adds 0 w) (fun _ => Adds 0 w) := by
  have added := parsed_adds (w := w) short
  refine .bind (note_logs (.bind (.lift added fun block _ => .bind (.lift added fun config _ => ?_))))
  exact .lift added fun _ _ => added

theorem destHeader_logs (short : link.destProof.length ≤ maxProofBytes) :
    Logs (destHeader link) (destHeader link) w (Adds 0 w) (fun _ => Adds 0 w) := by
  have added := parsed_adds (w := w) short
  exact .bind (note_logs (.bind (.lift added fun block _ => .lift added fun _ _ => added)))

end

variable [Sha256] [Ed25519] [Tl]

theorem verifyForward_logs (within : stepWithin (.forward link) = .ok ()) :
    Logs (verifyForward link source) (verifyForward link source) w
      (Adds 0 w) (fun _ => Adds 0 w) := by
  have ⟨dest, config, few⟩ := stepWithin_forward within
  have start : Adds 0 w w := .refl w
  refine .bind (.failIf start fun _ => .bind (.failIf start fun _ => .bind (.failIf start fun _ => ?_)))
  refine .bind ((sourceSet_logs config).mono (fun _ => id) fun set t added => ?_)
  refine .bind ((destHeader_logs dest).mono (fun _ => added.trans) fun header u more => ?_)
  have added := added.trans more
  refine .bind (.failIf added fun _ => .bind (.failIf added fun _ => ?_))
  refine .bind (.lift added fun message _ => ?_)
  refine .bind ((carriedWeight_logs few).mono (fun _ => added.trans) fun carried v more => ?_)
  have added := added.trans more
  exact .bind (.failIf added fun _ => .pure added)

theorem verifyLink_logs (within : stepWithin step = .ok ()) :
    Logs (verifyLink step source) (verifyLink step source) w (Adds 1 w) (fun _ => Adds 1 w) := by
  have counted : Adds 1 w (w.noted (.link step)) :=
    { Adds.refl (n := 1) w with links := by simp [noted] }
  refine .bind (note_logs ?_)
  cases step
  case back => exact .throw counted
  case forward link =>
    exact (verifyForward_logs within).mono (fun _ => counted.trans) fun _ _ => counted.trans

theorem verifySteps_logs {steps : List BlockLink} {proven : Option ProvenBlock}
    (within : ∀ step ∈ steps, stepWithin step = .ok ()) :
    Logs (steps.foldlM (fun proven step => do
        let source := (proven.map ProvenBlock.id).getD anchor
        let block ← verifyLink step source
        return some block) proven)
      (steps.foldlM (fun proven step => do
        let source := (proven.map ProvenBlock.id).getD anchor
        let block ← verifyLink step source
        return some block) proven) w (Adds steps.length w) (fun _ => Adds steps.length w) := by
  induction steps generalizing proven w
  case nil => exact .pure (.refl w)
  case cons step steps hi =>
    rw [List.foldlM_cons, List.foldlM_cons, List.length_cons, Nat.add_comm]
    refine .bind (.bind ((verifyLink_logs (within step (by simp))).mono ?_ fun block t added => ?_))
    · exact fun _ added => added.mono (Nat.le_add_right ..)
    · refine .pure ((hi fun step mem => within step (List.mem_cons_of_mem _ mem)).mono ?_ ?_)
      · exact fun _ => added.trans
      · exact fun _ _ => added.trans

-- The reply is noted as well.
theorem proveReply_logs {session : Session} {anchor : Lite.BlockIdExt} {reply : PartialBlockProof}
    (within : withinBounds reply = .ok ()) :
    Logs ((around session).proveReply anchor reply) (session.around.proveReply anchor reply) w
      (Adds reply.steps.length (w.noted (.chain reply)))
      (fun _ => Adds reply.steps.length (w.noted (.chain reply))) := by
  have start := Adds.refl (n := reply.steps.length) (w.noted (.chain reply))
  refine .mapErr (.bind (note_logs (.bind (.failIf start fun _ => .bind (.failIf start fun _ => ?_)))))
  refine .bind ((verifySteps_logs (withinBounds_steps within)).mono (fun _ => id) ?_)
  intro proven t added
  refine .bind (.okOr added fun last _ => ?_)
  exact .bind (.failIf added fun _ => .pure added)

-- All that one call may do.
structure Bounded (work : Work) : Prop where
  asked   : work.asked.length ≤ maxRounds + 1
  rising  : (work.asked.map Lite.BlockIdExt.seqno).Pairwise (· < ·)
  chains  : work.chains.length ≤ maxRounds
  links   : work.links.length ≤ maxLinksPerSync
  parsed  : ∀ proof ∈ work.parsed, proof.length ≤ maxProofBytes
  tallied : ∀ tally ∈ work.tallied, tally.Bounded

-- What holds between two rounds of the walk.
structure Between (state : Progress) (work : Work) : Prop where
  asked     : work.asked.length = state.walk.rounds
  chains    : work.chains.length = state.walk.rounds
  links     : work.links.length ≤ state.walk.links
  rounds_le : state.walk.rounds ≤ maxRounds
  links_le  : state.walk.links ≤ maxLinksPerSync
  rising    : (work.asked.map Lite.BlockIdExt.seqno).Pairwise (· < ·)
  behind    : ∀ block ∈ work.asked, block.seqno < state.anchor.seqno
  parsed    : ∀ proof ∈ work.parsed, proof.length ≤ maxProofBytes
  tallied   : ∀ tally ∈ work.tallied, tally.Bounded

variable {state : Progress}

omit [Sha256] [Ed25519] [Tl] in
theorem Between.bounded (b : Between state w) : Bounded w where
  asked   := by rw [b.asked]; exact Nat.le_succ_of_le b.rounds_le
  rising  := b.rising
  chains  := b.chains ▸ b.rounds_le
  links   := b.links.trans b.links_le
  parsed  := b.parsed
  tallied := b.tallied

omit [Sha256] [Ed25519] [Tl] in
-- The next round opens with a request from a block above all that were asked from before.
theorem Between.asks (b : Between state w) :
    Bounded (w.ask state.anchor) where
  asked   := by simp [ask, b.asked, b.rounds_le]
  rising  := by
    rw [ask, List.map_append, List.pairwise_append]
    refine ⟨b.rising, by simp, fun seqno mem other mem' => ?_⟩
    have ⟨block, asked, same⟩ := List.mem_map.mp mem
    have ⟨last, isLast, same'⟩ := List.mem_map.mp mem'
    rw [← same, ← same', List.mem_singleton.mp isLast]
    exact b.behind block asked
  chains  := b.chains ▸ b.rounds_le
  links   := b.links.trans b.links_le
  parsed  := b.parsed
  tallied := b.tallied

omit [Sha256] [Ed25519] [Tl] in
theorem Between.chained {reply : PartialBlockProof} {walk : Walk} (b : Between state w)
    (round : state.walk.round reply.steps.length = .ok walk)
    (added : Adds reply.steps.length ((w.ask state.anchor).noted (.chain reply)) w') :
    Bounded w' where
  asked   := by rw [added.asked]; exact b.asks.asked
  rising  := by rw [added.asked]; exact b.asks.rising
  chains  := by
    have ⟨rounds, _, _⟩ := Walk.round_eq_ok.mp round
    rw [added.chains]
    simpa [ask, noted, b.chains] using rounds
  links   := by
    have ⟨_, links, _⟩ := Walk.round_eq_ok.mp round
    have more : w'.links.length ≤ w.links.length + reply.steps.length := added.links
    have held := b.links
    omega
  parsed  proof mem := (added.parsed proof mem).elim (b.parsed proof) id
  tallied tally mem := (added.tallied tally mem).elim (b.tallied tally) id

omit [Sha256] [Ed25519] [Tl] in
theorem Between.next {reply : PartialBlockProof} {state' : Progress} (b : Between state w)
    (round : state.walk.round reply.steps.length = .ok state'.walk)
    (advances : state.anchor.seqno < state'.anchor.seqno)
    (added : Adds reply.steps.length ((w.ask state.anchor).noted (.chain reply)) w') :
    Between state' w' := by
  have ⟨rounds, links, walk⟩ := Walk.round_eq_ok.mp round
  have done := b.chained round added
  constructor
  case asked => rw [added.asked, walk]; simp [ask, noted, b.asked]
  case chains => rw [added.chains, walk]; simp [ask, noted, b.chains]
  case links =>
    have more : w'.links.length ≤ w.links.length + reply.steps.length := added.links
    have held := b.links
    rw [walk]
    exact more.trans (Nat.add_le_add_right held _)
  case rounds_le => rw [walk]; exact rounds
  case links_le => rw [walk]; exact links
  case rising => exact done.rising
  case behind =>
    intro block mem
    rw [added.asked] at mem
    cases List.mem_append.mp mem
    case inl mem => exact UInt32.lt_trans (b.behind block mem) advances
    case inr mem => exact List.mem_singleton.mp mem ▸ advances
  case parsed => exact done.parsed
  case tallied => exact done.tallied

variable {session : Session} {maxHeadAge : UInt32} {target : Lite.BlockIdExt}

theorem turn_logs (b : Between state w) :
    Logs ((around session).turn maxHeadAge target state) (session.around.turn maxHeadAge target state) w
      Bounded (fun
        | .finished _, w'        => Bounded w'
        | .unfinished state', w' => Between state' w') := by
  refine .bind (.pure (.bind (.lift b.bounded fun _ _ => .bind ?_)))
  refine .note rfl (.lift b.asks fun reply _ => .bind (.lift b.asks fun _ within => ?_))
  refine .bind (.lift b.asks fun walk round => .bind ?_)
  refine (proveReply_logs within).mono (fun _ => b.chained round) fun proven t added => ?_
  have done := b.chained round added
  refine .bind (.lift done fun _ advances => ?_)
  refine .ite (fun _ => ?_) fun _ => ?_
  · refine .bind (.failIf done fun _ => .bind (.pure (.bind (.lift done fun _ _ => ?_))))
    exact .pure done
  · refine .bind (.failIf done fun _ => .pure ?_)
    exact b.next round (by simpa [advanced] using advances) added

theorem walkOn_logs (passes : Nat) (b : Between state w) :
    Logs ((around session).walkOn maxHeadAge target passes state)
      (session.around.walkOn maxHeadAge target passes state) w Bounded (fun _ => Bounded) := by
  induction passes generalizing state w
  case zero => exact .throw b.bounded
  case succ passes hi =>
    refine .bind ((turn_logs b).mono (fun _ => id) fun next w' noted => ?_)
    cases next
    case finished => exact .pure noted
    case unfinished => exact hi noted

theorem walkFrom_logs (start : Lite.BlockIdExt) :
    Logs (walkFrom maxHeadAge session start) (Client.walkFrom maxHeadAge session start) {}
      Bounded (fun _ => Bounded) := by
  have begins : Between ⟨start, start, .new⟩ {} := by
    constructor <;> simp [Walk.new]
  refine .bind (.lift begins.bounded fun info _ => .bind (.failIf begins.bounded fun _ => ?_))
  exact .bind (.pure (walkOn_logs _ begins))

end Work

section

variable [Sha256] [Ed25519] [Tl]

-- As long as the walk goes on, each round is counted.
theorem rounds_of_unfinished {session : Session} {maxHeadAge : UInt32} {target : Lite.BlockIdExt}
    {states : Nat → Progress} {n : Nat} (begins : (states 0).walk = .new)
    (goesOn : ∀ i < n, turn session maxHeadAge target (states i) = .ok (.unfinished (states (i + 1)))) :
    (states n).walk.rounds = n ∧ n ≤ maxRounds := by
  induction n
  case zero => exact ⟨by rw [begins]; rfl, Nat.zero_le _⟩
  case succ n hi =>
    have ⟨counted, _⟩ := hi fun i lt => goesOn i (Nat.lt_succ_of_lt lt)
    have ⟨_, _, _, turned, ends⟩ := turn_eq_ok (goesOn n (Nat.lt_succ_self n))
    obtain ⟨finished, _⟩ | same := ends
    · cases finished
    · cases same
      have ⟨within, _, walk⟩ := Walk.round_eq_ok.mp turned.round
      rw [counted] at within walk
      exact ⟨by rw [walk], within⟩

theorem Client.sync_bounded (client : Client) (session : Session) :
    (client.syncWork session).Bounded ∧
    ∀ start, client.start = some start →
      (Work.walkFrom client.maxHeadAge session start).value {} =
        walkFrom client.maxHeadAge session start ∧
      (∀ target (states : Nat → Progress), states 0 = ⟨start, start, .new⟩ → ∃ n ≤ maxRounds,
        turn session client.maxHeadAge target (states n) ≠ .ok (.unfinished (states (n + 1)))) ∧
      ∀ target, ∀ passes > maxRounds,
        walkOn session client.maxHeadAge target passes ⟨start, start, .new⟩ =
          walkOn session client.maxHeadAge target (maxRounds + 1) ⟨start, start, .new⟩ := by
  refine ⟨?_, fun start _ => ⟨?_, fun target states begins => ?_, fun target passes enough => ?_⟩⟩
  · unfold syncWork
    cases client.start
    case none => constructor <;> simp
    case some start => exact (Work.walkFrom_logs start).state
  · exact (Work.walkFrom_logs start).value
  · by_contra goesOn
    simp only [not_exists, not_and, not_not] at goesOn
    have ⟨_, le⟩ := rounds_of_unfinished (n := maxRounds + 1) (by rw [begins])
      fun i lt => goesOn i (Nat.le_of_lt_succ lt)
    exact absurd le (Nat.not_succ_le_self _)
  · exact walkOn_passes (Nat.zero_le _) (by simpa [Walk.new] using enough) (by simp [Walk.new])

end

section TwoLinks

attribute [local instance] Sha256.standard chainEd25519 chainTl

theorem Client.sync_bounded_sessionAC : (clientA.syncWork sessionAC).Bounded ∧
    (Work.walkFrom 60 sessionAC (.ofWire blockA)).value {} =
      .ok ⟨.ofWire blockC, .ofWire blockB, ⟨1, 2⟩⟩ := by
  have ⟨bounded, runs⟩ := sync_bounded clientA sessionAC
  exact ⟨bounded, (runs (.ofWire blockA) rfl).left.trans walkFrom_sessionAC⟩

end TwoLinks

end TonNet
