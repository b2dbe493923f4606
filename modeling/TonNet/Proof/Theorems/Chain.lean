import TonNet.Proof.Theorems.Covered
import TonNet.Proof.Theorems.Validators
import TonNet.Proof.Theorems.Weight

-- What a chain of links proves.

namespace TonNet

open Fallible Wire

section

variable [Sha256] [Ed25519] [Tl]

-- Everything that is checked of a forward link, and what it was checked with.
structure Accepted (link : Wire.Forward) (set : ValidatorSet) (header : BlockHeader) (message : Bytes)
    (carried : Nat) : Prop where
  sourceChain : isMasterchain link.source = true
  destChain   : isMasterchain link.dest = true
  ascends     : link.source.seqno < link.dest.seqno
  checkedBy   : sourceSet link = .ok set
  stated      : destHeader link = .ok header
  seqno       : header.seqno = link.dest.seqno.toUInt32
  workchain   : header.workchain = link.dest.workchain
  shard       : header.shard = link.dest.shard
  keyBlock    : header.keyBlock = link.toKeyBlock
  signed      : signedMessage link.signatures link.dest = .ok message
  weighed     : carriedWeight set message link.signatures.signatures = .ok carried
  carries     : set.carries carried = true

variable {link link' : Wire.Forward} {source source' : BlockIdExt} {block block' : ProvenBlock}

theorem verifyForward_eq_ok : verifyForward link source = .ok block ↔
    link.source = source ∧ ∃ set header message carried, Accepted link set header message carried ∧
      block = ⟨link.dest, header.keyBlock, header.genUtime⟩ := by
  simp only [verifyForward, liftM_self, bind_eq_ok, failIf_eq_ok, pure_eq_ok, not_or, ne_eq, not_not,
    Bool.not_eq_true', Bool.not_eq_false, exists_const, Int32.not_le]
  constructor
  · rintro ⟨start, ⟨sourceChain, destChain⟩, ascends, set, checkedBy, header, stated,
      ⟨seqno, workchain, shard⟩, keyBlock, message, signed, carried, weighed, carries, rfl⟩
    exact ⟨start, set, header, message, carried, ⟨sourceChain, destChain, ascends, checkedBy, stated,
      seqno, workchain, shard, keyBlock, signed, weighed, carries⟩, rfl⟩
  · rintro ⟨start, set, header, message, carried, a, rfl⟩
    exact ⟨start, ⟨a.sourceChain, a.destChain⟩, a.ascends, set, a.checkedBy, header, a.stated,
      ⟨a.seqno, a.workchain, a.shard⟩, a.keyBlock, message, a.signed, carried, a.weighed, a.carries,
      rfl⟩

theorem verifyLink_eq_ok {step : BlockLink} : verifyLink step source = .ok block ↔
    ∃ link, step = .forward link ∧ link.source = source ∧ ∃ set header message carried,
      Accepted link set header message carried ∧
        block = ⟨link.dest, header.keyBlock, header.genUtime⟩ := by
  cases step
  case back => exact ⟨fun h => absurd h throw_ne_ok, fun ⟨_, h, _⟩ => nomatch h⟩
  case forward link =>
    rw [verifyLink, note_bind, verifyForward_eq_ok]
    exact ⟨fun h => ⟨link, rfl, h⟩, fun ⟨_, e, h⟩ => BlockLink.forward.inj e ▸ h⟩

-- A run of links, each accepted from where the one before it ended.
inductive Trail : BlockIdExt → List BlockLink → ProvenBlock → Prop
  | last {source : BlockIdExt} {step : BlockLink} {block : ProvenBlock}
    (head : verifyLink step source = .ok block) : Trail source [step] block
  | next {source : BlockIdExt} {step : BlockLink} {steps : List BlockLink} {mid block : ProvenBlock}
    (head : verifyLink step source = .ok mid) (tail : Trail mid.id steps block) :
    Trail source (step :: steps) block

namespace Trail

variable {steps steps' : List BlockLink} {mid : ProvenBlock}

theorem ne_nil (t : Trail source steps block) : steps ≠ [] := by
  cases t <;> simp

theorem append (t : Trail source steps mid) (t' : Trail mid.id steps' block) :
    Trail source (steps ++ steps') block := by
  induction t
  case last head => exact .next head t'
  case next head _ hi => exact .next head (hi t')

theorem uncons {step : BlockLink} (t : Trail source (step :: steps) block) (h : steps ≠ []) :
    ∃ mid, verifyLink step source = .ok mid ∧ Trail mid.id steps block := by
  cases t
  case last => exact absurd rfl h
  case next mid head tail => exact ⟨mid, head, tail⟩

theorem split (t : Trail source (steps ++ steps') block) (h : steps ≠ []) (h' : steps' ≠ []) :
    ∃ mid, Trail source steps mid ∧ Trail mid.id steps' block := by
  induction steps generalizing source
  case nil => exact absurd rfl h
  case cons step steps hi =>
    have ⟨mid, head, tail⟩ := uncons t (by simp [h'])
    cases steps
    case nil => exact ⟨mid, .last head, tail⟩
    case cons =>
      have ⟨mid', t, t'⟩ := hi tail (by simp)
      exact ⟨mid', .next head t, t'⟩

-- Every step of a run was accepted, and the last one leads to the block it ends at.
theorem accepted_of_mem (t : Trail source steps block) (h : .forward link ∈ steps) :
    ∃ set header message carried, Accepted link set header message carried := by
  have accepted {step : BlockLink} {source : BlockIdExt} {mid : ProvenBlock}
      (head : verifyLink step source = .ok mid) (e : .forward link = step) :
      ∃ set header message carried, Accepted link set header message carried := by
    rw [← e, verifyLink, note_bind, verifyForward_eq_ok] at head
    have ⟨_, set, header, message, carried, a, _⟩ := head
    exact ⟨set, header, message, carried, a⟩
  induction t
  case last head => exact accepted head (List.mem_singleton.mp h)
  case next head _ hi => exact (List.mem_cons.mp h).elim (accepted head) hi

theorem ends_at (t : Trail source steps block) : ∃ link, .forward link ∈ steps ∧
    ∃ header, destHeader link = .ok header ∧
      block = ⟨link.dest, header.keyBlock, header.genUtime⟩ := by
  induction t
  case last head =>
    have ⟨link, forward, _, _, header, _, _, a, proven⟩ := verifyLink_eq_ok.mp head
    exact ⟨link, by simp [forward], header, a.stated, proven⟩
  case next hi =>
    have ⟨link, mem, rest⟩ := hi
    exact ⟨link, List.mem_cons_of_mem _ mem, rest⟩

end Trail

-- The loop of `verifySteps`, from any point of it.
theorem verifySteps_run {anchor : BlockIdExt} {steps : List BlockLink} {proven : Option ProvenBlock} :
    steps.foldlM (fun proven step => do
        let source := (proven.map ProvenBlock.id).getD anchor
        let block ← verifyLink step source
        return some block) proven = .ok (some block) ↔
      (steps = [] ∧ proven = some block) ∨
        Trail ((proven.map ProvenBlock.id).getD anchor) steps block := by
  induction steps generalizing proven
  case nil =>
    have done : (pure proven : Except BlockError _) = .ok (some block) ↔ proven = some block :=
      pure_eq_ok
    rw [List.foldlM_nil, done]
    exact ⟨fun h => .inl ⟨rfl, h⟩, fun h => h.elim And.right fun t => absurd rfl t.ne_nil⟩
  case cons step steps hi =>
    simp only [List.foldlM_cons, bind_eq_ok, pure_eq_ok, hi]
    constructor
    · rintro ⟨_, ⟨mid, head, rfl⟩, ⟨rfl, e⟩ | tail⟩
      · exact .inr (Option.some.inj e ▸ .last head)
      · exact .inr (.next head tail)
    · rintro (⟨e, _⟩ | t)
      · cases e
      · cases t
        case last head => exact ⟨_, ⟨_, head, rfl⟩, .inl ⟨rfl, rfl⟩⟩
        case next mid head tail => exact ⟨_, ⟨mid, head, rfl⟩, .inr tail⟩

theorem verifyChain_eq_ok {anchor : BlockIdExt} {proof : PartialBlockProof} :
    verifyChain anchor proof = .ok block ↔
      proof.source = anchor ∧ block.id = proof.dest ∧ Trail anchor proof.steps block := by
  simp only [verifyChain, verifySteps, note_bind, bind_eq_ok, failIf_eq_ok, okOr_eq_ok, pure_eq_ok, ne_eq,
    not_not, exists_const, List.isEmpty_iff]
  constructor
  · rintro ⟨start, some, _, run, _, rfl, last, rfl⟩
    have t := (verifySteps_run.mp run).resolve_left fun h => some h.left
    exact ⟨start, last, t⟩
  · rintro ⟨start, last, t⟩
    exact ⟨start, t.ne_nil, _, verifySteps_run.mpr (.inr t), block, rfl, last, rfl⟩

-- A step as the chain's results state it: the header its destination's proof shows, and the members
-- of the source's own set that signed for the destination.
structure Endorsed (link : Wire.Forward) : Prop where
  header : ∃ block header, coveredBlock link.destProof link.dest.rootHash = .ok block ∧
    block.header = .ok header ∧ header.seqno = link.dest.seqno.toUInt32 ∧
    header.keyBlock = link.toKeyBlock
  signers : ∃ block config set message chosen,
    coveredBlock link.configProof link.source.rootHash = .ok block ∧ block.config = .ok config ∧
    ValidatorSet.fromConfig config = .ok set ∧
    signedMessage link.signatures link.dest = .ok message ∧
    chosen.Sublist set.members ∧ (chosen.map Prod.fst).Nodup ∧
    (∀ m ∈ chosen, ∃ entry ∈ link.signatures.signatures, entry.nodeIdShort = m.1 ∧
      Ed25519.verify m.2.publicKey message entry.signature = true) ∧
    Members.weight chosen * 3 > set.totalWeight * 2

theorem Accepted.endorsed {set : ValidatorSet} {header : BlockHeader} {message : Bytes}
    {carried : Nat} (a : Accepted link set header message carried) : Endorsed link where
  header := by
    obtain ⟨_, _, stated⟩ := bind_eq_ok.mp a.stated
    obtain ⟨block, covered, read⟩ := bind_eq_ok.mp stated
    exact ⟨block, header, covered, read, a.seqno, a.keyBlock⟩
  signers := by
    obtain ⟨_, _, rest⟩ := bind_eq_ok.mp a.checkedBy
    obtain ⟨block, covered, rest⟩ := bind_eq_ok.mp rest
    obtain ⟨config, read, rest⟩ := bind_eq_ok.mp rest
    have ⟨weight, run, result⟩ := carriedWeight_carried set message link.signatures.signatures
    obtain rfl : weight = carried := Except.ok.inj (run.symm.trans a.weighed)
    have ⟨chosen, sub, signed, weighed⟩ := result.signers
    refine ⟨block, config, set, message, chosen, covered, read, rest, a.signed, sub,
      set.distinct.sublist (sub.map _), fun m hm => by simpa [backed] using signed m hm, ?_⟩
    exact weighed ▸ of_decide_eq_true a.carries

-- The blocks a run of steps goes through.
structure Path (ids : List BlockIdExt) (steps : List BlockLink) : Prop where
  length    : ids.length = steps.length + 1
  chain     : ∀ id ∈ ids, isMasterchain id = true
  ascending : ids.Pairwise (·.seqno < ·.seqno)
  endorsed  : ∀ i step, steps[i]? = some step → ∃ link, step = .forward link ∧
    ids[i]? = some link.source ∧ ids[i + 1]? = some link.dest ∧ Endorsed link

theorem Path.start {id : BlockIdExt} (h : isMasterchain id = true) : Path [id] [] where
  length           := rfl
  chain _ hid      := List.mem_singleton.mp hid ▸ h
  ascending        := List.pairwise_singleton ..
  endorsed _ _ hst := nomatch hst

theorem Path.cons {step : BlockLink} {steps : List BlockLink} {dests : List BlockIdExt}
    {mid : ProvenBlock} (head : verifyLink step source = .ok mid)
    (p : Path (mid.id :: dests) steps) : Path (source :: mid.id :: dests) (step :: steps) := by
  have ⟨link, forward, start, set, header, message, carried, a, proven⟩ := verifyLink_eq_ok.mp head
  have dest : mid.id = link.dest := congrArg ProvenBlock.id proven
  have ascends : source.seqno < mid.id.seqno := start ▸ dest ▸ a.ascends
  constructor
  case length => simpa using p.length
  case chain => exact List.forall_mem_cons.mpr ⟨start ▸ a.sourceChain, p.chain⟩
  case ascending =>
    refine .cons (fun id hid => ?_) p.ascending
    cases List.mem_cons.mp hid
    case inl e => exact e ▸ ascends
    case inr hid => exact Int32.lt_trans ascends ((List.pairwise_cons.mp p.ascending).left id hid)
  case endorsed =>
    intro i st hst
    cases i
    case zero =>
      obtain rfl : step = st := by simpa using hst
      exact ⟨link, forward, by simp [start], by simp [dest], a.endorsed⟩
    case succ i => exact p.endorsed i st (by simpa using hst)

theorem Trail.path {steps : List BlockLink} (t : Trail source steps block) :
    ∃ dests, Path (source :: dests) steps ∧ (source :: dests).getLast? = some block.id := by
  induction t
  case last source step block head =>
    have ⟨link, _, _, _, _, _, _, a, proven⟩ := verifyLink_eq_ok.mp head
    have chain : isMasterchain block.id = true := proven ▸ a.destChain
    exact ⟨[block.id], .cons head (.start chain), rfl⟩
  case next mid _ head _ hi =>
    have ⟨dests, path, ends⟩ := hi
    exact ⟨mid.id :: dests, .cons head path, by simpa using ends⟩

-- A run of steps taken up where another one stopped.
def Wire.PartialBlockProof.followedBy (p₁ p₂ : PartialBlockProof) : PartialBlockProof where
  complete := p₂.complete
  source   := p₁.source
  dest     := p₂.dest
  steps    := p₁.steps ++ p₂.steps

theorem verifyChain_endorsed (anchor : BlockIdExt) :
    (∀ proof block, verifyChain anchor proof = .ok block → ∃ ids, ids.head? = some anchor ∧
      ids.getLast? = some block.id ∧ Path ids proof.steps) ∧
    ∀ (p₁ p₂ : PartialBlockProof) block,
      (p₁.steps ≠ [] ∧ p₂.steps ≠ [] ∧ verifyChain anchor (p₁.followedBy p₂) = .ok block) ↔
        ∃ mid, verifyChain anchor { p₁ with dest := mid.id } = .ok mid ∧
          verifyChain mid.id { p₂ with source := mid.id } = .ok block := by
  constructor
  · intro proof block h
    have ⟨_, _, trail⟩ := verifyChain_eq_ok.mp h
    have ⟨dests, path, ends⟩ := trail.path
    exact ⟨anchor :: dests, rfl, ends, path⟩
  · intro p₁ p₂ block
    simp only [verifyChain_eq_ok, true_and, PartialBlockProof.followedBy]
    constructor
    · rintro ⟨some₁, some₂, start, ends, trail⟩
      have ⟨mid, trail₁, trail₂⟩ := trail.split some₁ some₂
      exact ⟨mid, ⟨start, trail₁⟩, ends, trail₂⟩
    · rintro ⟨mid, ⟨start, trail₁⟩, ends, trail₂⟩
      exact ⟨trail₁.ne_nil, trail₂.ne_nil, start, ends, trail₁.append trail₂⟩

end

section TwoLinks

def configProofA : Bytes :=
  .be 44 0xb5ee9c720101080100ed00094603f932a511b2c188120dc78a0867560584832adbcf30e57d581242af55c3f1 ++
  .be 44 0x5c66000501040811ef55aa0707070204894a33f6fd0000000000000000000000000000000000000000000000 ++
  .be 44 0x0000000000000000000000000000000000000000000000000000000000000000000000000000000000c00707 ++
  .be 44 0x07030247cca5800000000000000000000000000000000000000000000000000000000000000000040704010a ++
  .be 44 0xa00000002205011a1100000001000000020001000106005cd0538e81278a0000000000000000000000000000 ++
  .be 28 0x0000000000000000000000000000000000a100000000000000070000

def destProofB : Bytes :=
  .be 44 0xb5ee9c7201010501009d00094603af867fa077db81f46dcd9c8facb0c65eb87b1c6a94b1b465c1b294f4c324 ++
  .be 44 0x7b4e000501240811ef55aa0403030228480101fc01e07c0b0dcdc024a24baf64a6cced71f915d7c117a530d1 ++
  .be 44 0xe2e843e3e752750004000000869bc7a987000000000200000000020000000000ffffffff0000000000000000 ++
  .be 36 0x000003e80000000000000000000000000000000000000000000000000000000000000000

def configProofB : Bytes :=
  .be 44 0xb5ee9c720102090100011300094603af867fa077db81f46dcd9c8facb0c65eb87b1c6a94b1b465c1b294f4c3 ++
  .be 44 0x247b4e000501240811ef55aa0807070204894a33f6fd00000000000000000000000000000000000000000000 ++
  .be 44 0x000000000000000000000000000000000000000000000000000000000000000000000000000000000000c007 ++
  .be 44 0x0707030247cca580000000000000000000000000000000000000000000000000000000000000000004070401 ++
  .be 44 0x0aa00000002205011a1100000001000000020001000106005cd0538e81278a00000000000000000000000000 ++
  .be 44 0x000000000000000000000000000000000000a10000000000000007000028480101a92eecb8f2c52316cfb0f3 ++
  .be 23 0xcede4097f3933a73eaa5ff7c8d01fafbbf7fdf76e60000

def destProofC : Bytes :=
  .be 44 0xb5ee9c720101040100770009460351aadfa282a4dbccd5b1f5f80357f805c793c7d1068a770f8e46936054d5 ++
  .be 44 0xa1d5000101040811ef55aa03020202000000869bc7a987000000000000000000030000000000ffffffff0000 ++
  .be 42 0x000000000000000007d00000000000000000000000000000000000000000000000000000000000000000

-- A signature that repeats the key it is checked against.
@[reducible]
def chainEd25519 : Ed25519 where
  verify publicKey _ signature := signature = publicKey.bytes

-- Messages in the order of their fields, behind their constructor ids.
@[reducible]
def chainTl : Tl where
  blockId id      := (Bytes.be 4 blockIdTag).reverse ++ id.rootCellHash.bytes ++ id.fileHash.bytes
  vote
    | .notarize id => 0 :: Bytes.be 4 id.slot.toUInt32.toNat ++ id.hash.bytes
    | .finalize id => 1 :: Bytes.be 4 id.slot.toUInt32.toNat ++ id.hash.bytes
  dataToSign data := (Bytes.be 4 dataToSignTag).reverse ++ data.sessionId.bytes ++ data.data
  readPrefix _    := none

attribute [local instance] Sha256.standard chainEd25519 chainTl

def blockAt (seqno : Int32) (rootHash : Nat) : BlockIdExt where
  workchain := masterchain
  shard     := masterchainShard
  seqno     := seqno
  rootHash  := .ofNat rootHash
  fileHash  := .zero

def blockA : BlockIdExt :=
  blockAt 1 0xf932a511b2c188120dc78a0867560584832adbcf30e57d581242af55c3f15c66

def blockB : BlockIdExt :=
  blockAt 2 0xaf867fa077db81f46dcd9c8facb0c65eb87b1c6a94b1b465c1b294f4c3247b4e

def blockC : BlockIdExt :=
  blockAt 3 0x51aadfa282a4dbccd5b1f5f80357f805c793c7d1068a770f8e46936054d5a1d5

-- The one member of the set that both configurations name.
def soleSignature : Signature where
  nodeIdShort := .ofNat 0xa2f02ce9bfb37cf68a9a131c15c255e106063c8b2052dd986caa7267d94c42f7
  signature   := .be 32 0xa1

def linkAB : Wire.Forward where
  toKeyBlock  := true
  source      := blockA
  dest        := blockB
  destProof   := destProofB
  configProof := configProofA
  signatures  := .ordinary [soleSignature]

def linkBC : Wire.Forward where
  toKeyBlock  := false
  source      := blockB
  dest        := blockC
  destProof   := destProofC
  configProof := configProofB
  signatures  := .ordinary [soleSignature]

def chainAC : PartialBlockProof where
  complete := true
  source   := blockA
  dest     := blockC
  steps    := [.forward linkAB, .forward linkBC]

theorem verifyLink_linkAB : verifyLink (.forward linkAB) blockA = .ok ⟨blockB, true, 1000⟩ := by
  decide +kernel

theorem verifyLink_linkBC : verifyLink (.forward linkBC) blockB = .ok ⟨blockC, false, 2000⟩ := by
  decide +kernel

theorem verifyChain_chainAC : verifyChain blockA chainAC = .ok ⟨blockC, false, 2000⟩ :=
  verifyChain_eq_ok.mpr ⟨rfl, rfl, .next verifyLink_linkAB (.last verifyLink_linkBC)⟩

theorem verifyChain_endorsed_chainAC :
    (∃ ids, ids.head? = some blockA ∧ ids.getLast? = some blockC ∧ Path ids chainAC.steps) ∧
      ∃ mid, verifyChain blockA ⟨true, blockA, mid.id, [.forward linkAB]⟩ = .ok mid ∧
        verifyChain mid.id ⟨true, mid.id, blockC, [.forward linkBC]⟩ =
          .ok ⟨blockC, false, 2000⟩ := by
  have ⟨endorsed, composes⟩ := verifyChain_endorsed blockA
  refine ⟨endorsed chainAC _ verifyChain_chainAC, ?_⟩
  exact (composes ⟨true, blockA, blockB, [.forward linkAB]⟩ ⟨true, blockB, blockC, [.forward linkBC]⟩
    _).mp ⟨by simp, by simp, verifyChain_chainAC⟩

end TwoLinks

end TonNet
