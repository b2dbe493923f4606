import TonNet.Proof.Theorems.Chain

-- What two runs over links of one block can differ in.

namespace TonNet

open Fallible Wire

section

variable [Sha256]

-- The strings SHA-256 has to tell apart.
def Wire.SignatureSet.strings : SignatureSet → List Bytes
  | .ordinary _              => []
  | .simplex _ _ _ candidate => [candidate]

def Wire.Forward.strings (link : Wire.Forward) : List Bytes :=
  bagStrings link.destProof ++ bagStrings link.configProof ++ link.signatures.strings

def Wire.BlockLink.strings : BlockLink → List Bytes
  | .back _ _     => []
  | .forward link => link.strings

def Wire.PartialBlockProof.strings (proof : PartialBlockProof) : List Bytes :=
  proof.steps.flatMap BlockLink.strings

variable {strings : List Bytes} {link link' : Wire.Forward}

theorem destHeader_agree (cf : CollisionFree strings) (hs : link.strings ⊆ strings)
    (hs' : link'.strings ⊆ strings) (h : link.dest.rootHash = link'.dest.rootHash) :
    Agree (· = ·) (destHeader link) (destHeader link') := by
  rw [destHeader, destHeader, note_bind, note_bind, h]
  have part {link : Wire.Forward} (hs : link.strings ⊆ strings) : bagStrings link.destProof ⊆ strings :=
    fun _ hb => hs (by simp [Wire.Forward.strings, hb])
  exact (coveredBlock_agree (part hs) (part hs')).bind fun _ _ s => Block.header_agree cf s

theorem sourceSet_agree (cf : CollisionFree strings) (hs : link.strings ⊆ strings)
    (hs' : link'.strings ⊆ strings) (h : link.source.rootHash = link'.source.rootHash) :
    Agree (· = ·) (sourceSet link) (sourceSet link') := by
  rw [sourceSet, sourceSet, note_bind, note_bind, h]
  have part {link : Wire.Forward} (hs : link.strings ⊆ strings) : bagStrings link.configProof ⊆ strings :=
    fun _ hb => hs (by simp [Wire.Forward.strings, hb])
  refine (coveredBlock_agree (part hs) (part hs')).bind fun _ _ s => ?_
  exact (Block.config_agree cf s).bind fun _ _ s => ValidatorSet.fromConfig_agree cf s

theorem Wire.PartialBlockProof.strings_of_mem {proof : PartialBlockProof}
    (hs : proof.strings ⊆ strings) (h : .forward link ∈ proof.steps) : link.strings ⊆ strings :=
  fun _ hb => hs (List.mem_flatMap.mpr ⟨_, h, hb⟩)

variable [Ed25519] [Tl]

theorem verifyChain_agree (cf : CollisionFree strings) :
    (∀ rootHash proof proof' block block', bagStrings proof ⊆ strings →
      bagStrings proof' ⊆ strings → coveredBlock proof rootHash = .ok block →
      coveredBlock proof' rootHash = .ok block' →
      Agree (· = ·) block.header block'.header ∧
      Agree (· = ·) (block.config >>= ValidatorSet.fromConfig)
        (block'.config >>= ValidatorSet.fromConfig)) ∧
    ∀ anchor anchor' (proof proof' : PartialBlockProof) block block', proof.strings ⊆ strings →
      proof'.strings ⊆ strings → verifyChain anchor proof = .ok block →
      verifyChain anchor' proof' = .ok block' →
      (block.id.rootHash = block'.id.rootHash →
        block.genUtime = block'.genUtime ∧ block.keyBlock = block'.keyBlock) ∧
      ∀ link link', .forward link ∈ proof.steps → .forward link' ∈ proof'.steps →
        link.source.rootHash = link'.source.rootHash →
        ∃ set, sourceSet link = .ok set ∧ sourceSet link' = .ok set := by
  constructor
  · intro rootHash proof proof' block block' hs hs' h h'
    have shown := coveredBlock_agree hs hs' h h'
    refine ⟨Block.header_agree cf shown, (Block.config_agree cf shown).bind fun _ _ s => ?_⟩
    exact ValidatorSet.fromConfig_agree cf s
  · intro anchor anchor' proof proof' block block' hs hs' h h'
    have ⟨_, _, trail⟩ := verifyChain_eq_ok.mp h
    have ⟨_, _, trail'⟩ := verifyChain_eq_ok.mp h'
    constructor
    · intro root
      have ⟨link, mem, header, stated, proven⟩ := trail.ends_at
      have ⟨link', mem', header', stated', proven'⟩ := trail'.ends_at
      subst proven proven'
      obtain rfl : header = header' :=
        destHeader_agree cf (proof.strings_of_mem hs mem) (proof'.strings_of_mem hs' mem') root
          stated stated'
      exact ⟨rfl, rfl⟩
    · intro link link' mem mem' root
      have ⟨set, _, _, _, a⟩ := trail.accepted_of_mem mem
      have ⟨set', _, _, _, a'⟩ := trail'.accepted_of_mem mem'
      have same : set = set' :=
        sourceSet_agree cf (proof.strings_of_mem hs mem) (proof'.strings_of_mem hs' mem') root
          a.checkedBy a'.checkedBy
      exact ⟨set, a.checkedBy, same ▸ a'.checkedBy⟩

-- What a header states together with its root hash is the whole block id but for the file hash.
theorem Accepted.dest_eq {set set' : ValidatorSet} {header header' : BlockHeader}
    {message message' : Bytes} {carried carried' : Nat} (cf : CollisionFree strings)
    (hs : link.strings ⊆ strings) (hs' : link'.strings ⊆ strings)
    (a : Accepted link set header message carried)
    (a' : Accepted link' set' header' message' carried')
    (root : link.dest.rootHash = link'.dest.rootHash)
    (file : link.dest.fileHash = link'.dest.fileHash) : link.dest = link'.dest := by
  obtain rfl : header = header' := destHeader_agree cf hs hs' root a.stated a'.stated
  apply BlockIdExt.ext
  case workchain => exact a.workchain.symm.trans a'.workchain
  case shard => exact a.shard.symm.trans a'.shard
  case seqno => exact congrArg UInt32.toInt32 (a.seqno.symm.trans a'.seqno)
  case rootHash => exact root
  case fileHash => exact file

omit [Ed25519] in
theorem signedMessage_simplex {signatures : List Signature} {sessionId : Hash} {slot : Int32}
    {candidate message : Bytes} {dest : BlockIdExt}
    (h : signedMessage (.simplex signatures sessionId slot candidate) dest = .ok message) :
    (Tl.readPrefix candidate).map CandidateBlock.block = some dest ∧
      simplexMessage sessionId slot candidate = message := by
  simp only [signedMessage, bind_eq_ok, okOr_eq_ok, failIf_eq_ok, pure_eq_ok, ne_eq, not_not] at h
  obtain ⟨named, read, _, names, written⟩ := h
  exact ⟨by rw [read, Option.map_some, names], written⟩

-- The two forms of message open with different constructor ids.
omit [Sha256] [Ed25519] in
theorem Tl.Lawful.blockId_ne_dataToSign (tl : Tl.Lawful) (id : BlockId) (data : DataToSign) :
    Tl.blockId id ≠ Tl.dataToSign data := by
  intro h
  have tags := (tl.blockId_boxed id).symm.trans (h ▸ tl.dataToSign_boxed data)
  exact absurd tags (by decide)

omit [Ed25519] in
theorem simplexMessage_inj (tl : Tl.Lawful) (cf : CollisionFree strings)
    {sessionId sessionId' : Hash} {slot slot' : Int32} {candidate candidate' : Bytes}
    (hc : candidate ∈ strings) (hc' : candidate' ∈ strings)
    (h : simplexMessage sessionId slot candidate = simplexMessage sessionId' slot' candidate') :
    candidate = candidate' := by
  have votes := tl.vote_inj (congrArg DataToSign.data (tl.dataToSign_inj h))
  have ids : (⟨slot, Sha256.digest candidate⟩ : CandidateId) = ⟨slot', Sha256.digest candidate'⟩ :=
    Vote.finalize.inj votes
  exact cf candidate hc candidate' hc' (congrArg CandidateId.hash ids)

theorem dest_eq_of_message_eq (cf : CollisionFree (link.strings ++ link'.strings)) (tl : Tl.Lawful)
    {source source' : BlockIdExt} {block block' : ProvenBlock} {message : Bytes}
    (h : verifyLink (.forward link) source = .ok block)
    (h' : verifyLink (.forward link') source' = .ok block')
    (hm : signedMessage link.signatures link.dest = .ok message)
    (hm' : signedMessage link'.signatures link'.dest = .ok message) : link.dest = link'.dest := by
  have ⟨_, set, header, _, carried, a, _⟩ := verifyForward_eq_ok.mp h
  have ⟨_, set', header', _, carried', a', _⟩ := verifyForward_eq_ok.mp h'
  cases form : link.signatures <;> cases form' : link'.signatures <;> rw [form] at hm <;>
    rw [form'] at hm'
  case ordinary.ordinary =>
    have ids := tl.blockId_inj ((pure_eq_ok.mp hm).trans (pure_eq_ok.mp hm').symm)
    refine a.dest_eq cf (List.subset_append_left ..) (List.subset_append_right ..) a' ?_ ?_
    · exact congrArg BlockId.rootCellHash ids
    · exact congrArg BlockId.fileHash ids
  case ordinary.simplex =>
    have ⟨_, written'⟩ := signedMessage_simplex hm'
    exact absurd ((pure_eq_ok.mp hm).trans written'.symm) (tl.blockId_ne_dataToSign _ _)
  case simplex.ordinary =>
    have ⟨_, written⟩ := signedMessage_simplex hm
    exact absurd ((pure_eq_ok.mp hm').trans written.symm) (tl.blockId_ne_dataToSign _ _)
  case simplex.simplex =>
    have ⟨named, written⟩ := signedMessage_simplex hm
    have ⟨named', written'⟩ := signedMessage_simplex hm'
    have same := simplexMessage_inj tl cf (by simp [Wire.Forward.strings, form, SignatureSet.strings])
      (by simp [Wire.Forward.strings, form', SignatureSet.strings]) (written.trans written'.symm)
    exact Option.some.inj (named.symm.trans (same ▸ named'))

end

section TwoLinks

attribute [local instance] Sha256.standard chainEd25519 chainTl

theorem chainAC_collisionFree : CollisionFree chainAC.strings :=
  collisionFree_of_distinct (by decide +kernel)

-- The second half of the chain, from an anchor of its own.
def chainBC : PartialBlockProof :=
  { chainAC with source := blockB, steps := [.forward linkBC] }

theorem verifyChain_agree_chainBC : ∃ block block', verifyChain blockA chainAC = .ok block ∧
    verifyChain blockB chainBC = .ok block' ∧ block.genUtime = block'.genUtime ∧
    block.keyBlock = block'.keyBlock ∧ ∃ set, sourceSet linkBC = .ok set := by
  have run : verifyChain blockB chainBC = .ok ⟨blockC, false, 2000⟩ :=
    verifyChain_eq_ok.mpr ⟨rfl, rfl, .last verifyLink_linkBC⟩
  have sub : chainBC.strings ⊆ chainAC.strings := List.subset_append_right ..
  have ⟨_, chains⟩ := verifyChain_agree chainAC_collisionFree
  have ⟨ends, sets⟩ :=
    chains _ _ _ _ _ _ (List.Subset.refl _) sub verifyChain_chainAC run
  have ⟨set, read, _⟩ := sets linkBC linkBC (by simp [chainAC]) (by simp [chainBC]) rfl
  exact ⟨_, _, verifyChain_chainAC, run, (ends rfl).left, (ends rfl).right, set, read⟩

-- Slots are 32 bits wide.
theorem slot_inj {slot slot' : Int32}
    (h : Bytes.be 4 slot.toUInt32.toNat = Bytes.be 4 slot'.toUInt32.toNat) : slot = slot' := by
  have bits := Bytes.be_inj slot.toUInt32.toNat_lt slot'.toUInt32.toNat_lt h
  exact congrArg UInt32.toInt32 (UInt32.toNat_inj.mp bits)

theorem candidateId_inj {id id' : CandidateId}
    (h : Bytes.be 4 id.slot.toUInt32.toNat ++ id.hash.bytes =
      Bytes.be 4 id'.slot.toUInt32.toNat ++ id'.hash.bytes) : id = id' := by
  have ⟨slots, hashes⟩ := List.append_inj h (by simp)
  obtain ⟨slot, hash⟩ := id
  obtain ⟨slot', hash'⟩ := id'
  obtain rfl : slot = slot' := slot_inj slots
  obtain rfl : hash = hash' := Hash.ext hashes
  rfl

theorem chainTl_lawful : Tl.Lawful where
  blockId_inj := by
    rintro ⟨root, file⟩ ⟨root', file'⟩ h
    have ⟨head, files⟩ := List.append_inj' h (file.length_eq.trans file'.length_eq.symm)
    obtain rfl : root = root' := Hash.ext (List.append_cancel_left head)
    obtain rfl : file = file' := Hash.ext files
    rfl
  vote_inj := by
    rintro (id | id) (id' | id') h <;> have ⟨kind, ids⟩ := List.cons.inj h
    case notarize.notarize => exact congrArg Vote.notarize (candidateId_inj ids)
    case finalize.finalize => exact congrArg Vote.finalize (candidateId_inj ids)
    all_goals exact absurd kind (by decide)
  dataToSign_inj := by
    rintro ⟨session, data⟩ ⟨session', data'⟩ h
    have ⟨head, rest⟩ := List.append_inj h (by simp [session.length_eq, session'.length_eq])
    obtain rfl : session = session' := Hash.ext (List.append_cancel_left head)
    obtain rfl : data = data' := rest
    rfl
  blockId_boxed _ := rfl
  dataToSign_boxed _ := rfl

-- The same link with its one signature sent twice.
def linkTwice : Wire.Forward :=
  { linkAB with signatures := .ordinary [soleSignature, soleSignature] }

theorem dest_eq_of_message_eq_linkTwice : ∃ block block',
    verifyLink (.forward linkAB) blockA = .ok block ∧
    verifyLink (.forward linkTwice) blockA = .ok block' ∧ linkAB.dest = linkTwice.dest := by
  have run : verifyLink (.forward linkTwice) blockA = .ok ⟨blockB, true, 1000⟩ := by decide +kernel
  have cf : CollisionFree (linkAB.strings ++ linkTwice.strings) :=
    chainAC_collisionFree.subset <| List.append_subset.mpr
      ⟨List.subset_append_left .., List.subset_append_left ..⟩
  exact ⟨_, _, verifyLink_linkAB, run,
    dest_eq_of_message_eq cf chainTl_lawful verifyLink_linkAB run rfl rfl⟩

end TwoLinks

end TonNet
