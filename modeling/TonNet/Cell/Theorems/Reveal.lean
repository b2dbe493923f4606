import TonNet.Cell.Theorems.WellFormed

-- What equal hashes say about two cells: unless two strings collide, they agree on everything the
-- representation covers, and their references answer with equal hashes and depths one step down.

namespace TonNet

open Fallible

-- The two descriptor bytes determine what they describe.
theorem refsDescriptor_inj {refs refs' mask mask' l l' : Nat} {exotic exotic' : Bool}
    (hr : refs ≤ maxRefs) (hr' : refs' ≤ maxRefs) (hm : mask < 8) (hm' : mask' < 8)
    (h : UInt8.ofNat (refsDescriptor refs exotic mask l) =
      UInt8.ofNat (refsDescriptor refs' exotic' mask' l')) :
    refs = refs' ∧ exotic = exotic' ∧ appliedMask mask l = appliedMask mask' l' := by
  have ha := appliedMask_lt hm l
  have ha' := appliedMask_lt hm' l'
  have := congrArg UInt8.toNat h
  simp only [UInt8.toNat_ofNat', refsDescriptor, maxRefs] at this hr hr'
  cases exotic <;> cases exotic' <;> simp at this ⊢ <;> omega

theorem bitsDescriptor_inj {bits bits' : Nat} (hb : bits ≤ maxBits) (hb' : bits' ≤ maxBits)
    (h : UInt8.ofNat (bitsDescriptor bits) = UInt8.ofNat (bitsDescriptor bits')) :
    (bits + 7) / 8 = (bits' + 7) / 8 ∧ (bits % 8 = 0 ↔ bits' % 8 = 0) := by
  have := congrArg UInt8.toNat h
  simp only [UInt8.toNat_ofNat', bitsDescriptor, maxBits] at this hb hb'
  omega

-- Given how long its body is, a representation can be cut into its pieces again.
theorem representation_inj {bits bits' mask mask' l l' : Nat} {refs refs' : List Identity}
    {ty ty' : CellType} {body body' : Bytes} (hr : refs.length = refs'.length)
    (hb : body.length = body'.length)
    (h : representation bits refs ty mask l body = representation bits' refs' ty' mask' l' body') :
    body = body' ∧ List.Forall₂ (fun r r' =>
      r.hashAt (l + ty.childLevelShift) = r'.hashAt (l' + ty'.childLevelShift) ∧
      r.depthAt (l + ty.childLevelShift) = r'.depthAt (l' + ty'.childLevelShift)) refs refs' := by
  have depthLen (level : Nat) (r : Identity) : (depthBytes (r.depthAt level)).length = 2 :=
    Bytes.be_length ..
  have hashLen (level : Nat) (r : Identity) : ((r.hashAt level).bytes).length = 32 :=
    Hash.length_eq _
  have lens := List.length_flatMap_of_forall (depthLen (l + ty.childLevelShift)) refs
  have lens' := List.length_flatMap_of_forall (depthLen (l' + ty'.childLevelShift)) refs'
  simp only [representation, List.append_assoc] at h
  obtain ⟨_, h⟩ := List.append_inj h (by simp)
  obtain ⟨hbody, h⟩ := List.append_inj h hb
  obtain ⟨hdepths, hhashes⟩ := List.append_inj h (by rw [lens, lens', hr])
  have depths := List.forall₂_of_flatMap_eq (depthLen _) (depthLen _) hr hdepths
  have hashes := List.forall₂_of_flatMap_eq (hashLen _) (hashLen _) hr hhashes
  exact ⟨hbody, hashes.mp (fun _ _ hh hd => ⟨Hash.ext hh, depthBytes_inj hd⟩) depths⟩

theorem Tagged.bits_eq {data : Bytes} {bits bits' : Nat} (t : Tagged data bits)
    (t' : Tagged data bits') (h : bits % 8 = 0 ↔ bits' % 8 = 0) : bits = bits' := by
  have hl := t.length_eq
  have hl' := t'.length_eq
  by_cases h0 : bits % 8 = 0
  case pos =>
    have := h.mp h0
    omega
  case neg =>
    -- Both counts are the position of the last set bit.
    have ⟨set, clear⟩ := t.closed h0
    have ⟨set', clear'⟩ := t'.closed (mt h.mpr h0)
    by_contra hne
    cases Nat.lt_or_gt_of_ne hne
    case inl hlt => exact Bool.false_ne_true ((clear _ hlt).symm.trans set')
    case inr hgt => exact Bool.false_ne_true ((clear' _ hgt).symm.trans set)

namespace Cell

variable {c c' r : Cell} {level : Nat}

variable [Sha256]

-- Two cells that agree on everything they show, with references that answer alike from `level`.
structure Matches (c c' : Cell) (level : Nat) : Prop where
  cellType : c.cellType = c'.cellType
  bits     : c.bits = c'.bits
  data     : c.data = c'.data
  applied  : appliedMask c.levelMask level = appliedMask c'.levelMask level
  refs     : List.Forall₂ (fun r r' =>
    r.hashAt (level + c.cellType.childLevelShift) = r'.hashAt (level + c.cellType.childLevelShift) ∧
    r.depthAt (level + c.cellType.childLevelShift) =
      r'.depthAt (level + c.cellType.childLevelShift)) c.refs c'.refs

theorem Sound.cellType_eq (h : c.Sound) (h' : c'.Sound) (hd : c.data = c'.data)
    (he : decide (c.cellType ≠ .ordinary) = decide (c'.cellType ≠ .ordinary)) :
    c.cellType = c'.cellType := by
  have l := h.leading
  have l' := h'.leading
  rw [← hd] at l'
  cases ht : c.cellType <;> cases ht' : c'.cellType <;>
    simp_all [CellType.tag]

-- A pruned branch looks like no other kind from a level that shows it.
theorem Sound.pruned_of_descriptor (h : c.Sound) (h' : c'.Sound)
    (ht : c.cellType = .prunedBranch) (hr : c.RevealedAt level)
    (hlen : c.refs.length = c'.refs.length)
    (he : decide (c.cellType ≠ .ordinary) = decide (c'.cellType ≠ .ordinary))
    (ha : appliedMask c.levelMask level = appliedMask c'.levelMask level) :
    c'.cellType = .prunedBranch := by
  have hn : c'.refs.length = 0 := by simp [← hlen, h.refs_eq_nil (by rw [ht]; rfl)]
  have hm := h'.impliedMask_eq
  have arity := h'.arity
  rw [hr ht] at ha
  have hz := (h.branch ht).mask_ne_zero
  cases ht' : c'.cellType
  case prunedBranch => rfl
  case ordinary => simp [ht, ht'] at he
  case libraryReference =>
    rw [ht', impliedMask] at hm
    rw [hm, appliedMask_mask_zero] at ha
    exact absurd ha hz
  case merkleProof => simp [ht', CellType.expectedRefs, hn] at arity
  case merkleUpdate => simp [ht', CellType.expectedRefs, hn] at arity

-- What the two descriptor bytes of equal representations say.
structure Described (c c' : Cell) (level : Nat) : Prop where
  refs    : c.refs.length = c'.refs.length
  exotic  : decide (c.cellType ≠ .ordinary) = decide (c'.cellType ≠ .ordinary)
  applied : appliedMask c.levelMask level = appliedMask c'.levelMask level
  bytes   : (c.bits + 7) / 8 = (c'.bits + 7) / 8
  whole   : c.bits % 8 = 0 ↔ c'.bits % 8 = 0

theorem Sound.described (h : c.Sound) (h' : c'.Sound)
    (str : c.representationAt level = c'.representationAt level) : c.Described c' level := by
  simp only [representationAt, representation, List.cons_append, List.cons.injEq] at str
  obtain ⟨d₁, d₂, _⟩ := str
  simp only [List.length_map] at d₁
  obtain ⟨refs, exotic, applied⟩ :=
    refsDescriptor_inj h.refs_le h'.refs_le h.mask_lt h'.mask_lt d₁
  rw [appliedMask_openedAt h.mask_lt, appliedMask_openedAt h'.mask_lt] at applied
  obtain ⟨bytes, whole⟩ := bitsDescriptor_inj h.bits_le h'.bits_le d₂
  exact ⟨refs, exotic, applied, bytes, whole⟩

theorem Described.length_eq (d : c.Described c' level) (h : c.Sound) (h' : c'.Sound) :
    c.data.length = c'.data.length := by
  rw [h.tagged.length_eq, h'.tagged.length_eq, d.bytes]

theorem Described.pruned_iff (d : c.Described c' level) (h : c.Sound) (h' : c'.Sound)
    (hr : c.RevealedAt level) (hr' : c'.RevealedAt level) :
    c.cellType = .prunedBranch ↔ c'.cellType = .prunedBranch where
  mp ht  := h.pruned_of_descriptor h' ht hr d.refs d.exotic d.applied
  mpr ht := h'.pruned_of_descriptor h ht hr' d.refs.symm d.exotic.symm d.applied.symm

variable {strings : List Bytes}

-- The induction is on the level: where the body is a hash it is the same two cells' hash at a lower
-- level, and that says already what they hold.
theorem matches_of_hashAt_eq (cf : CollisionFree strings) (h : c.WellFormed) (h' : c'.WellFormed)
    (hs : c.hashed ⊆ strings) (hs' : c'.hashed ⊆ strings)
    (hr : c.RevealedAt level) (hr' : c'.RevealedAt level)
    (heq : c.hashAt level = c'.hashAt level) : c.Matches c' level := by
  induction level using Nat.strong_induction_on
  case _ level hi =>
  rw [h.sound.hashAt_eq hr, h'.sound.hashAt_eq hr'] at heq
  have str := cf _ (hs (representationAt_mem_hashed hr)) _ (hs' (representationAt_mem_hashed hr')) heq
  have d := h.sound.described h'.sound str
  have pruned := d.pruned_iff h.sound h'.sound hr hr'
  have opened : openedAt c.levelMask level = openedAt c'.levelMask level := by
    rw [openedAt, d.applied, openedAt]
  have lengths : (c.bodyAt level).length = (c'.bodyAt level).length := by
    simp only [bodyAt, pruned, d.applied]
    split
    case isTrue => exact d.length_eq h.sound h'.sound
    case isFalse => rw [Hash.length_eq, Hash.length_eq]
  obtain ⟨body, refs⟩ := representation_inj (by simp [d.refs]) lengths str
  have content : c.cellType = c'.cellType ∧ c.bits = c'.bits ∧ c.data = c'.data := by
    simp only [bodyAt, pruned, d.applied] at body
    split at body
    case isTrue =>
      have bits := h.sound.tagged.bits_eq (body ▸ h'.sound.tagged) d.whole
      exact ⟨h.sound.cellType_eq h'.sound body d.exotic, bits, body⟩
    case isFalse hb =>
      rw [opened] at body
      obtain ⟨np, hz⟩ := not_or.mp hb
      have below : openedAt c'.levelMask level - 1 < level := by
        have := openedAt_le h'.sound.mask_lt level
        have := openedAt_pos hz
        omega
      have m := hi _ below (fun ht => absurd (pruned.mp ht) np) (fun ht => absurd ht np)
        (Hash.ext body)
      exact ⟨m.cellType, m.bits, m.data⟩
  refine ⟨content.left, content.right.left, content.right.right, d.applied, ?_⟩
  rw [List.forall₂_map_left_iff, List.forall₂_map_right_iff] at refs
  refine refs.imp_mem fun r hr r' hr' same => ?_
  obtain ⟨hash, depth⟩ := same
  have own := h.appliedMask_ref hr (appliedMask_openedAt h.sound.mask_lt level)
  have own' := h'.appliedMask_ref hr' (appliedMask_openedAt h'.sound.mask_lt level)
  rw [← content.left] at own' hash depth
  exact ⟨(hashAt_congr own).symm.trans (hash.trans (hashAt_congr own')),
    (depthAt_congr own).symm.trans (depth.trans (depthAt_congr own'))⟩

end Cell

end TonNet
