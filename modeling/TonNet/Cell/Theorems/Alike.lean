import TonNet.Cell.Theorems.WellFormed

-- Cells that answer alike from below: what a parent hashes of its references is how they answer, so
-- references may be exchanged for others that answer alike.

namespace TonNet

theorem depthOver_congr {refs refs' : List Identity} {l : Nat}
    (h : List.Forall₂ (fun r r' => r.depthAt l = r'.depthAt l) refs refs') :
    depthOver refs l = depthOver refs' l := by
  unfold depthOver
  generalize (0 : UInt16) = depth
  induction h generalizing depth
  case nil => rfl
  case cons hd _ hi => simp only [List.foldl_cons, hd, hi]

theorem representation_congr {bits mask mask' l : Nat} {refs refs' : List Identity}
    {ty : CellType} {body : Bytes} (hm : appliedMask mask l = appliedMask mask' l)
    (h : List.Forall₂ (fun r r' => r.hashAt (l + ty.childLevelShift) =
      r'.hashAt (l + ty.childLevelShift) ∧ r.depthAt (l + ty.childLevelShift) =
      r'.depthAt (l + ty.childLevelShift)) refs refs') :
    representation bits refs ty mask l body = representation bits refs' ty mask' l body := by
  have depths : refs.flatMap (fun r => depthBytes (r.depthAt (l + ty.childLevelShift))) =
      refs'.flatMap fun r => depthBytes (r.depthAt (l + ty.childLevelShift)) :=
    List.flatMap_eq_of_forall₂ <| h.imp fun _ _ a => congrArg depthBytes a.right
  have hashes : refs.flatMap (fun r => (r.hashAt (l + ty.childLevelShift)).bytes) =
      refs'.flatMap fun r => (r.hashAt (l + ty.childLevelShift)).bytes :=
    List.flatMap_eq_of_forall₂ <| h.imp fun _ _ a => congrArg Hash.bytes a.left
  simp only [representation, refsDescriptor, h.length_eq, hm, depths, hashes]

theorem appliedMask_childrenMask_congr {refs refs' : List Identity} {l : Nat}
    (h : List.Forall₂ (fun r r' => appliedMask r.levelMask l = appliedMask r'.levelMask l)
      refs refs') :
    appliedMask (childrenMask refs) l = appliedMask (childrenMask refs') l := by
  have step : ∀ acc acc', appliedMask acc l = appliedMask acc' l →
      appliedMask (refs.foldl (fun acc child => acc ||| child.levelMask) acc) l =
        appliedMask (refs'.foldl (fun acc child => acc ||| child.levelMask) acc') l := by
    induction h
    case nil => exact fun _ _ => id
    case cons hd _ hi =>
      intro acc acc' ha
      exact hi _ _ (by rw [appliedMask_or, appliedMask_or, ha, hd])
  exact step 0 0 rfl

namespace Cell

-- Two cells that no level up to `top` tells apart.
structure Alike (c c' : Cell) (top : Nat) : Prop where
  applied : appliedMask c.levelMask top = appliedMask c'.levelMask top
  hash    : ∀ l ≤ top, c.hashAt l = c'.hashAt l
  depth   : ∀ l ≤ top, c.depthAt l = c'.depthAt l

variable {c c' : Cell} {top : Nat}

theorem Alike.refl (c : Cell) (top : Nat) : c.Alike c top :=
  ⟨rfl, fun _ _ => rfl, fun _ _ => rfl⟩

theorem Alike.symm (a : c.Alike c' top) : c'.Alike c top :=
  ⟨a.applied.symm, fun l hl => (a.hash l hl).symm, fun l hl => (a.depth l hl).symm⟩

variable [Sha256]

-- The same parts over references that answer alike.
structure Over (c c' : Cell) (top : Nat) : Prop where
  cellType : c.cellType = c'.cellType
  bits     : c.bits = c'.bits
  data     : c.data = c'.data
  refs     : List.Forall₂ (Alike · · (top + c.cellType.childLevelShift)) c.refs c'.refs

namespace Over

theorem applied (o : c.Over c' top) (h : c.WellFormed) (h' : c'.WellFormed)
    (np : c.cellType ≠ .prunedBranch) :
    appliedMask c.levelMask top = appliedMask c'.levelMask top := by
  have hm := h.sound.impliedMask_eq
  have hm' := h'.sound.impliedMask_eq
  have hlt := childrenMask_refs_lt h.refs
  have hlt' := childrenMask_refs_lt h'.refs
  have masks := appliedMask_childrenMask_congr (List.forall₂_map_left_iff.mpr <|
    List.forall₂_map_right_iff.mpr <| o.refs.imp fun _ _ => Alike.applied)
  rw [← o.cellType] at hm'
  cases ht : c.cellType <;> rw [ht] at hm hm' masks
  case prunedBranch => exact absurd ht np
  case ordinary => rw [hm, hm']; exact masks
  case libraryReference => rw [hm, hm']; rfl
  case merkleProof =>
    rw [hm, hm']
    exact (appliedMask_shiftRight hlt top).trans (masks ▸ (appliedMask_shiftRight hlt' top).symm)
  case merkleUpdate =>
    rw [hm, hm']
    exact (appliedMask_shiftRight hlt top).trans (masks ▸ (appliedMask_shiftRight hlt' top).symm)

-- A level's body is the data or the hash of a lower level, so the induction is on the level.
theorem hash (o : c.Over c' top) (h : c.WellFormed) (h' : c'.WellFormed)
    (np : c.cellType ≠ .prunedBranch) : ∀ l ≤ top, c.hashAt l = c'.hashAt l := by
  intro l
  induction l using Nat.strong_induction_on
  case _ l hi =>
  intro hl
  have np' : c'.cellType ≠ .prunedBranch := o.cellType ▸ np
  have below {l : Nat} (hl : l ≤ top) :=
    appliedMask_congr_of_le h.sound.mask_lt h'.sound.mask_lt (o.applied h h' np) hl
  have opened : openedAt c.levelMask l = openedAt c'.levelMask l := by
    rw [openedAt, below hl, openedAt]
  have hle := openedAt_le h'.sound.mask_lt l
  have body : c.bodyAt l = c'.bodyAt l := by
    simp only [bodyAt, np, np', false_or, below hl]
    split
    case isTrue => exact o.data
    case isFalse hz =>
      have pos := openedAt_pos hz
      rw [opened, hi _ (by omega) (by omega)]
  rw [h.sound.hashAt_eq fun ht => absurd ht np, h'.sound.hashAt_eq fun ht => absurd ht np',
    representationAt, representationAt, opened, body, o.bits, ← o.cellType]
  refine congrArg _ (representation_congr (below (by omega)) ?_)
  rw [List.forall₂_map_left_iff, List.forall₂_map_right_iff]
  exact o.refs.imp fun _ _ a => ⟨a.hash _ (by omega), a.depth _ (by omega)⟩

theorem depth (o : c.Over c' top) (h : c.WellFormed) (h' : c'.WellFormed)
    (np : c.cellType ≠ .prunedBranch) : ∀ l ≤ top, c.depthAt l = c'.depthAt l := by
  intro l hl
  have np' : c'.cellType ≠ .prunedBranch := o.cellType ▸ np
  have below := appliedMask_congr_of_le h.sound.mask_lt h'.sound.mask_lt (o.applied h h' np) hl
  have hle := openedAt_le h'.sound.mask_lt l
  have opened : openedAt c.levelMask l = openedAt c'.levelMask l := by
    rw [openedAt, below, openedAt]
  rw [depthAt, (h.sound.answers np l).depth, depthAt, (h'.sound.answers np' l).depth, opened,
    ← o.cellType]
  apply depthOver_congr
  rw [List.forall₂_map_left_iff, List.forall₂_map_right_iff]
  exact o.refs.imp fun _ _ a => a.depth _ (by omega)

theorem alike (o : c.Over c' top) (h : c.WellFormed) (h' : c'.WellFormed)
    (np : c.cellType ≠ .prunedBranch) : c.Alike c' top :=
  ⟨o.applied h h' np, o.hash h h' np, o.depth h h' np⟩

end Over

end Cell

end TonNet
