import TonNet.Cell.Basic

-- The cells a constructor of this crate can return, and the strings that were hashed to give them
-- their identities.

namespace TonNet

-- A cell's bytes hold exactly its bits: the last byte, when it is partial, closes with a set bit
-- and zeros.
structure Tagged (data : Bytes) (bits : Nat) : Prop where
  length_eq : data.length = (bits + 7) / 8
  closed    : bits % 8 ≠ 0 → data.bitAt bits = true ∧ ∀ i > bits, data.bitAt i = false

namespace Cell

-- What the body of a pruned branch states about itself.
structure Branch (c : Cell) : Prop where
  mask_ne_zero : c.levelMask ≠ 0
  mask_eq      : c.data[1]? = some (UInt8.ofNat c.levelMask)
  length_eq    : c.data.length = 2 + 34 * countOnes c.levelMask

-- The body of the representation that answers at `level`.
def bodyAt (c : Cell) (level : Nat) : Bytes :=
  if c.cellType = .prunedBranch ∨ appliedMask c.levelMask level = 0 then c.data
  else (c.hashAt (openedAt c.levelMask level - 1)).bytes

-- The string whose digest answers at `level`, for a cell that does not answer there with a hash it
-- stores.
def representationAt (c : Cell) (level : Nat) : Bytes :=
  representation c.bits (c.refs.map identity) c.cellType c.levelMask (openedAt c.levelMask level)
    (c.bodyAt level)

-- Every string hashed to build this one cell, and to build the tree under it.
def hashedHere (c : Cell) : List Bytes :=
  if c.cellType = .prunedBranch then [c.representationAt 3]
  else (List.range 4).map c.representationAt

def hashed (c : Cell) : List Bytes :=
  c.subcells.flatMap hashedHere

-- A level at which a cell answers with the digest of its own representation.
def RevealedAt (c : Cell) (level : Nat) : Prop :=
  c.cellType = .prunedBranch → appliedMask c.levelMask level = c.levelMask

theorem hashed_eq (c : Cell) : c.hashed = c.hashedHere ++ c.refs.flatMap hashed := by
  rw [hashed, subcells_eq, List.flatMap_cons, List.flatMap_assoc]
  rfl

theorem hashed_subset_of_mem {c r : Cell} (h : r ∈ c.refs) : r.hashed ⊆ c.hashed := by
  intro s hs
  rw [hashed_eq]
  exact List.mem_append_right _ (List.mem_flatMap.mpr ⟨r, h, hs⟩)

theorem hashed_subset_of_mem_subcells {c d : Cell} (h : d ∈ c.subcells) : d.hashed ⊆ c.hashed := by
  induction c
  case node c hi =>
    cases mem_subcells.mp h
    case inl e => exact e ▸ List.Subset.refl _
    case inr e =>
      have ⟨r, hr, hd⟩ := e
      exact List.Subset.trans (hi r hr hd) (hashed_subset_of_mem hr)

theorem representationAt_congr {c : Cell} {l l' : Nat}
    (h : appliedMask c.levelMask l = appliedMask c.levelMask l') :
    c.representationAt l = c.representationAt l' := by
  simp only [representationAt, bodyAt, openedAt, h]

theorem representationAt_mem_hashed {c : Cell} {level : Nat} (h : c.RevealedAt level) :
    c.representationAt level ∈ c.hashed := by
  rw [hashed_eq]
  apply List.mem_append_left
  unfold hashedHere
  split
  case isTrue hp =>
    have := (h hp).trans (appliedMask_of_three_le le_rfl).symm
    simp [representationAt_congr this]
  case isFalse =>
    have := appliedMask_min c.levelMask level
    rw [representationAt_congr this]
    exact List.mem_map.mpr ⟨_, List.mem_range.mpr (by omega), rfl⟩

variable [Sha256]

structure Sound (c : Cell) : Prop where
  bits_le : c.bits ≤ maxBits
  refs_le : c.refs.length ≤ maxRefs
  mask_lt : c.levelMask < 8
  tagged  : Tagged c.data c.bits
  leading : ∀ tag, c.cellType.tag = some tag → c.data.head? = some tag
  arity   : ∀ n, c.cellType.expectedRefs = some n → c.refs.length = n
  branch  : c.cellType = .prunedBranch → c.Branch
  summary : summarize c.data c.bits (c.refs.map identity) c.cellType c.levelMask = .ok c.identity

inductive WellFormed : Cell → Prop
  | intro {c : Cell} (refs : ∀ r ∈ c.refs, WellFormed r) (sound : c.Sound) : WellFormed c

namespace WellFormed

variable {c : Cell}

theorem refs (h : c.WellFormed) : ∀ r ∈ c.refs, r.WellFormed :=
  match h with | .intro refs _ => refs

theorem sound (h : c.WellFormed) : c.Sound :=
  match h with | .intro _ sound => sound

theorem subcells (h : c.WellFormed) : ∀ d ∈ c.subcells, d.WellFormed := by
  induction c
  case node c hi =>
    intro d hd
    cases mem_subcells.mp hd
    case inl hd => exact hd ▸ h
    case inr hd =>
      have ⟨r, hr, hd⟩ := hd
      exact hi r hr (h.refs r hr) d hd

theorem at? {d : Cell} {path : List Nat} (h : c.WellFormed) (hp : c.at? path = some d) :
    d.WellFormed :=
  h.subcells d (mem_subcells_iff_at?.mpr ⟨path, hp⟩)

end WellFormed

end Cell

end TonNet
