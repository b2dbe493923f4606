import Mathlib.Data.Nat.Bitwise
import Mathlib.Tactic.IntervalCases

-- The level-mask arithmetic that a cell's hashing is defined over. A mask is a three-bit number;
-- bit `i` of it says that the cell is significant at level `i + 1`.

namespace TonNet

-- `u8::count_ones`
def countOnes (n : Nat) : Nat :=
  (List.range 8).countP n.testBit

-- The highest level a mask marks, or zero for an empty mask.
def levelOf (mask : Nat) : Nat :=
  if mask = 0 then 0 else mask.log2 + 1

-- The mask as it applies at `level`: only the levels below it remain.
def appliedMask (mask level : Nat) : Nat :=
  if level ≥ 3 then mask else mask &&& ((1 <<< level) - 1)

-- Which of a cell's stored hashes answers for `level`.
def hashIndex (mask level : Nat) : Nat :=
  countOnes (appliedMask mask level)

-- The bit descriptor for a bit count: `floor(b/8) + ceil(b/8)`.
def bitsDescriptor (bits : Nat) : Nat :=
  bits / 8 + (bits + 7) / 8

-- The refs-and-type descriptor at a level: `r + 8s + 32l`.
def refsDescriptor (refs : Nat) (exotic : Bool) (mask level : Nat) : Nat :=
  refs + (if exotic then 8 else 0) + 32 * appliedMask mask level

-- The level whose pass of the hashing loop produced the hash that answers at `level`.
def openedAt (mask level : Nat) : Nat :=
  levelOf (appliedMask mask level)

theorem appliedMask_of_three_le {mask level : Nat} (h : 3 ≤ level) :
    appliedMask mask level = mask := by
  simp [appliedMask, h]

@[simp]
theorem appliedMask_level_zero (mask : Nat) : appliedMask mask 0 = 0 := by
  simp [appliedMask]

@[simp]
theorem appliedMask_mask_zero (level : Nat) : appliedMask 0 level = 0 := by
  simp [appliedMask]

@[simp]
theorem openedAt_level_zero (mask : Nat) : openedAt mask 0 = 0 := by
  simp [openedAt, levelOf]

theorem appliedMask_min (mask level : Nat) :
    appliedMask mask level = appliedMask mask (min level 3) := by
  by_cases h : level < 3
  case pos => rw [Nat.min_eq_left (by omega)]
  case neg => simp [appliedMask, show 3 ≤ level by omega]

theorem levelOf_le {mask : Nat} (hm : mask < 8) : levelOf mask ≤ 3 := by
  interval_cases mask <;> decide

theorem countOnes_le {mask : Nat} (hm : mask < 8) : countOnes mask ≤ 3 := by
  interval_cases mask <;> decide

theorem countOnes_eq_zero {mask : Nat} (hm : mask < 8) : countOnes mask = 0 ↔ mask = 0 := by
  interval_cases mask <;> decide

theorem mask_ne_zero_of_index {mask index : Nat} (h : index ≠ 0) (hi : index ≤ countOnes mask) :
    mask ≠ 0 := by
  rintro rfl
  exact h (Nat.le_zero.mp hi)

theorem appliedMask_lt {mask : Nat} (hm : mask < 8) (level : Nat) : appliedMask mask level < 8 := by
  have : ∀ level ≤ 3, appliedMask mask level < 8 := by interval_cases mask <;> decide
  rw [appliedMask_min]
  exact this _ (by omega)

theorem hashIndex_le {mask : Nat} (hm : mask < 8) (level : Nat) :
    hashIndex mask level ≤ countOnes mask := by
  have : ∀ level ≤ 3, hashIndex mask level ≤ countOnes mask := by interval_cases mask <;> decide
  rw [hashIndex, appliedMask_min]
  exact this _ (by omega)

-- Applied masks of one mask are told apart by how many levels they keep.
theorem appliedMask_eq_iff_hashIndex_eq {mask : Nat} (hm : mask < 8) (l l' : Nat) :
    appliedMask mask l = appliedMask mask l' ↔ hashIndex mask l = hashIndex mask l' := by
  have : ∀ l ≤ 3, ∀ l' ≤ 3,
      appliedMask mask l = appliedMask mask l' ↔ hashIndex mask l = hashIndex mask l' := by
    interval_cases mask <;> decide
  simp only [hashIndex]
  rw [appliedMask_min mask l, appliedMask_min mask l']
  exact this _ (by omega) _ (by omega)

theorem hashIndex_eq_countOnes_iff {mask : Nat} (hm : mask < 8) (level : Nat) :
    hashIndex mask level = countOnes mask ↔ appliedMask mask level = mask := by
  have whole : appliedMask mask 3 = mask := appliedMask_of_three_le le_rfl
  have h := appliedMask_eq_iff_hashIndex_eq hm level 3
  rw [whole] at h
  rw [h, hashIndex, hashIndex, whole]

theorem appliedMask_openedAt {mask : Nat} (hm : mask < 8) (level : Nat) :
    appliedMask mask (openedAt mask level) = appliedMask mask level := by
  have : ∀ level ≤ 3, appliedMask mask (openedAt mask level) = appliedMask mask level := by
    interval_cases mask <;> decide
  rw [openedAt, appliedMask_min mask level]
  exact this _ (by omega)

theorem openedAt_le {mask : Nat} (hm : mask < 8) (level : Nat) : openedAt mask level ≤ level := by
  by_cases h : level ≤ 3
  case pos =>
    have : ∀ level ≤ 3, openedAt mask level ≤ level := by interval_cases mask <;> decide
    exact this _ h
  case neg =>
    have := levelOf_le (appliedMask_lt hm level)
    simp only [openedAt]
    omega

theorem openedAt_le_levelOf {mask : Nat} (hm : mask < 8) (level : Nat) :
    openedAt mask level ≤ levelOf mask := by
  have : ∀ level ≤ 3, openedAt mask level ≤ levelOf mask := by interval_cases mask <;> decide
  rw [openedAt, appliedMask_min]
  exact this _ (by omega)

theorem openedAt_pos {mask level : Nat} (h : appliedMask mask level ≠ 0) :
    0 < openedAt mask level := by
  simp [openedAt, levelOf, h]

@[simp]
theorem hashIndex_level_zero (mask : Nat) : hashIndex mask 0 = 0 := by
  rw [hashIndex, appliedMask_level_zero]
  decide

theorem hashIndex_eq_zero_iff {mask : Nat} (hm : mask < 8) (level : Nat) :
    hashIndex mask level = 0 ↔ appliedMask mask level = 0 :=
  countOnes_eq_zero (appliedMask_lt hm level)

-- Going up one level either keeps the hash index or opens the next one.
theorem hashIndex_succ {mask : Nat} (hm : mask < 8) (level : Nat) :
    hashIndex mask (level + 1) = hashIndex mask level ∨
      hashIndex mask (level + 1) = hashIndex mask level + 1 ∧
        openedAt mask (level + 1) = level + 1 := by
  by_cases h : 3 ≤ level
  case pos =>
    have h' : 3 ≤ level + 1 := by omega
    left
    simp only [hashIndex, appliedMask_of_three_le h, appliedMask_of_three_le h']
  case neg =>
    have : ∀ level < 3, hashIndex mask (level + 1) = hashIndex mask level ∨
        hashIndex mask (level + 1) = hashIndex mask level + 1 ∧
          openedAt mask (level + 1) = level + 1 := by
      interval_cases mask <;> decide
    exact this level (by omega)

theorem hashIndex_mono {mask l l' : Nat} (hm : mask < 8) (h : l ≤ l') :
    hashIndex mask l ≤ hashIndex mask l' := by
  induction l', h using Nat.le_induction
  case base => exact le_rfl
  case succ l' _ hi =>
    have := hashIndex_succ hm l'
    omega

-- The levels of a child that matter to its parent: where the parent's mask does not tell two levels
-- apart, neither does the mask of a child it covers.
theorem appliedMask_congr_of_subset {mask child l l' : Nat} (hm : mask < 8) (hc : child < 8)
    (hs : child ||| mask = mask) (h : appliedMask mask l = appliedMask mask l') :
    appliedMask child l = appliedMask child l' := by
  have : ∀ child < 8, child ||| mask = mask → ∀ l ≤ 3, ∀ l' ≤ 3,
      appliedMask mask l = appliedMask mask l' → appliedMask child l = appliedMask child l' := by
    interval_cases mask <;> decide
  rw [appliedMask_min child l, appliedMask_min child l']
  rw [appliedMask_min mask l, appliedMask_min mask l'] at h
  exact this child hc hs _ (by omega) _ (by omega) h

theorem appliedMask_min_add_one (mask level : Nat) :
    appliedMask mask (level + 1) = appliedMask mask (min level 3 + 1) := by
  rw [appliedMask_min mask (level + 1), appliedMask_min mask (min level 3 + 1)]
  congr 1
  omega

-- The same for a Merkle cell, whose children answer one level up.
theorem appliedMask_congr_of_shift {mask child l l' : Nat} (hm : mask < 8) (hc : child < 8)
    (hs : child ||| mask = mask)
    (h : appliedMask (mask >>> 1) l = appliedMask (mask >>> 1) l') :
    appliedMask child (l + 1) = appliedMask child (l' + 1) := by
  have : ∀ child < 8, child ||| mask = mask → ∀ l ≤ 3, ∀ l' ≤ 3,
      appliedMask (mask >>> 1) l = appliedMask (mask >>> 1) l' →
        appliedMask child (l + 1) = appliedMask child (l' + 1) := by
    interval_cases mask <;> decide
  rw [appliedMask_min_add_one child l, appliedMask_min_add_one child l']
  rw [appliedMask_min _ l, appliedMask_min _ l'] at h
  exact this child hc hs _ (by omega) _ (by omega) h

theorem appliedMask_appliedMask {mask l l' : Nat} (hm : mask < 8) (h : l ≤ l') :
    appliedMask (appliedMask mask l') l = appliedMask mask l := by
  have : ∀ l' ≤ 3, ∀ l ≤ l', appliedMask (appliedMask mask l') l = appliedMask mask l := by
    interval_cases mask <;> decide
  rw [appliedMask_min _ l', appliedMask_min _ l, appliedMask_min mask l]
  exact this _ (by omega) _ (by omega)

-- Masks that apply alike at a level apply alike below it.
theorem appliedMask_congr_of_le {mask mask' l l' : Nat} (hm : mask < 8) (hm' : mask' < 8)
    (h : appliedMask mask l' = appliedMask mask' l') (hl : l ≤ l') :
    appliedMask mask l = appliedMask mask' l := by
  rw [← appliedMask_appliedMask hm hl, h, appliedMask_appliedMask hm' hl]

theorem appliedMask_or (mask mask' level : Nat) :
    appliedMask (mask ||| mask') level = appliedMask mask level ||| appliedMask mask' level := by
  unfold appliedMask
  split
  case isTrue => rfl
  case isFalse => rw [Nat.and_or_distrib_right]

theorem appliedMask_shiftRight {mask : Nat} (hm : mask < 8) (level : Nat) :
    appliedMask (mask >>> 1) level = appliedMask mask (level + 1) >>> 1 := by
  have : ∀ level ≤ 3, appliedMask (mask >>> 1) level = appliedMask mask (level + 1) >>> 1 := by
    interval_cases mask <;> decide
  rw [appliedMask_min, appliedMask_min_add_one]
  exact this _ (by omega)

end TonNet
