import TonNet.Cell.Identity

-- What `compute` returns, level by level: one equation for the hash and one for the depth that
-- answer at any level. Nothing above this module unfolds the hashing loop.

namespace TonNet

open Fallible

namespace Identity

variable {identity : Identity} {mask : Nat}

-- An identity with room for the hashes its mask calls for.
structure Fits (identity : Identity) (mask : Nat) : Prop where
  levelMask : identity.levelMask = mask
  extra     : mask ≠ 0 → ∃ extra, identity.extra = some extra ∧
    extra.hashes.length = 3 ∧ extra.depths.length = 3

theorem blank_fits (hm : mask < 8) : ∃ identity, blank mask = .ok identity ∧ identity.Fits mask := by
  have hc := countOnes_le hm
  refine ⟨_, failIf_bind_eq_ok.mpr ⟨?_, rfl⟩, rfl, fun hz => ?_⟩
  · simp only [maxHashes]
    omega
  have := mt (countOnes_eq_zero hm).mp hz
  rw [if_pos (by omega)]
  exact ⟨_, rfl, by simp [maxHashes], by simp [maxHashes]⟩

namespace Fits

theorem count (f : identity.Fits mask) : identity.count = countOnes mask + 1 := by
  rw [Identity.count, f.levelMask]

theorem hash_ne_none (f : identity.Fits mask) (hm : mask < 8) {index : Nat}
    (hi : index ≤ countOnes mask) : identity.hash index ≠ none := by
  unfold Identity.hash
  split
  case isTrue => simp
  case isFalse h0 =>
    have hz := mask_ne_zero_of_index h0 hi
    have ⟨_, he, hh, _⟩ := f.extra hz
    have := countOnes_le hm
    rw [if_neg (by rw [f.count]; omega), he]
    simp
    omega

theorem depth_ne_none (f : identity.Fits mask) (hm : mask < 8) {index : Nat}
    (hi : index ≤ countOnes mask) : identity.depth index ≠ none := by
  unfold Identity.depth
  split
  case isTrue => simp
  case isFalse h0 =>
    have hz := mask_ne_zero_of_index h0 hi
    have ⟨_, he, _, hd⟩ := f.extra hz
    have := countOnes_le hm
    rw [if_neg (by rw [f.count]; omega), he]
    simp
    omega

-- A hash by level is a hash by position; neither fallback of `hash_at` is ever taken.
theorem hash_hashIndex (f : identity.Fits mask) (hm : mask < 8) (level : Nat) :
    identity.hash (hashIndex mask level) = some (identity.hashAt level) := by
  have hi := hashIndex_le hm level
  have ⟨h, hh⟩ := Option.ne_none_iff_exists'.mp (f.hash_ne_none hm hi)
  simp [hashAt, f.levelMask, f.count, hi, hh]

theorem depth_hashIndex (f : identity.Fits mask) (hm : mask < 8) (level : Nat) :
    identity.depth (hashIndex mask level) = some (identity.depthAt level) := by
  have hi := hashIndex_le hm level
  have ⟨d, hd⟩ := Option.ne_none_iff_exists'.mp (f.depth_ne_none hm hi)
  simp [depthAt, f.levelMask, f.count, hi, hd]

-- Writing one position succeeds and leaves every other position as it was.
theorem set (f : identity.Fits mask) (hm : mask < 8) {index : Nat} (hi : index ≤ countOnes mask)
    (hash : Hash) (depth : UInt16) :
    ∃ identity', identity.set index hash depth = .ok identity' ∧ identity'.Fits mask ∧
      (identity'.hash index = some hash ∧ identity'.depth index = some depth) ∧
      ∀ j ≠ index, identity'.hash j = identity.hash j ∧ identity'.depth j = identity.depth j := by
  by_cases h0 : index = 0
  case pos =>
    refine ⟨{ identity with hash0 := hash, depth0 := depth }, ?_, ⟨f.levelMask, f.extra⟩, ?_, ?_⟩
    · simp [Identity.set, h0]
    · simp [Identity.hash, Identity.depth, h0]
    · intro j hj
      simp [Identity.hash, Identity.depth, Identity.count, h0 ▸ hj]
  case neg =>
    have hz := mask_ne_zero_of_index h0 hi
    have ⟨extra, he, hh, hd⟩ := f.extra hz
    have := countOnes_le hm
    refine ⟨⟨identity.levelMask, identity.hash0, identity.depth0,
      some ⟨extra.hashes.set (index - 1) hash, extra.depths.set (index - 1) depth⟩⟩, ?_, ?_, ?_, ?_⟩
    · rw [Identity.set, if_neg h0]
      simp only [okOr_bind_eq_ok, failIf_bind_eq_ok, pure_eq_ok]
      exact ⟨extra, he, by omega, by omega, rfl⟩
    · exact ⟨f.levelMask, fun _ => ⟨_, rfl, by simpa using hh, by simpa using hd⟩⟩
    · have hc : index - 1 < 3 ∧ ¬countOnes identity.levelMask + 1 ≤ index := by
        rw [f.levelMask]
        omega
      simp [Identity.hash, Identity.depth, Identity.count, h0, hc, hh, hd]
    · intro j hj
      by_cases hj0 : j = 0
      case pos => simp [Identity.hash, Identity.depth, hj0]
      case neg =>
        have hne : index - 1 ≠ j - 1 := by omega
        simp [Identity.hash, Identity.depth, Identity.count, hj0, he, hne]

end Fits

end Identity

-- The body of the representation that answers at `level`.
def bodyOver (data : Bytes) (mask : Nat) (identity : Identity) (level : Nat) : Bytes :=
  if appliedMask mask level = 0 then data
  else (identity.hashAt (openedAt mask level - 1)).bytes

variable {data : Bytes} {bits : Nat} {refs : List Identity} {cellType : CellType}
variable {mask : Nat} {identity : Identity}

theorem depthBytes_inj {d d' : UInt16} (h : depthBytes d = depthBytes d') : d = d' :=
  UInt16.toNat_inj.mp (Bytes.be_inj d.toNat_lt d'.toNat_lt h)

theorem readHash_eq_ok {start : Nat} {h : Hash} :
    readHash data start = .ok h ↔ (data.drop start).take 32 = h.bytes := by
  rw [readHash, okOr_eq_ok, Hash.ofBytes?_eq_some]

theorem depthOf?_eq_some {bytes : Bytes} {d : UInt16} :
    depthOf? bytes = some d ↔ bytes = depthBytes d := by
  constructor
  case mp =>
    intro h
    unfold depthOf? at h
    split at h
    case h_2 => simp at h
    case h_1 high low =>
      obtain rfl := Option.some_inj.mp h
      have hh := high.toNat_lt
      have hl := low.toNat_lt
      have hn : (UInt16.ofNat (high.toNat * 256 + low.toNat)).toNat =
          high.toNat * 256 + low.toNat := by
        rw [UInt16.toNat_ofNat']
        omega
      rw [depthBytes, hn]
      simp only [Bytes.be, List.nil_append, List.cons_append, List.cons.injEq, and_true]
      constructor <;> (apply UInt8.toNat_inj.mp; rw [UInt8.toNat_ofNat']; omega)
  case mpr =>
    rintro rfl
    have hd := d.toNat_lt
    simp only [depthBytes, Bytes.be, List.nil_append, List.cons_append, depthOf?, Option.some_inj]
    apply UInt16.toNat_inj.mp
    rw [UInt16.toNat_ofNat', UInt8.toNat_ofNat', UInt8.toNat_ofNat']
    omega

theorem readDepth_eq_ok {start : Nat} {d : UInt16} :
    readDepth data start = .ok d ↔ (data.drop start).take 2 = depthBytes d := by
  rw [readDepth, okOr_eq_ok, depthOf?_eq_some]

theorem depthBytes_length (depth : UInt16) : (depthBytes depth).length = 2 :=
  Bytes.be_length ..

theorem exists_depthBytes {bytes : Bytes} (h : bytes.length = 2) : ∃ d, bytes = depthBytes d := by
  have ⟨high, low, hb⟩ := List.length_eq_two.mp h
  exact ⟨_, depthOf?_eq_some.mp (by rw [hb]; rfl)⟩

-- The hash and the depth a pruned branch stores at a position, as they lie in its data.
structure Stores (data : Bytes) (stored index : Nat) (hash : Hash) (depth : UInt16) : Prop where
  hash  : (data.drop (2 + 32 * index)).take 32 = hash.bytes
  depth : (data.drop (2 + 32 * stored + 2 * index)).take 2 = depthBytes depth

theorem Stores.unique {stored index : Nat} {hash hash' : Hash} {depth depth' : UInt16}
    (h : Stores data stored index hash depth) (h' : Stores data stored index hash' depth') :
    hash = hash' ∧ depth = depth' :=
  ⟨Hash.ext (h.hash.symm.trans h'.hash), depthBytes_inj (h.depth.symm.trans h'.depth)⟩

-- The body of a branch that answers with the given hashes and depths, lowest first.
def storedBody (mask : UInt8) (answers : List (Hash × UInt16)) : Bytes :=
  [0x01, mask] ++ answers.flatMap (·.1.bytes) ++ answers.flatMap (depthBytes ·.2)

theorem storedBody_hashes_length (answers : List (Hash × UInt16)) :
    (answers.flatMap (·.1.bytes)).length = 32 * answers.length := by
  rw [List.length_flatMap_of_forall fun a : Hash × UInt16 => a.1.length_eq, Nat.mul_comm]

theorem storedBody_depths_length (answers : List (Hash × UInt16)) :
    (answers.flatMap (depthBytes ·.2)).length = 2 * answers.length := by
  rw [List.length_flatMap_of_forall fun a : Hash × UInt16 => depthBytes_length a.2, Nat.mul_comm]

theorem storedBody_length (mask : UInt8) (answers : List (Hash × UInt16)) :
    (storedBody mask answers).length = 2 + 34 * answers.length := by
  rw [storedBody, List.length_append, List.length_append, storedBody_hashes_length,
    storedBody_depths_length, List.length_cons, List.length_singleton]
  omega

theorem stores_storedBody (maskByte : UInt8) {answers : List (Hash × UInt16)} {index : Nat}
    {hash : Hash} {depth : UInt16} (h : answers[index]? = some (hash, depth)) :
    Stores (storedBody maskByte answers) answers.length index hash depth := by
  have hi := (List.getElem?_eq_some_iff.mp h).1
  have hashes := storedBody_hashes_length answers
  constructor
  case hash =>
    have opening : ([0x01, maskByte] : Bytes).length = 2 := rfl
    rw [storedBody, List.append_assoc, ← List.drop_drop, List.drop_left' opening,
      List.drop_append_of_le_length (by omega),
      List.take_append_of_le_length (by rw [List.length_drop]; omega)]
    exact List.take_drop_flatMap (fun a : Hash × UInt16 => a.1.length_eq) h
  case depth =>
    rw [storedBody, ← List.drop_drop, List.drop_left' (by simp [hashes]; omega)]
    exact List.take_drop_flatMap (fun a : Hash × UInt16 => depthBytes_length a.2) h

-- Copying the stored hashes: positions below `k` hold what the data stores for them.
structure CopiedBelow (data : Bytes) (mask k : Nat) (identity : Identity) : Prop where
  fits   : identity.Fits mask
  stores : ∀ j < k, ∃ hash depth, identity.hash j = some hash ∧ identity.depth j = some depth ∧
    Stores data (countOnes mask) j hash depth

theorem CopiedBelow.step {k : Nat} (hm : mask < 8) (hl : data.length = 2 + 34 * countOnes mask)
    (hk : k < countOnes mask) (h : CopiedBelow data mask k identity) :
    ∃ identity', copyStored data (countOnes mask) identity k = .ok identity' ∧
      CopiedBelow data mask (k + 1) identity' := by
  have len : ((data.drop (2 + 32 * k)).take 32).length = 32 := by
    simp
    omega
  have hh : readHash data (2 + 32 * k) = .ok ⟨_, len⟩ := readHash_eq_ok.mpr rfl
  have ⟨depth, sd⟩ : ∃ d, (data.drop (2 + 32 * countOnes mask + 2 * k)).take 2 = depthBytes d := by
    apply exists_depthBytes
    simp
    omega
  have hd := readDepth_eq_ok.mpr sd
  have ⟨identity', hs, f', ⟨hash', depth'⟩, frame⟩ := h.fits.set hm hk.le ⟨_, len⟩ depth
  refine ⟨identity', ?_, f', fun j hj => ?_⟩
  · rw [copyStored, hh, ok_bind, hd, ok_bind, hs]
  · by_cases hjk : j < k
    case pos =>
      have ⟨same, same'⟩ := frame j (by omega)
      rw [same, same']
      exact h.stores j hjk
    case neg =>
      obtain rfl : j = k := by omega
      exact ⟨_, _, hash', depth', rfl, sd⟩

variable [Sha256]

-- The rule a level answers by: the representation is taken at the level that opened its hash index,
-- and the depth is one over the references at that same level.
structure Answers (data : Bytes) (bits : Nat) (refs : List Identity) (cellType : CellType)
    (mask : Nat) (identity : Identity) (level : Nat) : Prop where
  hash  : identity.hashAt level = Sha256.digest (representation bits refs cellType mask
    (openedAt mask level) (bodyOver data mask identity level))
  depth : identity.depthAt level =
    depthOver refs (openedAt mask level + cellType.childLevelShift)

theorem Answers.congr {l l' : Nat} (f : identity.Fits mask)
    (h : Answers data bits refs cellType mask identity l)
    (ha : appliedMask mask l = appliedMask mask l') :
    Answers data bits refs cellType mask identity l' where
  hash  := by
    have := h.hash
    simp only [openedAt, bodyOver, Identity.hashAt, f.levelMask, hashIndex, ha] at this ⊢
    exact this
  depth := by
    have := h.depth
    simp only [openedAt, Identity.depthAt, f.levelMask, hashIndex, ha] at this ⊢
    exact this

-- A level keeps its answer when only positions above its own are written.
theorem Answers.frame {l : Nat} {identity' : Identity} (hm : mask < 8) (f : identity.Fits mask)
    (f' : identity'.Fits mask) (h : Answers data bits refs cellType mask identity l)
    (hs : ∀ j ≤ hashIndex mask l,
      identity'.hash j = identity.hash j ∧ identity'.depth j = identity.depth j) :
    Answers data bits refs cellType mask identity' l := by
  have hash : ∀ k ≤ l, identity'.hashAt k = identity.hashAt k := by
    intro k hk
    have := (hs _ (hashIndex_mono hm hk)).left
    rw [f.hash_hashIndex hm, f'.hash_hashIndex hm] at this
    exact Option.some_inj.mp this
  constructor
  case hash =>
    have := openedAt_le hm l
    rw [hash l le_rfl, h.hash, bodyOver, bodyOver, hash _ (by omega)]
  case depth =>
    have := (hs _ le_rfl).right
    rw [f.depth_hashIndex hm, f'.depth_hashIndex hm] at this
    rw [Option.some_inj.mp this, h.depth]

-- Where the hashing loop stands before level `k`: every level below already answers as it will in
-- the end, and the next position to write is one past the highest of theirs.
structure HashedBelow (data : Bytes) (bits : Nat) (refs : List Identity) (cellType : CellType)
    (mask k : Nat) (acc : Identity × Nat) : Prop where
  fits    : acc.1.Fits mask
  written : acc.2 = if k = 0 then 0 else hashIndex mask (k - 1) + 1
  answers : ∀ l < k, Answers data bits refs cellType mask acc.1 l

namespace HashedBelow

variable {k : Nat} {acc : Identity × Nat}

-- A level that opens no new index answers as the level below it does.
theorem skip (hm : mask < 8) (h : HashedBelow data bits refs cellType mask (k + 1) acc)
    (hk : hashIndex mask (k + 1) = hashIndex mask k) :
    HashedBelow data bits refs cellType mask (k + 2) acc where
  fits    := h.fits
  written := by simpa [hk] using h.written
  answers := by
    intro l hl
    by_cases hlk : l < k + 1
    case pos => exact h.answers l hlk
    case neg =>
      obtain rfl : l = k + 1 := by omega
      have ha := (appliedMask_eq_iff_hashIndex_eq hm k (k + 1)).mpr hk.symm
      exact (h.answers k (by omega)).congr h.fits ha

theorem levelBody_eq (hm : mask < 8) (h : HashedBelow data bits refs cellType mask k acc)
    (hk : hashIndex mask k = acc.2) (ho : openedAt mask k = k) :
    levelBody data acc.1 acc.2 = bodyOver data mask acc.1 k := by
  by_cases h0 : acc.2 = 0
  case pos =>
    have := (hashIndex_eq_zero_iff hm k).mp (hk.trans h0)
    simp [levelBody, h0, bodyOver, this]
  case neg =>
    have hz := mt (hashIndex_eq_zero_iff hm k).mpr (hk ▸ h0)
    have hw := h.written
    rw [if_neg (by rintro rfl; simp at hw; exact h0 hw)] at hw
    have := h.fits.hash_hashIndex hm (k - 1)
    rw [levelBody, if_neg h0, hw, Nat.add_sub_cancel, this]
    simp [bodyOver, hz, ho]

-- A level that does open an index is hashed over the level below it, or over the data if there is
-- none below.
theorem hashed (hm : mask < 8) (h : HashedBelow data bits refs cellType mask k acc)
    (hk : hashIndex mask k = acc.2) (ho : openedAt mask k = k) :
    ∃ acc', computeLevel data bits refs cellType mask acc k = .ok acc' ∧
      HashedBelow data bits refs cellType mask (k + 1) acc' := by
  have hi : acc.2 ≤ countOnes mask := hk ▸ hashIndex_le hm k
  have body := h.levelBody_eq hm hk ho
  have ⟨identity', hs, f', ⟨hash, depth⟩, frame⟩ := h.fits.set hm hi
    (Sha256.digest (representation bits refs cellType mask k (bodyOver data mask acc.1 k)))
    (depthOver refs (k + cellType.childLevelShift))
  refine ⟨(identity', acc.2 + 1), ?_, f', ?_, ?_⟩
  · rw [computeLevel, if_neg (by simpa using hk)]
    simp only [body, hs]
    rfl
  · simp [hk]
  · intro l hl
    by_cases hlk : l < k
    case pos =>
      refine (h.answers l hlk).frame hm h.fits f' (fun j hj => frame j ?_)
      have hw := h.written
      rw [if_neg (by omega)] at hw
      have := hashIndex_mono hm (show l ≤ k - 1 by omega)
      omega
    case neg =>
      obtain rfl : l = k := by omega
      rw [← hk, f'.hash_hashIndex hm, Option.some_inj] at hash
      rw [← hk, f'.depth_hashIndex hm, Option.some_inj] at depth
      have same : bodyOver data mask identity' l = bodyOver data mask acc.1 l := by
        by_cases hz : appliedMask mask l = 0
        case pos => simp [bodyOver, hz]
        case neg =>
          have hpos := openedAt_pos hz
          have hw := h.written
          rw [if_neg (by omega)] at hw
          have := (frame (hashIndex mask (l - 1)) (by omega)).left
          rw [h.fits.hash_hashIndex hm, f'.hash_hashIndex hm, Option.some_inj] at this
          simp [bodyOver, hz, ho, this]
      exact ⟨by rw [hash, ho, same], by rw [depth, ho]⟩

theorem step (hm : mask < 8) (h : HashedBelow data bits refs cellType mask k acc) :
    ∃ acc', computeLevel data bits refs cellType mask acc k = .ok acc' ∧
      HashedBelow data bits refs cellType mask (k + 1) acc' := by
  have hw := h.written
  cases k
  case zero => exact h.hashed hm (by simpa using hw.symm) (by simp)
  case succ k =>
    simp only [Nat.add_one_ne_zero, if_false, Nat.add_sub_cancel] at hw
    cases hashIndex_succ hm k
    case inl hk =>
      refine ⟨acc, ?_, h.skip hm hk⟩
      rw [computeLevel, if_pos (by omega)]
      rfl
    case inr hk => exact h.hashed hm (by omega) hk.right

end HashedBelow

-- Off the pruned branches hashing cannot fail, and every level answers by the rule.
theorem compute_of_not_pruned (data : Bytes) (bits : Nat) (refs : List Identity) (hm : mask < 8)
    (ht : cellType ≠ .prunedBranch) :
    ∃ identity, compute data bits refs cellType mask = .ok identity ∧ identity.Fits mask ∧
      ∀ level, Answers data bits refs cellType mask identity level := by
  have ⟨blank, hb, fb⟩ := Identity.blank_fits hm
  have init : HashedBelow data bits refs cellType mask 0 (blank, 0) :=
    ⟨fb, by simp, fun _ hl => absurd hl (Nat.not_lt_zero _)⟩
  have ⟨⟨identity, written⟩, hr, h⟩ :=
    foldlM_range_eq_ok (n := levelOf mask + 1) init (fun k _ _ h => h.step hm)
  have top : hashIndex mask (levelOf mask) = countOnes mask := by
    have := appliedMask_openedAt hm 3
    rw [openedAt, appliedMask_of_three_le le_rfl] at this
    exact (hashIndex_eq_countOnes_iff hm _).mpr this
  have count : written = identity.count := by
    have := h.written
    simp only [Nat.add_one_ne_zero, if_false, Nat.add_sub_cancel, top] at this
    rw [h.fits.count, this]
  refine ⟨identity, ?_, h.fits, fun level => ?_⟩
  · simp only [compute, hb, ok_bind, if_neg ht, hr]
    exact failIf_bind_eq_ok.mpr ⟨not_not.mpr count, rfl⟩
  · have := openedAt_le_levelOf hm level
    exact (h.answers (openedAt mask level) (by omega)).congr h.fits (appliedMask_openedAt hm level)

-- A pruned branch answers below its own level with what it stores and from there on with its own
-- hash.
theorem compute_pruned (bits : Nat) (refs : List Identity) (hm : mask < 8)
    (hl : data.length = 2 + 34 * countOnes mask) :
    ∃ identity, compute data bits refs .prunedBranch mask = .ok identity ∧ identity.Fits mask ∧
      ∀ level,
        (appliedMask mask level = mask →
          identity.hashAt level = Sha256.digest
            (representation bits [] .prunedBranch mask (levelOf mask) data) ∧
          identity.depthAt level = 0) ∧
        (appliedMask mask level ≠ mask →
          Stores data (countOnes mask) (hashIndex mask level)
            (identity.hashAt level) (identity.depthAt level)) := by
  obtain ⟨blank, hb, fb⟩ := Identity.blank_fits hm
  have init : CopiedBelow data mask 0 blank := ⟨fb, fun _ hl => absurd hl (Nat.not_lt_zero _)⟩
  obtain ⟨copied, hc, h⟩ := foldlM_range_eq_ok (n := countOnes mask) init
    (fun k hk _ h => h.step hm hl hk)
  obtain ⟨identity, hs, f, ⟨hash, depth⟩, frame⟩ := h.fits.set hm le_rfl
    (Sha256.digest (representation bits [] .prunedBranch mask (levelOf mask) data)) 0
  refine ⟨identity, ?_, f, fun level => ⟨fun ha => ?_, fun ha => ?_⟩⟩
  · have own : representation bits [] .prunedBranch mask (levelOf mask) data =
        [UInt8.ofNat (refsDescriptor 0 true mask (levelOf mask)),
          UInt8.ofNat (bitsDescriptor bits)] ++ data := by
      simp [representation]
    simp only [compute, hb, ok_bind, if_true, hc, ← own, hs, pure_bind]
    exact failIf_bind_eq_ok.mpr ⟨not_not.mpr f.count.symm, rfl⟩
  · have hi := (hashIndex_eq_countOnes_iff hm level).mpr ha
    rw [← hi, f.hash_hashIndex hm, Option.some_inj] at hash
    rw [← hi, f.depth_hashIndex hm, Option.some_inj] at depth
    exact ⟨hash, depth⟩
  · have hi := mt (hashIndex_eq_countOnes_iff hm level).mp ha
    have hlt := lt_of_le_of_ne (hashIndex_le hm level) hi
    obtain ⟨hash', depth', hh, hd, st⟩ := h.stores _ hlt
    obtain ⟨same, same'⟩ := frame _ hi
    rw [f.hash_hashIndex hm, hh, Option.some_inj] at same
    rw [f.depth_hashIndex hm, hd, Option.some_inj] at same'
    exact same ▸ same' ▸ st

end TonNet
