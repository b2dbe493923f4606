import TonNet.Cell.Theorems.Identity
import TonNet.Cell.WellFormed

-- How a well-formed cell answers, level by level, and when the parts of a cell make one.

namespace TonNet

open Fallible

theorem levelMask_or_childrenMask {refs : List Identity} {r : Identity} (h : r ∈ refs) :
    r.levelMask ||| childrenMask refs = childrenMask refs := by
  have grows : ∀ (refs : List Identity) (acc : Nat), ∃ more,
      refs.foldl (fun acc child => acc ||| child.levelMask) acc = acc ||| more := by
    intro refs
    induction refs
    case nil => exact fun acc => ⟨0, by simp⟩
    case cons r refs hi =>
      intro acc
      have ⟨more, hm⟩ := hi (acc ||| r.levelMask)
      exact ⟨r.levelMask ||| more, by rw [List.foldl_cons, hm, Nat.or_assoc]⟩
  have ⟨front, back, split⟩ := List.append_of_mem h
  have ⟨more, hm⟩ := grows back (childrenMask front ||| r.levelMask)
  have whole : childrenMask refs = childrenMask front ||| r.levelMask ||| more := by
    rw [split, childrenMask, List.foldl_append, List.foldl_cons]
    exact hm
  rw [whole, Nat.or_comm (childrenMask front), Nat.or_assoc, ← Nat.or_assoc, Nat.or_self]

theorem childrenMask_lt {refs : List Identity} (h : ∀ r ∈ refs, r.levelMask < 8) :
    childrenMask refs < 8 :=
  List.foldlRecOn (motive := (· < 8)) refs _ (by decide)
    (fun _ hacc r hr => Nat.or_lt_two_pow (n := 3) hacc (h r hr))

namespace Cell

variable {c r : Cell} {level : Nat}

theorem hashAt_congr {l l' : Nat} (h : appliedMask c.levelMask l = appliedMask c.levelMask l') :
    c.hashAt l = c.hashAt l' := by
  simp only [levelMask] at h
  simp only [hashAt, Identity.hashAt, hashIndex, h]

theorem depthAt_congr {l l' : Nat} (h : appliedMask c.levelMask l = appliedMask c.levelMask l') :
    c.depthAt l = c.depthAt l' := by
  simp only [levelMask] at h
  simp only [depthAt, Identity.depthAt, hashIndex, h]

variable [Sha256]

theorem Sound.impliedMask_eq (h : c.Sound) :
    c.levelMask = impliedMask c.cellType (childrenMask (c.refs.map identity)) c.levelMask :=
  not_not.mp (failIf_bind_eq_ok.mp h.summary).left

theorem Sound.compute_eq (h : c.Sound) :
    compute c.data c.bits (c.refs.map identity) c.cellType c.levelMask = .ok c.identity :=
  (failIf_bind_eq_ok.mp h.summary).right

theorem Sound.refs_eq_nil (h : c.Sound) (ht : c.cellType.expectedRefs = some 0) : c.refs = [] :=
  List.length_eq_zero_iff.mp (h.arity 0 ht)

-- Off the pruned branches a cell answers by the rule at every level.
theorem Sound.answers (h : c.Sound) (ht : c.cellType ≠ .prunedBranch) (level : Nat) :
    Answers c.data c.bits (c.refs.map identity) c.cellType c.levelMask c.identity level := by
  have ⟨identity, hc, _, answers⟩ := compute_of_not_pruned c.data c.bits
    (c.refs.map Cell.identity) h.mask_lt ht
  obtain rfl := Except.ok.inj (hc.symm.trans h.compute_eq)
  exact answers level

theorem Sound.hashAt_eq (h : c.Sound) (hr : c.RevealedAt level) :
    c.hashAt level = Sha256.digest (c.representationAt level) := by
  by_cases ht : c.cellType = .prunedBranch
  case neg => simpa [hashAt, representationAt, bodyAt, ht, bodyOver] using (h.answers ht level).hash
  case pos =>
    obtain ⟨identity, hc, _, answers⟩ := compute_pruned c.bits (c.refs.map Cell.identity)
      h.mask_lt (h.branch ht).length_eq
    obtain rfl := Except.ok.inj (hc.symm.trans (ht ▸ h.compute_eq))
    have hn := h.refs_eq_nil (by rw [ht]; rfl)
    have := (answers level).left (hr ht) |>.left
    simpa [hashAt, representationAt, bodyAt, ht, hn, openedAt, hr ht] using this

-- Below its own level a branch answers with what it stores.
theorem Sound.stored (h : c.Sound) (ht : c.cellType = .prunedBranch)
    (hl : appliedMask c.levelMask level ≠ c.levelMask) :
    Stores c.data (countOnes c.levelMask) (hashIndex c.levelMask level) (c.hashAt level)
      (c.depthAt level) := by
  have ⟨identity, hc, _, answers⟩ := compute_pruned c.bits (c.refs.map Cell.identity)
    h.mask_lt (h.branch ht).length_eq
  obtain rfl := Except.ok.inj (hc.symm.trans (ht ▸ h.compute_eq))
  exact (answers level).right hl

theorem Sound.answers_of_storedBody (h : c.Sound) (ht : c.cellType = .prunedBranch)
    (hl : appliedMask c.levelMask level ≠ c.levelMask) {maskByte : UInt8}
    {answers : List (Hash × UInt16)} (hd : c.data = storedBody maskByte answers)
    {hash : Hash} {depth : UInt16}
    (ha : answers[hashIndex c.levelMask level]? = some (hash, depth)) :
    c.hashAt level = hash ∧ c.depthAt level = depth := by
  have len := (h.branch ht).length_eq
  rw [hd, storedBody_length] at len
  have count : answers.length = countOnes c.levelMask := by omega
  have stores := stores_storedBody maskByte ha
  rw [← hd, count] at stores
  exact (h.stored ht hl).unique stores

theorem WellFormed.fits (h : c.WellFormed) : c.identity.Fits c.levelMask := by
  by_cases ht : c.cellType = .prunedBranch
  case neg =>
    have ⟨identity, hc, fits, _⟩ := compute_of_not_pruned c.data c.bits
      (c.refs.map Cell.identity) h.sound.mask_lt ht
    exact Except.ok.inj (hc.symm.trans h.sound.compute_eq) ▸ fits
  case pos =>
    have ⟨identity, hc, fits, _⟩ := compute_pruned c.bits (c.refs.map Cell.identity)
      h.sound.mask_lt (h.sound.branch ht).length_eq
    exact Except.ok.inj (hc.symm.trans (ht ▸ h.sound.compute_eq)) ▸ fits

theorem childrenMask_refs_lt {refs : List Cell} (h : ∀ r ∈ refs, r.WellFormed) :
    childrenMask (refs.map identity) < 8 := by
  apply childrenMask_lt
  intro i hi
  have ⟨r, hr, e⟩ := List.mem_map.mp hi
  exact e ▸ (h r hr).sound.mask_lt

-- Levels a cell does not tell apart are levels its references do not tell apart either.
theorem WellFormed.appliedMask_ref (h : c.WellFormed) (hr : r ∈ c.refs) {l l' : Nat}
    (ha : appliedMask c.levelMask l = appliedMask c.levelMask l') :
    appliedMask r.levelMask (l + c.cellType.childLevelShift) =
      appliedMask r.levelMask (l' + c.cellType.childLevelShift) := by
  have hlt := childrenMask_refs_lt h.refs
  have hsub := levelMask_or_childrenMask (List.mem_map_of_mem (f := identity) hr)
  have hmask := h.sound.impliedMask_eq
  have none (ht : c.cellType.expectedRefs = some 0) : False := by
    simp [h.sound.refs_eq_nil ht] at hr
  cases ht : c.cellType <;> rw [ht] at hmask
  case ordinary =>
    rw [hmask] at ha
    exact appliedMask_congr_of_subset hlt (h.refs r hr).sound.mask_lt hsub ha
  case prunedBranch => exact (none (by rw [ht]; rfl)).elim
  case libraryReference => exact (none (by rw [ht]; rfl)).elim
  case merkleProof =>
    rw [hmask] at ha
    exact appliedMask_congr_of_shift hlt (h.refs r hr).sound.mask_lt hsub ha
  case merkleUpdate =>
    rw [hmask] at ha
    exact appliedMask_congr_of_shift hlt (h.refs r hr).sound.mask_lt hsub ha

-- All but the mask of a pruned branch follows from the parts, so cells of one shape are one cell.
theorem WellFormed.ext {c c' : Cell} (h : c.WellFormed) (h' : c'.WellFormed)
    (kind : c.cellType = c'.cellType) (bits : c.bits = c'.bits) (data : c.data = c'.data)
    (refs : c.refs = c'.refs) (np : c.cellType ≠ .prunedBranch) : c = c' := by
  have mask : c.levelMask = c'.levelMask := by
    rw [h.sound.impliedMask_eq, h'.sound.impliedMask_eq, ← kind, refs]
    unfold impliedMask
    split <;> first | rfl | contradiction
  have identity : c.identity = c'.identity := by
    have := h.sound.summary
    rw [data, bits, kind, refs, mask, h'.sound.summary] at this
    exact (Except.ok.inj this).symm
  cases c
  cases c'
  exact Cell.mk.injEq .. ▸ ⟨data, bits, refs, kind, identity⟩

-- The parts of a cell: what a constructor holds them to before it hashes them.
structure Parts (data : Bytes) (bits : Nat) (refs : List Cell) (cellType : CellType)
    (mask : Nat) : Prop where
  bits_le : bits ≤ maxBits
  mask_lt : mask < 8
  tagged  : Tagged data bits
  leading : ∀ tag, cellType.tag = some tag → data.head? = some tag
  arity   : ∀ n, cellType.expectedRefs = some n → refs.length = n
  branch  : cellType = .prunedBranch → mask ≠ 0 ∧ data[1]? = some (UInt8.ofNat mask) ∧
    data.length = 2 + 34 * countOnes mask
  refs    : ∀ r ∈ refs, r.WellFormed

namespace Parts

variable {data : Bytes} {bits : Nat} {refs : List Cell} {cellType : CellType} {mask : Nat}

theorem compute_ok (p : Parts data bits refs cellType mask) (refs' : List Identity) :
    ∃ identity, compute data bits refs' cellType mask = .ok identity ∧ identity.Fits mask := by
  by_cases ht : cellType = .prunedBranch
  case neg =>
    have ⟨identity, hc, fits, _⟩ := compute_of_not_pruned data bits refs' p.mask_lt ht
    exact ⟨identity, hc, fits⟩
  case pos =>
    have ⟨identity, hc, fits, _⟩ := compute_pruned bits refs' p.mask_lt (p.branch ht).right.right
    exact ⟨identity, ht ▸ hc, fits⟩

-- What `from_parts` returns for such parts is well formed and holds them as they were given.
theorem wellFormed (p : Parts data bits refs cellType mask)
    (h : fromParts data bits refs cellType mask = .ok c) :
    c.WellFormed ∧ c.levelMask = mask ∧ ∃ identity, c = ⟨data, bits, refs, cellType, identity⟩ := by
  have ⟨hr, identity, hs, hc⟩ := fromParts_eq_ok.mp h
  have ⟨identity', hi, fits⟩ := p.compute_ok (refs.map Cell.identity)
  have hi' := (failIf_bind_eq_ok.mp hs).right
  obtain rfl := Except.ok.inj (hi.symm.trans hi')
  have mask_eq : c.levelMask = mask := hc ▸ fits.levelMask
  subst hc
  refine ⟨.intro p.refs ?_, mask_eq, _, rfl⟩
  constructor
  case bits_le => exact p.bits_le
  case refs_le => exact hr
  case mask_lt => exact mask_eq ▸ p.mask_lt
  case tagged => exact p.tagged
  case leading => exact p.leading
  case arity => exact p.arity
  case branch =>
    intro ht
    have ⟨hz, hb, hl⟩ := p.branch ht
    exact ⟨mask_eq ▸ hz, mask_eq ▸ hb, mask_eq ▸ hl⟩
  case summary => exact mask_eq.symm ▸ hs

theorem fromParts_ok (p : Parts data bits refs cellType mask) (hr : refs.length ≤ maxRefs)
    (hm : mask = impliedMask cellType (childrenMask (refs.map Cell.identity)) mask) :
    ∃ c, fromParts data bits refs cellType mask = .ok c := by
  have ⟨identity, hc, _⟩ := p.compute_ok (refs.map Cell.identity)
  exact ⟨_, fromParts_eq_ok.mpr ⟨hr, identity, failIf_bind_eq_ok.mpr ⟨not_not.mpr hm, hc⟩, rfl⟩⟩

end Parts

end Cell

end TonNet
