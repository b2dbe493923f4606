import TonNet.Boc.Theorems.Parse
import TonNet.Cell.Theorems.Alike

-- Pruned branches standing in for cells anywhere in a tree, under Merkle cells too.

namespace TonNet

open Fallible

-- The mask of a branch that stands for a cell under `depth` Merkle cells: the cell's own marks below
-- that depth, and the one mark the branch adds.
def standInMask (mask depth : Nat) : Nat :=
  mask % 2 ^ depth ||| 1 <<< depth

-- The levels a mask marks, lowest first.
def markedLevels (mask : Nat) : List Nat :=
  (List.range 3).filter mask.testBit

theorem standInMask_lt (mask : Nat) {depth : Nat} (hd : depth ≤ 2) :
    0 < standInMask mask depth ∧ standInMask mask depth < 8 := by
  have : ∀ depth ≤ 2, ∀ low < 2 ^ depth, 0 < (low ||| 1 <<< depth) ∧ (low ||| 1 <<< depth) < 8 := by
    decide
  exact this depth hd _ (Nat.mod_lt _ (by positivity))

theorem markedLevels_length {mask : Nat} (hm : mask < 8) :
    (markedLevels mask).length = countOnes mask := by
  interval_cases mask <;> decide

theorem appliedMask_standInMask {mask depth l : Nat} (hm : mask < 8) (hd : depth ≤ 2)
    (hl : l ≤ depth) :
    appliedMask (standInMask mask depth) l = appliedMask mask l ∧
      appliedMask (standInMask mask depth) l ≠ standInMask mask depth := by
  have : ∀ depth ≤ 2, ∀ l ≤ depth,
      appliedMask (standInMask mask depth) l = appliedMask mask l ∧
        appliedMask (standInMask mask depth) l ≠ standInMask mask depth := by
    interval_cases mask <;> decide
  exact this depth hd l hl

-- The branch answers at a level with what it stores for the next level it marks, and up to there the
-- cell it stands for answers with one hash.
theorem exists_markedLevel {mask depth l : Nat} (hm : mask < 8) (hd : depth ≤ 2) (hl : l ≤ depth) :
    ∃ k ≤ 2, (markedLevels (standInMask mask depth))[hashIndex (standInMask mask depth) l]? = some k ∧
      appliedMask mask k = appliedMask mask l := by
  have : ∀ depth ≤ 2, ∀ l ≤ depth, ∃ k ≤ 2,
      (markedLevels (standInMask mask depth))[hashIndex (standInMask mask depth) l]? = some k ∧
        appliedMask mask k = appliedMask mask l := by
    interval_cases mask <;> decide
  exact this depth hd l hl

namespace Cell

-- How many Merkle cells a path goes down through.
def merklesOn (c : Cell) : List Nat → Nat
  | []        => 0
  | i :: path => c.cellType.childLevelShift + (c.reference i).elim 0 (·.merklesOn path)

-- What a cell answers with at each of the levels.
def answersAt (c : Cell) (levels : List Nat) : List (Hash × UInt16) :=
  levels.map fun level => (c.hashAt level, c.depthAt level)

variable [Sha256]

-- The branch that stands for a cell under `depth` Merkle cells.
def standIn (c : Cell) (depth : Nat) : Except CellError Cell :=
  let mask := standInMask c.levelMask depth
  let body := storedBody (UInt8.ofNat mask) (c.answersAt (markedLevels mask))
  fromParts body (8 * body.length) [] .prunedBranch mask

-- The same cell over other references, with the mask they imply.
def withRefs (c : Cell) (refs : List Cell) : Except CellError Cell :=
  fromParts c.data c.bits refs c.cellType
    (impliedMask c.cellType (childrenMask (refs.map identity)) c.levelMask)

-- The tree with another cell at the end of a path.
def replaceAt (c : Cell) (path : List Nat) (new : Cell) : Except CellError Cell :=
  match path with
  | []        => return new
  | i :: path => do
    let child ← okOr (c.reference i) (.malformed "the path leaves the tree")
    let child ← child.replaceAt path new
    c.withRefs (c.refs.set i child)

variable {c s branch : Cell} {path : List Nat} {depth top : Nat}

theorem standIn_ok (h : c.WellFormed) (hd : depth ≤ 2) :
    ∃ branch, c.standIn depth = .ok branch ∧ branch.WellFormed ∧
      branch.levelMask = standInMask c.levelMask depth ∧ branch.cellType = .prunedBranch ∧
      c.Alike branch depth := by
  have hm := h.sound.mask_lt
  have ⟨pos, lt⟩ := standInMask_lt c.levelMask hd
  let answers := c.answersAt (markedLevels (standInMask c.levelMask depth))
  have count : answers.length = countOnes (standInMask c.levelMask depth) :=
    (List.length_map _).trans (markedLevels_length lt)
  let body := storedBody (UInt8.ofNat (standInMask c.levelMask depth)) answers
  have len : body.length = 2 + 34 * countOnes (standInMask c.levelMask depth) := by
    rw [storedBody_length, count]
  have parts : Parts body (8 * body.length) [] .prunedBranch (standInMask c.levelMask depth) := by
    constructor
    case bits_le =>
      have := countOnes_le lt
      rw [len, maxBits]
      omega
    case mask_lt => exact lt
    case tagged => exact ⟨by omega, by omega⟩
    case leading => exact fun tag ht => Option.some_inj.mp ht ▸ rfl
    case arity => exact fun n hn => Option.some_inj.mp hn
    case branch => exact fun _ => ⟨pos.ne', rfl, len⟩
    case refs => exact fun _ hr => absurd hr List.not_mem_nil
  have ⟨branch, hb⟩ := parts.fromParts_ok (Nat.zero_le _) rfl
  have ⟨wf, mask, identity, shape⟩ := parts.wellFormed hb
  have kind : branch.cellType = .prunedBranch := by rw [shape]
  have data : branch.data = body := by rw [shape]
  have answers_eq (l : Nat) (hl : l ≤ depth) :
      branch.hashAt l = c.hashAt l ∧ branch.depthAt l = c.depthAt l := by
    have ⟨k, _, hk, applied⟩ := exists_markedLevel hm hd hl
    rw [← hashAt_congr applied, ← depthAt_congr applied]
    refine wf.sound.answers_of_storedBody kind ?_ data ?_
    · exact mask.symm ▸ (appliedMask_standInMask hm hd hl).right
    · have found := congrArg (Option.map fun level => (c.hashAt level, c.depthAt level)) hk
      rw [← List.getElem?_map] at found
      exact mask.symm ▸ found
  refine ⟨branch, hb, wf, mask, kind, ?_⟩
  constructor
  case applied => rw [mask, (appliedMask_standInMask hm hd le_rfl).left]
  case hash => exact fun l hl => (answers_eq l hl).left.symm
  case depth => exact fun l hl => (answers_eq l hl).right.symm

theorem withRefs_ok {refs : List Cell} (h : c.WellFormed) (np : c.cellType ≠ .prunedBranch)
    (hl : refs.length = c.refs.length) (hr : ∀ r ∈ refs, r.WellFormed) :
    ∃ c', c.withRefs refs = .ok c' ∧ c'.WellFormed ∧
      ∃ identity, c' = ⟨c.data, c.bits, refs, c.cellType, identity⟩ := by
  have hlt := childrenMask_refs_lt hr
  have s := h.sound
  have parts : Parts c.data c.bits refs c.cellType
      (impliedMask c.cellType (childrenMask (refs.map identity)) c.levelMask) := by
    constructor
    case bits_le => exact s.bits_le
    case mask_lt =>
      cases c.cellType
      case ordinary => exact hlt
      case prunedBranch => exact s.mask_lt
      case libraryReference => exact Nat.zero_lt_succ _
      case merkleProof => exact lt_of_le_of_lt (Nat.shiftRight_le _ _) hlt
      case merkleUpdate => exact lt_of_le_of_lt (Nat.shiftRight_le _ _) hlt
    case tagged => exact s.tagged
    case leading => exact s.leading
    case arity => exact fun n hn => hl.trans (s.arity n hn)
    case branch => exact fun ht => absurd ht np
    case refs => exact hr
  have ⟨c', hc⟩ := parts.fromParts_ok (hl ▸ s.refs_le) (by cases c.cellType <;> rfl)
  have ⟨wf, _, shape⟩ := parts.wellFormed hc
  exact ⟨c', hc, wf, shape⟩

theorem Sound.not_pruned_of_reference {i : Nat} (h : c.Sound) (hr : c.reference i = some s) :
    c.cellType ≠ .prunedBranch := by
  intro ht
  simp [reference, h.refs_eq_nil (by rw [ht]; rfl)] at hr

-- A Merkle cell on the way hides one level of what stands below it.
theorem replaceAt_alike (h : c.WellFormed) (hb : branch.WellFormed) (hp : c.at? path = some s)
    (ha : s.Alike branch (top + c.merklesOn path)) :
    ∃ c', c.replaceAt path branch = .ok c' ∧ c'.WellFormed ∧ c'.at? path = some branch ∧
      c.Alike c' top := by
  induction path generalizing c top
  case nil =>
    obtain rfl := Option.some_inj.mp hp
    exact ⟨branch, rfl, hb, rfl, ha⟩
  case cons i path hi =>
    have ⟨r, hr, hs⟩ := Option.bind_eq_some_iff.mp hp
    have mem := List.mem_of_getElem? hr
    have ha' : s.Alike branch (top + c.cellType.childLevelShift + r.merklesOn path) := by
      rw [merklesOn, hr, Option.elim_some, ← Nat.add_assoc] at ha
      exact ha
    have ⟨r', hr', wf, at?_eq, alike⟩ := hi (h.refs r mem) hs ha'
    have np := h.sound.not_pruned_of_reference hr
    have sub : ∀ x ∈ c.refs.set i r', x.WellFormed := fun x hx =>
      (List.mem_or_eq_of_mem_set hx).elim (h.refs x) (· ▸ wf)
    have ⟨c', hc, wf', identity, shape⟩ := withRefs_ok h np (List.length_set) sub
    refine ⟨c', ?_, wf', ?_, ?_⟩
    · rw [replaceAt, okOr_bind_eq_ok]
      exact ⟨r, hr, bind_eq_ok.mpr ⟨r', hr', hc⟩⟩
    · have lt := (List.getElem?_eq_some_iff.mp hr).1
      rw [at?, shape, reference, List.getElem?_set_self lt]
      exact at?_eq
    · have covers : c.Over c' top := by
        subst shape
        exact ⟨rfl, rfl, rfl, List.forall₂_set (fun x => .refl x _) hr alike⟩
      exact covers.alike h wf' np

theorem standIn_keeps_root {root : Cell} (h : root.WellFormed) (hp : root.at? path = some s)
    (hd : root.merklesOn path ≤ 2) :
    ∃ branch root', s.standIn (root.merklesOn path) = .ok branch ∧
      branch.levelMask = standInMask s.levelMask (root.merklesOn path) ∧
      root.replaceAt path branch = .ok root' ∧ root'.at? path = some branch ∧
      root'.hashAt 0 = root.hashAt 0 ∧ root'.depthAt 0 = root.depthAt 0 := by
  have ⟨branch, hb, wf, mask, _, below⟩ := standIn_ok (h.at? hp) hd
  rw [← Nat.zero_add (root.merklesOn path)] at below
  have ⟨root', hr, _, at?_eq, alike⟩ := replaceAt_alike h wf hp below
  exact ⟨branch, root', hb, mask, hr, at?_eq, (alike.hash 0 le_rfl).symm,
    (alike.depth 0 le_rfl).symm⟩

end Cell

section EmptyProof

-- The proof over an empty cell as a bag, and the strings hashed to read it.
def emptyProofBag : Bytes :=
  .be 51 0xb5ee9c720101020100280009460396a296d224f285c67bee93c30f8a309157f0daa35dc5b87e410b78630a09cfc70000010000

attribute [local instance] Sha256.standard

theorem standIn_keeps_root_emptyProof :
    ∃ root s, soleRoot emptyProofBag = some root ∧ root.at? [0] = some s ∧
      root.merklesOn [0] = 1 ∧ ∃ branch root', s.standIn 1 = .ok branch ∧
        branch.levelMask = standInMask s.levelMask 1 ∧ root.replaceAt [0] branch = .ok root' ∧
        root'.at? [0] = some branch ∧ root'.hashAt 0 = root.hashAt 0 ∧
        root'.depthAt 0 = root.depthAt 0 := by
  have seen : ((soleRoot emptyProofBag).bind fun root => (root.at? [0]).map fun _ =>
      root.merklesOn [0]) = some 1 := by
    decide +kernel
  simp only [Option.bind_eq_some_iff, Option.map_eq_some_iff] at seen
  have ⟨root, parsed, s, hs, merkles⟩ := seen
  refine ⟨root, s, parsed, hs, merkles, ?_⟩
  simpa only [merkles] using
    Cell.standIn_keeps_root (soleRoot_wellFormed parsed) hs (by omega)

end EmptyProof

end TonNet
