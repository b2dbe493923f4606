import TonNet.Boc.Theorems.Area

-- The shape of the cells a bag yields, down to their bits.

namespace TonNet

open Fallible Method

section Stored

-- The two descriptor bytes of a bag that a cell was read behind, with the hashes they announce between.
structure Cell.StoredAt (bytes : Bytes) (place : Nat) (d1 d2 : UInt8) (c : Cell) : Prop where
  first  : Lies bytes place [d1]
  second : Lies bytes (place + 1) [d2]
  data   : Lies bytes (place + 2 + storedSize d1.toNat) c.data
  length : c.data.length = dataSize d2.toNat
  bits   : bitLen d2.toNat c.data = .ok c.bits

variable {bytes data : Bytes}

-- The last byte is not full where the second descriptor is odd.
theorem bitLen_whole {d2 bits : Nat} (h : bitLen d2 data = .ok bits) : bits % 8 = 0 ↔ d2 % 2 = 0 := by
  rw [bitLen, Nat.and_one_is_mod] at h
  by_cases even : d2 % 2 = 0
  case pos =>
    simp only [even, if_true, pure_eq_ok] at h
    omega
  case neg =>
    simp only [if_neg even, okOr_bind_eq_ok, failIf_bind_eq_ok, pure_eq_ok] at h
    obtain ⟨last, _, _, _⟩ := h
    omega

def RawCell.Placed (bytes : Bytes) (rawCell : RawCell) : Prop :=
  ∃ place d1 d2, ∀ c : Cell, rawCell.data.of bytes = .ok c.data → c.bits = rawCell.bits →
    c.StoredAt bytes place d1 d2

theorem readCell_placed (header : Header) (index : Nat) :
    Yields (Over bytes) (RawCell.Placed bytes) (readCell header index) := by
  intro r rawCell r' same h
  refine ⟨?_, (readCell_yields header index same h).right⟩
  simp only [readCell, ends_bind, ends_byte, ends_failIf, ends_ofExcept, ends_pure] at h
  obtain ⟨_, _, ⟨d1, rfl, first, rfl⟩, _, _, ⟨d2, rfl, second, rfl⟩, _, _, ⟨_, rfl⟩, _, _, stored,
    ⟨data, span⟩, _, taken, bits, _, ⟨counted, rfl⟩, _, _, ⟨_, rfl⟩, _, _, ⟨_, rfl⟩, _, _, _, rfl, rfl⟩ := h
  obtain rfl := readStored_advances _ stored
  obtain rfl : r.bytes = bytes := same
  obtain ⟨length, lies, _⟩ := ends_takeSpan.mp taken
  have spans : span.of r.bytes = .ok data := (takeSpan_yields _ rfl taken).left.right
  refine ⟨r.pos, d1, d2, fun c held same => ?_⟩
  obtain rfl := Except.ok.inj (spans.symm.trans held)
  exact ⟨first, second, lies, length, same ▸ counted⟩

theorem parseBoc_stored [Sha256] {roots : List Cell} (h : parseBoc bytes = .ok roots) :
    ∀ root ∈ roots, ∀ c ∈ root.subcells, ∃ place d1 d2, c.StoredAt bytes place d1 d2 := by
  refine parseBocWith_roots readCell_placed (fun {rawCell built cell} placed below made => ?_) h
  obtain ⟨refs, data, named, lies, made⟩ := buildOne_eq_some made
  obtain ⟨_, identity, _, rfl⟩ := Cell.fromParts_eq_ok.mp made
  obtain ⟨place, d1, d2, stored⟩ := placed
  intro c mem
  rcases Cell.mem_subcells.mp mem with rfl | ⟨r, held, sub⟩
  · exact ⟨place, d1, d2, stored _ lies rfl⟩
  · exact (children_spec below named).right r held c sub

end Stored

namespace Cell

-- What the cell model asks of one cell over its references.
structure Formed (c : Cell) : Prop where
  tagged : Tagged c.data c.bits
  mask   : c.levelMask = impliedMask c.cellType (childrenMask (c.refs.map identity)) c.levelMask
  arity  : ∀ n, c.cellType.expectedRefs = some n → c.refs.length = n
  branch : c.cellType = .prunedBranch →
    c.levelMask ≠ 0 ∧ c.refs = [] ∧ c.bits = 16 + 272 * countOnes c.levelMask

variable [Sha256] {c : Cell}

-- The body of a branch is checked by its bytes, and a last byte that is not full counts as one.
theorem Sound.branch_bits (h : c.Sound) (pruned : c.cellType = .prunedBranch) :
    c.bits = 16 + 272 * countOnes c.levelMask ↔ c.bits % 8 = 0 := by
  have bytes := h.tagged.length_eq
  have body := (h.branch pruned).length_eq
  omega

theorem Sound.formed_iff (h : c.Sound) :
    c.Formed ↔ (c.cellType = .prunedBranch → c.bits % 8 = 0) := by
  constructor
  · intro formed pruned
    exact (h.branch_bits pruned).mp (formed.branch pruned).right.right
  · intro whole
    constructor
    case tagged => exact h.tagged
    case mask => exact h.impliedMask_eq
    case arity => exact h.arity
    case branch =>
      intro pruned
      have none : c.refs = [] := h.refs_eq_nil (by rw [pruned]; rfl)
      exact ⟨(h.branch pruned).mask_ne_zero, none, (h.branch_bits pruned).mpr (whole pruned)⟩

end Cell

-- A cell is well formed unless it is a pruned branch stored behind an odd second descriptor.
theorem parseBoc_formed_iff [Sha256] {bytes : Bytes} {roots : List Cell}
    (h : parseBoc bytes = .ok roots) :
    ∀ root ∈ roots, ∀ c ∈ root.subcells,
      (∃ place d1 d2, c.StoredAt bytes place d1 d2) ∧
      ∀ place d1 d2, c.StoredAt bytes place d1 d2 →
        (c.Formed ↔ (c.cellType = .prunedBranch → d2.toNat % 2 = 0)) := by
  intro root mem c sub
  refine ⟨parseBoc_stored h root mem c sub, fun place d1 d2 stored => ?_⟩
  rw [← bitLen_whole stored.bits]
  exact ((parseBocWith_wellFormed h root mem).subcells c sub).sound.formed_iff

section Partial

-- Two branches of the same 36 bytes. The first is stored as 287 bits and the set bit that ends them,
-- the second as 288 bits.
def partialBag : Bytes :=
  .be 44 0xb5ee9c7201010101002600284701010102030405060708090a0b0c0d0e0f101112131415161718191a1b1c1d ++
  .be 5 0x1e1f200001

def wholeBag : Bytes :=
  .be 44 0xb5ee9c7201010101002600284801010102030405060708090a0b0c0d0e0f101112131415161718191a1b1c1d ++
  .be 5 0x1e1f200001

attribute [local instance] Sha256.standard

def branchRun (bag : Bytes) : Option (CellType × Nat × Nat) := do
  let root ← soleRoot bag
  return (root.cellType, root.levelMask, root.bits)

theorem branchRun_eq {bag : Bytes} {mask bits : Nat} (h : branchRun bag = some (.prunedBranch, mask, bits)) :
    ∃ root, parseBoc bag = .ok [root] ∧ root.cellType = .prunedBranch ∧ root.levelMask = mask ∧
      root.bits = bits := by
  simp only [branchRun, Option.bind_eq_bind, Option.bind_eq_some_iff, soleRoot_eq_some,
    Option.pure_def, Option.some_inj, Prod.mk.injEq] at h
  exact h

theorem parseBoc_formed_iff_wholeBag : ∃ root place d1 d2, parseBoc wholeBag = .ok [root] ∧
    root.StoredAt wholeBag place d1 d2 ∧ d2.toNat % 2 = 0 ∧ root.Formed := by
  have run : branchRun wholeBag = some (.prunedBranch, 1, 288) := by decide +kernel
  obtain ⟨root, ok, _, _, bits⟩ := branchRun_eq run
  obtain ⟨⟨place, d1, d2, stored⟩, formed⟩ :=
    parseBoc_formed_iff ok root (by simp) root root.self_mem_subcells
  have even : d2.toNat % 2 = 0 := (bitLen_whole stored.bits).mp (by rw [bits])
  exact ⟨root, place, d1, d2, ok, stored, even, (formed place d1 d2 stored).mpr fun _ => even⟩

theorem not_formed_partialBag : ∃ root, parseBoc partialBag = .ok [root] ∧ ¬root.Formed := by
  have run : branchRun partialBag = some (.prunedBranch, 1, 287) := by decide +kernel
  have ⟨root, ok, kind, mask, bits⟩ := branchRun_eq run
  refine ⟨root, ok, fun formed => ?_⟩
  have stated := (formed.branch kind).right.right
  rw [mask, bits] at stated
  exact absurd stated (by decide)

end Partial

end TonNet
