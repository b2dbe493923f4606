import TonNet.Boc.Theorems.Header
import TonNet.Boc.Theorems.Read

-- Whether the cells of a bag fill the area its header states.

namespace TonNet

open Fallible Method

-- The sizes a cell's two descriptor bytes state: of the hashes ahead of its data, of its data, and of
-- the whole cell.
def storedSize (d1 : Nat) : Nat :=
  if d1 &&& withHashes ≠ 0 then (countOnes (d1 >>> 5) + 1) * (32 + 2) else 0

def dataSize (d2 : Nat) : Nat :=
  (d2 >>> 1) + (d2 &&& 1)

def cellSize (refSize d1 d2 : Nat) : Nat :=
  2 + storedSize d1 + dataSize d2 + (d1 &&& 7) * refSize

-- The bytes the next cells take, going from descriptor to descriptor.
def cellsSize (bytes : Bytes) (refSize : Nat) : (count pos : Nat) → Nat
  | 0, _           => 0
  | count + 1, pos =>
    let size := cellSize refSize (bytes.getD pos 0).toNat (bytes.getD (pos + 1) 0).toNat
    size + cellsSize bytes refSize count (pos + size)

section Advance

variable {α : Type}

-- A read that always takes the same number of bytes.
def Advances (n : Nat) (x : Read α) : Prop :=
  ∀ ⦃r a r'⦄, x.Ends r a r' → r' = ⟨r.bytes, r.pos + n⟩

theorem readTarget_advances (header : Header) (index : Nat) :
    Advances header.refSize (readTarget header index) := by
  intro r target r' h
  simp only [readTarget, ends_bind, ends_uint, ends_failIf, ends_pure] at h
  obtain ⟨_, _, ⟨_, _, _, _, rfl⟩, _, _, ⟨_, rfl⟩, _, rfl⟩ := h
  rfl

theorem Advances.mapM {β : Type} {f : β → Read α} {n : Nat} (h : ∀ b, Advances n (f b))
    (l : List β) : Advances (l.length * n) (l.mapM f) := by
  induction l
  case nil =>
    intro r as r' he
    obtain ⟨_, rfl⟩ := ends_pure.mp (show (pure [] : Read (List α)).Ends r as r' from he)
    simp
  case cons b l hi =>
    intro r as r' he
    rw [List.mapM_cons] at he
    simp only [ends_bind, ends_pure] at he
    obtain ⟨_, t, first, _, t', rest, _, rfl⟩ := he
    rw [hi rest, h b first, List.length_cons, Nat.succ_mul]
    simp only [Reader.mk.injEq, true_and]
    omega

theorem readStored_advances (d1 : Nat) : Advances (storedSize d1) (readStored d1 (d1 >>> 5)) := by
  intro r stored r' h
  unfold readStored at h
  unfold storedSize
  split at h
  case isTrue has =>
    simp only [ends_bind, ends_pure] at h
    obtain ⟨⟨_, _⟩, _, taken, _, rfl⟩ := h
    rw [if_pos has]
    exact (ends_takeSpan.mp taken).right.right.right
  case isFalse has =>
    obtain ⟨_, rfl⟩ := ends_pure.mp h
    rw [if_neg has]
    rfl

theorem readCell_ends {header : Header} {index : Nat} {r r' : Reader} {rawCell : RawCell}
    (h : (readCell header index).Ends r rawCell r') :
    ∃ d1 d2 : UInt8, Lies r.bytes r.pos [d1] ∧ Lies r.bytes (r.pos + 1) [d2] ∧
      r' = ⟨r.bytes, r.pos + cellSize header.refSize d1.toNat d2.toNat⟩ := by
  simp only [readCell, ends_bind, ends_byte, ends_failIf, ends_ofExcept, ends_pure] at h
  obtain ⟨_, _, ⟨d1, rfl, first, rfl⟩, _, _, ⟨d2, rfl, second, rfl⟩, _, _, ⟨_, rfl⟩, _, _, stored,
    ⟨_, _⟩, _, data, _, _, ⟨_, rfl⟩, _, _, ⟨_, rfl⟩, _, _, ⟨_, rfl⟩, _, _, refs, _, rfl⟩ := h
  refine ⟨d1, d2, first, second, ?_⟩
  rw [Advances.mapM (fun _ => readTarget_advances header index) _ refs,
    (ends_takeSpan.mp data).right.right.right, readStored_advances _ stored, List.length_range]
  simp only [Reader.mk.injEq, true_and, cellSize, dataSize]
  omega

theorem readCells_ends {header : Header} {indices : List Nat} {r r' : Reader} {raw : List RawCell}
    (h : (indices.mapM (readCell header)).Ends r raw r') :
    r' = ⟨r.bytes, r.pos + cellsSize r.bytes header.refSize indices.length r.pos⟩ := by
  induction indices generalizing r raw
  case nil =>
    obtain ⟨_, same⟩ := ends_pure.mp (show (pure [] : Read (List RawCell)).Ends r raw r' from h)
    exact same.symm
  case cons index indices hi =>
    rw [List.mapM_cons] at h
    simp only [ends_bind, ends_pure] at h
    obtain ⟨_, t, first, _, t', rest, _, rfl⟩ := h
    obtain ⟨d1, d2, hd1, hd2, next⟩ := readCell_ends first
    rw [hi rest, next]
    simp only [List.length_cons, cellsSize, hd1.getD, hd2.getD, Nat.add_assoc]

end Advance

-- The last cell of a bag ends where its cell area ends, which is where the bag or what its checksum
-- covers ends.
def FillsArea (bytes : Bytes) : Prop :=
  ∀ header r raw r', (readHeader bytes {}).Ends ⟨bytes, 0⟩ header r → (readRaw header).Ends r raw r' →
    r'.pos = header.bodyOffset + header.cellArea ∧ r'.pos = bodyEnd bytes header.hasChecksum

-- The sizes a bag's descriptors state add up to the size its header states.
def StatesItsSize (bytes : Bytes) : Prop :=
  ∀ header r, (readHeader bytes {}).Ends ⟨bytes, 0⟩ header r →
    cellsSize bytes header.refSize header.count header.bodyOffset = header.cellArea

section

variable [Sha256]

theorem fillsArea_iff_statesItsSize {bytes : Bytes} {cells : List Cell}
    (accepted : parseBoc bytes = .ok cells) : FillsArea bytes ↔ StatesItsSize bytes := by
  have ⟨header, r, raw, r', _, headerRead, rawRead, _⟩ := parseBocWith_eq_ok.mp accepted
  have spec := readHeader_ends headerRead
  have place := readCells_ends rawRead
  rw [spec.bytes_eq, spec.pos, List.length_range] at place
  have unique {header' : Header} {s : Reader}
      (h : (readHeader bytes {}).Ends ⟨bytes, 0⟩ header' s) : header' = header ∧ s = r := by
    simpa using (h.symm.trans headerRead)
  constructor
  case mp =>
    intro fills header' s h
    obtain ⟨rfl, rfl⟩ := unique h
    have := (fills header' s raw r' headerRead rawRead).left
    rw [place] at this
    dsimp only at this
    omega
  case mpr =>
    intro states header' s raw' s' h h'
    obtain ⟨rfl, rfl⟩ := unique h
    have ⟨_, same⟩ : raw' = raw ∧ s' = r' := by simpa using (h'.symm.trans rawRead)
    have size := states header' s headerRead
    rw [same, place, ← spec.area, size]
    exact ⟨rfl, rfl⟩

end

section Tails

-- Three cells that fill their area, an empty one with a byte behind it that no cell covers, and a cell
-- whose four data bytes are the checksum of its bag.
def tightBag : Bytes :=
  .be 21 0xb5ee9c7201010301000a000202ab02010002cd0000

def tailBag : Bytes :=
  .be 14 0xb5ee9c72010101010003000000ff

def checksumBag : Bytes :=
  .be 17 0xb5ee9c7241010101000200000883f46047

attribute [local instance] Sha256.standard

-- Where the cells end, where their area ends, and whether the bag is accepted.
def areaRun (bytes : Bytes) : Option (Nat × Nat × Bool) := do
  let (header, r) ← ((readHeader bytes {}).call ⟨bytes, 0⟩).toOption
  let (_, r') ← ((readRaw header).call r).toOption
  return (r'.pos, header.bodyOffset + header.cellArea, (parseBoc bytes).toOption.isSome)

theorem fillsArea_of_run {bytes : Bytes} {last stated : Nat}
    (run : areaRun bytes = some (last, stated, true)) :
    (∃ cells, parseBoc bytes = .ok cells) ∧ (FillsArea bytes ↔ last = stated) := by
  simp only [areaRun, Option.bind_eq_bind, Option.bind_eq_some_iff, toOption_eq_some, Option.pure_def,
    Option.some_inj, Prod.mk.injEq, Option.isSome_iff_exists] at run
  obtain ⟨⟨header, r⟩, headerRead, ⟨raw, r'⟩, rawRead, rfl, rfl, accepted⟩ := run
  have headerRead := call_eq_ok.mp headerRead
  have rawRead := call_eq_ok.mp rawRead
  have area := (readHeader_ends headerRead).area
  refine ⟨accepted, fun fills => (fills header r raw r' headerRead rawRead).left, ?_⟩
  intro same header' s raw' s' h h'
  obtain ⟨rfl, rfl⟩ : header' = header ∧ s = r := by simpa using (h.symm.trans headerRead)
  obtain ⟨rfl, rfl⟩ : raw' = raw ∧ s' = r' := by simpa using (h'.symm.trans rawRead)
  exact ⟨same, same.trans area⟩

theorem fillsArea_iff_tightBag :
    (∃ cells, parseBoc tightBag = .ok cells) ∧ FillsArea tightBag ∧ StatesItsSize tightBag := by
  have run : areaRun tightBag = some (21, 21, true) := by decide +kernel
  have ⟨⟨cells, accepted⟩, fills⟩ := fillsArea_of_run run
  exact ⟨⟨cells, accepted⟩, fills.mpr rfl, (fillsArea_iff_statesItsSize accepted).mp (fills.mpr rfl)⟩

theorem not_fillsArea_tails :
    ((∃ cells, parseBoc tailBag = .ok cells) ∧ ¬FillsArea tailBag) ∧
      (∃ cells, parseBoc checksumBag = .ok cells) ∧ ¬FillsArea checksumBag := by
  have tail : areaRun tailBag = some (13, 14, true) := by decide +kernel
  have checksum : areaRun checksumBag = some (17, 13, true) := by decide +kernel
  have ⟨tailRead, tailFills⟩ := fillsArea_of_run tail
  have ⟨checksumRead, checksumFills⟩ := fillsArea_of_run checksum
  exact ⟨⟨tailRead, by simp [tailFills]⟩, checksumRead, by simp [checksumFills]⟩

end Tails

end TonNet
