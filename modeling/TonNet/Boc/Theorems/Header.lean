import TonNet.Boc.Theorems.Parse

-- What a bag's header is held to before any cell of it is read.

namespace TonNet

open Fallible Method

section

variable {bytes : Bytes}

theorem readRoot_lt (refSize count : Nat) :
    Yields (Over bytes) (· < count) (readRoot refSize count) :=
  (uint_yields _).bind fun _ _ => Yields.failIf.bind fun _ within => .pure (not_le.mp within)

-- The end of the cells: the end of the bag, or of what its checksum covers.
def bodyEnd (bytes : Bytes) (hasChecksum : Bool) : Nat :=
  if hasChecksum then bytes.length - 4 else bytes.length

structure HeaderRead (bytes : Bytes) (options : ParseOptions) (header : Header) (r : Reader) :
    Prop where
  bytes_eq : r.bytes = bytes
  pos      : r.pos = header.bodyOffset
  refSize  : 1 ≤ header.refSize ∧ header.refSize ≤ 4
  count_le : header.count ≤ options.cellCeiling
  roots_le : header.rootList.length ≤ options.cellCeiling
  rooted   : header.rootList ≠ []
  named    : ∀ index ∈ header.rootList, index < header.count
  area     : header.bodyOffset + header.cellArea = bodyEnd bytes header.hasChecksum

-- What a header that is read went through: where its flags and its fields were, and what they passed.
theorem readHeader_stages {options : ParseOptions} {header : Header} {r : Reader}
    (h : (readHeader bytes options).Ends ⟨bytes, 0⟩ header r) :
    ∃ (start : Bytes) (roots flags : Nat) (r₁ r₂ r₃ r₄ r₅ r₆ : Reader),
      (Reader.take 4).Ends ⟨bytes, 0⟩ start r₁ ∧ Reader.byte.Ends r₁ flags r₂ ∧
      header.refSize = flags &&& 7 ∧ (1 ≤ header.refSize ∧ header.refSize ≤ 4) ∧
      (Reader.uint header.refSize).Ends r₃ roots r₄ ∧ header.count ≤ options.cellCeiling ∧
      ¬(roots = 0 ∨ roots > options.cellCeiling) ∧
      ((List.range roots).mapM fun _ => readRoot header.refSize header.count : Read (List Nat)).Ends r₅
        header.rootList r₆ ∧
      r.pos = header.bodyOffset ∧
      header.bodyOffset + header.cellArea = bodyEnd bytes header.hasChecksum := by
  unfold readHeader at h
  obtain ⟨start, r₁, started, h⟩ := ends_bind.mp h
  obtain ⟨_, h⟩ := ends_failIf_bind.mp h
  obtain ⟨flags, r₂, flagged, h⟩ := ends_bind.mp h
  obtain ⟨offsetSize, _, _, h⟩ := ends_bind.mp h
  obtain ⟨refSize, h⟩ := ends_failIf_bind.mp h
  obtain ⟨_, h⟩ := ends_failIf_bind.mp h
  obtain ⟨_, _, _, h⟩ := ends_bind.mp h
  obtain ⟨count, r₃, _, h⟩ := ends_bind.mp h
  obtain ⟨roots, r₄, counted, h⟩ := ends_bind.mp h
  obtain ⟨_, _, _, h⟩ := ends_bind.mp h
  obtain ⟨cellArea, _, _, h⟩ := ends_bind.mp h
  obtain ⟨_, h⟩ := ends_failIf_bind.mp h
  obtain ⟨few, h⟩ := ends_failIf_bind.mp h
  obtain ⟨someRoots, h⟩ := ends_failIf_bind.mp h
  obtain ⟨_, r₅, _, h⟩ := ends_bind.mp h
  obtain ⟨_, h⟩ := ends_failIf_bind.mp h
  obtain ⟨_, h⟩ := ends_failIf_bind.mp h
  obtain ⟨rootList, r₆, listed, h⟩ := ends_bind.mp h
  obtain ⟨_, _, _, h⟩ := ends_bind.mp h
  obtain ⟨_, _, place, h⟩ := ends_bind.mp h
  obtain ⟨area, h⟩ := ends_failIf_bind.mp h
  obtain ⟨rfl, rfl⟩ := ends_pure.mp h
  obtain ⟨_, _, got, last⟩ := ends_bind.mp place
  obtain ⟨rfl, rfl⟩ := ends_get.mp got
  obtain ⟨rfl, rfl⟩ := ends_pure.mp last
  exact ⟨start, roots, flags, r₁, r₂, r₃, r₄, r₅, r₆, started, flagged, rfl, not_not.mp refSize, counted,
    not_lt.mp few, someRoots, listed, rfl, by simpa [bodyEnd] using area⟩

theorem readHeader_ends {options : ParseOptions} {header : Header} {r : Reader}
    (h : (readHeader bytes options).Ends ⟨bytes, 0⟩ header r) :
    HeaderRead bytes options header r := by
  obtain ⟨_, same⟩ := readHeader_yields options (show Over bytes ⟨bytes, 0⟩ from rfl) h
  obtain ⟨_, roots, _, _, _, _, _, r₅, _, _, _, _, refSize, _, few, someRoots, listed, pos, area⟩ :=
    readHeader_stages h
  obtain ⟨⟨length, named⟩, _⟩ := Yields.mapM (fun _ _ => readRoot_lt header.refSize header.count)
    (show Over r₅.bytes r₅ from rfl) listed
  rw [List.length_range] at length
  constructor
  case bytes_eq => exact same
  case pos => exact pos
  case refSize => exact refSize
  case count_le => exact few
  case roots_le => omega
  case rooted =>
    intro none
    rw [none, List.length_nil] at length
    omega
  case named => exact named
  case area => exact area

-- A bag that was read: its header, and its cells before any of them is built.
def ReadBag (bytes : Bytes) (options : ParseOptions) (header : Header) (raw : List RawCell) : Prop :=
  ∃ r r', (readHeader bytes options).Ends ⟨bytes, 0⟩ header r ∧ (readRaw header).Ends r raw r'

theorem ReadBag.unique {options : ParseOptions} {header header' : Header} {raw raw' : List RawCell}
    (h : ReadBag bytes options header raw) (h' : ReadBag bytes options header' raw') :
    header = header' ∧ raw = raw' := by
  have ⟨_, _, headerRead, rawRead⟩ := h
  have ⟨_, _, headerRead', rawRead'⟩ := h'
  obtain ⟨rfl, rfl⟩ := headerRead.unique headerRead'
  exact ⟨rfl, (rawRead.unique rawRead').left⟩

-- The stages a bag that is accepted goes through.
theorem parseBocWith_eq_ok [Sha256] {options : ParseOptions} {cells : List Cell} :
    parseBocWith bytes options = .ok cells ↔
      ∃ header r raw r' height, (readHeader bytes options).Ends ⟨bytes, 0⟩ header r ∧
        (readRaw header).Ends r raw r' ∧ heights raw header.count = .ok height ∧
        buildPlanned raw bytes (.byHeight height) header = .ok cells := by
  simp only [parseBocWith, bind_eq_ok, pure_eq_ok, Prod.exists, call_eq_ok, readAndBuild, ends_bind,
    ends_get, ends_ofExcept]
  constructor
  · rintro ⟨_, _, ⟨header, r, headerRead, _, _, ⟨rfl, rfl⟩, raw, r', rawRead, height, _, ⟨tall, rfl⟩,
      built, rfl⟩, rfl⟩
    exact ⟨header, r, raw, r', height, headerRead, rawRead, tall, (readHeader_ends headerRead).bytes_eq ▸ built⟩
  · rintro ⟨header, r, raw, r', height, headerRead, rawRead, tall, built⟩
    exact ⟨cells, r', ⟨header, r, headerRead, r, r, ⟨rfl, rfl⟩, raw, r', rawRead, height, r',
      ⟨tall, rfl⟩, (readHeader_ends headerRead).bytes_eq.symm ▸ built, rfl⟩, rfl⟩

end

end TonNet
