import TonNet.Boc.Serialize
import TonNet.Boc.Theorems.Plan
import TonNet.Boc.Theorems.Read
import TonNet.Cell.Theorems.Reveal

-- A cell that was written is read back as what it was built from.

namespace TonNet

open Fallible Method

section Numbers

variable {value width : Nat}

theorem pushBe_eq (h : width ≤ 8) : pushBe value width = Bytes.be width value := by
  have split : Bytes.be 8 value = Bytes.be (8 - width) (value / 256 ^ width) ++ Bytes.be width value := by
    rw [← Bytes.be_add]
    congr 1
    omega
  rw [pushBe, split, List.drop_left' (Bytes.be_length ..)]

theorem pushBe_length (value : Nat) (h : width ≤ 8) : (pushBe value width).length = width := by
  rw [pushBe_eq h, Bytes.be_length]

theorem ofBe_pushBe (h : width ≤ 8) : Bytes.ofBe (pushBe value width) = value % 256 ^ width := by
  rw [pushBe_eq h, Bytes.ofBe_be]

theorem byteWidth_pos (value : Nat) : 1 ≤ byteWidth value :=
  le_max_right ..

theorem lt_byteWidth (value : Nat) : value < 256 ^ byteWidth value := by
  have wide : (if value = 0 then 0 else value.log2 + 1) ≤ 8 * byteWidth value := by
    simp only [byteWidth]
    omega
  have small : value < 2 ^ (if value = 0 then 0 else value.log2 + 1) := by
    split
    case isTrue h => simp [h]
    case isFalse => exact Nat.lt_log2_self
  calc value < 2 ^ (if value = 0 then 0 else value.log2 + 1) := small
    _ ≤ 2 ^ (8 * byteWidth value) := Nat.pow_le_pow_right (by decide) wide
    _ = 256 ^ byteWidth value := by rw [Nat.pow_mul]

theorem byteWidth_le (pos : 1 ≤ width) (h : value < 256 ^ width) : byteWidth value ≤ width := by
  have : (if value = 0 then 0 else value.log2 + 1) ≤ 8 * width := by
    split
    case isTrue => omega
    case isFalse ne =>
      have : value < 2 ^ (8 * width) := by rwa [Nat.pow_mul]
      exact Nat.succ_le_of_lt ((Nat.log2_lt ne).mpr this)
  simp only [byteWidth]
  omega

end Numbers

section Cell

theorem refsDescriptor_reads : ∀ refs ≤ maxRefs, ∀ mask < 8, ∀ exotic stored : Bool,
    let d1 := UInt8.ofNat (refsDescriptor refs exotic mask 3)
    let d1 := (if stored then d1 ||| .ofNat withHashes else d1).toNat
    d1 &&& 7 = refs ∧ decide (d1 &&& 8 ≠ 0) = exotic ∧ d1 >>> 5 = mask ∧
      decide (d1 &&& withHashes ≠ 0) = stored := by
  decide

theorem bitsDescriptor_reads {bits : Nat} (h : bits ≤ maxBits) :
    (UInt8.ofNat (bitsDescriptor bits)).toNat = bitsDescriptor bits ∧
      (bitsDescriptor bits >>> 1) + (bitsDescriptor bits &&& 1) = (bits + 7) / 8 := by
  unfold maxBits at h
  rw [UInt8.toNat_ofNat', Nat.and_one_is_mod, Nat.shiftRight_eq_div_pow, bitsDescriptor]
  omega

-- The last byte of a partial cell ends with the bit that closes its data.
theorem trailingZeros_of_tagged {data : Bytes} {bits : Nat} {last : UInt8} (t : Tagged data bits)
    (partialByte : bits % 8 ≠ 0) (h : data.getLast? = some last) :
    trailingZeros last = 7 - bits % 8 := by
  have ⟨set, clear⟩ := t.closed partialByte
  have length := t.length_eq
  have byte : data.getD (bits / 8) 0 = last := by
    rw [List.getLast?_eq_getElem?, show data.length - 1 = bits / 8 by omega] at h
    simp [h]
  have inLast (j : Nat) (hj : j < 8) : data.bitAt (8 * (bits / 8) + j) = last.toNat.testBit (7 - j) := by
    have div : (8 * (bits / 8) + j) / 8 = bits / 8 := by omega
    have mod : (8 * (bits / 8) + j) % 8 = j := by omega
    rw [Bytes.bitAt, div, mod, byte]
  have found : (List.range 8).find? last.toNat.testBit = some (7 - bits % 8) := by
    rw [List.find?_range_eq_some]
    refine ⟨?_, by simp; omega, fun j hj => ?_⟩
    · rw [← inLast _ (by omega), Nat.div_add_mod]
      exact set
    · have := inLast (7 - j) (by omega)
      rw [clear _ (by omega), show 7 - (7 - j) = j by omega] at this
      simp [← this]
  rw [trailingZeros, found]
  rfl

theorem bitLen_of_tagged {data : Bytes} {bits : Nat} (t : Tagged data bits) :
    bitLen (bitsDescriptor bits) data = .ok bits := by
  have length := t.length_eq
  unfold bitLen
  rw [Nat.and_one_is_mod, Nat.shiftRight_eq_div_pow, bitsDescriptor]
  by_cases whole : bits % 8 = 0
  case pos =>
    rw [if_pos (by omega)]
    exact congrArg Except.ok (by omega)
  case neg =>
    rw [if_neg (by omega)]
    obtain ⟨last, h⟩ : ∃ last, data.getLast? = some last := by
      refine ⟨_, List.getLast?_eq_some_getLast fun empty => ?_⟩
      rw [empty, List.length_nil] at length
      omega
    have zeros := trailingZeros_of_tagged t whole h
    simp only [okOr_bind_eq_ok, failIf_bind_eq_ok, pure_eq_ok]
    exact ⟨last, h, by omega, by omega⟩

variable [Sha256] {c : Cell}

omit [Sha256] in
theorem Cell.Branch.check (b : c.Branch) (h : c.levelMask < 8) :
    checkBranch c.data c.levelMask = .ok () := by
  have byte : (UInt8.ofNat c.levelMask).toNat = c.levelMask := by
    rw [UInt8.toNat_ofNat']
    omega
  have length := b.length_eq
  simp only [checkBranch, okOr_bind_eq_ok, failIf_bind_eq_ok, failIf_eq_ok, not_not]
  exact ⟨_, b.mask_eq, byte, byte.symm ▸ b.mask_ne_zero, by rw [byte]; omega⟩

theorem Cell.Sound.classify (s : c.Sound) :
    classify c.isExotic c.data c.levelMask c.refs.length = .ok c.cellType := by
  unfold TonNet.classify
  by_cases ordinary : c.cellType = .ordinary
  case pos =>
    simp only [Cell.isExotic, ordinary]
    rfl
  case neg =>
    obtain ⟨tag, htag⟩ : ∃ tag, c.cellType.tag = some tag := by
      cases h : c.cellType <;> simp_all [CellType.tag]
    obtain ⟨n, hn⟩ : ∃ n, c.cellType.expectedRefs = some n := by
      cases h : c.cellType <;> simp_all [CellType.expectedRefs]
    have exotic : c.isExotic = true := by simp [Cell.isExotic, ordinary]
    simp only [exotic, if_true, okOr_bind_eq_ok]
    refine ⟨tag, s.leading tag htag, c.cellType, CellType.fromTag_eq_some_iff.mpr htag, ?_⟩
    simp only [hn, failIf_bind_eq_ok, not_not]
    refine ⟨s.arity n hn, ?_⟩
    by_cases pruned : c.cellType = .prunedBranch
    case pos =>
      rw [if_pos pruned, (s.branch pruned).check s.mask_lt]
      rfl
    case neg =>
      rw [if_neg pruned]
      rfl

end Cell

section Stored

variable {identity : Identity} {mask : Nat}

-- The hashes and depths of an identity, lowest first.
theorem Identity.Fits.writeStored_eq (f : identity.Fits mask) (hm : mask < 8) :
    ∃ (hashes : List Hash) (depths : List UInt16),
      identity.writeStored = hashes.flatMap Hash.bytes ++ depths.flatMap depthBytes ∧
      hashes.length = identity.count ∧ depths.length = identity.count ∧
      ∀ i < identity.count, identity.hash i = hashes[i]? ∧ identity.depth i = depths[i]? := by
  have hash (i : Nat) (lt : i < identity.count) :
      identity.hash i = some ((identity.hash i).getD identity.hash0) := by
    have le : i ≤ countOnes mask := by
      rw [f.count] at lt
      omega
    have ⟨_, h⟩ := Option.ne_none_iff_exists'.mp (f.hash_ne_none hm le)
    rw [h]
    rfl
  have depth (i : Nat) (lt : i < identity.count) :
      identity.depth i = some ((identity.depth i).getD identity.depth0) := by
    have le : i ≤ countOnes mask := by
      rw [f.count] at lt
      omega
    have ⟨_, h⟩ := Option.ne_none_iff_exists'.mp (f.depth_ne_none hm le)
    rw [h]
    rfl
  refine ⟨(List.range identity.count).map fun i => (identity.hash i).getD identity.hash0,
    (List.range identity.count).map fun i => (identity.depth i).getD identity.depth0, ?_, by simp,
    by simp, fun i lt => ⟨?_, ?_⟩⟩
  · rw [Identity.writeStored, List.flatMap_map, List.flatMap_map]
    congr 1
    · refine List.flatMap_congr fun i mem => ?_
      rw [hash i (List.mem_range.mp mem)]
      rfl
    · refine List.flatMap_congr fun i mem => ?_
      rw [depth i (List.mem_range.mp mem)]
      rfl
  · rw [hash i lt]
    simp [lt]
  · rw [depth i lt]
    simp [lt]

theorem Identity.Fits.writeStored_length (f : identity.Fits mask) (hm : mask < 8) :
    identity.writeStored.length = (countOnes mask + 1) * (32 + 2) := by
  have ⟨hashes, depths, written, hl, dl, _⟩ := f.writeStored_eq hm
  rw [written, List.length_append, List.length_flatMap_of_forall Hash.length_eq,
    List.length_flatMap_of_forall depthBytes_length, hl, dl, f.count]
  omega

theorem Identity.Fits.checkStored (f : identity.Fits mask) (hm : mask < 8) :
    checkStored identity identity.writeStored = .ok () := by
  have length := f.writeStored_length hm
  obtain ⟨hashes, depths, written, hl, dl, holds⟩ := f.writeStored_eq hm
  have front : (hashes.flatMap Hash.bytes).length = identity.count * 32 := by
    rw [List.length_flatMap_of_forall Hash.length_eq, hl]
  simp only [TonNet.checkStored, bind_eq_ok, forM_eq_ok, okOr_eq_ok, failIf_eq_ok, not_not,
    List.mem_range]
  refine ⟨(), by rw [length, f.count], (), fun i lt => ?_, fun i lt => ?_⟩
  · obtain ⟨h, here⟩ : ∃ h, hashes[i]? = some h := ⟨_, List.getElem?_eq_getElem (hl ▸ lt)⟩
    refine ⟨h, (holds i lt).1.trans here, ?_⟩
    rw [written, List.drop_append_of_le_length (by omega),
      List.take_append_of_le_length (by rw [List.length_drop]; omega), Nat.mul_comm]
    exact List.take_drop_flatMap Hash.length_eq here
  · obtain ⟨d, here⟩ : ∃ d, depths[i]? = some d := ⟨_, List.getElem?_eq_getElem (dl ▸ lt)⟩
    refine ⟨d, (holds i lt).2.trans here, ?_⟩
    rw [written, ← List.drop_drop, List.drop_left' front, Nat.mul_comm]
    exact List.take_drop_flatMap depthBytes_length here

end Stored

section Reads

variable {bytes : Bytes} {pos : Nat} {header : Header} {index : Nat} {options : BocOptions}

theorem ends_uint_pushBe {value width : Nat} (wide : width ≤ 8) (small : value < 256 ^ width)
    (lies : Lies bytes pos (pushBe value width)) :
    (Reader.uint width).Ends ⟨bytes, pos⟩ value ⟨bytes, pos + (pushBe value width).length⟩ := by
  have length : (pushBe value width).length = width := pushBe_length value wide
  rw [length]
  exact ends_uint.mpr ⟨_, length, lies, by rw [ofBe_pushBe wide, Nat.mod_eq_of_lt small], rfl⟩

-- Reading one after the other what was written one after the other.
theorem mapM_written {α β γ : Type} {read : β → Read α} {write : γ → Bytes} {R : γ → α → Prop}
    {l : List β} {written : List γ}
    (each : List.Forall₂ (fun b w => ∀ pos, Lies bytes pos (write w) → ∃ a, R w a ∧
      (read b).Ends ⟨bytes, pos⟩ a ⟨bytes, pos + (write w).length⟩) l written)
    (lies : Lies bytes pos (written.flatMap write)) :
    ∃ as, List.Forall₂ R written as ∧
      (l.mapM read).Ends ⟨bytes, pos⟩ as ⟨bytes, pos + (written.flatMap write).length⟩ := by
  induction each generalizing pos
  case nil => exact ⟨[], .nil, by simp⟩
  case cons b w l written here _ hi =>
    rw [List.flatMap_cons] at lies ⊢
    have ⟨a, ha, first⟩ := here pos lies.left
    have ⟨as, has, rest⟩ := hi lies.right
    refine ⟨a :: as, .cons ha has, ?_⟩
    rw [List.mapM_cons, List.length_append, ← Nat.add_assoc]
    exact ends_bind.mpr ⟨a, _, first, ends_bind.mpr ⟨as, _, rest, ends_pure.mpr ⟨rfl, rfl⟩⟩⟩

-- The same for a list of numbers, each read the same way.
theorem mapM_numbers {read : Read Nat} {width : Nat} {values : List Nat}
    (each : ∀ value ∈ values, ∀ pos, Lies bytes pos (pushBe value width) →
      read.Ends ⟨bytes, pos⟩ value ⟨bytes, pos + (pushBe value width).length⟩)
    (lies : Lies bytes pos (values.flatMap (pushBe · width))) :
    ((List.range values.length).mapM fun _ => read).Ends ⟨bytes, pos⟩ values
      ⟨bytes, pos + (values.flatMap (pushBe · width)).length⟩ := by
  have pairs : List.Forall₂ (fun (_ : Nat) value => ∀ pos, Lies bytes pos (pushBe value width) →
      ∃ a, value = a ∧ read.Ends ⟨bytes, pos⟩ a ⟨bytes, pos + (pushBe value width).length⟩)
      (List.range values.length) values := by
    refine List.forall₂_iff_get.mpr ⟨by simp, fun i _ h pos here => ⟨_, rfl, ?_⟩⟩
    exact each _ (List.getElem_mem h) pos here
  have ⟨as, same, ends⟩ := mapM_written pairs lies
  obtain rfl : values = as := by rwa [List.forall₂_eq_eq_eq] at same
  exact ends

theorem span_written {data : Bytes} (small : bytes.length < 2 ^ 32) (lies : Lies bytes pos data) :
    (takeSpan data.length).Ends ⟨bytes, pos⟩ (data, ⟨pos, pos + data.length⟩)
      ⟨bytes, pos + data.length⟩ ∧ (Span.mk pos (pos + data.length)).of bytes = .ok data := by
  have le := lies.le
  constructor
  · refine ends_takeSpan.mpr ⟨rfl, lies, ?_, rfl⟩
    simp only [Span.new, failIf_bind_eq_ok, pure_eq_ok, and_true]
    omega
  · simp only [Span.of, failIf_bind_eq_ok, pure_eq_ok, Nat.add_sub_cancel_left, lies.take_drop, and_true]
    omega

theorem readTarget_written {target : Nat} (wide : header.refSize ≤ 8)
    (counted : header.count ≤ 256 ^ header.refSize) (forward : index < target ∧ target < header.count)
    (lies : Lies bytes pos (pushBe target header.refSize)) :
    (readTarget header index).Ends ⟨bytes, pos⟩ target
      ⟨bytes, pos + (pushBe target header.refSize).length⟩ := by
  refine ends_bind.mpr ⟨target, _, ends_uint_pushBe wide (by omega) lies, ?_⟩
  exact ends_bind.mpr ⟨(), _, ends_failIf.mpr ⟨by omega, rfl⟩, ends_pure.mpr ⟨rfl, rfl⟩⟩

-- The hashes ahead of a cell's data, where they are asked for.
def storedOf (options : BocOptions) (c : Cell) : Bytes :=
  if options.storedHashes then c.identity.writeStored else []

-- What a written cell is read back as.
def rawOf (options : BocOptions) (c : Cell) (refs : List Nat) (pos : Nat) : RawCell :=
  let start := pos + 2 + (storedOf options c).length
  {
    data      := ⟨start, start + c.data.length⟩
    bits      := c.bits
    refs      := refs
    cellType  := c.cellType
    levelMask := c.levelMask
    stored    := if options.storedHashes then some ⟨pos + 2, start⟩ else none
  }

variable [Sha256] {c : Cell} {refs : List Nat}

theorem readStored_written {d1 : Nat} (refs : List Nat) (hc : c.WellFormed) (small : bytes.length < 2 ^ 32)
    (has : decide (d1 &&& withHashes ≠ 0) = options.storedHashes)
    (lies : Lies bytes (pos + 2) (storedOf options c)) :
    (readStored d1 c.levelMask).Ends ⟨bytes, pos + 2⟩ (rawOf options c refs pos).stored
      ⟨bytes, pos + 2 + (storedOf options c).length⟩ := by
  have length := hc.fits.writeStored_length hc.sound.mask_lt
  unfold readStored rawOf
  cases stored : options.storedHashes
  case false =>
    rw [stored, decide_eq_false_iff_not] at has
    simp [has, storedOf, stored]
  case true =>
    rw [stored, decide_eq_true_eq] at has
    simp only [storedOf, stored, if_true] at lies ⊢
    rw [if_pos has, ← length]
    exact ends_bind.mpr ⟨_, _, (span_written small lies).left, ends_pure.mpr ⟨rfl, rfl⟩⟩

theorem buildOver_rawOf (hc : c.WellFormed) (small : bytes.length < 2 ^ 32)
    (stored : Lies bytes (pos + 2) (storedOf options c))
    (data : Lies bytes (pos + 2 + (storedOf options c).length) c.data) :
    buildOver bytes (rawOf options c refs pos) c.refs = .ok c := by
  have read := (span_written small data).right
  have parts : Cell.fromParts c.data c.bits c.refs c.cellType c.levelMask = .ok c :=
    Cell.fromParts_eq_ok.mpr ⟨hc.sound.refs_le, c.identity, hc.sound.summary, by cases c; rfl⟩
  simp only [buildOver, rawOf, read, parts, ok_bind]
  cases has : options.storedHashes
  case false => rfl
  case true =>
    simp only [storedOf, has, if_true] at stored ⊢
    rw [(span_written small stored).right, ok_bind, hc.fits.checkStored hc.sound.mask_lt]
    rfl

omit [Sha256] in
theorem writeCell_eq : writeCell options header.refSize c refs =
    [if options.storedHashes then c.storedDescriptors.1 ||| .ofNat withHashes else c.storedDescriptors.1] ++
      ([c.storedDescriptors.2] ++ (storedOf options c ++
        (c.data ++ refs.flatMap (pushBe · header.refSize)))) := by
  simp [writeCell, storedOf]

theorem readCell_written (header : Header) (index : Nat) (hc : c.WellFormed) (small : bytes.length < 2 ^ 32)
    (wide : header.refSize ≤ 8) (counted : header.count ≤ 256 ^ header.refSize)
    (length : refs.length = c.refs.length)
    (forward : ∀ target ∈ refs, index < target ∧ target < header.count)
    (lies : Lies bytes pos (writeCell options header.refSize c refs)) :
    buildOver bytes (rawOf options c refs pos) c.refs = .ok c ∧
      (readCell header index).Ends ⟨bytes, pos⟩ (rawOf options c refs pos)
        ⟨bytes, pos + (writeCell options header.refSize c refs).length⟩ := by
  rw [writeCell_eq] at lies ⊢
  have ⟨refCount, exotic, mask, has⟩ := refsDescriptor_reads c.refs.length hc.sound.refs_le c.levelMask
    hc.sound.mask_lt c.isExotic options.storedHashes
  have ⟨d2, size⟩ := bitsDescriptor_reads hc.sound.bits_le
  simp only [Cell.storedDescriptors] at lies ⊢
  generalize (if options.storedHashes then UInt8.ofNat (refsDescriptor c.refs.length c.isExotic c.levelMask 3) |||
    .ofNat withHashes else UInt8.ofNat (refsDescriptor c.refs.length c.isExotic c.levelMask 3)) = d1 at *
  have stored : Lies bytes (pos + 2) (storedOf options c) := lies.right.right.left
  have data : Lies bytes (pos + 2 + (storedOf options c).length) c.data := lies.right.right.right.left
  have targets := lies.right.right.right.right
  refine ⟨buildOver_rawOf hc small stored data, ?_⟩
  have storedRead := readStored_written refs hc small has stored
  have dataRead := (span_written small data).left
  have targetsRead := mapM_numbers (fun target mem pos here =>
    readTarget_written wide counted (forward target mem) here) targets
  have sized : (bitsDescriptor c.bits >>> 1) + (bitsDescriptor c.bits &&& 1) = c.data.length := by
    rw [size, hc.sound.tagged.length_eq]
  rw [length] at targetsRead
  simp only [readCell, ends_bind, ends_byte, ends_failIf, ends_ofExcept, ends_pure]
  refine ⟨_, _, ⟨d1, rfl, lies.left, rfl⟩, _, _, ⟨_, d2, lies.right.left, rfl⟩, (), _, ⟨?_, rfl⟩, ?_⟩
  · rw [refCount]
    exact not_lt.mpr hc.sound.refs_le
  rw [refCount, exotic, mask, sized]
  refine ⟨_, _, storedRead, _, _, dataRead, _, _, ⟨bitLen_of_tagged hc.sound.tagged, rfl⟩, (), _,
    ⟨not_lt.mpr hc.sound.bits_le, rfl⟩, _, _, ⟨hc.sound.classify, rfl⟩, _, _, targetsRead, rfl, ?_⟩
  simp only [List.length_append, List.length_singleton, Reader.mk.injEq, true_and]
  omega

end Reads

end TonNet
