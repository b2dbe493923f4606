import TonNet.Boc.Theorems.Header
import TonNet.Boc.Theorems.Topological
import TonNet.Boc.Theorems.Written

-- What is read back of a bag that was written.

namespace TonNet

open Fallible Method

section Header

-- A bag up to its cells.
def opening (options : BocOptions) (count : Nat) (rootList offsets : List Nat) (body : Bytes) : Bytes :=
  magic ++ ([flagsByte options (byteWidth count)] ++ ([.ofNat (byteWidth body.length)] ++
    (pushBe count (byteWidth count) ++ (pushBe rootList.length (byteWidth count) ++
    (pushBe 0 (byteWidth count) ++ (pushBe body.length (byteWidth body.length) ++
    (rootList.flatMap (pushBe · (byteWidth count)) ++
    (if options.index then offsets.flatMap (pushBe · (byteWidth body.length)) else []))))))))

-- What may follow the cells.
def closing (options : BocOptions) (out : Bytes) : Bytes :=
  if options.crc32c then toLe (crc32c out) else []

theorem flagsByte_reads (options : BocOptions) : ∀ refSize ≤ 4,
    let flags := (flagsByte options refSize).toNat
    decide (flags &&& 0x80 ≠ 0) = options.index ∧ decide (flags &&& 0x40 ≠ 0) = options.crc32c ∧
      flags &&& 7 = refSize := by
  have : ∀ index crc32c storedHashes, ∀ refSize ≤ 4,
      let flags := (flagsByte ⟨index, crc32c, storedHashes⟩ refSize).toNat
      decide (flags &&& 0x80 ≠ 0) = index ∧ decide (flags &&& 0x40 ≠ 0) = crc32c ∧
        flags &&& 7 = refSize := by
    decide
  exact this options.index options.crc32c options.storedHashes

theorem ofLe_toLe (value : UInt32) : ofLe (toLe value) = value := by
  have : value.toNat < 256 ^ 4 := value.toNat_lt
  rw [ofLe, toLe, List.reverse_reverse, Bytes.ofBe_be, Nat.mod_eq_of_lt this, UInt32.ofNat_toNat]

theorem checkChecksum_written (out : Bytes) : checkChecksum (out ++ toLe (crc32c out)) = .ok () := by
  have length : (toLe (crc32c out)).length = 4 := by simp [toLe]
  simp only [checkChecksum, failIf_bind_eq_ok, failIf_eq_ok, not_not, List.length_append, length]
  refine ⟨by omega, ?_⟩
  rw [Nat.add_sub_cancel, List.take_left, List.drop_left, ofLe_toLe]

theorem ends_onlyIf {σ ε : Type} {p : Prop} [Decidable p] {x : Method σ ε Unit} {s s' : σ}
    (yes : p → x.Ends s () s') (no : ¬p → s = s') : (onlyIf p x).Ends s () s' := by
  unfold onlyIf
  split
  case isTrue h => exact yes h
  case isFalse h => exact ends_pure.mpr ⟨rfl, no h⟩

variable {options : BocOptions} {count : Nat} {rootList offsets : List Nat} {body bytes : Bytes}

theorem readRoot_written {refSize pos index : Nat} (wide : refSize ≤ 8) (counted : count ≤ 256 ^ refSize)
    (named : index < count) (lies : Lies bytes pos (pushBe index refSize)) :
    (readRoot refSize count).Ends ⟨bytes, pos⟩ index ⟨bytes, pos + (pushBe index refSize).length⟩ := by
  refine ends_bind.mpr ⟨index, _, ends_uint_pushBe wide (by omega) lies, ?_⟩
  exact ends_bind.mpr ⟨(), _, ends_failIf.mpr ⟨not_le.mpr named, rfl⟩, ends_pure.mpr ⟨rfl, rfl⟩⟩

theorem readIndex_written {flags pos stop : Nat} (wide : byteWidth body.length ≤ 8)
    (indexed : offsets.length = count) (has : decide (flags &&& 0x80 ≠ 0) = options.index)
    (lies : Lies bytes pos
      (if options.index then offsets.flatMap (pushBe · (byteWidth body.length)) else []))
    (last : pos + (if options.index then offsets.flatMap (pushBe · (byteWidth body.length))
      else []).length = stop) :
    (onlyIf (flags &&& 0x80 ≠ 0) (Reader.skip (count * byteWidth body.length))).Ends ⟨bytes, pos⟩ ()
      ⟨bytes, stop⟩ := by
  have length : (offsets.flatMap (pushBe · (byteWidth body.length))).length =
      count * byteWidth body.length := by
    rw [List.length_flatMap_of_forall fun offset => pushBe_length offset wide, indexed]
  subst last
  refine ends_onlyIf (fun yes => ?_) fun no => ?_
  · rw [← has, decide_eq_true yes, if_pos rfl] at lies ⊢
    rw [length]
    exact ends_bind.mpr ⟨_, _, ends_take.mpr ⟨length, lies, rfl⟩, ends_pure.mpr ⟨rfl, rfl⟩⟩
  · rw [← has, decide_eq_false no]
    rfl

-- The header of a bag that was written.
def headerOf (options : BocOptions) (count : Nat) (rootList offsets : List Nat) (body : Bytes) :
    Header where
  count        := count
  refSize      := byteWidth count
  rootList     := rootList
  hasIndex     := options.index
  hasChecksum  := options.crc32c
  hasCacheBits := (flagsByte options (byteWidth count)).toNat &&& 0x20 ≠ 0
  cellArea     := body.length
  bodyOffset   := (opening options count rootList offsets body).length

theorem closing_length (out : Bytes) :
    (closing options out).length = if options.crc32c then 4 else 0 := by
  unfold closing
  split <;> simp [toLe]

theorem readHeader_written (few : count ≤ maxCells) (rooted : rootList ≠ [])
    (roots_le : rootList.length ≤ maxCells) (fits : rootList.length < 256 ^ byteWidth count)
    (named : ∀ index ∈ rootList, index < count) (indexed : offsets.length = count)
    (filled : count * 2 ≤ body.length)
    (whole : bytes = opening options count rootList offsets body ++ body ++
      closing options (opening options count rootList offsets body ++ body))
    (small : bytes.length < 2 ^ 32) :
    (readHeader bytes {}).Ends ⟨bytes, 0⟩ (headerOf options count rootList offsets body)
      ⟨bytes, (opening options count rootList offsets body).length⟩ := by
  have place : bytes.length = (opening options count rootList offsets body).length + body.length +
      if options.crc32c then 4 else 0 := by
    rw [← closing_length (opening options count rootList offsets body ++ body), ← List.length_append,
      ← List.length_append, ← whole]
  have refSize_le : byteWidth count ≤ 4 := byteWidth_le (by decide) (lt_of_le_of_lt few (by decide))
  have offset_le : byteWidth body.length ≤ 8 := byteWidth_le (by decide) (by omega)
  have wide : byteWidth count ≤ 8 := by omega
  have ⟨index, checksum, refSize⟩ := flagsByte_reads options (byteWidth count) refSize_le
  have lies : Lies bytes 0 (opening options count rootList offsets body ++ body) :=
    ⟨[], closing options _, by simpa using whole, rfl⟩
  have start := lies.left
  rw [opening] at start
  have magicRead : (Reader.take 4).Ends ⟨bytes, 0⟩ magic ⟨bytes, 4⟩ :=
    ends_take.mpr ⟨rfl, start.left, rfl⟩
  have flagsRead : Reader.byte.Ends ⟨bytes, 4⟩ (flagsByte options (byteWidth count)).toNat ⟨bytes, 5⟩ :=
    ends_byte.mpr ⟨_, rfl, start.right.left, rfl⟩
  have offsetRead : Reader.byte.Ends ⟨bytes, 5⟩ (byteWidth body.length) ⟨bytes, 6⟩ :=
    ends_byte.mpr ⟨_, by rw [UInt8.toNat_ofNat']; omega, start.right.right.left, rfl⟩
  have checksumRead : (onlyIf ((flagsByte options (byteWidth count)).toNat &&& 0x40 ≠ 0)
      (Method.ofExcept (checkChecksum bytes) : Read Unit)).Ends ⟨bytes, 6⟩ () ⟨bytes, 6⟩ := by
    refine ends_onlyIf (fun has => ends_ofExcept.mpr ⟨?_, rfl⟩) fun _ => rfl
    rw [whole, closing, if_pos (checksum ▸ decide_eq_true has), checkChecksum_written]
  have numbers : Lies bytes 6 _ := start.right.right.right
  have lists := numbers.right.right.right.right
  have countRead := ends_uint_pushBe wide (lt_byteWidth count) numbers.left
  have rootsRead := ends_uint_pushBe wide fits numbers.right.left
  have absentRead := ends_uint_pushBe wide (Nat.pow_pos (by decide)) numbers.right.right.left
  have areaRead := ends_uint_pushBe offset_le (lt_byteWidth body.length) numbers.right.right.right.left
  have listRead := mapM_numbers (fun index mem pos here =>
    readRoot_written wide (lt_byteWidth count).le (named index mem) here) lists.left
  have opened : (opening options count rootList offsets body).length = _ :=
    congrArg List.length (opening.eq_1 ..)
  have four : magic.length = 4 := rfl
  simp only [List.length_append, List.length_singleton, four] at opened
  have skipRead := readIndex_written offset_le indexed index lists.right
    (show _ = (opening options count rootList offsets body).length by omega)
  have ceiling : ({} : ParseOptions).cellCeiling = maxCells := min_self _
  simp only [readHeader, ends_bind, ends_failIf, Reader.remaining, Reader.consumed, ends_get, ends_pure]
  refine ⟨_, _, magicRead, (), _, ⟨not_not.mpr rfl, rfl⟩, _, _, flagsRead, _, _, offsetRead, ?_⟩
  rw [refSize, ceiling]
  refine ⟨(), _, ⟨not_not.mpr ⟨byteWidth_pos _, refSize_le⟩, rfl⟩, (), _,
    ⟨not_not.mpr ⟨byteWidth_pos _, offset_le⟩, rfl⟩, (), _, checksumRead, _, _, countRead, _, _, rootsRead,
    _, _, absentRead, _, _, areaRead, (), _, ⟨not_not.mpr rfl, rfl⟩, (), _, ⟨not_lt.mpr few, rfl⟩, (), _,
    ⟨?_, rfl⟩, _, _, ⟨_, _, ⟨rfl, rfl⟩, rfl, rfl⟩, (), _, ⟨?_, rfl⟩, (), _, ⟨?_, rfl⟩, _, _, listRead, (), _,
    skipRead, _, _, ⟨_, _, ⟨rfl, rfl⟩, rfl, rfl⟩, (), _, ⟨?_, rfl⟩, ?_, ?_⟩
  · have := List.length_pos_iff.mpr rooted
    omega
  · dsimp only
    omega
  · have := List.length_flatMap_of_forall (fun index => pushBe_length index wide) rootList
    dsimp only
    omega
  · rw [not_not]
    cases has : options.crc32c
    case false =>
      rw [has, decide_eq_false_iff_not, not_not] at checksum
      rw [has, if_neg Bool.false_ne_true] at place
      rw [if_neg (not_not.mpr checksum)]
      exact place.symm
    case true =>
      rw [has, decide_eq_true_eq] at checksum
      rw [has, if_pos rfl] at place
      rw [if_pos checksum]
      dsimp only
      omega
  · simp only [headerOf, index, checksum]
  · rfl

end Header

section Cells

variable [Sha256] {options : BocOptions} {refSize : Nat}

omit [Sha256] in
theorem writeCells_eq (options : BocOptions) (refSize : Nat) (cells : List (Cell × List Nat)) :
    (writeCells options refSize cells).1 = cells.flatMap (fun p => writeCell options refSize p.1 p.2) ∧
      (writeCells options refSize cells).2.length = cells.length := by
  have from_ (body : Bytes) (offsets : List Nat) :
      let written := cells.foldl (fun so p =>
        let body := so.1 ++ writeCell options refSize p.1 p.2
        (body, so.2 ++ [body.length])) (body, offsets)
      written.1 = body ++ cells.flatMap (fun p => writeCell options refSize p.1 p.2) ∧
        written.2.length = offsets.length + cells.length := by
    induction cells generalizing body offsets
    case nil => simp
    case cons p cells hi =>
      obtain ⟨first, second⟩ := hi (body ++ writeCell options refSize p.1 p.2)
        (offsets ++ [(body ++ writeCell options refSize p.1 p.2).length])
      refine ⟨?_, ?_⟩
      · rw [List.flatMap_cons, ← List.append_assoc]
        exact first
      · rw [List.length_cons, Nat.add_comm cells.length, ← Nat.add_assoc]
        simpa using second
  simpa [writeCells] using from_ [] []

theorem writeCell_length {c : Cell} {refs : List Nat} (hc : c.WellFormed) (wide : refSize ≤ 8)
    (length : refs.length = c.refs.length) :
    2 ≤ (writeCell options refSize c refs).length ∧ (writeCell options refSize c refs).length ≤ 298 := by
  have stored : (storedOf options c).length ≤ 136 := by
    have := hc.fits.writeStored_length hc.sound.mask_lt
    have := countOnes_le hc.sound.mask_lt
    unfold storedOf
    split
    case isTrue => omega
    case isFalse => simp
  have data := hc.sound.tagged.length_eq
  have bits_le : c.bits ≤ 1023 := hc.sound.bits_le
  have refs_le : c.refs.length ≤ 4 := hc.sound.refs_le
  have targets : (refs.flatMap (pushBe · refSize)).length ≤ 32 := by
    rw [List.length_flatMap_of_forall fun target => pushBe_length target wide, length]
    exact Nat.mul_le_mul refs_le wide
  have size : (writeCell options refSize c refs).length =
      2 + (storedOf options c).length + c.data.length + (refs.flatMap (pushBe · refSize)).length := by
    simp [writeCell, storedOf]
    omega
  omega

end Cells

section Draft

variable {roots : List Cell}

-- What is written for some roots.
structure Draft (roots : List Cell) where
  order    : List Cell
  children : List (List Nat)
  rootList : List Nat
  ordered  : Ordered roots order
  named    : List.Forall₂ (fun c refs => List.Forall₂ (fun r j => order[j]? = some r) c.refs refs)
    order children
  rooted   : List.Forall₂ (fun c j => order[j]? = some c) roots rootList

namespace Draft

variable (draft : Draft roots) (options : BocOptions)

def refSize : Nat :=
  byteWidth draft.order.length

def cells : Bytes × List Nat :=
  writeCells options draft.refSize (draft.order.zip draft.children)

def body : Bytes :=
  (draft.cells options).1

def opening : Bytes :=
  TonNet.opening options draft.order.length draft.rootList (draft.cells options).2 (draft.body options)

def bytes : Bytes :=
  draft.opening options ++ draft.body options ++
    closing options (draft.opening options ++ draft.body options)

variable {draft options}

theorem count (draft : Draft roots) : draft.order.length = Cell.distinct roots :=
  (Cell.distinct_eq draft.ordered.once draft.ordered.all).symm

-- One cell of the draft with the positions of its references.
structure At (draft : Draft roots) (i : Nat) (p : Cell × List Nat) : Prop where
  cell    : draft.order[i]? = some p.1
  targets : draft.children[i]? = some p.2

theorem at_of_zip {i : Nat} {p : Cell × List Nat}
    (h : (draft.order.zip draft.children)[i]? = some p) : draft.At i p :=
  have ⟨cell, targets⟩ := List.getElem?_zip_eq_some.mp h
  ⟨cell, targets⟩

theorem At.named {i : Nat} {p : Cell × List Nat} (h : draft.At i p) :
    List.Forall₂ (fun r j => draft.order[j]? = some r) p.1.refs p.2 :=
  draft.named.at_index h.cell h.targets

theorem At.forward {i : Nat} {p : Cell × List Nat} (h : draft.At i p) :
    ∀ target ∈ p.2, i < target ∧ target < draft.order.length := by
  intro target mem
  have ⟨k, here⟩ := List.getElem?_of_mem mem
  have ⟨r, hr, there⟩ := h.named.exists_left here
  have ⟨j, there', after, within⟩ := draft.ordered.later i p.1 h.cell r (List.mem_of_getElem? hr)
  obtain rfl := draft.ordered.index_unique there there'
  exact ⟨after, within⟩

theorem length_zip (draft : Draft roots) :
    (draft.order.zip draft.children).length = draft.order.length := by
  rw [List.length_zip, ← draft.named.length_eq, Nat.min_self]

theorem body_eq (draft : Draft roots) (options : BocOptions) : draft.body options =
    (draft.order.zip draft.children).flatMap fun p => writeCell options draft.refSize p.1 p.2 :=
  (writeCells_eq options draft.refSize _).1

end Draft

end Draft

section Readback

variable [Sha256] {roots : List Cell}

-- A graph that a bag can hold, with cells that are told apart.
structure Writable (roots : List Cell) : Prop where
  told    : Told roots
  rooted  : roots ≠ []
  few     : Cell.distinct roots ≤ maxCells
  roots_le : roots.length ≤ maxCells
  shallow : ∀ root ∈ roots, root.height ≤ maxDepth

theorem Writable.serialize (w : Writable roots) (options : BocOptions) :
    ∃ draft : Draft roots, serializeBocWith roots options = .ok (draft.bytes options) := by
  have ⟨order, children, run, o, named⟩ := w.told.topological_ok
  have ⟨rootList, found, rooted⟩ := o.positions w.told roots
    (fun root mem => (o.all root).mpr ⟨root, mem, root.self_mem_subcells⟩)
    (.malformed "a root was not reachable")
  have few : ¬order.length > maxCells := by
    rw [← Cell.distinct_eq o.once o.all]
    exact not_lt.mpr w.few
  let draft : Draft roots := ⟨order, children, rootList, o, named, rooted⟩
  refine ⟨draft, ?_⟩
  have nonempty : ¬roots.isEmpty = true := by simpa using w.rooted
  simp only [serializeBocWith, failIf_bind_eq_ok, run, ok_bind, found, pure_eq_ok]
  refine ⟨nonempty, few, ?_⟩
  simp only [Draft.bytes, Draft.opening, Draft.body, Draft.cells, Draft.refSize, opening, closing, draft,
    rooted.length_eq, List.append_assoc, List.cons_append, List.nil_append]
  split <;> simp

theorem Writable.refSize_le (w : Writable roots) (draft : Draft roots) : draft.refSize ≤ 4 := by
  refine byteWidth_le (by decide) (lt_of_le_of_lt ?_ (by decide : maxCells < 256 ^ 4))
  rw [draft.count]
  exact w.few

theorem Writable.at_wellFormed (w : Writable roots) {draft : Draft roots} {i : Nat}
    {p : Cell × List Nat} (h : draft.At i p) : p.1.WellFormed :=
  (w.told.under ((draft.ordered.all p.1).mp (List.mem_of_getElem? h.cell))).1

-- The body has two bytes a cell at least, and not many more.
theorem Writable.body_length (w : Writable roots) (draft : Draft roots) (options : BocOptions) :
    draft.order.length * 2 ≤ (draft.body options).length ∧
      (draft.body options).length ≤ draft.order.length * 298 := by
  have wide : draft.refSize ≤ 8 := le_trans (w.refSize_le draft) (by decide)
  have each : ∀ size ∈ (draft.order.zip draft.children).map fun p =>
      (writeCell options draft.refSize p.1 p.2).length, 2 ≤ size ∧ size ≤ 298 := by
    intro size mem
    obtain ⟨p, member, rfl⟩ := List.mem_map.mp mem
    have ⟨i, here⟩ := List.getElem?_of_mem member
    have at' := Draft.at_of_zip here
    exact writeCell_length (w.at_wellFormed at') wide at'.named.length_eq.symm
  have low := List.card_nsmul_le_sum _ 2 fun size mem => (each size mem).1
  have high := List.sum_le_card_nsmul _ 298 fun size mem => (each size mem).2
  rw [draft.body_eq, List.length_flatMap]
  simpa only [List.length_map, draft.length_zip, Nat.nsmul_eq_mul] using And.intro low high

theorem Writable.bytes_length (w : Writable roots) (draft : Draft roots) (options : BocOptions) :
    (draft.bytes options).length ≤ 2 ^ 26 := by
  have ⟨_, body_le⟩ := w.body_length draft options
  have refSize_le : byteWidth draft.order.length ≤ 4 := w.refSize_le draft
  have count_le : draft.order.length ≤ 2 ^ 17 := draft.count ▸ w.few
  have roots_le : draft.rootList.length ≤ 2 ^ 17 := draft.rooted.length_eq ▸ w.roots_le
  have wide : byteWidth draft.order.length ≤ 8 := by omega
  have offset_le : byteWidth (draft.body options).length ≤ 8 := byteWidth_le (by decide) (by omega)
  have indexed : (draft.cells options).2.length = draft.order.length := by
    rw [Draft.cells, (writeCells_eq ..).2, draft.length_zip]
  have list_le : draft.rootList.length * byteWidth draft.order.length ≤ 2 ^ 17 * 8 :=
    Nat.mul_le_mul roots_le wide
  have index_le : draft.order.length * byteWidth (draft.body options).length ≤ 2 ^ 17 * 8 :=
    Nat.mul_le_mul count_le offset_le
  have last : (closing options (draft.opening options ++ draft.body options)).length ≤ 4 := by
    rw [closing_length]
    split <;> omega
  have index : (if options.index then (draft.cells options).2.flatMap
      (pushBe · (byteWidth (draft.body options).length)) else []).length ≤ 2 ^ 17 * 8 := by
    split
    case isTrue =>
      rw [List.length_flatMap_of_forall fun offset => pushBe_length offset offset_le, indexed]
      exact index_le
    case isFalse => simp
  have start : (draft.opening options).length ≤ 2 ^ 22 := by
    simp only [Draft.opening, opening, List.length_append, List.length_singleton, pushBe_length _ wide,
      pushBe_length _ offset_le, List.length_flatMap_of_forall fun index => pushBe_length index wide,
      show magic.length = 4 from rfl]
    omega
  rw [Draft.bytes, List.length_append, List.length_append]
  omega

-- What is read back of a bag that was written.
theorem Writable.readBag (w : Writable roots) (draft : Draft roots) (options : BocOptions)
    (fits : roots.length < 256 ^ draft.refSize) :
    ∃ header raw, ReadBag (draft.bytes options) {} header raw ∧ header.count = draft.order.length ∧
      header.rootList = draft.rootList ∧
      List.Forall₂ (fun p rawCell => rawCell.refs = p.2 ∧
        buildOver (draft.bytes options) rawCell p.1.refs = .ok p.1) (draft.order.zip draft.children) raw := by
  have small : (draft.bytes options).length < 2 ^ 32 := lt_of_le_of_lt (w.bytes_length draft options) (by decide)
  have wide : draft.refSize ≤ 8 := le_trans (w.refSize_le draft) (by decide)
  have rooted : draft.rootList ≠ [] := by
    rw [← List.length_pos_iff, ← draft.rooted.length_eq]
    exact List.length_pos_iff.mpr w.rooted
  have named : ∀ index ∈ draft.rootList, index < draft.order.length := by
    intro index mem
    have ⟨k, here⟩ := List.getElem?_of_mem mem
    have ⟨c, _, there⟩ := draft.rooted.exists_left here
    exact (List.getElem?_eq_some_iff.mp there).1
  have indexed : (draft.cells options).2.length = draft.order.length := by
    rw [Draft.cells, (writeCells_eq ..).2, draft.length_zip]
  let header := headerOf options draft.order.length draft.rootList (draft.cells options).2
    (draft.body options)
  have headerRead : (readHeader (draft.bytes options) {}).Ends ⟨draft.bytes options, 0⟩ header
      ⟨draft.bytes options, (draft.opening options).length⟩ :=
    readHeader_written (draft.count ▸ w.few) rooted (draft.rooted.length_eq ▸ w.roots_le)
      (draft.rooted.length_eq ▸ fits) named indexed (w.body_length draft options).1 rfl small
  have lies : Lies (draft.bytes options) (draft.opening options).length (draft.body options) :=
    ⟨draft.opening options, _, rfl, rfl⟩
  rw [draft.body_eq] at lies
  have each : List.Forall₂ (fun index (p : Cell × List Nat) => ∀ pos,
      Lies (draft.bytes options) pos (writeCell options draft.refSize p.1 p.2) →
      ∃ rawCell, (rawCell.refs = p.2 ∧ buildOver (draft.bytes options) rawCell p.1.refs = .ok p.1) ∧
        (readCell header index).Ends ⟨draft.bytes options, pos⟩ rawCell
          ⟨draft.bytes options, pos + (writeCell options draft.refSize p.1 p.2).length⟩)
      (List.range draft.order.length) (draft.order.zip draft.children) := by
    refine List.forall₂_iff_get.mpr ⟨by rw [List.length_range, draft.length_zip], fun i _ h pos here => ?_⟩
    have at' := Draft.at_of_zip (List.getElem?_eq_getElem h)
    have ⟨built, read⟩ := readCell_written header i (w.at_wellFormed at') small wide
      (lt_byteWidth _).le at'.named.length_eq.symm at'.forward here
    simp only [List.get_eq_getElem, List.getElem_range]
    exact ⟨_, ⟨rfl, built⟩, read⟩
  have ⟨raw, all, rawRead⟩ := mapM_written each lies
  exact ⟨header, raw, ⟨_, _, headerRead, rawRead⟩, rfl, rfl, all⟩

end Readback

end TonNet
