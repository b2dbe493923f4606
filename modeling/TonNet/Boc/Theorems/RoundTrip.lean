import TonNet.Boc.Theorems.Bag
import TonNet.Boc.Theorems.Lazy
import Mathlib.Data.List.ReduceOption

-- A cell graph that is written as a bag of cells is read back as it was.

namespace TonNet

open Fallible Method Settle

section Heights

variable [Sha256] {bytes : Bytes} {raw : List RawCell} {height : List Nat} {index : Nat} {c : Cell}

omit [Sha256] in
theorem heightOver_le {rawCell : RawCell} {n : Nat} :
    heightOver height rawCell ≤ n ↔ ∀ target ∈ rawCell.refs, height.getD target 0 < n := by
  constructor
  · exact fun le target mem => lt_of_lt_of_le (lt_heightOver mem) le
  · intro all
    rw [heightOver_eq]
    cases List.mem_cons.mp (Waves.tallest_mem (rawCell.refs.map fun target => height.getD target 0 + 1))
    case inl none => exact none.trans_le (Nat.zero_le n)
    case inr some =>
      have ⟨target, mem, e⟩ := List.mem_map.mp some
      exact e ▸ all target mem

-- The height read off the references of a bag is that of the cell they are built to.
theorem Builds.height_eq (b : Builds (buildOver bytes) raw index c) (h : HeightsFrom raw 0 height) :
    height.getD index 0 = c.height := by
  induction b
  case intro index rawCell refs c here length _ finished hi =>
    refine eq_of_forall_ge_iff fun n => ?_
    rw [h.above index rawCell (Nat.zero_le _) here, heightOver_le, Cell.height_le, buildOver_refs finished]
    constructor
    · intro all r hr
      have ⟨i, lt, e⟩ := List.getElem_of_mem hr
      have target := List.getElem?_eq_getElem (length ▸ lt)
      rw [← hi i _ r target (List.getElem?_eq_some_iff.mpr ⟨lt, e⟩)]
      exact all _ (List.getElem_mem _)
    · intro all target mem
      have ⟨i, lt, e⟩ := List.getElem_of_mem mem
      have value := List.getElem?_eq_getElem (length ▸ lt)
      rw [hi i target _ (List.getElem?_eq_some_iff.mpr ⟨lt, e⟩) value]
      exact all _ (List.getElem_mem _)

end Heights

section RoundTrip

variable [Sha256] {roots : List Cell} {bytes : Bytes} {raw : List RawCell} {options : BocOptions}

-- Every cell of a written bag is built to the cell it was written for.
theorem Draft.builds {draft : Draft roots} (all : List.Forall₂ (fun p rawCell => rawCell.refs = p.2 ∧
      buildOver bytes rawCell p.1.refs = .ok p.1) (draft.order.zip draft.children) raw) {i : Nat} {c : Cell}
    (here : draft.order[i]? = some c) : Builds (buildOver bytes) raw i c := by
  induction c generalizing i
  case node c hi =>
    have ⟨targets, there, named⟩ := draft.named.exists_right here
    have zipped : (draft.order.zip draft.children)[i]? = some (c, targets) :=
      List.getElem?_zip_eq_some.mpr ⟨here, there⟩
    have ⟨rawCell, hraw, refs, built⟩ := all.exists_right zipped
    refine builds_of_forall₂ hraw ?_ built
    rw [refs]
    exact named.flip.imp_mem fun j _ r mem there => hi r mem there

theorem Writable.parse (w : Writable roots) (draft : Draft roots) (options : BocOptions)
    (fits : roots.length < 256 ^ draft.refSize) :
    parseBoc (draft.bytes options) = .ok roots ∧ ∃ header raw, ReadBag (draft.bytes options) {} header raw ∧
      List.Forall₂ (Builds (buildOver (draft.bytes options)) raw) (List.range raw.length) draft.order := by
  have ⟨header, raw, read, count, rootList, all⟩ := w.readBag draft options fits
  have length : raw.length = draft.order.length := by rw [← all.length_eq, draft.length_zip]
  have builds {i : Nat} {c : Cell} (here : draft.order[i]? = some c) := Draft.builds all here
  have f := read.forward
  have ⟨known, hk, ok⟩ := heights_eq_ok f
  have shallow : ∀ h ∈ known, h ≤ maxDepth := by
    intro h mem
    have ⟨i, lt, e⟩ := List.getElem_of_mem mem
    have within : i < draft.order.length := by rw [← length, ← hk.length]; exact lt
    have here := List.getElem?_eq_getElem within
    have tall := (builds here).height_eq hk
    rw [List.getD_eq_getElem _ _ lt, e] at tall
    rw [tall]
    exact ((draft.ordered.all _).mp (List.mem_of_getElem? here)).height_le w.shallow
  constructor
  · refine parseBocWith_eq_ok_iff.mpr ⟨header, raw, known, read, (ok known).mpr ⟨rfl, shallow⟩, ?_,
      fun index e fails => ?_⟩
    · rw [rootList]
      exact draft.rooted.flip.imp fun _ _ here => builds here
    · have ⟨_, _, here, _⟩ := fails.fails
      have lt := (List.getElem?_eq_some_iff.mp here).1
      rw [length] at lt
      exact (builds (List.getElem?_eq_getElem lt)).sound .refl fails
  · refine ⟨header, raw, read, List.forall₂_iff_get.mpr ⟨by simp [length], fun i _ h => ?_⟩⟩
    simp only [List.get_eq_getElem, List.getElem_range]
    exact builds (List.getElem?_eq_getElem h)

theorem Told.length_le (t : Told roots) (apart : roots.Nodup) : roots.length ≤ Cell.distinct roots := by
  have ⟨order, _, _, o, _⟩ := t.topological_ok
  rw [Cell.distinct_eq o.once o.all]
  refine (List.subperm_of_subset apart fun root mem => ?_).length_le
  exact (o.all root).mpr ⟨root, mem, root.self_mem_subcells⟩

-- Distinct roots of cells as they are made, within the limits of a bag, and their number has room in it.
theorem Writable.of_produced (produced : ∀ root ∈ roots, Produced root)
    (free : CollisionFree (roots.flatMap Cell.hashed)) (rooted : roots ≠ []) (apart : roots.Nodup)
    (few : Cell.distinct roots ≤ maxCells) (shallow : ∀ root ∈ roots, root.height ≤ maxDepth) :
    Writable roots ∧ ∀ draft : Draft roots, roots.length < 256 ^ draft.refSize := by
  have told : Told roots := ⟨fun root mem => (produced root mem).wellFormed, free⟩
  have length_le := told.length_le apart
  refine ⟨⟨told, rooted, few, le_trans length_le few, shallow⟩, fun draft => ?_⟩
  rw [Draft.refSize, draft.count]
  exact lt_of_le_of_lt length_le (lt_byteWidth _)

-- A bag stores every cell under the roots, and stores it once.
def StoresOnce (bytes : Bytes) (roots : List Cell) : Prop :=
  ∃ header raw order, ReadBag bytes {} header raw ∧ order.Nodup ∧ (∀ c, c ∈ order ↔ Cell.Under roots c) ∧
    List.Forall₂ (Builds (buildOver bytes) raw) (List.range raw.length) order

theorem serializeBocWith_parseBoc (options : BocOptions) (produced : ∀ root ∈ roots, Produced root)
    (free : CollisionFree (roots.flatMap Cell.hashed)) (rooted : roots ≠ []) (apart : roots.Nodup)
    (few : Cell.distinct roots ≤ maxCells) (shallow : ∀ root ∈ roots, root.height ≤ maxDepth) :
    ∃ bytes, serializeBocWith roots options = .ok bytes ∧ StoresOnce bytes roots ∧
      parseBoc bytes = .ok roots := by
  obtain ⟨w, fits⟩ := Writable.of_produced produced free rooted apart few shallow
  obtain ⟨draft, written⟩ := w.serialize options
  obtain ⟨parsed, header, raw, read, builds⟩ := w.parse draft options (fits draft)
  exact ⟨draft.bytes options, written,
    ⟨header, raw, draft.order, read, draft.ordered.once, draft.ordered.all, builds⟩, parsed⟩

theorem Builds.subcells {index : Nat} {c d : Cell} (b : Builds (buildOver bytes) raw index c)
    (path : d ∈ c.subcells) : ∃ j, Builds (buildOver bytes) raw j d := by
  induction b
  case intro index rawCell refs c here length builds finished hi =>
    cases Cell.mem_subcells.mp path
    case inl e => exact e ▸ ⟨index, .intro here length builds finished⟩
    case inr path =>
      have ⟨r, hr, path⟩ := path
      rw [buildOver_refs finished] at hr
      have ⟨i, lt, e⟩ := List.getElem_of_mem hr
      exact hi i _ r (List.getElem?_eq_getElem (length ▸ lt)) (List.getElem?_eq_some_iff.mpr ⟨lt, e⟩) path

-- What a bag gave can be written again, as far as its cells go.
theorem writable_of_parseBoc (parsed : parseBoc bytes = .ok roots)
    (free : CollisionFree (roots.flatMap Cell.hashed)) : Writable roots := by
  have ⟨header, raw, height, read, tall, all, _⟩ := parseBocWith_eq_ok_iff.mp parsed
  have ⟨_, _, headerRead, _⟩ := read
  have spec := readHeader_ends headerRead
  have ceiling : ({} : ParseOptions).cellCeiling = maxCells := min_self _
  have f := read.forward
  have ⟨known, hk, ok⟩ := heights_eq_ok f
  have ⟨same, shallow⟩ := (ok height).mp tall
  let held := finalize (stepOver (buildOver bytes) raw) header.count (.byHeight height)
  have verdict : (bagGraph (buildOver bytes) f).Verdict held.slots held.lowest.held :=
    finalize_verdict f (heights_known f tall)
  constructor
  case told => exact ⟨fun root mem => (Produced.parsed parsed mem).wellFormed, free⟩
  case rooted =>
    rintro rfl
    exact spec.rooted (List.forall₂_nil_right_iff.mp all)
  case few =>
    have sub (c : Cell) (under : Cell.Under roots c) : c ∈ held.slots.reduceOption := by
      have ⟨root, mem, path⟩ := under
      have ⟨i, here⟩ := List.getElem?_of_mem mem
      have ⟨_, _, b⟩ := all.exists_left here
      have ⟨j, b⟩ := b.subcells path
      exact List.reduceOption_mem_iff.mpr (List.mem_of_getElem? (settled_of_builds verdict.settled b))
    calc Cell.distinct roots ≤ held.slots.reduceOption.length := Cell.distinct_le sub
      _ ≤ held.slots.length := List.reduceOption_length_le _
      _ = header.count := verdict.settled.length
      _ ≤ maxCells := ceiling ▸ spec.count_le
  case roots_le => exact all.length_eq ▸ ceiling ▸ spec.roots_le
  case shallow =>
    intro root mem
    have ⟨i, here⟩ := List.getElem?_of_mem mem
    have ⟨index, _, b⟩ := all.exists_left here
    rw [← b.height_eq hk]
    by_cases lt : index < known.length
    case pos =>
      rw [List.getD_eq_getElem _ _ lt]
      exact shallow _ (List.getElem_mem lt)
    case neg =>
      rw [List.getD_eq_default _ _ (not_lt.mp lt)]
      exact Nat.zero_le _

omit [Sha256] in
-- A bag names its roots in a field that is as wide as a reference.
theorem readHeader_rootCount {options : ParseOptions} {header : Header} {r : Reader}
    (h : (readHeader bytes options).Ends ⟨bytes, 0⟩ header r) :
    ∃ flags : UInt8, Lies bytes 4 [flags] ∧ header.rootList.length < 256 ^ (flags.toNat &&& 7) := by
  obtain ⟨_, roots, _, _, _, _, _, _, _, started, flagged, width, _, counted, _, _, list, _, _⟩ :=
    readHeader_stages h
  obtain ⟨_, _, rfl⟩ := ends_take.mp started
  obtain ⟨flags, rfl, lies, rfl⟩ := ends_byte.mp flagged
  obtain ⟨data, length, _, value, _⟩ := ends_uint.mp counted
  obtain ⟨⟨listed, _⟩, _⟩ := Yields.mapM (I := fun _ => True) (Q := fun _ => True)
    (fun _ _ _ _ _ _ _ => ⟨trivial, trivial⟩) trivial list
  refine ⟨flags, lies, ?_⟩
  rw [listed, List.length_range, ← value, ← width, ← length]
  exact Bytes.ofBe_lt data

-- Roots that are written and read back come back as many and equal one by one.
def WritesBack (roots : List Cell) (options : BocOptions) : Prop :=
  ∃ bytes again, serializeBocWith roots options = .ok bytes ∧ parseBoc bytes = .ok again ∧
    again.length = roots.length ∧ List.Forall₂ (fun root root' => root.same root') roots again

theorem Draft.rootCount (draft : Draft roots) (options : BocOptions) (w : Writable roots)
    {again : List Cell} (parsed : parseBoc (draft.bytes options) = .ok again) :
    again.length < 256 ^ draft.refSize := by
  have ⟨header, _, _, ⟨_, _, headerRead, _⟩, _, all, _⟩ := parseBocWith_eq_ok_iff.mp parsed
  have ⟨flags, lies, few⟩ := readHeader_rootCount headerRead
  have written : Lies (draft.bytes options) 4 [flagsByte options draft.refSize] := by
    have start : Lies (draft.bytes options) 0 (draft.opening options) :=
      ⟨[], draft.body options ++ closing options (draft.opening options ++ draft.body options),
        by simp [Draft.bytes], rfl⟩
    rw [Draft.opening, TonNet.opening] at start
    exact start.right.left
  obtain rfl : flagsByte options draft.refSize = flags := written.getD.symm.trans lies.getD
  rw [(flagsByte_reads options draft.refSize (w.refSize_le draft)).2.2, all.length_eq] at few
  exact few

theorem writesBack_iff (options : BocOptions) (parsed : parseBoc bytes = .ok roots)
    (free : CollisionFree (roots.flatMap Cell.hashed)) :
    WritesBack roots options ↔ roots.length < 256 ^ byteWidth (Cell.distinct roots) := by
  have w := writable_of_parseBoc parsed free
  obtain ⟨draft, written⟩ := w.serialize options
  have width : byteWidth (Cell.distinct roots) = draft.refSize := by rw [Draft.refSize, draft.count]
  rw [width]
  constructor
  · rintro ⟨_, again, written', again_ok, length, _⟩
    obtain rfl := Except.ok.inj (written.symm.trans written')
    rw [← length]
    exact draft.rootCount options w again_ok
  · intro fits
    obtain ⟨parsed, _⟩ := w.parse draft options fits
    exact ⟨_, roots, written, parsed, rfl, List.forall₂_same.mpr fun root _ => by simp [Cell.same]⟩

end RoundTrip

section Shared

-- Two roots: the second names the first, and both name a third cell.
def sharedBag : Bytes :=
  .be 25 0xb5ee9c7201010302000d010002016001020201c002020002b3

attribute [local instance] Sha256.standard

def sharedRun : Option (Bool × List Nat × List Nat × Nat) := do
  let roots ← (parseBoc sharedBag).toOption
  return (decide (CollisionFree (roots.flatMap Cell.hashed)), roots.map Cell.bits,
    roots.map Cell.height, (roots.flatMap Cell.subcells).length)

theorem shared_read : ∃ roots, parseBoc sharedBag = .ok roots ∧
    CollisionFree (roots.flatMap Cell.hashed) ∧ roots.length = 2 ∧ roots.Nodup ∧
    Cell.distinct roots ≤ maxCells ∧ ∀ root ∈ roots, root.height ≤ maxDepth := by
  have run : sharedRun = some (true, [1, 2], [1, 2], 8) := by decide +kernel
  simp only [sharedRun, Option.bind_eq_bind, Option.bind_eq_some_iff, toOption_eq_some,
    Option.pure_def, Option.some_inj, Prod.mk.injEq, decide_eq_true_eq] at run
  obtain ⟨roots, parsed, free, bits, heights, few⟩ := run
  refine ⟨roots, parsed, free, by simpa using congrArg List.length bits, .of_map Cell.bits (bits ▸ by decide),
    le_trans (Cell.distinct_le fun _ => Cell.under_iff_mem.mp) (few ▸ by decide), fun root mem => ?_⟩
  have := heights ▸ List.mem_map_of_mem (f := Cell.height) mem
  grind [maxDepth]

theorem serializeBocWith_parseBoc_sharedBag : ∃ roots bytes, parseBoc sharedBag = .ok roots ∧
    serializeBocWith roots { index := true, storedHashes := true } = .ok bytes ∧
    StoresOnce bytes roots ∧ parseBoc bytes = .ok roots := by
  obtain ⟨roots, parsed, free, two, apart, few, shallow⟩ := shared_read
  obtain ⟨bytes, written⟩ := serializeBocWith_parseBoc { index := true, storedHashes := true }
    (fun _ mem => .parsed parsed mem) free (by rintro rfl; simp at two) apart few shallow
  exact ⟨roots, bytes, parsed, written⟩

theorem writesBack_iff_sharedBag : ∃ roots, parseBoc sharedBag = .ok roots ∧ WritesBack roots {} := by
  obtain ⟨roots, parsed, free, two, _⟩ := shared_read
  refine ⟨roots, parsed, (writesBack_iff {} parsed free).mpr ?_⟩
  have wide := Nat.pow_le_pow_right (n := 256) (by decide) (byteWidth_pos (Cell.distinct roots))
  omega

end Shared

section ManyRoots

-- One empty cell that 256 root entries name. The writer fits the root count into the one byte that
-- the number of cells needs.
def manyRootsBag : Bytes :=
  Bytes.be 13 0xb5ee9c72020100010100000002 ++ List.replicate 514 0

attribute [local instance] Sha256.standard

def manyRootsRun : Option (Nat × Bool) := do
  let roots ← (parseBoc manyRootsBag).toOption
  let bytes ← (serializeBocWith roots { crc32c := false }).toOption
  return (roots.length, (parseBoc bytes).toOption.isSome)

theorem writesBack_manyRootsBag : ∃ roots bytes, parseBoc manyRootsBag = .ok roots ∧
    roots.length = 256 ∧ serializeBocWith roots { crc32c := false } = .ok bytes ∧
    (∀ again, parseBoc bytes ≠ .ok again) ∧ ¬WritesBack roots { crc32c := false } := by
  have run : manyRootsRun = some (256, false) := by decide +kernel
  simp only [manyRootsRun, Option.bind_eq_bind, Option.bind_eq_some_iff, toOption_eq_some,
    Option.pure_def, Option.some_inj, Prod.mk.injEq] at run
  obtain ⟨roots, parsed, bytes, written, many, fails⟩ := run
  have lost (again : List Cell) : parseBoc bytes ≠ .ok again := by
    intro read
    simp [read, Except.toOption] at fails
  refine ⟨roots, bytes, parsed, many, written, lost, ?_⟩
  rintro ⟨_, again, written', read, _⟩
  obtain rfl := Except.ok.inj (written.symm.trans written')
  exact lost again read

end ManyRoots

end TonNet
