import TonNet.Boc.Theorems.Header
import TonNet.Boc.Theorems.Plan

-- Every way to finalize the cells of a bag comes to the same roots or the same error.

namespace TonNet

open Fallible Method Settle

theorem roots_map {α β : Type} (f : α → β) (slots : List (Option α)) (header : Header) :
    roots (slots.map (Option.map f)) header = (roots slots header).map (List.map f) := by
  unfold roots
  induction header.rootList
  case nil => rfl
  case cons index rest hi =>
    rw [List.mapM_cons, List.mapM_cons, hi, List.getElem?_map]
    rcases slots[index]? with _ | _ | value
    case none => rfl
    case some.none => rfl
    case some.some =>
      cases rest.mapM fun index => (okOr slots[index]?.join .badReference : Except CellError α) <;> rfl

theorem ReadBag.forward {bytes : Bytes} {options : ParseOptions} {header : Header}
    {raw : List RawCell} (h : ReadBag bytes options header raw) : Forward raw header.count := by
  have ⟨r, r', ends, read⟩ := h
  exact (readRaw_forward header (readHeader_ends ends).bytes_eq read).left

theorem ReadBag.named {bytes : Bytes} {options : ParseOptions} {header : Header}
    {raw : List RawCell} (h : ReadBag bytes options header raw) :
    ∀ index ∈ header.rootList, index < header.count := by
  have ⟨_, _, ends, _⟩ := h
  exact (readHeader_ends ends).named

section

variable [Sha256] {bytes : Bytes} {options : ParseOptions} {header : Header} {raw : List RawCell}

theorem parseBocWith_eq_value : parseBocWith bytes options =
    (readHeader bytes options >>= readAndBuild).value ⟨bytes, 0⟩ := by
  unfold parseBocWith call value
  rcases (readHeader bytes options >>= readAndBuild).outcome ⟨bytes, 0⟩ with ⟨_ | _, _⟩ <;> rfl

theorem readAndBuild_value {r r' : Reader} (h : (readRaw header).Ends r raw r') :
    (readAndBuild header).value r = (do
      let height ← heights raw header.count
      buildPlanned raw r.bytes (.byHeight height) header) := by
  rw [readAndBuild, value_bind_of_ends (ends_get.mpr ⟨rfl, rfl⟩), value_bind_of_ends h, value_bind]
  cases heights raw header.count <;> rfl

theorem verifyRoots_value {r r' : Reader} (h : (readRaw header).Ends r raw r') :
    (verifyRoots header).value r = (do
      let height ← heights raw header.count
      verifyPlanned raw r.bytes (.byHeight height) header) := by
  rw [verifyRoots, value_bind_of_ends (ends_get.mpr ⟨rfl, rfl⟩), value_bind_of_ends h, value_bind]
  cases heights raw header.count <;> rfl

theorem buildPlannedOn_eq (workers : List Nat → Nat) (waves : Waves) :
    buildPlannedOn workers raw bytes waves header =
      conclude (finalizeOn (stepOver (buildOver bytes) raw) workers header.count waves) header := by
  rw [← buildStep_eq]
  rfl

theorem buildPlanned_eq (waves : Waves) :
    buildPlanned raw bytes waves header =
      conclude (finalize (stepOver (buildOver bytes) raw) header.count waves) header := by
  rw [← buildStep_eq]
  rfl

theorem verifyPlanned_eq (f : Forward raw header.count) (waves : Waves) :
    verifyPlanned raw bytes waves header =
      (conclude (finalize (stepOver (summarizeOver bytes) raw) header.count waves) header).map
        (List.map Identity.reprHash) := by
  rw [← summarizeStep_eq f, verifyPlanned, conclude]
  cases (finalize (summarizeStep raw bytes) header.count waves).lowest.intoResult
  case error => rfl
  case ok =>
    rw [ok_bind, ok_bind]
    cases roots (finalize (summarizeStep raw bytes) header.count waves).slots header <;> rfl

-- Summarizing a bag's cells comes to the identities of the cells that building them comes to.
theorem verifyPlanned_eq_map (f : Forward raw header.count) {height : List Nat}
    (h : HeightsFrom raw 0 height) :
    verifyPlanned raw bytes (.byHeight height) header =
      (buildPlanned raw bytes (.byHeight height) header).map (List.map Cell.reprHash) := by
  let built := finalize (stepOver (buildOver bytes) raw) header.count (.byHeight height)
  let computed := finalize (stepOver (summarizeOver bytes) raw) header.count (.byHeight height)
  have cells : (bagGraph (buildOver bytes) f).Verdict built.slots built.lowest.held :=
    finalize_verdict f h
  have identities : (bagGraph (summarizeOver bytes) f).Verdict computed.slots computed.lowest.held :=
    finalize_verdict f h
  have ⟨slots, lowest⟩ := ((bagGraph_maps f bytes).verdict cells).unique identities
  rw [verifyPlanned_eq f, buildPlanned_eq]
  show (conclude computed header).map _ = (conclude built header).map _
  have same : computed.lowest = built.lowest := congrArg Lowest.mk lowest.symm
  rw [conclude, conclude, ← slots, same, roots_map]
  cases built.lowest.intoResult
  case error => rfl
  case ok =>
    rw [ok_bind, ok_bind]
    cases roots built.slots header
    case error => rfl
    case ok cells => simp [Except.map, Cell.reprHash, Identity.reprHash, Function.comp_def, Cell.hashAt, Cell.level, Cell.levelMask]

theorem readAndBuild_fails {r : Reader} {e : CellError} (h : (readRaw header).value r = .error e) :
    (readAndBuild header).value r = .error e := by
  rw [readAndBuild, value_bind_of_ends (ends_get.mpr ⟨rfl, rfl⟩), value_bind_of_error h]

theorem verifyRoots_fails {r : Reader} {e : CellError} (h : (readRaw header).value r = .error e) :
    (verifyRoots header).value r = .error e := by
  rw [verifyRoots, value_bind_of_ends (ends_get.mpr ⟨rfl, rfl⟩), value_bind_of_error h]

theorem BocView.verify_eq (view : BocView) :
    view.verify = view.materialize.map (List.map Cell.reprHash) := by
  unfold verify materialize
  rcases fails_or_ends (readRaw view.header) ⟨view.bytes, view.header.bodyOffset⟩ with
    ⟨e, fails⟩ | ⟨raw, r, ends⟩
  · rw [readAndBuild_fails fails, verifyRoots_fails fails]
    rfl
  · have ⟨f, _⟩ := readRaw_forward view.header (show Over view.bytes ⟨view.bytes, _⟩ from rfl) ends
    rw [readAndBuild_value ends, verifyRoots_value ends]
    cases tall : heights raw view.header.count
    case error => rfl
    case ok height => exact verifyPlanned_eq_map f (heights_known f tall)

theorem parseBocWith_eq_buildPlanned (h : ReadBag bytes options header raw) {height : List Nat}
    (tall : heights raw header.count = .ok height) :
    parseBocWith bytes options = buildPlanned raw bytes (.byHeight height) header := by
  have ⟨r, r', ends, read⟩ := h
  have spec := readHeader_ends ends
  rw [parseBocWith_eq_value, value_bind_of_ends ends, readAndBuild_value read, tall, spec.bytes_eq]
  rfl

-- A bag is accepted when it reads and none of its cells fails, whatever the roots reach.
theorem parseBocWith_eq_ok_iff {cells : List Cell} : parseBocWith bytes options = .ok cells ↔
    ∃ header raw height, ReadBag bytes options header raw ∧ heights raw header.count = .ok height ∧
      List.Forall₂ (Builds (buildOver bytes) raw) header.rootList cells ∧
      ∀ index e, ¬FailsAlone (buildOver bytes) raw index e := by
  have planned (header : Header) (raw : List RawCell) (height : List Nat)
      (read : ReadBag bytes options header raw) (tall : heights raw header.count = .ok height) :
      buildPlanned raw bytes (.byHeight height) header = .ok cells ↔
        List.Forall₂ (Builds (buildOver bytes) raw) header.rootList cells ∧
          ∀ index e, ¬FailsAlone (buildOver bytes) raw index e := by
    rw [buildPlanned_eq]
    exact conclude_eq_ok (finalize_verdict read.forward (heights_known read.forward tall)) read.named
  rw [parseBocWith_eq_ok]
  constructor
  · rintro ⟨header, r, raw, r', height, headerRead, rawRead, tall, built⟩
    have read : ReadBag bytes options header raw := ⟨r, r', headerRead, rawRead⟩
    exact ⟨header, raw, height, read, tall, (planned header raw height read tall).mp built⟩
  · rintro ⟨header, raw, height, read, tall, built⟩
    have ⟨r, r', headerRead, rawRead⟩ := read
    exact ⟨header, r, raw, r', height, headerRead, rawRead, tall,
      (planned header raw height read tall).mpr built⟩

theorem finalized_alike (bytes : Bytes) :
    (∀ header raw height, ReadBag bytes {} header raw → heights raw header.count = .ok height →
      (∀ waves workers, waves.Lists raw → waves.Apart raw workers →
        buildPlannedOn workers raw bytes waves header = parseBoc bytes) ∧
      (∀ parallelism, buildPlannedOn (fun wave => workersFor parallelism wave.length) raw bytes
        (.byHeight height) header = parseBoc bytes) ∧
      ∀ e, parseBoc bytes = .error e → ∃ index, FailsAlone (buildOver bytes) raw index e ∧
        ∀ j < index, ∀ e', ¬FailsAlone (buildOver bytes) raw j e') ∧
    ∀ view, BocView.openWith bytes {} = .ok view →
      view.materialize = parseBoc bytes ∧
      view.verify = view.materialize.map (List.map Cell.reprHash) := by
  refine ⟨fun header raw height read tall => ?_, fun view opened => ⟨?_, view.verify_eq⟩⟩
  · have f := read.forward
    let built := finalize (stepOver (buildOver bytes) raw) header.count (.byHeight height)
    have plan : (bagGraph (buildOver bytes) f).Verdict built.slots built.lowest.held :=
      finalize_verdict f (heights_known f tall)
    have parse : parseBoc bytes = conclude built header :=
      (parseBocWith_eq_buildPlanned read tall).trans (buildPlanned_eq _)
    have planned (waves : Waves) (workers : List Nat → Nat) (lists : waves.Lists raw)
        (apart : waves.Apart raw workers) : buildPlannedOn workers raw bytes waves header = parseBoc bytes := by
      rw [parse, buildPlannedOn_eq]
      exact conclude_verdict (finalizeOn_verdict f lists apart) plan
    have known := heights_known f tall
    refine ⟨planned, fun _ => planned _ _ (Waves.byHeight_lists f known) (Waves.byHeight_apart known _), ?_⟩
    intro e fails
    exact conclude_error plan read.named (parse.symm.trans fails)
  · have ⟨header, read, same⟩ := bind_eq_ok.mp opened
    have ⟨r, ends⟩ := value_eq_ok.mp read
    have spec := readHeader_ends ends
    obtain rfl : ⟨bytes, header⟩ = view := pure_eq_ok.mp same
    have place : r = ⟨bytes, header.bodyOffset⟩ := by rw [← spec.bytes_eq, ← spec.pos]
    rw [parseBoc, parseBocWith_eq_value, value_bind_of_ends ends, place]
    rfl

end

section TwoCells

-- A cell over an empty one.
def twoCellBag : Bytes :=
  .be 16 0xb5ee9c72010102010005000100010000

attribute [local instance] Sha256.standard

def readBag (bytes : Bytes) : Option (Header × List RawCell) := do
  let (header, r) ← ((readHeader bytes {}).call ⟨bytes, 0⟩).toOption
  let (raw, _) ← ((readRaw header).call r).toOption
  return (header, raw)

theorem readBag_eq_some {bytes : Bytes} {header : Header} {raw : List RawCell}
    (h : readBag bytes = some (header, raw)) : ReadBag bytes {} header raw := by
  simp only [readBag, Option.bind_eq_bind, Option.bind_eq_some_iff, toOption_eq_some, Option.pure_def,
    Option.some_inj, Prod.mk.injEq] at h
  obtain ⟨⟨_, r⟩, headerRead, ⟨_, r'⟩, rawRead, rfl, rfl⟩ := h
  exact ⟨r, r', call_eq_ok.mp headerRead, call_eq_ok.mp rawRead⟩

-- The lower cell first, in a wave of its own or in one wave with the other.
def twoWaves : Waves := ⟨[1, 0], [0, 1, 2]⟩
def oneWave : Waves := ⟨[1, 0], [0, 2]⟩

theorem raw_of_refs {raw : List RawCell} (refs : raw.map RawCell.refs = [[1], []]) :
    ∃ root leaf, raw = [root, leaf] ∧ root.refs = [1] ∧ leaf.refs = [] := by
  simpa [List.map_eq_cons_iff] using refs

theorem lists_of_flatten {waves : Waves} {raw : List RawCell} (flat : waves.iter.flatten = [1, 0])
    (refs : raw.map RawCell.refs = [[1], []]) : waves.Lists raw := by
  obtain ⟨root, leaf, rfl, hroot, hleaf⟩ := raw_of_refs refs
  constructor
  case once =>
    rw [flat]
    exact (by decide : [1, 0].Perm (List.range 2))
  case after =>
    intro front index rest split rawCell here
    rw [flat] at split
    rcases front with _ | ⟨first, _ | ⟨second, front⟩⟩
    case nil =>
      obtain ⟨rfl, _⟩ := List.cons.inj split
      obtain rfl : leaf = rawCell := by simpa using here
      simp [hleaf]
    case cons.nil =>
      obtain ⟨rfl, rfl, _⟩ : 1 = first ∧ 0 = index ∧ _ := by simpa using split
      obtain rfl : root = rawCell := by simpa using here
      simp [hroot]
    case cons.cons => simp at split

theorem apart_twoWaves {raw : List RawCell} (refs : raw.map RawCell.refs = [[1], []])
    (workers : List Nat → Nat) : twoWaves.Apart raw workers := by
  obtain ⟨root, leaf, rfl, hroot, hleaf⟩ := raw_of_refs refs
  have waves : twoWaves.iter = [[1], [0]] := by decide
  intro wave mem _ index hi rawCell here target ht
  rw [waves] at mem
  rcases List.mem_pair.mp mem with rfl | rfl
  all_goals obtain rfl := List.mem_singleton.mp hi
  · obtain rfl : leaf = rawCell := by simpa using here
    simp [hleaf] at ht
  · obtain rfl : root = rawCell := by simpa using here
    simp_all

-- The two cells as they are read, and what comes of them under a plan on two workers.
def twoCellRun (waves : Waves) : Option (Nat × List (List Nat) × Bool × Bool) := do
  let (header, raw) ← readBag twoCellBag
  let _ ← (heights raw header.count).toOption
  return (header.count, raw.map RawCell.refs,
    (buildPlannedOn (fun _ => 2) raw twoCellBag waves header).toOption.isSome,
    (parseBoc twoCellBag).toOption.isSome)

theorem finalized_alike_twoWaves : ∃ header raw height, ReadBag twoCellBag {} header raw ∧
    heights raw header.count = .ok height ∧
    buildPlannedOn (fun _ => 2) raw twoCellBag twoWaves header = parseBoc twoCellBag ∧
    (parseBoc twoCellBag).toOption.isSome := by
  have run : twoCellRun twoWaves = some (2, [[1], []], true, true) := by decide +kernel
  simp only [twoCellRun, Option.bind_eq_bind, Option.bind_eq_some_iff, toOption_eq_some,
    Option.pure_def, Option.some_inj, Prod.mk.injEq] at run
  obtain ⟨⟨header, raw⟩, read, height, tall, _, refs, _, parsed⟩ := run
  have read := readBag_eq_some read
  have ⟨plans, _⟩ := (finalized_alike twoCellBag).left header raw height read tall
  exact ⟨header, raw, height, read, tall,
    plans twoWaves _ (lists_of_flatten rfl refs) (apart_twoWaves refs _), parsed⟩

theorem finalized_oneWave : ∃ header raw height, ReadBag twoCellBag {} header raw ∧
    heights raw header.count = .ok height ∧ oneWave.Lists raw ∧
    buildPlannedOn (fun _ => 2) raw twoCellBag oneWave header ≠ parseBoc twoCellBag := by
  have run : twoCellRun oneWave = some (2, [[1], []], false, true) := by decide +kernel
  simp only [twoCellRun, Option.bind_eq_bind, Option.bind_eq_some_iff, toOption_eq_some,
    Option.pure_def, Option.some_inj, Prod.mk.injEq] at run
  obtain ⟨⟨header, raw⟩, read, height, tall, _, refs, fails, parsed⟩ := run
  refine ⟨header, raw, height, readBag_eq_some read, tall, lists_of_flatten rfl refs, fun same => ?_⟩
  rw [same, parsed] at fails
  cases fails

end TwoCells

end TonNet
