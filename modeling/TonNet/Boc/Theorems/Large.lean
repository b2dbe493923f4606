import TonNet.Boc.Large
import TonNet.Boc.Theorems.RoundTrip

-- The chunks of a bag run together are the bag.

namespace TonNet

open Fallible

-- What the iterator yields until it has no more.
inductive BocChunks.Drains : BocChunks → List Bytes → Prop
  | done {b b' : BocChunks} (ends : b.next = (none, b')) : Drains b []
  | more {b b' : BocChunks} {chunk : Bytes} {chunks : List Bytes} (first : b.next = (some chunk, b'))
      (rest : Drains b' chunks) : Drains b (chunk :: chunks)

section Lengths

variable [Sha256] {options : BocOptions} {refSize : Nat} {cells : List (Cell × List Nat)}

theorem writeCell_size {c : Cell} (refs : List Nat) (hc : c.WellFormed) (wide : refSize ≤ 8) :
    (writeCell options refSize c refs).length =
      2 + (if options.storedHashes then c.identity.storedLen else 0) + c.data.length + refs.length * refSize := by
  have stored : (if options.storedHashes then c.identity.writeStored else []).length =
      if options.storedHashes then c.identity.storedLen else 0 := by
    split
    case isTrue => rw [hc.fits.writeStored_length hc.sound.mask_lt, Identity.storedLen, hc.fits.count]
    case isFalse => rfl
  rw [writeCell, List.length_append, List.length_append, List.length_append, stored,
    List.length_flatMap_of_forall fun target => pushBe_length target wide]
  rfl

-- The first pass measures what the second writes.
theorem measureCells_eq (wide : refSize ≤ 8) (wf : ∀ p ∈ cells, p.1.WellFormed) :
    measureCells options refSize cells =
      ((writeCells options refSize cells).1.length, (writeCells options refSize cells).2) := by
  have from_ (body : Bytes) (offsets : List Nat) :
      cells.foldl (fun so p =>
        let stored := if options.storedHashes then p.1.identity.storedLen else 0
        let bodyLen := so.1 + (2 + stored + p.1.data.length + p.2.length * refSize)
        (bodyLen, so.2 ++ [bodyLen])) (body.length, offsets) =
      let written := cells.foldl (fun so p =>
        let body := so.1 ++ writeCell options refSize p.1 p.2
        (body, so.2 ++ [body.length])) (body, offsets)
      (written.1.length, written.2) := by
    induction cells generalizing body offsets
    case nil => rfl
    case cons p cells hi =>
      obtain ⟨here, rest⟩ := List.forall_mem_cons.mp wf
      rw [List.foldl_cons, List.foldl_cons, ← hi rest, List.length_append, writeCell_size p.2 here wide]
  exact from_ [] []

end Lengths

section Order

variable [Sha256] {roots order : List Cell} {children : List (List Nat)}

theorem topological_wellFormed (wf : ∀ root ∈ roots, root.WellFormed)
    (h : topological roots = .ok (order, children)) :
    (∀ c ∈ order, c.WellFormed) ∧ children.length = order.length := by
  simp only [topological, bind_eq_ok, pure_eq_ok, Prod.mk.injEq] at h
  obtain ⟨_, each, rfl, rfl⟩ := h
  refine ⟨fun c mem => ?_, (forall₂_of_mapM_eq_ok each).length_eq.symm⟩
  refine PostOrder.run_within (U := Cell.WellFormed) (fun _ wf => wf.refs) (fun s waits => ?_)
    (List.forall_mem_nil _) c (List.mem_reverse.mp mem)
  obtain ⟨root, member, rfl⟩ := List.mem_map.mp waits
  exact wf root member

end Order

section Chunks

variable {b : BocChunks}

namespace BocChunks

-- The cells not yet handed out.
def cellsFrom (b : BocChunks) (cursor : Nat) : Bytes :=
  ((b.order.zip b.children).drop cursor).flatMap fun p =>
    writeCell { storedHashes := b.storedHashes } b.refSize p.1 p.2

theorem cellsFrom_step {cursor : Nat} (paired : b.children.length = b.order.length)
    (h : cursor < b.order.length) :
    b.cellsFrom cursor = b.cellAt cursor ++ b.cellsFrom (cursor + 1) := by
  have within : cursor < (b.order.zip b.children).length := by
    rw [List.length_zip, paired, Nat.min_self]
    exact h
  rw [cellsFrom, List.drop_eq_getElem_cons within, List.flatMap_cons, List.getElem_zip, cellAt,
    List.getElem?_eq_getElem h, List.getElem?_eq_getElem (paired ▸ h)]
  rfl

theorem cellsFrom_end {cursor : Nat} (h : b.order.length ≤ cursor) : b.cellsFrom cursor = [] := by
  have : (b.order.zip b.children).length ≤ cursor := by
    rw [List.length_zip]
    exact le_trans (Nat.min_le_left _ _) h
  rw [cellsFrom, List.drop_eq_nil_of_le this, List.flatMap_nil]

-- A chunk holds the cells its cursor passes, whole and in order.
theorem gather_spec (paired : b.children.length = b.order.length) (passes cursor : Nat) (chunk : Bytes) :
    cursor ≤ (b.gather passes cursor chunk).1 ∧
      (b.gather passes cursor chunk).2 ++ b.cellsFrom (b.gather passes cursor chunk).1 =
        chunk ++ b.cellsFrom cursor := by
  induction passes generalizing cursor chunk
  case zero => exact ⟨le_rfl, rfl⟩
  case succ passes hi =>
    rw [gather]
    split
    case isTrue h =>
      have ⟨later, same⟩ := hi (cursor + 1) (chunk ++ b.cellAt cursor)
      refine ⟨by omega, ?_⟩
      rw [same, List.append_assoc, ← cellsFrom_step paired h.1]
    case isFalse => exact ⟨le_rfl, rfl⟩

-- The first cell goes into the chunk whatever its size.
theorem gather_progress (paired : b.children.length = b.order.length) {passes cursor : Nat}
    (h : cursor < b.order.length) : cursor < (b.gather (passes + 1) cursor []).1 := by
  rw [gather, if_pos ⟨h, by decide⟩]
  exact (gather_spec paired passes (cursor + 1) _).1

-- What is handed out after the header: the cells, and the checksum of all that went before it.
def remainder (b : BocChunks) (before : Bytes) : Bytes :=
  b.cellsFrom b.cursor ++ if b.crcEnabled then toLe (crc32c (before ++ b.cellsFrom b.cursor)) else []

theorem Drains.unique {chunks chunks' : List Bytes} (h : b.Drains chunks) (h' : b.Drains chunks') :
    chunks = chunks' := by
  induction h generalizing chunks'
  case done ends =>
    cases h'
    case done => rfl
    case more _ first => cases ends.symm.trans first
  case more first _ hi =>
    cases h'
    case done ends => cases first.symm.trans ends
    case more rest' first' =>
      cases first.symm.trans first'
      rw [hi rest']

theorem drains_done (h : b.phase = .done) : b.Drains [] := by
  have ends : b.next = (none, b) := by rw [next, nextFrom, h]
  exact .done ends

-- The checksum runs along with the chunks, so it comes out as that of the whole.
theorem drains_body {b : BocChunks} (paired : b.children.length = b.order.length) (phase : b.phase = .body)
    {before : Bytes} (running : b.runningCrc = crc32cUpdate crc32cInit before) :
    ∃ chunks, b.Drains chunks ∧ chunks.flatten = b.remainder before := by
  by_cases h : b.order.length ≤ b.cursor
  case pos =>
    have none_left := cellsFrom_end h
    cases enabled : b.crcEnabled
    case false =>
      have ends : b.next = (none, { b with phase := .done }) := by
        rw [next, nextFrom, phase]
        simp [h, enabled, nextFrom]
      exact ⟨[], .done ends, by simp [remainder, none_left, enabled]⟩
    case true =>
      have last : b.next = (some (toLe (crc32c before)), { b with phase := .done }) := by
        rw [next, nextFrom, phase]
        simp [h, enabled, nextFrom, crc32c, running]
      exact ⟨[_], .more last (drains_done rfl), by simp [remainder, none_left, enabled]⟩
  case neg =>
    rw [not_le] at h
    let passes := b.order.length - b.cursor
    have ⟨_, same⟩ := gather_spec paired passes b.cursor []
    have further : b.cursor < (b.gather passes b.cursor []).1 := by
      obtain ⟨passes', eq⟩ := Nat.exists_eq_add_one_of_ne_zero (show passes ≠ 0 by omega)
      rw [eq]
      exact gather_progress paired h
    let chunk := (b.gather passes b.cursor []).2
    let b' := { b with
      cursor     := (b.gather passes b.cursor []).1
      runningCrc := crc32cUpdate b.runningCrc chunk }
    have first : b.next = (some chunk, b') := by
      rw [next, nextFrom, phase]
      simp [not_le.mpr h, chunk, b', passes, phase]
    have running' : b'.runningCrc = crc32cUpdate crc32cInit (before ++ chunk) := by
      rw [crc32cUpdate, List.foldl_append]
      exact congrArg (crc32cUpdate · chunk) running
    have ⟨chunks, rest, joined⟩ := drains_body (b := b') paired phase running'
    refine ⟨chunk :: chunks, .more first rest, ?_⟩
    have passed : chunk ++ b'.cellsFrom b'.cursor = b.cellsFrom b.cursor := same
    rw [List.flatten_cons, joined, remainder, remainder, ← passed, List.append_assoc, List.append_assoc]
termination_by b.order.length - b.cursor
decreasing_by exact Nat.sub_lt_sub_left (not_le.mp h) further

theorem whole_eq {header body : Bytes} (h : b.cellsFrom b.cursor = body) : header ++ b.remainder header =
    if b.crcEnabled then header ++ body ++ toLe (crc32c (header ++ body)) else header ++ body := by
  rw [remainder, h]
  split <;> simp

-- A stream nothing has been taken from.
structure Fresh (b : BocChunks) (header : Bytes) : Prop where
  paired  : b.children.length = b.order.length
  phase   : b.phase = .header
  opened  : b.header = some header
  running : b.runningCrc = crc32cUpdate crc32cInit header

theorem Fresh.drains {header : Bytes} (f : b.Fresh header) :
    ∃ chunks, b.Drains chunks ∧ chunks.flatten = header ++ b.remainder header := by
  let b' := { b with phase := .body, header := none }
  have first : b.next = (some header, b') := by
    rw [next, nextFrom, f.phase, f.opened]
  have ⟨chunks, rest, joined⟩ := drains_body (b := b') f.paired rfl f.running
  refine ⟨header :: chunks, .more first rest, ?_⟩
  rw [List.flatten_cons, joined]
  rfl

end BocChunks

end Chunks

section Stream

variable [Sha256] {roots : List Cell} {options : BocOptions}

-- Both writers go through the same checks, and then hold the same cells behind the same header.
theorem serializeBocWith_eq (wf : ∀ root ∈ roots, root.WellFormed) (options : BocOptions) :
    (∃ e, serializeBocChunksWith roots options = .error e ∧ serializeBocWith roots options = .error e) ∨
      ∃ b header, serializeBocChunksWith roots options = .ok b ∧ b.Fresh header ∧
        serializeBocWith roots options = .ok (header ++ b.remainder header) := by
  by_cases empty : roots.isEmpty = true
  case pos =>
    refine .inl ⟨.header "root count", ?_, ?_⟩
    · rw [serializeBocChunksWith, failIf_bind_of empty]
    · rw [serializeBocWith, failIf_bind_of empty]
  rw [serializeBocChunksWith, serializeBocWith, failIf_bind_of_not empty, failIf_bind_of_not empty]
  rcases run : topological roots with e | ⟨order, children⟩
  case neg.error => exact .inl ⟨e, rfl, rfl⟩
  obtain ⟨sound, paired⟩ := topological_wellFormed wf run
  rw [ok_bind, ok_bind]
  dsimp only
  by_cases many : order.length > maxCells
  case pos =>
    rw [failIf_bind_of many, failIf_bind_of many]
    exact .inl ⟨_, rfl, rfl⟩
  rw [failIf_bind_of_not many, failIf_bind_of_not many]
  have wide : byteWidth order.length ≤ 8 :=
    byteWidth_le (by decide) (lt_of_le_of_lt (not_lt.mp many) (by decide))
  rw [measureCells_eq wide fun p mem => sound p.1 (List.of_mem_zip mem).1]
  dsimp only
  generalize roots.mapM (m := Except CellError) _ = found
  cases found
  case error e => exact .inl ⟨e, rfl, rfl⟩
  case ok rootList =>
    rw [ok_bind, ok_bind]
    refine .inr ⟨_, _, pure_eq_ok.mpr rfl, ⟨paired, rfl, rfl, ?_⟩, pure_eq_ok.mpr (Eq.symm ?_)⟩
    · dsimp only
    · exact BocChunks.whole_eq (writeCells_eq options _ _).1.symm

theorem chunks_join (wf : ∀ root ∈ roots, root.WellFormed) (options : BocOptions) :
    (∀ e, serializeBocChunksWith roots options = .error e ↔ serializeBocWith roots options = .error e) ∧
      ∀ b, serializeBocChunksWith roots options = .ok b →
        (∃ chunks, b.Drains chunks) ∧
        ∀ chunks, b.Drains chunks → serializeBocWith roots options = .ok chunks.flatten := by
  rcases serializeBocWith_eq wf options with ⟨e, stream, bag⟩ | ⟨b, header, stream, fresh, bag⟩
  · rw [stream, bag]
    exact ⟨fun _ => by rw [Except.error.injEq, Except.error.injEq], nofun⟩
  · have ⟨chunks, drained, joined⟩ := fresh.drains
    rw [stream, bag]
    refine ⟨fun _ => ⟨nofun, nofun⟩, fun _ opened => ?_⟩
    cases opened
    refine ⟨⟨chunks, drained⟩, fun chunks' drained' => ?_⟩
    rw [drained'.unique drained, joined]

end Stream

section Shared

attribute [local instance] Sha256.standard

def streamRun : Option Bool := do
  let roots ← (parseBoc sharedBag).toOption
  return (serializeBocChunksWith roots { index := true, storedHashes := true }).toOption.isSome

theorem chunks_join_sharedBag : ∃ roots b chunks, parseBoc sharedBag = .ok roots ∧
    serializeBocChunksWith roots { index := true, storedHashes := true } = .ok b ∧ b.Drains chunks ∧
    serializeBocWith roots { index := true, storedHashes := true } = .ok chunks.flatten := by
  have run : streamRun = some true := by decide +kernel
  simp only [streamRun, Option.bind_eq_bind, Option.bind_eq_some_iff, toOption_eq_some, Option.pure_def,
    Option.some_inj, Option.isSome_iff_exists] at run
  have ⟨roots, parsed, b, opened⟩ := run
  have ⟨⟨chunks, drained⟩, joined⟩ := (chunks_join (parseBocWith_wellFormed parsed) _).2 b opened
  exact ⟨roots, b, chunks, parsed, opened, drained, joined chunks drained⟩

end Shared

end TonNet
