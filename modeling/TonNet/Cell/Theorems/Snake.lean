import TonNet.Cell.Theorems.Typed

-- A snake is read back off the chain of cells that it was stored into.

namespace TonNet

open Fallible Method Builder Slice

-- A chain of cells that spells `bytes`, each cell with its share of them.
inductive Snake : Cell → Bytes → Prop
  | last {c : Cell} {bytes : Bytes} (bits : c.toBits = bytes.toBits) (short : bytes.toBits.length ≤ maxBits)
      (refs : c.refs = []) : Snake c bytes
  | link {c next : Cell} {head tail : Bytes} (bits : c.toBits = head.toBits)
      (short : head.toBits.length ≤ maxBits) (refs : c.refs = [next]) (rest : Snake next tail) :
      Snake c (head ++ tail)

section Load

variable {s : Slice} {c : Cell} {head bytes : Bytes} {next : Option Cell}

theorem loadLink_ends (into : Bytes) (bits : s.ahead = head.toBits) (short : head.toBits.length ≤ maxBits)
    (refs : s.refsAhead = next.toList) :
    ∃ t, (loadLink into).Ends s (into ++ head, next) t := by
  have count : s.remainingBits / 8 = head.length := by
    rw [← ahead_length, bits, Bytes.toBits_length]
    omega
  have left : s.remainingRefs = next.toList.length := by rw [← refsAhead_length, refs]
  have ⟨u, reads, ub, ur⟩ := loadBytesInto_reads short into s [] next.toList
    (by rw [bits, List.append_nil]) refs
  unfold loadLink
  simp only [ends_bind_of_ends (ends_get.mpr ⟨rfl, rfl⟩), count, ends_bind_of_ends reads, left]
  cases next
  case none => exact ⟨u, ends_pure.mpr ⟨rfl, rfl⟩⟩
  case some cell =>
    have ⟨t, loads, _⟩ := loadRef_reads cell u [] [] ub ur
    exact ⟨t, ends_bind.mpr ⟨cell, t, loads, ends_pure.mpr ⟨rfl, rfl⟩⟩⟩

theorem loadChain_link {passes : Nat} (into : Bytes) (next : Option Cell) (bits : c.toBits = head.toBits)
    (short : head.toBits.length ≤ maxBits) (refs : c.refs = next.toList) :
    loadChain (passes + 1) (some c) into = loadChain passes next (into ++ head) := by
  have ⟨t, ends⟩ := loadLink_ends into (c.parse_ahead.trans bits) short (c.parse_refsAhead.trans refs)
  rw [loadChain, call_eq_ok.mpr ends]
  rfl

-- There are as many passes as there are cells below, and the chain goes through one after the other.
theorem loadChain_ok {passes : Nat} (snake : Snake c bytes) (into : Bytes)
    (enough : c.subcells.length ≤ passes) : loadChain passes (some c) into = .ok (into ++ bytes) := by
  induction snake generalizing passes into
  case last c bytes bits short refs =>
    rw [Cell.subcells_eq, List.length_cons] at enough
    obtain ⟨passes, rfl⟩ := Nat.exists_eq_add_one_of_ne_zero (n := passes) (by omega)
    exact (loadChain_link into none bits short refs).trans (by rw [loadChain]; rfl)
  case link c next head tail bits short refs rest hi =>
    rw [Cell.subcells_eq, List.length_cons, refs, List.flatMap_singleton] at enough
    obtain ⟨passes, rfl⟩ := Nat.exists_eq_add_one_of_ne_zero (n := passes) (by omega)
    rw [loadChain_link into (some next) bits short refs, hi _ (by omega), List.append_assoc]

theorem loadSnake_ends (bits : s.ahead = head.toBits) (short : head.toBits.length ≤ maxBits)
    (refs : s.refsAhead = next.toList)
    (rest : ∀ cell, next = some cell → Snake cell bytes) (none : next = none → bytes = []) :
    ∃ t, loadSnake.Ends s (head ++ bytes) t := by
  have ⟨t, ends⟩ := loadLink_ends [] bits short refs
  refine ⟨t, ends_bind.mpr ⟨_, t, ends, ends_ofExcept.mpr ⟨?_, rfl⟩⟩⟩
  cases next
  case none =>
    rw [none rfl, List.append_nil, loadChain]
    rfl
  case some cell => exact loadChain_ok (rest cell rfl) ([] ++ head) le_rfl

end Load

section Store

variable [Sha256] {b b' : Builder} {bytes : Bytes} {passes : Nat}

-- The cell that holds what does not fit.
def storeTail (passes : Nat) (tail : Bytes) : Store Unit := do
  let (_, child) ← Method.ofExcept ((storeSnakeFrom passes tail).call .new)
  let child ← Method.ofExcept child.build
  storeRef child

theorem storeSnakeFrom_outcome (passes : Nat) (bytes : Bytes) (b : Builder) :
    (storeSnakeFrom (passes + 1) bytes).outcome b =
      (do
        storeBytes (bytes.take (b.bitsLeft / 8))
        onlyIf (!(bytes.drop (b.bitsLeft / 8)).isEmpty) (storeTail passes (bytes.drop (b.bitsLeft / 8))) :
        Store Unit).outcome b := by
  have drop : bytes.drop (min (b.bitsLeft / 8) bytes.length) = bytes.drop (b.bitsLeft / 8) := by
    rcases Nat.le_total (b.bitsLeft / 8) bytes.length with le | le
    · rw [Nat.min_eq_left le]
    · rw [Nat.min_eq_right le, List.drop_length, List.drop_eq_nil_of_le le]
  rw [storeSnakeFrom, outcome_bind_of_ends (ends_get.mpr ⟨rfl, rfl⟩)]
  dsimp only
  rw [← List.take_eq_take_min, drop]
  rfl

-- A store writes the bytes that fit, and chains the others.
theorem storeSnakeFrom_ends (ends : (storeSnakeFrom (passes + 1) bytes).Ends b () b') :
    ∃ head tail, head ++ tail = bytes ∧ b'.toBits = b.toBits ++ head.toBits ∧
      (tail = [] ∧ b'.refs = b.refs ∨
        ∃ child cell, (storeSnakeFrom passes tail).Ends .new () child ∧ child.build = .ok cell ∧
          b'.refs = b.refs ++ [cell]) := by
  rw [Ends, storeSnakeFrom_outcome] at ends
  obtain ⟨_, t, stored, spilled⟩ := ends_bind.mp ends
  obtain ⟨_, bits, refs⟩ := (storeBytes_writes _ _ _ _).mp stored
  rw [List.append_nil] at refs
  refine ⟨_, _, List.take_append_drop (b.bitsLeft / 8) bytes, ?_⟩
  unfold onlyIf at spilled
  split at spilled
  case isFalse fit =>
    obtain ⟨_, rfl⟩ := ends_pure.mp spilled
    exact ⟨bits, .inl ⟨by simpa using fit, refs⟩⟩
  case isTrue =>
    simp only [storeTail, ends_bind, ends_ofExcept] at spilled
    obtain ⟨⟨_, child⟩, _, ⟨chained, rfl⟩, cell, _, ⟨built, rfl⟩, linked⟩ := spilled
    obtain ⟨_, bits', refs'⟩ := (storeRef_writes cell _ _ _).mp linked
    rw [List.append_nil] at bits'
    exact ⟨bits'.trans bits, .inr ⟨child, cell, call_eq_ok.mp chained, built, by rw [refs', refs]⟩⟩

-- What a store chains to a new builder is a snake of the bytes.
theorem snake_of_store {c : Cell} (ends : (storeSnakeFrom passes bytes).Ends .new () b)
    (built : b.build = .ok c) : Snake c bytes := by
  induction passes generalizing bytes b c
  case zero => exact (ends_throw ends).elim
  case succ passes hi =>
    have ⟨head, tail, split, bits, rest⟩ := storeSnakeFrom_ends ends
    have ⟨_, cellBits, cellRefs⟩ := Makes.cell ⟨b, rfl, rfl, built⟩
    have spelled : c.toBits = head.toBits := cellBits.trans bits
    have short := b.length_le_of_toBits bits
    subst split
    rcases rest with ⟨rfl, refs⟩ | ⟨child, cell, chained, built', refs⟩
    · rw [List.append_nil]
      exact .last spelled short (cellRefs.trans refs)
    · exact .link spelled short (cellRefs.trans refs) (hi chained built')

theorem storeSnakeFrom_of_tail (rest : bytes.drop (b.bitsLeft / 8) = [] ∨ b.refs.length < maxRefs ∧
      ∃ child cell, (storeSnakeFrom passes (bytes.drop (b.bitsLeft / 8))).Ends .new () child ∧
        child.build = .ok cell ∧ cell.WellFormed) (wf : ∀ r ∈ b.refs, r.WellFormed) :
    ∃ b', (storeSnakeFrom (passes + 1) bytes).Ends b () b' ∧ ∀ r ∈ b'.refs, r.WellFormed := by
  have le := b.bits_le
  obtain ⟨t, stored, _, refs⟩ := (storeBytes_writes (bytes.take (b.bitsLeft / 8))).ends (b := b)
    (by rw [Bytes.toBits_length, List.length_take, bitsLeft]; omega) b.refs_le
  rw [List.append_nil] at refs
  simp only [Ends, storeSnakeFrom_outcome, outcome_bind_of_ends stored, onlyIf]
  rcases rest with fit | ⟨room, child, cell, chained, built, sound⟩
  · exact ⟨t, by simp [fit], refs ▸ wf⟩
  · split
    case isFalse => exact ⟨t, rfl, refs ▸ wf⟩
    case isTrue =>
      obtain ⟨t', linked, _, refs'⟩ := (storeRef_writes cell).ends t.bits_le (refs ▸ room)
      refine ⟨t', ?_, fun r hr => ?_⟩
      · have whole : (Method.ofExcept child.build : Store Cell).Ends t cell t :=
          ends_ofExcept.mpr ⟨built, rfl⟩
        exact ends_bind.mpr ⟨_, t, ends_ofExcept.mpr ⟨call_eq_ok.mpr chained, rfl⟩,
          ends_bind.mpr ⟨cell, t, whole, linked⟩⟩
      · rw [refs', refs, List.mem_append, List.mem_singleton] at hr
        rcases hr with hr | rfl
        · exact wf r hr
        · exact sound

-- The passes suffice: the builder of every cell below takes a byte or more.
theorem storeSnakeFrom_new (enough : bytes.length ≤ passes) (some : bytes ≠ []) :
    ∃ child cell, (storeSnakeFrom passes bytes).Ends .new () child ∧ child.build = .ok cell ∧
      cell.WellFormed := by
  induction passes generalizing bytes
  case zero => exact (some (List.length_eq_zero_iff.mp (Nat.le_zero.mp enough))).elim
  case succ passes hi =>
    have shorter : (bytes.drop (new.bitsLeft / 8)).length ≤ passes := by
      rw [List.length_drop]
      have : new.bitsLeft / 8 = 127 := rfl
      omega
    have ⟨child, ends, wf⟩ : ∃ child, (storeSnakeFrom (passes + 1) bytes).Ends new () child ∧ _ :=
      storeSnakeFrom_of_tail (Decidable.or_iff_not_imp_left.mpr fun more => ⟨by decide, hi shorter more⟩) nofun
    have ⟨cell, built, sound, _⟩ := child.build_ok wf
    exact ⟨child, cell, ends, built, sound⟩

-- A snake is stored wherever it fits or a reference is free.
theorem storeSnake_ends_of_room (wf : ∀ r ∈ b.refs, r.WellFormed)
    (room : bytes.length ≤ b.bitsLeft / 8 ∨ b.refs.length < maxRefs) :
    ∃ b', (storeSnake bytes).Ends b () b' ∧ ∀ r ∈ b'.refs, r.WellFormed := by
  refine storeSnakeFrom_of_tail (Decidable.or_iff_not_imp_left.mpr fun more => ?_) wf
  have free := room.resolve_left fun fits => more (List.drop_eq_nil_of_le fits)
  exact ⟨free, storeSnakeFrom_new (by rw [List.length_drop]; omega) more⟩

theorem snake_restored {c : Cell} (stored : (storeSnake bytes).Ends b () b') (built : b'.build = .ok c) :
    ∃ s t, (skipBitsAndRefs b.bits b.refs.length).Ends c.parse () s ∧ loadSnake.Ends s bytes t := by
  have ⟨head, tail, split, bits, rest⟩ := storeSnakeFrom_ends stored
  have ⟨_, cellBits, cellRefs⟩ := Makes.cell ⟨b', rfl, rfl, built⟩
  have short := b'.length_le_of_toBits bits
  subst split
  have skip (next : Option Cell) (refs : b'.refs = b.refs ++ next.toList) :
      ∃ s, (skipBitsAndRefs b.bits b.refs.length).Ends c.parse () s ∧ s.ahead = head.toBits ∧
        s.refsAhead = next.toList := by
    rw [← toBits_length]
    exact skipBitsAndRefs_reads b.toBits b.refs c.parse _ _ (by rw [c.parse_ahead, cellBits, bits])
      (by rw [c.parse_refsAhead, cellRefs, refs])
  rcases rest with ⟨rfl, refs⟩ | ⟨child, cell, chained, built', refs⟩
  · have ⟨s, skips, sb, sr⟩ := skip none (by rw [refs, Option.toList_none, List.append_nil])
    have ⟨t, loads⟩ : ∃ t, loadSnake.Ends s (_ ++ []) t := loadSnake_ends sb short sr nofun fun _ => rfl
    exact ⟨s, t, skips, loads⟩
  · have ⟨s, skips, sb, sr⟩ := skip (some cell) refs
    have ⟨t, loads⟩ := loadSnake_ends sb short sr
      (fun _ same => Option.some.inj same ▸ snake_of_store chained built') nofun
    exact ⟨s, t, skips, loads⟩

end Store

section Spilled

attribute [local instance] Sha256.standard

-- Two hundred bytes behind a bit take two cells.
theorem snake_restored_spilled : ∃ (b b' : Builder) (c : Cell) (s t : Slice),
    b.bits = 1 ∧ (storeSnake (List.replicate 200 7)).Ends b () b' ∧ b'.build = .ok c ∧
    (skipBitsAndRefs 1 0).Ends c.parse () s ∧ loadSnake.Ends s (List.replicate 200 7) t := by
  have ⟨b, _, bits, refs⟩ := (storeBit_writes true).ends (b := new) (by decide) (by decide)
  have count : b.bits = 1 := by rw [← toBits_length, bits]; rfl
  have none : b.refs = [] := refs
  have ⟨b', stored, wf⟩ : ∃ b', (storeSnake (List.replicate 200 7)).Ends b () b' ∧ _ := storeSnake_ends_of_room
    (by rw [none]; nofun) (.inr (by rw [none]; decide))
  have ⟨c, built, _⟩ := b'.build_ok wf
  have ⟨s, t, skips, loads⟩ := snake_restored stored built
  rw [count, none] at skips
  exact ⟨b, b', c, s, t, count, stored, built, skips, loads⟩

end Spilled

end TonNet
