import TonNet.Cell.Theorems.Builder
import TonNet.Lib.Lockstep

-- Stores and loads by what they write and read: a builder and a cursor are their bits and references.

namespace TonNet

open Fallible Method

namespace Builder

variable {b b' : Builder}

theorem ext_toBits (bits : b.toBits = b'.toBits) (refs : b.refs = b'.refs) : b = b' := by
  have count : b.bits = b'.bits := by rw [← toBits_length, bits, toBits_length]
  have data : b.data = b'.data := by
    refine Bytes.ext_bitAt (by rw [b.length_eq, b'.length_eq, count]) fun i _ => ?_
    by_cases hi : i < b.bits
    case pos =>
      have h := bitAt_eq_of_toBits bits i hi
      rw [← bitAt_eq_of_toBits rfl i (count ▸ hi)] at h
      exact Option.some_inj.mp h
    case neg => rw [b.padded i (not_lt.mp hi), b'.padded i (count ▸ not_lt.mp hi)]
  cases b
  cases b'
  simp_all

theorem exists_of_bits (bits : List Bool) (refs : List Cell) (hb : bits.length ≤ maxBits)
    (hr : refs.length ≤ maxRefs) : ∃ b : Builder, b.toBits = bits ∧ b.refs = refs := by
  have base : ∃ b : Builder, b.toBits = [] ∧ b.refs = refs := by
    exact ⟨{ new with refs := refs, refs_le := hr }, rfl, rfl⟩
  induction bits using List.reverseRecOn
  case nil => exact base
  case append_singleton bits bit hi =>
    rw [List.length_append, List.length_singleton] at hb
    have ⟨b, hbits, hrefs⟩ := hi (by omega)
    have room : 1 ≤ b.bitsLeft := by
      have := hbits ▸ b.toBits_length
      rw [bitsLeft]
      omega
    exact ⟨b.push bit room, by rw [toBits_push, hbits], hrefs⟩

-- A store that succeeds where there is room for what it writes, writes just that and returns `a`.
def Writes {α : Type} (x : Store α) (bits : List Bool) (refs : List Cell) (a : α) : Prop :=
  ∀ b r b', x.Ends b r b' ↔ r = a ∧ b'.toBits = b.toBits ++ bits ∧ b'.refs = b.refs ++ refs

namespace Writes

variable {α β : Type} {x : Store α} {f : α → Store β} {bits more : List Bool} {refs others : List Cell}
  {a : α} {c : β}

theorem pure (a : α) : Writes (Pure.pure a) [] [] a := by
  intro b r b'
  rw [ends_pure, List.append_nil, List.append_nil]
  constructor
  · rintro ⟨rfl, rfl⟩
    exact ⟨rfl, rfl, rfl⟩
  · rintro ⟨rfl, hb, hr⟩
    exact ⟨rfl, ext_toBits hb.symm hr.symm⟩

theorem ofExcept {y : Except CellError α} (h : y = .ok a) : Writes (Method.ofExcept y) [] [] a := by
  subst h
  exact pure a

theorem bind (h : Writes x bits refs a) (h' : Writes (f a) more others c) :
    Writes (x >>= f) (bits ++ more) (refs ++ others) c := by
  intro b r b'
  rw [ends_bind]
  constructor
  · rintro ⟨_, t, hx, hy⟩
    obtain ⟨rfl, hb, hr⟩ := (h b _ t).mp hx
    obtain ⟨rfl, hb', hr'⟩ := (h' t _ b').mp hy
    rw [hb', hr', hb, hr, List.append_assoc, List.append_assoc]
    exact ⟨rfl, rfl, rfl⟩
  · rintro ⟨rfl, hb, hr⟩
    have bound := b'.bits_le
    have bound' := b'.refs_le
    rw [← toBits_length, hb, List.length_append, List.length_append] at bound
    rw [hr, List.length_append, List.length_append] at bound'
    have ⟨t, htb, htr⟩ := exists_of_bits (b.toBits ++ bits) (b.refs ++ refs)
      (by rw [List.length_append]; omega) (by rw [List.length_append]; omega)
    refine ⟨a, t, (h b _ t).mpr ⟨rfl, htb, htr⟩, (h' t _ b').mpr ⟨rfl, ?_, ?_⟩⟩
    · rw [hb, htb, List.append_assoc]
    · rw [hr, htr, List.append_assoc]

theorem seq {y : Store β} {x : Store Unit} (h : Writes x bits refs ()) (h' : Writes y more others c) :
    Writes (do x; y) (bits ++ more) (refs ++ others) c :=
  bind h h'

theorem forM {γ : Type} {g : γ → Store Unit} {bits : γ → List Bool} {refs : γ → List Cell}
    (l : List γ) (h : ∀ a, Writes (g a) (bits a) (refs a) ()) :
    Writes (l.forM g) (l.flatMap bits) (l.flatMap refs) () := by
  induction l
  case nil => exact pure ()
  case cons a l hi => exact (h a).seq hi

-- A check that leaves the builder as it is and passes where there is room.
theorem guard (h : Writes x bits refs a) {check : Store Unit}
    (only : ∀ b b', check.Ends b () b' → b = b')
    (passes : ∀ b : Builder, b.bits + bits.length ≤ maxBits → b.refs.length + refs.length ≤ maxRefs →
      check.Ends b () b) : Writes (do check; x) bits refs a := by
  intro b r b'
  rw [ends_bind, ← h b r b']
  constructor
  · rintro ⟨_, t, hc, hx⟩
    exact only b t hc ▸ hx
  · intro hx
    have ⟨_, hb, hr⟩ := (h b r b').mp hx
    refine ⟨(), b, passes b ?_ ?_, hx⟩
    · have := b'.bits_le
      rwa [← toBits_length, hb, List.length_append, toBits_length] at this
    · have := b'.refs_le
      rwa [hr, List.length_append] at this

theorem failIf {p : Prop} [Decidable p] {e : CellError} (h : Writes x bits refs a) (not : ¬p) :
    Writes (do Fallible.failIf p e; x) bits refs a :=
  h.guard (fun _ _ check => (ends_failIf.mp check).right) fun _ _ _ => ends_failIf.mpr ⟨not, rfl⟩

theorem roomFor_ends {n : Nat} {b b' : Builder} :
    (roomFor n).Ends b () b' ↔ n ≤ b.bitsLeft ∧ b = b' := by
  simp [Builder.roomFor, ends_bind, and_comm]

theorem roomFor {n : Nat} (h : Writes x bits refs a) (le : n ≤ bits.length) :
    Writes (do Builder.roomFor n; x) bits refs a := by
  refine h.guard (fun b b' e => (roomFor_ends.mp e).right) fun b room _ => roomFor_ends.mpr ⟨?_, rfl⟩
  rw [bitsLeft]
  omega

-- A check of what the builder holds.
theorem check {p : Builder → Prop} [DecidablePred p] {e : Builder → CellError}
    (h : Writes x bits refs a)
    (passes : ∀ b : Builder, b.bits + bits.length ≤ maxBits → b.refs.length + refs.length ≤ maxRefs → ¬p b) :
    Writes (do let b ← get; Fallible.failIf (p b) (e b); x) bits refs a := by
  intro b r b'
  rw [← h b r b', ends_bind_of_ends (a := b) (t := b) (by simp), ends_bind]
  constructor
  · rintro ⟨_, t, check, hx⟩
    obtain ⟨_, rfl⟩ := ends_failIf.mp check
    exact hx
  · intro hx
    have ⟨_, hb, hr⟩ := (h b r b').mp hx
    refine ⟨(), b, ends_failIf.mpr ⟨passes b ?_ ?_, rfl⟩, hx⟩
    · have := b'.bits_le
      rwa [← toBits_length, hb, List.length_append, toBits_length] at this
    · have := b'.refs_le
      rwa [hr, List.length_append] at this

theorem refsFor {n : Nat} {e : CellError} (h : Writes x bits refs a) (le : n ≤ refs.length) :
    Writes (do let b ← get; Fallible.failIf (n > b.refsLeft) e; x) bits refs a := by
  refine h.check fun b _ room => ?_
  rw [refsLeft]
  omega

-- Where there is room it comes to its end.
theorem ends (h : Writes x bits refs a) {b : Builder} (room : b.bits + bits.length ≤ maxBits)
    (room' : b.refs.length + refs.length ≤ maxRefs) :
    ∃ b', x.Ends b a b' ∧ b'.toBits = b.toBits ++ bits ∧ b'.refs = b.refs ++ refs := by
  have ⟨b', hb, hr⟩ := exists_of_bits (b.toBits ++ bits) (b.refs ++ refs)
    (by rwa [List.length_append, toBits_length]) (by rwa [List.length_append])
  exact ⟨b', (h b a b').mpr ⟨rfl, hb, hr⟩, hb, hr⟩

end Writes

theorem storeBit_writes (bit : Bool) : Writes (storeBit bit) [bit] [] () := by
  intro b _ b'
  rw [List.append_nil]
  constructor
  · intro h
    have room : b.bits < maxBits := by
      by_contra full
      have none : ¬1 ≤ b.bitsLeft := by
        rw [bitsLeft]
        omega
      simp [storeBit, ends_bind, none] at h
    obtain ⟨t, ht, appends⟩ := storeBit_ends bit room
    obtain ⟨_, rfl⟩ := ht.unique h
    exact ⟨rfl, appends.toBits, appends.refs⟩
  · rintro ⟨_, hb, hr⟩
    have room : b.bits < maxBits := by
      have := b'.bits_le
      rw [← toBits_length, hb, List.length_append, toBits_length] at this
      exact this
    obtain ⟨t, ht, appends⟩ := storeBit_ends bit room
    rwa [ext_toBits (hb.trans appends.toBits.symm) (hr.trans appends.refs.symm)]

theorem storeRef_writes (cell : Cell) : Writes (storeRef cell) [] [cell] () := by
  intro b _ b'
  rw [List.append_nil]
  constructor
  · intro h
    have room : b.refs.length < maxRefs := by
      by_contra full
      simp [storeRef, ends_bind, full] at h
    obtain ⟨_, rfl⟩ := (storeRef_ends cell room).unique h
    exact ⟨rfl, rfl, rfl⟩
  · rintro ⟨_, hb, hr⟩
    have room : b.refs.length < maxRefs := by
      have := b'.refs_le
      rw [hr, List.length_append] at this
      exact this
    have same : b.pushRef cell room = b' := ext_toBits hb.symm hr.symm
    exact same ▸ storeRef_ends cell room

theorem storeBits_writes (bits : List Bool) : Writes (bits.forM storeBit) bits [] () := by
  have h := Writes.forM bits storeBit_writes
  rwa [List.flatMap_singleton', List.flatMap_eq_nil_iff.mpr fun _ _ => rfl] at h

theorem storeSameBit_writes (bit : Bool) (count : Nat) :
    Writes (storeSameBit bit count) (List.replicate count bit) [] () := by
  have h := Writes.forM (List.range count) fun _ => storeBit_writes bit
  rw [List.flatMap_eq_nil_iff.mpr fun _ _ => rfl] at h
  have same : (List.range count).flatMap (fun _ => [bit]) = List.replicate count bit := by
    rw [← List.map_eq_flatMap, List.map_const', List.length_range]
  rw [same] at h
  exact h.roomFor (by simp)

-- The bits of a number, the top one first.
def uintBits (value bits : Nat) : List Bool :=
  (List.range bits).reverse.map value.testBit

@[simp]
theorem uintBits_length (value bits : Nat) : (uintBits value bits).length = bits := by
  simp [uintBits]

-- The loop that every store of an integer ends with.
theorem storeOffsets_writes (value bits : Nat) : Writes (do
    roomFor bits
    (List.range bits).reverse.forM fun offset => storeBit (value.testBit offset))
    (uintBits value bits) [] () := by
  have h := Writes.forM (List.range bits).reverse fun offset => storeBit_writes (value.testBit offset)
  rw [List.flatMap_eq_nil_iff.mpr fun _ _ => rfl, ← List.map_eq_flatMap] at h
  exact h.roomFor (by simp)

theorem storeUint_writes {value bits : Nat} (width : bits ≤ 64) (fits : value < 2 ^ bits) :
    Writes (storeUint value bits) (uintBits value bits) [] () :=
  ((storeOffsets_writes value bits).failIf (by omega)).failIf (by omega)

theorem storeBuilder_writes (other : Builder) :
    Writes (storeBuilder other) other.toBits other.refs () := by
  have bits := Writes.forM (List.range other.bits) fun i => storeBit_writes (other.bitAt i)
  have refs := Writes.forM other.refs storeRef_writes
  rw [List.flatMap_eq_nil_iff.mpr fun _ _ => rfl, ← List.map_eq_flatMap] at bits
  rw [List.flatMap_eq_nil_iff.mpr fun _ _ => rfl, List.flatMap_singleton'] at refs
  have same : (List.range other.bits).map other.bitAt = other.toBits := by
    refine List.map_congr_left fun i hi => ?_
    rw [bitAt, if_neg (by simpa using hi)]
  have h := bits.seq refs
  rw [same, List.append_nil, List.nil_append] at h
  exact (h.refsFor le_rfl).roomFor (by simp)

end Builder

namespace Slice

variable {s s' : Slice}

-- What a cursor has still to read.
def ahead (s : Slice) : List Bool :=
  (List.range s.remainingBits).map fun i => s.cell.data.bitAt (s.bit + i)

def refsAhead (s : Slice) : List Cell :=
  (s.cell.refs.take s.endRef).drop s.nextRef

@[simp]
theorem ahead_length (s : Slice) : s.ahead.length = s.remainingBits := by
  simp [ahead]

@[simp]
theorem refsAhead_length (s : Slice) : s.refsAhead.length = s.remainingRefs := by
  have := s.endRef_le
  simp [refsAhead, remainingRefs]
  omega

theorem remainingBits_past (n : Nat) (h : n ≤ s.remainingBits) :
    (s.past n h).remainingBits = s.remainingBits - n := by
  simp only [remainingBits, past]
  omega

theorem ahead_past (n : Nat) (h : n ≤ s.remainingBits) : (s.past n h).ahead = s.ahead.drop n := by
  have all : List.range s.remainingBits =
      List.range n ++ (List.range (s.remainingBits - n)).map (n + ·) := by
    rw [← List.range_add, Nat.add_sub_cancel' h]
  have skip (l : List Bool) : ((List.range n).map (fun i => s.cell.data.bitAt (s.bit + i)) ++ l).drop n =
      l :=
    List.drop_left' (by simp)
  rw [ahead, remainingBits_past, ahead, all, List.map_append, skip, List.map_map]
  refine List.map_congr_left fun i _ => ?_
  simp [past, Nat.add_assoc]

@[simp]
theorem refsAhead_past (n : Nat) (h : n ≤ s.remainingBits) : (s.past n h).refsAhead = s.refsAhead :=
  rfl

theorem refsAhead_pastRef (h : s.nextRef < s.endRef) :
    (s.pastRef h).refsAhead = s.refsAhead.drop 1 := by
  simp [refsAhead, pastRef]

@[simp]
theorem ahead_pastRef (h : s.nextRef < s.endRef) : (s.pastRef h).ahead = s.ahead :=
  rfl

variable {α β : Type} {x : Load α} {bits more : List Bool} {refs others : List Cell} {a : α}

-- A load that finds `bits` and `refs` at the cursor returns `a` and stops right behind them.
def Reads (x : Load α) (bits : List Bool) (refs : List Cell) (a : α) : Prop :=
  ∀ s rest restRefs, s.ahead = bits ++ rest → s.refsAhead = refs ++ restRefs →
    ∃ s', x.Ends s a s' ∧ s'.ahead = rest ∧ s'.refsAhead = restRefs

theorem Reads.pure (a : α) : Reads (Pure.pure a : Load α) [] [] a :=
  fun s _ _ hb hr => ⟨s, ends_pure.mpr ⟨rfl, rfl⟩, hb, hr⟩

theorem Reads.ofExcept {y : Except CellError α} (h : y = .ok a) : Reads (Method.ofExcept y) [] [] a :=
  fun s _ _ hb hr => ⟨s, ends_ofExcept.mpr ⟨h, rfl⟩, hb, hr⟩

theorem Reads.failIf {p : Prop} [Decidable p] {e : CellError} (not : ¬p) :
    Reads (Fallible.failIf p e : Load Unit) [] [] () :=
  fun s _ _ hb hr => ⟨s, ends_failIf.mpr ⟨not, rfl⟩, hb, hr⟩

theorem Reads.bind {f : α → Load β} {r : β} (h : Reads x bits refs a)
    (h' : Reads (f a) more others r) : Reads (x >>= f) (bits ++ more) (refs ++ others) r := by
  intro s rest restRefs hb hr
  rw [List.append_assoc] at hb hr
  have ⟨t, ht, tb, tr⟩ := h s _ _ hb hr
  have ⟨s', hs, sb, sr⟩ := h' t _ _ tb tr
  exact ⟨s', ends_bind.mpr ⟨a, t, ht, hs⟩, sb, sr⟩

-- A load that moves the cursor passes over the bits ahead of it.
theorem advance_of_ahead {rest : List Bool} (h : s.ahead = bits ++ rest) :
    ∃ s', (advance bits.length).Ends s s.bit s' ∧ s'.cell = s.cell ∧ s'.ahead = rest ∧
      s'.refsAhead = s.refsAhead ∧
      ∀ i < bits.length, s.cell.data.bitAt (s.bit + i) = bits.getD i false := by
  have le : bits.length ≤ s.remainingBits := by
    rw [← ahead_length, h, List.length_append]
    omega
  refine ⟨s.past bits.length le, advance_ends.mpr ⟨le, rfl, rfl⟩, rfl, ?_, rfl, ?_⟩
  · rw [ahead_past, h, List.drop_left]
  · intro i hi
    have passed := congrArg (·[i]?) h
    simp only [ahead, List.getElem?_map, List.getElem?_append_left hi] at passed
    rw [List.getElem?_range (by omega), List.getElem?_eq_getElem hi] at passed
    simpa [List.getD_eq_getElem?_getD, List.getElem?_eq_getElem hi] using passed

theorem skipBits_reads (bits : List Bool) : Reads (skipBits bits.length) bits [] () := by
  intro s rest restRefs hb hr
  have ⟨s', moves, _, hs, same, _⟩ := advance_of_ahead hb
  exact ⟨s', ends_bind.mpr ⟨_, _, moves, ends_pure.mpr ⟨rfl, rfl⟩⟩, hs, same.trans hr⟩

theorem loadBit_reads (bit : Bool) : Reads loadBit [bit] [] bit := by
  intro s rest restRefs hb hr
  have ⟨s', moves, cell, hs, same, data⟩ := advance_of_ahead hb
  refine ⟨s', ?_, hs, same.trans hr⟩
  have here : s'.cell.data.bitAt s.bit = bit := cell ▸ data 0 (by simp)
  simp only [loadBit, ends_bind, ends_get, ends_pure]
  exact ⟨s.bit, s', moves, s', s', ⟨rfl, rfl⟩, here, rfl⟩

theorem loadUintOf_reads {width value n : Nat} (le : n ≤ width) (fits : value < 2 ^ n) :
    Reads (loadUintOf width n) (Builder.uintBits value n) [] value := by
  intro s rest restRefs hb hr
  have ⟨s', moves, cell, hs, same, data⟩ := advance_of_ahead hb
  rw [Builder.uintBits_length] at moves data
  refine ⟨s', ?_, hs, same.trans hr⟩
  have here : uintAt s'.cell.data s.bit n = value := by
    refine Nat.eq_of_testBit_eq fun k => ?_
    rw [uintAt_testBit, cell]
    by_cases hk : k < n
    case pos =>
      have spelled : (Builder.uintBits value n).getD (n - 1 - k) false = value.testBit k := by
        have lt : n - 1 - k < n := by omega
        simp [Builder.uintBits, lt, show n - 1 - (n - 1 - k) = k by omega]
      rw [data _ (by omega), spelled, decide_eq_true hk, Bool.true_and]
    case neg =>
      have clear : value.testBit k = false :=
        Nat.testBit_lt_two_pow (lt_of_lt_of_le fits (Nat.pow_le_pow_right (by decide) (not_lt.mp hk)))
      rw [decide_eq_false hk, clear, Bool.false_and]
  simp only [loadUintOf, ends_bind, ends_failIf, ends_get, ends_pure]
  exact ⟨(), s, ⟨by omega, rfl⟩, s.bit, s', moves, s', s', ⟨rfl, rfl⟩, here, rfl⟩

theorem loadUint_reads {value n : Nat} (width : n ≤ 64) (fits : value < 2 ^ n) :
    Reads (loadUint n) (Builder.uintBits value n) [] value :=
  loadUintOf_reads width fits

theorem nextRef_lt {cell : Cell} {rest : List Cell} (h : s.refsAhead = cell :: rest) :
    s.nextRef < s.endRef := by
  have := congrArg List.length h
  rw [refsAhead_length, remainingRefs, List.length_cons] at this
  omega

theorem reference_of_ahead {cell : Cell} {rest : List Cell} (h : s.refsAhead = cell :: rest) :
    s.cell.reference s.nextRef = some cell := by
  have := congrArg (·[0]?) h
  rw [Cell.reference]
  simpa [refsAhead, List.getElem?_take_of_lt (nextRef_lt h)] using this

theorem loadRef_reads (cell : Cell) : Reads loadRef [] [cell] cell := by
  intro s rest restRefs hb hr
  have lt := nextRef_lt hr
  refine ⟨s.pastRef lt, ?_, hb, by rw [refsAhead_pastRef, hr]; rfl⟩
  rw [loadRef, ends_bind_of_ends (a := s) (t := s) (by simp), dif_pos lt, reference_of_ahead hr]
  simp only [okOr, ends_bind, ends_pure, ends_set]
  exact ⟨cell, s, ⟨rfl, rfl⟩, .unit, _, rfl, rfl, rfl⟩

end Slice

namespace Builder

open Slice

variable {s : Slice}

-- The loop that copies bits off a cursor, as long as there are any.
theorem copyBits_writes (passes : List Nat) (le : passes.length ≤ s.remainingBits) :
    ∃ s' : Slice, s'.ahead = s.ahead.drop passes.length ∧ s'.refsAhead = s.refsAhead ∧
      Writes (passes.foldlM (fun (slice : Slice) _ => do
        let (bit, slice) ← Method.ofExcept (loadBit.call slice)
        storeBit bit
        return slice) s) (s.ahead.take passes.length) [] s' := by
  induction passes generalizing s
  case nil => exact ⟨s, rfl, rfl, .pure s⟩
  case cons pass passes hi =>
    rw [← ahead_length] at le
    cases ahead : s.ahead
    case nil => simp [ahead] at le
    case cons bit rest =>
      have ⟨t, load, tb, tr⟩ := loadBit_reads bit s rest s.refsAhead ahead rfl
      have ⟨s', sb, sr, copies⟩ := hi (s := t) (by rw [← ahead_length, tb]; simpa [ahead] using le)
      refine ⟨s', by rw [sb, tb]; rfl, sr.trans tr, ?_⟩
      have step : Writes (do
          let (bit, slice) ← Method.ofExcept (loadBit.call s)
          storeBit bit
          return slice : Store Slice) [bit] [] t :=
        .bind (.ofExcept (call_eq_ok.mpr load)) ((storeBit_writes bit).seq (.pure t))
      rw [List.foldlM_cons, List.length_cons, List.take_succ_cons]
      exact step.bind (tb ▸ copies)

theorem copyRefs_writes (passes : List Nat) (le : passes.length ≤ s.remainingRefs) :
    ∃ s' : Slice, Writes (passes.foldlM (fun (slice : Slice) _ => do
        let (cell, slice) ← Method.ofExcept (loadRef.call slice)
        storeRef cell
        return slice) s) [] (s.refsAhead.take passes.length) s' := by
  induction passes generalizing s
  case nil => exact ⟨s, .pure s⟩
  case cons pass passes hi =>
    rw [← refsAhead_length] at le
    cases ahead : s.refsAhead
    case nil => simp [ahead] at le
    case cons cell rest =>
      have ⟨t, load, tb, tr⟩ := loadRef_reads cell s s.ahead rest rfl ahead
      have ⟨s', copies⟩ := hi (s := t) (by rw [← refsAhead_length, tr]; simpa [ahead] using le)
      refine ⟨s', ?_⟩
      have step : Writes (do
          let (cell, slice) ← Method.ofExcept (loadRef.call s)
          storeRef cell
          return slice : Store Slice) [] [cell] t :=
        .bind (.ofExcept (call_eq_ok.mpr load)) ((storeRef_writes cell).seq (.pure t))
      rw [List.foldlM_cons, List.length_cons, List.take_succ_cons]
      exact step.bind (tr ▸ copies)

theorem storeSlice_writes (s : Slice) : Writes (storeSlice s) s.ahead s.refsAhead () := by
  have ⟨t, _, tr, bits⟩ := copyBits_writes (s := s) (List.range s.remainingBits) (by simp)
  have ⟨last, refs⟩ := copyRefs_writes (s := t) (List.range t.remainingRefs) (by simp)
  rw [List.length_range, ← ahead_length, List.take_length] at bits
  rw [List.length_range, ← refsAhead_length, List.take_length, tr] at refs
  have copies : Writes (do
      let slice ← (List.range s.remainingBits).foldlM (fun slice _ => do
        let (bit, slice) ← Method.ofExcept (loadBit.call slice)
        storeBit bit
        return slice) s
      let _ ← (List.range slice.remainingRefs).foldlM (fun slice _ => do
        let (cell, slice) ← Method.ofExcept (loadRef.call slice)
        storeRef cell
        return slice) slice
      return ()) (s.ahead ++ ([] ++ [])) ([] ++ (s.refsAhead ++ [])) () := by
    rw [← ahead_length]
    refine bits.bind (Writes.bind (a := last) ?_ (.pure ()))
    rw [← refsAhead_length, tr]
    exact refs
  rw [List.append_nil, List.append_nil, List.append_nil, List.nil_append] at copies
  refine (copies.refsFor (by simp)).roomFor ?_
  rw [ahead_length]
  split
  case isTrue => exact le_rfl
  case isFalse big => exact le_trans (by decide) (not_le.mp big).le

end Builder

theorem toBuilder_eq_ok {s : Slice} {b : Builder} :
    s.toBuilder = .ok b ↔ b.toBits = s.ahead ∧ b.refs = s.refsAhead := by
  rw [Slice.toBuilder, bind_eq_ok]
  constructor
  · rintro ⟨⟨_, b'⟩, run, same⟩
    obtain rfl : b' = b := pure_eq_ok.mp same
    exact ((Builder.storeSlice_writes s _ _ _).mp (call_eq_ok.mp run)).right
  · intro h
    exact ⟨((), b), call_eq_ok.mpr ((Builder.storeSlice_writes s _ _ _).mpr ⟨rfl, h⟩), rfl⟩

section Build

variable [Sha256] {bits : List Bool} {refs : List Cell} {c c' : Cell}

def Cell.toBits (c : Cell) : List Bool :=
  (List.range c.bits).map c.data.bitAt

omit [Sha256] in
@[simp]
theorem Cell.parse_ahead (c : Cell) : c.parse.ahead = c.toBits := by
  simp [Slice.ahead, Slice.remainingBits, Cell.parse, Cell.toBits]

omit [Sha256] in
@[simp]
theorem Cell.parse_refsAhead (c : Cell) : c.parse.refsAhead = c.refs := by
  simp [Slice.refsAhead, Cell.parse]

-- The cell that a builder with these bits and references is built to.
def Makes (bits : List Bool) (refs : List Cell) (c : Cell) : Prop :=
  ∃ b : Builder, b.toBits = bits ∧ b.refs = refs ∧ b.build = .ok c

theorem Makes.wellFormed (h : Makes bits refs c) (wf : ∀ r ∈ refs, r.WellFormed) : c.WellFormed := by
  obtain ⟨b, rfl, rfl, built⟩ := h
  have ⟨c', built', wf, _⟩ := b.build_ok wf
  exact Except.ok.inj (built'.symm.trans built) ▸ wf

theorem Makes.cell (h : Makes bits refs c) : c.isExotic = false ∧ c.toBits = bits ∧ c.refs = refs := by
  obtain ⟨b, rfl, rfl, built⟩ := h
  obtain ⟨_, _, _, rfl⟩ := Cell.fromParts_eq_ok.mp built
  refine ⟨rfl, ?_, rfl⟩
  exact List.map_congr_left fun i hi => b.bitAt_closed (List.mem_range.mp hi)

-- Identities that take hashes and depths at the same places.
structure Identity.SameRoom (i i' : Identity) : Prop where
  levelMask : i.levelMask = i'.levelMask
  extra     : Option.Rel (fun e e' => e.hashes.length = e'.hashes.length ∧
    e.depths.length = e'.depths.length) i.extra i'.extra

-- What is hashed does not decide whether there is room for the hashes.
theorem computeLevel_echoes {data data' : Bytes} {n n' mask level : Nat} {refs : List Identity}
    {acc acc' : Identity × Nat} (room : acc.1.SameRoom acc'.1) (written : acc.2 = acc'.2) :
    Echoes (fun _ => False) (fun acc acc' => acc.1.SameRoom acc'.1 ∧ acc.2 = acc'.2)
      (computeLevel data n refs .ordinary mask acc level)
      (computeLevel data' n' refs .ordinary mask acc' level) := by
  obtain ⟨identity, count⟩ := acc
  obtain ⟨identity', count'⟩ := acc'
  obtain rfl : count = count' := written
  refine Echoes.ite Iff.rfl (fun _ => .pure ⟨room, rfl⟩) fun _ => ?_
  have set (hash hash' : Hash) (depth : UInt16) : Echoes (fun _ => False) Identity.SameRoom
      (identity.set count hash depth) (identity'.set count hash' depth) := by
    refine Echoes.ite Iff.rfl (fun _ => .pure ⟨room.levelMask, room.extra⟩) fun _ => ?_
    refine (Echoes.okOr room.extra _).bind fun e e' same => ?_
    refine (Echoes.failIf (by rw [same.left]) _).bind fun _ _ _ => ?_
    refine (Echoes.failIf (by rw [same.right]) _).bind fun _ _ _ => .pure ⟨room.levelMask, ?_⟩
    exact .some (by simp [same.left, same.right])
  exact (set _ _ _).bind fun i i' same => .pure ⟨same, rfl⟩

theorem summarize_echoes (data data' : Bytes) (n n' mask : Nat) (refs : List Identity) :
    Echoes (fun _ => False) (fun _ _ => True) (summarize data n refs .ordinary mask)
      (summarize data' n' refs .ordinary mask) := by
  refine (Echoes.failIf Iff.rfl _).bind fun _ _ _ => Echoes.rfl.bind fun blank _ same => ?_
  subst same
  have room : blank.SameRoom blank := ⟨rfl, by cases blank.extra <;> constructor; exact ⟨rfl, rfl⟩⟩
  refine Echoes.bind (V := fun acc acc' => acc.1.SameRoom acc'.1 ∧ acc.2 = acc'.2) ?_
    fun acc acc' same => ?_
  · exact Echoes.foldlM _ ⟨room, rfl⟩ fun acc acc' level same => computeLevel_echoes same.left same.right
  · refine (Echoes.failIf ?_ _).bind fun _ _ _ => .pure trivial
    rw [same.right, Identity.count, Identity.count, same.left.levelMask]

-- Whether something is built depends on its references, as long as its bits fit a cell.
theorem Makes.exists_makes (h : Makes bits refs c) {bits' : List Bool} (fits : bits'.length ≤ maxBits) :
    ∃ c', Makes bits' refs c' := by
  obtain ⟨b, _, rfl, built⟩ := h
  have ⟨b', bits, refs⟩ := Builder.exists_of_bits bits' b.refs fits b.refs_le
  have ⟨few, _, summed, _⟩ := Cell.fromParts_eq_ok.mp built
  have ⟨identity, summed', _⟩ := (summarize_echoes _ b'.closed _ b'.bits _ _).of_ok summed
  refine ⟨_, b', bits, refs, Cell.fromParts_eq_ok.mpr ⟨b'.refs_le, identity, ?_, rfl⟩⟩
  rw [refs]
  exact summed'

theorem Builder.Writes.build {x : Store Unit} (h : Builder.Writes x bits refs ()) :
    (do let (_, b) ← x.call .new; b.build) = .ok c ↔ Makes bits refs c := by
  rw [bind_eq_ok]
  constructor
  · rintro ⟨⟨_, b⟩, run, built⟩
    have ⟨_, hb, hr⟩ := (h _ _ b).mp (call_eq_ok.mp run)
    exact ⟨b, hb, hr, built⟩
  · rintro ⟨b, hb, hr, built⟩
    exact ⟨((), b), call_eq_ok.mpr ((h _ _ b).mpr ⟨rfl, hb, hr⟩), built⟩

end Build

end TonNet
