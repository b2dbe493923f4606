import TonNet.Cell.Theorems.WellFormed
import TonNet.Boc.Parse

-- Every root a bag gives is a well-formed cell, whatever the bytes.

namespace TonNet

open Fallible Method

theorem trailingZeros_spec (byte : UInt8) (h : trailingZeros byte < 8) :
    byte.toNat.testBit (trailingZeros byte) = true ∧
      ∀ j < trailingZeros byte, byte.toNat.testBit j = false := by
  unfold trailingZeros at h ⊢
  cases hf : (List.range 8).find? byte.toNat.testBit
  case none => simp [hf] at h
  case some i =>
    have ⟨set, _, clear⟩ := List.find?_range_eq_some.mp hf
    exact ⟨set, fun j hj => by simpa using clear j hj⟩

-- The bit count read off the descriptor and the last byte is the one the bytes are tagged with.
theorem tagged_of_bitLen {d2 bits : Nat} {data : Bytes}
    (hl : data.length = (d2 >>> 1) + (d2 &&& 1)) (h : bitLen d2 data = .ok bits) :
    Tagged data bits := by
  rw [Nat.and_one_is_mod, Nat.shiftRight_eq_div_pow, Nat.pow_one] at hl
  unfold bitLen at h
  rw [Nat.and_one_is_mod, Nat.shiftRight_eq_div_pow, Nat.pow_one] at h
  by_cases even : d2 % 2 = 0
  case pos =>
    simp only [even, if_true, pure_eq_ok] at h
    exact ⟨by omega, by omega⟩
  case neg =>
    simp only [if_neg even, okOr_bind_eq_ok, failIf_bind_eq_ok, pure_eq_ok] at h
    have ⟨last, hlast, hz, hb⟩ := h
    have ⟨set, clear⟩ := trailingZeros_spec last (by omega)
    have hk : data.length = d2 / 2 + 1 := by omega
    have byte : data.getD (d2 / 2) 0 = last := by
      rw [List.getLast?_eq_getElem?, hk, Nat.add_sub_cancel] at hlast
      simp [hlast]
    have inLast (j : Nat) (hj : j < 8) :
        data.bitAt (8 * (d2 / 2) + j) = last.toNat.testBit (7 - j) := by
      have div : (8 * (d2 / 2) + j) / 8 = d2 / 2 := by omega
      have mod : (8 * (d2 / 2) + j) % 8 = j := by omega
      rw [Bytes.bitAt, div, mod, byte]
    refine ⟨by omega, fun _ => ⟨?_, fun i hi => ?_⟩⟩
    · have := inLast (7 - trailingZeros last) (by omega)
      rw [show 7 - (7 - trailingZeros last) = trailingZeros last by omega, set] at this
      rw [← hb, Nat.mul_comm]
      exact this
    · by_cases hin : i < 8 * data.length
      case neg => exact Bytes.bitAt_of_length_le (by omega)
      case pos =>
        obtain ⟨j, rfl⟩ := Nat.exists_eq_add_of_le (show 8 * (d2 / 2) ≤ i by omega)
        rw [inLast j (by omega)]
        exact clear _ (by omega)

theorem checkBranch_spec {data : Bytes} {mask : Nat} {u : Unit}
    (h : checkBranch data mask = .ok u) :
    mask ≠ 0 ∧ data[1]? = some (UInt8.ofNat mask) ∧ data.length = 2 + 34 * countOnes mask := by
  simp only [checkBranch, okOr_bind_eq_ok, failIf_bind_eq_ok, failIf_eq_ok, not_not] at h
  obtain ⟨stored, hs, rfl, hz, hl⟩ := h
  rw [Nat.mul_comm] at hl
  exact ⟨hz, by rw [hs, UInt8.ofNat_toNat], hl⟩

theorem classify_spec {exotic : Bool} {data : Bytes} {mask refCount : Nat} {cellType : CellType}
    (h : classify exotic data mask refCount = .ok cellType) :
    (∀ tag, cellType.tag = some tag → data.head? = some tag) ∧
    (∀ n, cellType.expectedRefs = some n → refCount = n) ∧
    (cellType = .prunedBranch → mask ≠ 0 ∧ data[1]? = some (UInt8.ofNat mask) ∧
      data.length = 2 + 34 * countOnes mask) := by
  unfold classify at h
  cases exotic
  case false =>
    obtain rfl : CellType.ordinary = cellType := by simpa using h
    exact ⟨by simp [CellType.tag], by simp [CellType.expectedRefs], by simp⟩
  case true =>
    simp only [if_true, okOr_bind_eq_ok] at h
    obtain ⟨tag, htag, kind, hkind, h⟩ := h
    have ht := CellType.fromTag_eq_some_iff.mp hkind
    have leading : ∀ tag', kind.tag = some tag' → data.head? = some tag' :=
      fun _ h' => htag.trans (ht.symm.trans h')
    cases hn : kind.expectedRefs
    case none =>
      have : kind = .ordinary := by cases kind <;> simp_all [CellType.expectedRefs]
      simp [this, CellType.tag] at ht
    case some n =>
      simp only [hn, failIf_bind_eq_ok, not_not] at h
      obtain ⟨hrefs, h⟩ := h
      by_cases hp : kind = .prunedBranch
      case neg =>
        obtain rfl : kind = cellType := by simpa [hp] using h
        refine ⟨leading, fun m hm => ?_, fun h' => absurd h' hp⟩
        exact hrefs.trans (Option.some_inj.mp (hn.symm.trans hm))
      case pos =>
        simp only [if_pos hp, bind_eq_ok, pure_eq_ok] at h
        obtain ⟨_, hb, rfl⟩ := h
        refine ⟨leading, fun m hm => ?_, fun _ => checkBranch_spec hb⟩
        exact hrefs.trans (Option.some_inj.mp (hn.symm.trans hm))

section Reading

variable {bytes : Bytes}

-- No read changes the bytes that are read.
def Over (bytes : Bytes) (r : Reader) : Prop :=
  r.bytes = bytes

theorem take_yields (n : Nat) : Yields (Over bytes) (fun _ => True) (Reader.take n) := by
  intro r data r' hr he
  simp only [Reader.take, ends_bind, ends_get, ends_failIf, ends_set, ends_pure] at he
  obtain ⟨_, _, ⟨rfl, rfl⟩, _, _, ⟨_, rfl⟩, _, _, rfl, rfl, rfl⟩ := he
  exact ⟨trivial, hr⟩

theorem byte_yields : Yields (Over bytes) (· < 256) Reader.byte := by
  refine (take_yields 1).bind fun taken _ => Yields.okOr.bind fun byte _ => .pure byte.toNat_lt

theorem uint_yields (n : Nat) : Yields (Over bytes) (fun _ => True) (Reader.uint n) :=
  (take_yields n).bind fun _ _ => .pure trivial

theorem consumed_yields : Yields (Over bytes) (fun _ => True) Reader.consumed :=
  Yields.get.bind fun _ _ => .pure trivial

theorem remaining_yields : Yields (Over bytes) (fun _ => True) Reader.remaining :=
  Yields.get.bind fun _ _ => .pure trivial

theorem takeSpan_yields (n : Nat) :
    Yields (Over bytes) (fun (data, span) => data.length = n ∧ span.of bytes = .ok data)
      (takeSpan n) := by
  intro r ⟨data, span⟩ r' hr he
  simp only [takeSpan, Reader.consumed, Reader.take, ends_bind, ends_get, ends_failIf, ends_set,
    ends_pure, ends_ofExcept, Prod.mk.injEq] at he
  obtain ⟨_, _, ⟨_, _, ⟨rfl, rfl⟩, rfl, rfl⟩, taken, _, ⟨_, _, ⟨rfl, rfl⟩, _, _, ⟨hn, rfl⟩, _, _,
    rfl, rfl, rfl⟩, span, _, ⟨hs, rfl⟩, ⟨rfl, rfl⟩, rfl⟩ := he
  obtain rfl : r.bytes = bytes := hr
  have hl : ((r.bytes.drop r.pos).take n).length = n := by
    rw [List.length_take, List.length_drop]
    omega
  refine ⟨⟨hl, ?_⟩, rfl⟩
  simp only [Span.new, failIf_bind_eq_ok, pure_eq_ok, hl] at hs
  obtain ⟨_, rfl⟩ := hs
  simp only [Span.of, failIf_bind_eq_ok, pure_eq_ok, Nat.add_sub_cancel_left, and_true]
  omega

-- What `read_raw` holds a cell to before anything is built.
structure RawCell.Sound (bytes : Bytes) (rawCell : RawCell) : Prop where
  bits_le : rawCell.bits ≤ maxBits
  mask_lt : rawCell.levelMask < 8
  arity   : ∀ n, rawCell.cellType.expectedRefs = some n → rawCell.refs.length = n
  data    : ∃ data, rawCell.data.of bytes = .ok data ∧ Tagged data rawCell.bits ∧
    (∀ tag, rawCell.cellType.tag = some tag → data.head? = some tag) ∧
    (rawCell.cellType = .prunedBranch → rawCell.levelMask ≠ 0 ∧
      data[1]? = some (UInt8.ofNat rawCell.levelMask) ∧
      data.length = 2 + 34 * countOnes rawCell.levelMask)

theorem readStored_yields (d1 mask : Nat) :
    Yields (Over bytes) (fun _ => True) (readStored d1 mask) := by
  unfold readStored
  split
  case isTrue => exact (takeSpan_yields _).bind fun _ _ => .pure trivial
  case isFalse => exact .pure trivial

theorem readTarget_yields (header : Header) (index : Nat) :
    Yields (Over bytes) (fun _ => True) (readTarget header index) :=
  (uint_yields _).bind fun _ _ => Yields.failIf.bind fun _ _ => .pure trivial

theorem readCell_yields (header : Header) (index : Nat) :
    Yields (Over bytes) (RawCell.Sound bytes) (readCell header index) := by
  refine byte_yields.bind fun d1 hd1 => byte_yields.bind fun d2 _ => ?_
  refine Yields.failIf.bind fun _ _ => (readStored_yields _ _).bind fun stored _ => ?_
  refine (takeSpan_yields _).bind fun (data, span) ⟨hl, hspan⟩ => ?_
  refine Yields.ofExcept.bind fun bits hbits => Yields.failIf.bind fun _ hb => ?_
  refine Yields.ofExcept.bind fun cellType hkind => ?_
  refine (Yields.mapM fun _ _ => readTarget_yields header index).bind fun refs ⟨hrefs, _⟩ => ?_
  have ⟨leading, arity, branch⟩ := classify_spec hkind
  refine .pure ⟨not_lt.mp hb, ?_, fun n hn => ?_, data, hspan, tagged_of_bitLen hl hbits, leading,
    branch⟩
  · show d1 >>> 5 < 8
    rw [Nat.shiftRight_eq_div_pow]
    omega
  · rw [← arity n hn, hrefs, List.length_range]

theorem readRoot_yields (refSize count : Nat) :
    Yields (Over bytes) (fun _ => True) (readRoot refSize count) :=
  (uint_yields _).bind fun _ _ => Yields.failIf.bind fun _ _ => .pure trivial

theorem readHeader_yields (options : ParseOptions) :
    Yields (Over bytes) (fun _ => True) (readHeader bytes options) := by
  refine (take_yields 4).bind fun _ _ => Yields.failIf.bind fun _ _ => ?_
  refine byte_yields.bind fun flags _ => byte_yields.bind fun offsetSize _ => ?_
  refine Yields.failIf.bind fun _ _ => Yields.failIf.bind fun _ _ => ?_
  refine (Yields.onlyIf fun _ => Yields.ofExcept.trivial).bind fun _ _ => ?_
  refine (uint_yields _).bind fun count _ => (uint_yields _).bind fun roots _ => ?_
  refine (uint_yields _).bind fun _ _ => (uint_yields _).bind fun _ _ => ?_
  refine Yields.failIf.bind fun _ _ => Yields.failIf.bind fun _ _ => Yields.failIf.bind fun _ _ => ?_
  refine remaining_yields.bind fun _ _ => Yields.failIf.bind fun _ _ => ?_
  refine Yields.failIf.bind fun _ _ => ?_
  refine (Yields.mapM fun _ _ => readRoot_yields _ count).bind fun _ _ => ?_
  refine (Yields.onlyIf fun _ => (take_yields _).bind fun _ _ => .pure trivial).bind fun _ _ => ?_
  exact consumed_yields.bind fun _ _ => Yields.failIf.bind fun _ _ => .pure trivial

end Reading

section Building

variable {α : Type} {P : α → Prop}

-- Every result held so far satisfies `P`.
def Slots (P : α → Prop) (slots : List (Option α)) : Prop :=
  ∀ value, some value ∈ slots → P value

theorem keep_slots {held : Held α} {index : Nat} {outcome : Except CellError (Option α)}
    (h : Slots P held.slots) (ho : ∀ value, outcome = .ok (some value) → P value) :
    Slots P (keep held index outcome).slots := by
  unfold keep
  split
  case h_1 value =>
    intro value' hv
    cases List.mem_or_eq_of_mem_set hv
    case inl hm => exact h value' hm
    case inr he => exact Option.some_inj.mp he ▸ ho value rfl
  case h_2 => exact h
  case h_3 => exact h

variable {one : Nat → List (Option α) → Except CellError (Option α)}

-- Whatever the plan, a pass holds only what one step can produce from what was held before.
theorem finalize_slots (count : Nat) (waves : Waves)
    (step : ∀ index slots value, Slots P slots → one index slots = .ok (some value) → P value) :
    Slots P (finalize one count waves).slots := by
  have wave (cells : List Nat) (held : Held α) (h : Slots P held.slots) :
      Slots P (runWave one cells held).slots :=
    List.foldlRecOn (motive := fun held : Held α => Slots P held.slots) cells _ h
      fun held h index _ => keep_slots h fun value => step index held.slots value h
  refine List.foldlRecOn (motive := fun held : Held α => Slots P held.slots) waves.iter _ ?_
    fun held h cells _ => wave cells held h
  intro value hv
  simp [List.mem_replicate] at hv

theorem roots_slots {slots : List (Option α)} {header : Header} {values : List α}
    (h : Slots P slots) (hr : roots slots header = .ok values) : ∀ value ∈ values, P value := by
  intro value hv
  have ⟨i, hi, he⟩ := List.mem_iff_getElem.mp hv
  have all := forall₂_of_mapM_eq_ok hr
  have hslot := okOr_eq_ok.mp (all.get (all.length_eq ▸ hi) hi)
  rw [Option.join_eq_some_iff] at hslot
  exact h value (he ▸ List.mem_of_getElem? hslot)

end Building

section Cells

variable {bytes : Bytes}

theorem children_spec {built : List (Option Cell)} {targets : List Nat} {refs : List Cell}
    {P : Cell → Prop} (hb : Slots P built) (h : children built targets = .ok (some refs)) :
    refs.length = targets.length ∧ ∀ r ∈ refs, P r := by
  induction targets generalizing refs
  case nil =>
    obtain rfl : [] = refs := by simpa [children] using h
    simp
  case cons target targets hi =>
    unfold children at h
    split at h
    case h_1 child hc =>
      simp only [bind_eq_ok, pure_eq_ok, Option.map_eq_some_iff] at h
      obtain ⟨_, hrest, rest, rfl, rfl⟩ := h
      obtain ⟨hl, hr⟩ := hi hrest
      refine ⟨by simp [hl], fun r hm => ?_⟩
      cases List.mem_cons.mp hm
      case inl e => exact e ▸ hb child (List.mem_of_getElem? hc)
      case inr hm => exact hr r hm
    case h_2 => simp at h
    case h_3 => simp at h

variable [Sha256]

theorem buildOne_eq_some {rawCell : RawCell} {built : List (Option Cell)} {c : Cell}
    (h : buildOne rawCell bytes built = .ok (some c)) : ∃ refs data,
    children built rawCell.refs = .ok (some refs) ∧ rawCell.data.of bytes = .ok data ∧
      Cell.fromParts data rawCell.bits refs rawCell.cellType rawCell.levelMask = .ok c := by
  rw [buildOne, bind_eq_ok] at h
  obtain ⟨found, named, h⟩ := h
  cases found
  case none => simp at h
  case some refs =>
    simp only [bind_eq_ok] at h
    obtain ⟨data, lies, cell, made, h⟩ := h
    suffices cell = c from ⟨refs, data, named, lies, this ▸ made⟩
    split at h
    case h_1 => simpa using h
    case h_2 =>
      simp only [bind_eq_ok, pure_eq_ok, Option.some_inj] at h
      obtain ⟨_, _, _, _, h⟩ := h
      exact h

theorem buildOne_wellFormed {rawCell : RawCell} {built : List (Option Cell)} {c : Cell}
    (hs : rawCell.Sound bytes) (hb : Slots Cell.WellFormed built)
    (h : buildOne rawCell bytes built = .ok (some c)) : c.WellFormed := by
  obtain ⟨refs, data, named, lies, made⟩ := buildOne_eq_some h
  obtain ⟨data', lies', tagged, leading, branch⟩ := hs.data
  obtain rfl := Except.ok.inj (lies.symm.trans lies')
  obtain ⟨hl, hrefs⟩ := children_spec hb named
  have parts : Cell.Parts data rawCell.bits refs rawCell.cellType rawCell.levelMask :=
    ⟨hs.bits_le, hs.mask_lt, tagged, leading, fun n hn => hl.trans (hs.arity n hn), branch, hrefs⟩
  exact (parts.wellFormed made).left

-- What a cell has by how it is read, and over children that have it, every root has.
theorem parseBocWith_roots {options : ParseOptions} {cells : List Cell} {Q : RawCell → Prop} {P : Cell → Prop}
    (read : ∀ header index, Yields (Over bytes) Q (readCell header index))
    (build : ∀ {rawCell : RawCell} {built : List (Option Cell)} {c : Cell}, Q rawCell → Slots P built →
      buildOne rawCell bytes built = .ok (some c) → P c)
    (h : parseBocWith bytes options = .ok cells) : ∀ c ∈ cells, P c := by
  have planned {raw : List RawCell} {waves : Waves} {header : Header} {cells : List Cell}
      (hs : ∀ rawCell ∈ raw, Q rawCell) (h : buildPlanned raw bytes waves header = .ok cells) :
      ∀ c ∈ cells, P c := by
    rw [buildPlanned, bind_eq_ok] at h
    obtain ⟨_, _, h⟩ := h
    refine roots_slots (finalize_slots _ _ fun index slots c hslots hc => ?_) h
    split at hc
    case h_1 rawCell hr => exact build (hs rawCell (List.mem_of_getElem? hr)) hslots hc
    case h_2 => simp at hc
  have whole : Yields (Over bytes) (fun cells => ∀ c ∈ cells, P c)
      (readHeader bytes options >>= readAndBuild) := by
    refine (readHeader_yields options).bind fun header _ => Yields.get.bind fun r hr => ?_
    refine (Yields.mapM fun index _ => read header index).bind fun raw sound => ?_
    refine Yields.ofExcept.bind fun _ _ => ?_
    intro s cells s' hs he
    obtain ⟨built, hs'⟩ := Yields.ofExcept hs he
    exact ⟨planned sound.right (hr ▸ built), hs'⟩
  rw [parseBocWith, bind_eq_ok] at h
  obtain ⟨⟨roots, r⟩, hcall, hroots⟩ := h
  have start : Over bytes ⟨bytes, 0⟩ := rfl
  exact pure_eq_ok.mp hroots ▸ (whole start (call_eq_ok.mp hcall)).left

theorem parseBocWith_wellFormed {options : ParseOptions} {cells : List Cell}
    (h : parseBocWith bytes options = .ok cells) : ∀ c ∈ cells, c.WellFormed :=
  parseBocWith_roots readCell_yields buildOne_wellFormed h

end Cells

variable [Sha256]

-- The root of a bag that has just one.
def soleRoot (bytes : Bytes) : Option Cell :=
  match parseBoc bytes with
  | .ok [root] => some root
  | _          => none

theorem soleRoot_eq_some {bytes : Bytes} {root : Cell} :
    soleRoot bytes = some root ↔ parseBoc bytes = .ok [root] := by
  unfold soleRoot
  split
  case h_1 h => simp [h]
  case h_2 h => exact ⟨nofun, fun hp => absurd hp (h root)⟩

theorem soleRoot_wellFormed {bytes : Bytes} {root : Cell} (h : soleRoot bytes = some root) :
    root.WellFormed :=
  parseBocWith_wellFormed (soleRoot_eq_some.mp h) root List.mem_cons_self

end TonNet
