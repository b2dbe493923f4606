import TonNet.Lib.Assoc
import TonNet.Cell.Dict.Theorems.Aug
import TonNet.Cell.Dict.Theorems.Shortest

-- The summary at the root of an augmented dictionary is the one of all of its entries.

namespace TonNet

open Fallible Method Keyed

variable {ε : Type} {aug : Augmentation ε} {code : ε → Option (List Bool)} {c : Cell} {n : Nat}

theorem skipLabel_of_readLabel {label : Label} {s s' : Slice}
    (read : (readLabel n).call s = .ok (label, s')) : (skipLabel n).Ends s () s' := by
  have read : (LabelSink.label.readLabelInto n).Ends s label s' := call_eq_ok.mp read
  have ⟨run, t, header, _, spells⟩ := readLabelInto_ends.mp read
  exact skipLabel_ends.mpr ⟨run, t, header, label, spells⟩

theorem Shape.Opens.extraOf {label : Label} {s : Slice} (opens : Opens c n label s) (read : Load ε) :
    extraOf read c n = read.value s := by
  rw [TonNet.extraOf, failIf_bind_of_not (by simp [opens.ordinary])]
  exact value_bind_of_ends (skipLabel_of_readLabel opens.read)

namespace Augmentation

-- What the walk down from a cell shows, where each fork carries what its two sides combine to.
inductive Sums (aug : Augmentation ε) : Cell → Nat → Radix (ε × DictEntry) → ε → Prop
  | leaf {c : Cell} {n : Nat} {label : Label} {s s' : Slice} {extra : ε}
    (opens : Shape.Opens c n label s) (spent : label.length = n)
    (carried : aug.read.call s = .ok (extra, s')) :
    Sums aug c n (.leaf label (extra, ⟨c, c.bits - s'.remainingBits⟩)) extra
  | fork {c : Cell} {n : Nat} {label : Label} {s s' : Slice} {extra : ε} {cells : Bool → Cell}
    {child : Bool → Radix (ε × DictEntry)} {extras : Bool → ε} (opens : Shape.Opens c n label s)
    (more : label.length < n) (branch : ∀ b, c.reference b.toNat = some (cells b))
    (below : ∀ b, Sums aug (cells b) (n - label.length - 1) (child b) (extras b))
    (combined : aug.combine (extras false) (extras true) = .ok extra)
    (carried : aug.read.call s = .ok (extra, s')) :
    Sums aug c n (.fork label child) extra

variable {t : Radix (ε × DictEntry)} {e : ε}

theorem Sums.extraOf (h : aug.Sums c n t e) : extraOf aug.read c n = .ok e := by
  obtain ⟨opens, _, carried⟩ | ⟨opens, _, _, _, _, carried⟩ := h
  · rw [opens.extraOf, value_of_ends (call_eq_ok.mp carried)]
  · rw [opens.extraOf, value_of_ends (call_eq_ok.mp carried)]

theorem Sums.shows (h : aug.Sums c n t e) : aug.shape.Shows c n t := by
  induction h
  case leaf opens spent carried => exact .leaf opens spent carried
  case fork opens more branch _ _ _ hi => exact .fork opens more branch hi

theorem Sums.combineAll {leaves : ε → Prop} (assoc : Associates aug.combine (Combined aug.combine leaves))
    (h : aug.Sums c n t e) (all : ∀ a ∈ t.entries.map fun entry => entry.2.1, leaves a) :
    combineAll aug.combine (t.entries.map fun entry => entry.2.1) = .ok (some e) := by
  induction h
  case leaf => rfl
  case fork combined _ hi =>
    rw [Radix.values_fork Prod.fst] at all ⊢
    have ⟨left, right⟩ := List.forall_mem_append.mp all
    exact assoc.combineAll_append left right (hi false left) (hi true right) combined

variable [Sha256]

theorem Codec.sums_of_encode (codec : aug.Codec code) {t' : Radix (Shape.Entry ε)} (fits : t'.Fits n)
    (bound : n ≤ maxBits) (h : aug.shape.encode t' n = .ok c) (shown : aug.shape.Shows c n t) :
    ∃ e, aug.Sums c n t e := by
  have spelled := codec.lawful.toSpelled
  induction shown generalizing t'
  case leaf extra opens spent carried => exact ⟨extra, .leaf opens spent carried⟩
  case fork c n label s cells child opens more branch below hi =>
    obtain ⟨rest, node⟩ := Shape.node_of_encode spelled.pens bound h
    obtain ⟨s', read, ahead, refs⟩ := node.readLabel
    obtain ⟨rfl, rfl⟩ := Prod.mk.inj (Except.ok.inj (opens.read.symm.trans read))
    cases t'
    case leaf label' entry => exact absurd fits (ne_of_lt more)
    case fork label' child' =>
      obtain ⟨cells', each, f⟩ := Shape.forked_of_encode fits.within bound h
      obtain rfl : cells = cells' := funext fun b =>
        Option.some_inj.mp ((branch b).symm.trans (f.reference spelled b))
      choose extras sums using fun b => hi b (fits.right b) (by omega) (each b)
      obtain ⟨_, e, bits, extra, coded, makes⟩ := (Shape.fork_eq_ok spelled bound).mp f.built
      obtain rfl : bits = rest :=
        List.append_cancel_left (makes.cell.right.left.symm.trans node.bits)
      have read (b : Bool) : extraOf aug.read (cells b) (n - label'.length - 1) = .ok (extras b) :=
        (sums b).extraOf
      have combined : aug.combine (extras false) (extras true) = .ok e := by
        rw [← extra]
        simp only [shape, read, ok_bind]
      obtain ⟨after, carried, _⟩ := codec.reads coded s [] s.refsAhead (by simpa using ahead) rfl
      exact ⟨e, .fork opens more branch sums combined (call_eq_ok.mpr carried)⟩

end Augmentation

namespace AugDict

variable [Sha256] {keyBits : Nat} {dict dict' : AugDict ε} {m : List Bool → Option (Shape.Entry ε)}

-- The entries that the iterator yields, in ascending order of their keys.
structure Spells (dict : AugDict ε) (entries : List (Bytes × ε × Builder)) : Prop where
  ascends : (entries.map fun entry => firstBits entry.1 dict.keyBits).Pairwise (· < ·)
  long    : ∀ entry ∈ entries, (dict.keyBits + 7) / 8 ≤ entry.1.length
  yields  : ∃ shown, dict.items = shown.map .ok ∧ List.Forall₂ (fun entry item => item.1 = entry.1 ∧
    item.2.extra = entry.2.1 ∧ item.2.entry.value = .ok entry.2.2) entries shown

-- The entries of a map, as items of a dictionary.
def listed (entries : List (List Bool × Shape.Entry ε)) : List (Bytes × ε × Builder) :=
  entries.map fun (key, entry) => (pack key, entry.extra, entry.value)

omit [Sha256] in
theorem firstBits_listed {entries : List (List Bool × Shape.Entry ε)}
    (width : ∀ entry ∈ entries, entry.1.length = keyBits) :
    ((listed entries).map fun (key, extra, value) => (firstBits key keyBits, Shape.Entry.mk extra value)) =
      entries := by
  rw [listed, List.map_map]
  refine (List.map_congr_left fun entry mem => ?_).trans entries.map_id
  simp only [Function.comp, ← width entry mem, firstBits_pack]
  rfl

theorem Holds.given_listed (h : dict.Holds m) {entries : List (List Bool × Shape.Entry ε)}
    (ascends : (entries.map Prod.fst).Pairwise (· < ·))
    (mem : ∀ key entry, (key, entry) ∈ entries ↔ m key = some entry) :
    given (listed entries) dict.keyBits = m := by
  have width (entry : List Bool × Shape.Entry ε) (here : entry ∈ entries) :
      entry.1.length = dict.keyBits := h.width ((mem _ _).mp here)
  funext key
  rw [given, firstBits_listed width]
  ext entry
  rw [last_eq_some (ascends.imp fun lt => lt.ne), mem]

theorem Holds.rootExtra (codec : dict.aug.Codec code) (h : dict.Holds m)
    {entries : List (List Bool × Shape.Entry ε)} (ascends : (entries.map Prod.fst).Pairwise (· < ·))
    (mem : ∀ key entry, (key, entry) ∈ entries ↔ m key = some entry) {leaves : ε → Prop}
    (assoc : Associates dict.aug.combine (Combined dict.aug.combine leaves))
    (all : ∀ entry ∈ entries, leaves entry.2.extra) :
    dict.rootExtra = combineAll dict.aug.combine (entries.map fun entry => entry.2.extra) := by
  obtain ⟨aug, _ | c, n, bound⟩ := dict
  case none =>
    have h : ∀ key, m key = none := h
    have empty : entries = [] := List.eq_nil_iff_forall_not_mem.mpr fun entry here => by
      simpa [h] using (mem entry.1 entry.2).mp here
    rw [empty]
    rfl
  case some =>
    obtain ⟨t, fits, found, built⟩ := h
    obtain rfl : t.entries = entries := eq_of_ascending t.entries_sorted ascends fun (key, entry) => by
      rw [Radix.mem_entries, found, mem]
    have ⟨t', shown, stored⟩ := Shape.encode_shows codec.lawful fits bound built
    have ⟨e, sums⟩ := codec.sums_of_encode fits bound built shown
    have same : (t.entries.map fun entry => entry.2.extra) = t'.entries.map fun entry => entry.2.1 := by
      rw [← List.forall₂_eq_eq_eq, List.forall₂_map_left_iff, List.forall₂_map_right_iff]
      exact stored.entries.imp fun _ _ h => h.right.extra.symm
    have all : ∀ a ∈ t'.entries.map fun entry => entry.2.1, leaves a := by
      rw [← same]
      exact List.forall_mem_map.mpr all
    have total : (do let extra ← extraOf aug.read c n; return some extra) = .ok (some e) := by
      rw [show extraOf aug.read c n = .ok e from sums.extraOf]
      rfl
    rw [same, sums.combineAll assoc all]
    exact total

theorem Holds.spells (codec : dict.aug.Codec code) (h : dict.Holds m) : ∃ entries,
    dict.Spells entries ∧ given entries dict.keyBits = m ∧
    fromItems dict.aug dict.keyBits entries = .ok dict ∧
    (Associates dict.aug.combine (Combined dict.aug.combine (· ∈ entries.map fun entry => entry.2.1)) →
      dict.rootExtra = combineAll dict.aug.combine (entries.map fun entry => entry.2.1)) := by
  have ⟨entries, shown, ascends, mem, items, stored⟩ := Shape.Holds.items codec.lawful dict.keyBits_le h
  have given := h.given_listed ascends mem
  have width (entry : List Bool × Shape.Entry ε) (here : entry ∈ entries) :
      entry.1.length = dict.keyBits := h.width ((mem _ _).mp here)
  have long : ∀ entry ∈ listed entries, (dict.keyBits + 7) / 8 ≤ entry.1.length := by
    rw [listed, List.forall_mem_map]
    intro entry here
    rw [pack_length, width entry here]
  have extras : (entries.map fun entry => entry.2.extra) = (listed entries).map fun entry => entry.2.1 := by
    rw [listed, List.map_map]
    rfl
  refine ⟨listed entries, ⟨?_, long, ?_⟩, given, fromItems_eq_ok.mpr ⟨long, rfl, rfl, given.symm ▸ h⟩, ?_⟩
  · have keys := congrArg (List.map Prod.fst) (firstBits_listed width)
    rw [List.map_map] at keys
    rw [← keys] at ascends
    exact ascends
  · refine ⟨shown.map fun (key, extra, entry) => (key, ⟨extra, entry⟩), ?_, ?_⟩
    · rw [AugDict.items, iter, items, List.map_map, List.map_map]
      rfl
    · rw [listed, List.forall₂_map_left_iff, List.forall₂_map_right_iff]
      exact stored.imp fun _ _ h => ⟨h.left, h.right.extra, h.right.value⟩
  · intro assoc
    rw [← extras] at assoc ⊢
    exact h.rootExtra codec ascends mem assoc fun entry here => List.mem_map.mpr ⟨entry, here, rfl⟩

-- A dictionary that some operations have led to, each of which came to an end.
inductive Reaches (aug : Augmentation ε) (keyBits : Nat) : AugDict ε → Prop
  | new {dict : AugDict ε} (made : AugDict.new aug keyBits = .ok dict) : Reaches aug keyBits dict
  | fromItems {dict : AugDict ε} (items : List (Bytes × ε × Builder))
    (built : AugDict.fromItems aug keyBits items = .ok dict) : Reaches aug keyBits dict
  | set {dict dict' : AugDict ε} (h : Reaches aug keyBits dict) (key : Bytes) (extra : ε) (value : Builder)
    (ends : (AugDict.set key extra value).Ends dict () dict') : Reaches aug keyBits dict'
  | remove {dict dict' : AugDict ε} (h : Reaches aug keyBits dict) (key : Bytes) (found : Bool)
    (ends : (AugDict.remove key).Ends dict found dict') : Reaches aug keyBits dict'
  | retain {dict dict' : AugDict ε} {σ : Type} (h : Reaches aug keyBits dict)
    (keep : Bytes → AugEntry ε → StateM σ Bool) (captured : σ)
    (ends : (AugDict.retain keep captured).Ends dict () dict') : Reaches aug keyBits dict'
  | combineWith {dict dict' : AugDict ε} (h : Reaches aug keyBits dict) (other : AugDict ε)
    (ends : (AugDict.combineWith other).Ends dict () dict') : Reaches aug keyBits dict'

-- What every operation keeps.
def Sound (aug : Augmentation ε) (keyBits : Nat) (dict : AugDict ε) : Prop :=
  ∃ m, Of aug keyBits m dict

theorem Change.sound (codec : aug.Codec code) (change : Change ε) :
    Yields (Sound aug keyBits) (fun _ => True) change.run := by
  intro dict _ dict' ⟨m, of⟩ ends
  exact ⟨trivial, _, ((ends_run codec of).mp ends).right⟩

theorem retain_sound (codec : aug.Codec code) {σ : Type} (keep : Bytes → AugEntry ε → StateM σ Bool)
    (captured : σ) : Yields (Sound aug keyBits) (fun _ => True) (retain keep captured) := by
  refine .bind .get fun dict _ => .bind .ofExcept fun (toRemove, _) _ => .forM fun key _ => ?_
  exact (Change.remove key).sound codec

theorem combineWith_sound (codec : aug.Codec code) (other : AugDict ε) :
    Yields (Sound aug keyBits) (fun _ => True) (combineWith other) := by
  refine .bind .get fun dict sound => .bind .failIf fun _ _ => .bind .ofExcept fun additions _ =>
    .bind .ofExcept fun (_, merged) made => ?_
  have ⟨_, sound'⟩ := Yields.forM (fun (key, extra, value) _ => (Change.set key extra value).sound codec) sound
    (call_eq_ok.mp made)
  rintro _ _ _ _ ends
  exact ⟨trivial, ends_set.mp ends ▸ sound'⟩

theorem Reaches.sound (codec : aug.Codec code) (h : Reaches aug keyBits dict) : Sound aug keyBits dict := by
  induction h
  case new made =>
    obtain ⟨_, rfl⟩ := fromRoot_eq_ok.mp made
    exact ⟨fun _ => none, rfl, rfl, fun _ => rfl⟩
  case fromItems items built => exact ⟨_, (fromItems_eq_ok.mp built).right⟩
  case set key extra value ends hi => exact ((Change.set key extra value).sound codec hi ends).right
  case remove key found ends hi =>
    exact ((Change.remove key).sound codec hi (ends_bind.mpr ⟨found, _, ends, rfl⟩)).right
  case retain keep captured ends hi => exact (retain_sound codec keep captured hi ends).right
  case combineWith other ends hi => exact (combineWith_sound codec other hi ends).right

-- Whatever the operations were, the dictionary is the one that its entries are built to.
theorem reaches_canonical (codec : aug.Codec code) (h : Reaches aug keyBits dict) :
    dict.validate = .ok () ∧ ∃ entries, dict.Spells entries ∧ fromItems aug keyBits entries = .ok dict ∧
      (Associates aug.combine (Combined aug.combine (· ∈ entries.map fun entry => entry.2.1)) →
        dict.rootExtra = combineAll aug.combine (entries.map fun entry => entry.2.1)) := by
  obtain ⟨m, rfl, rfl, held⟩ := h.sound codec
  have ⟨entries, spells, _, built, total⟩ := held.spells codec
  exact ⟨held.validates codec.lawful.toSpelled dict.keyBits_le, entries, spells, built, total⟩

end AugDict

theorem countSum_associates (S : UInt32 → Prop) : Associates countSum.combine S := by
  intro a b c d _ _ _
  simp [countSum, pure_eq_ok, UInt32.add_assoc]

section Counted

attribute [local instance] Sha256.standard

-- Three keys of four bits, one of them set later and one removed.
def countedRun : Option (Option UInt32) := do
  let (_, value) ← ((Builder.storeUint 0xaa 8).call .new).toOption
  let two ← (AugDict.fromItems countSum 4 [([0x10], 1, value), ([0x80], 2, value)]).toOption
  let (_, three) ← ((AugDict.set [0x90] 3 value).call two).toOption
  let (_, left) ← ((AugDict.remove [0x10]).call three).toOption
  left.rootExtra.toOption

theorem AugDict.reaches_canonical_counted : ∃ dict entries, AugDict.Reaches countSum 4 dict ∧
    AugDict.Spells dict entries ∧ dict.rootExtra = .ok (some 5) ∧
    combineAll countSum.combine (entries.map fun entry => entry.2.1) = .ok (some 5) := by
  have run : countedRun = some (some 5) := by decide +kernel
  simp only [countedRun, Option.bind_eq_bind, Option.bind_eq_some_iff, toOption_eq_some, Prod.exists] at run
  obtain ⟨_, value, _, two, built, _, three, inserted, found, left, removed, extra⟩ := run
  have reached : AugDict.Reaches countSum 4 left :=
    .remove (.set (.fromItems _ built) [0x90] 3 value (call_eq_ok.mp inserted)) [0x10] found
      (call_eq_ok.mp removed)
  have ⟨_, entries, spells, _, total⟩ := AugDict.reaches_canonical countSum_codec reached
  exact ⟨left, entries, reached, spells, extra, (total (countSum_associates _)).symm.trans extra⟩

end Counted

end TonNet
