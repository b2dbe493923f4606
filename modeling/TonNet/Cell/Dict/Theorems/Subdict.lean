import TonNet.Cell.Dict.Floor
import TonNet.Cell.Dict.Theorems.Aug
import TonNet.Cell.Dict.Theorems.Listing

-- The dictionary below the first bits of a key is the one built from the entries under them.

namespace TonNet

open Fallible Method Keyed

section Carve

variable {α : Type} {want want' bits : List Bool} {n : Nat} {items : List (Bytes × α)}

-- What is left of a key past the wanted bits.
def past (want bits : List Bool) : Option (List Bool) :=
  if want <+: bits then some (bits.drop want.length) else none

theorem past_eq_some {rest : List Bool} : past want bits = some rest ↔ bits = want ++ rest := by
  unfold past
  split
  case isTrue front =>
    obtain ⟨rest', rfl⟩ := front
    simp
  case isFalse other =>
    simp only [reduceCtorEq, false_iff]
    rintro rfl
    exact other ⟨rest, rfl⟩

theorem past_append : past (want ++ want') bits = (past want bits).bind (past want') := by
  ext rest
  simp [past_eq_some, Option.bind_eq_some_iff]

-- The items with the wanted bits in front of their keys, which are taken off.
def carve (want : List Bool) (n : Nat) (items : List (Bytes × α)) : List (Bytes × α) :=
  items.filterMap fun (key, value) => (past want (firstBits key n)).map fun rest => (pack rest, value)

theorem carve_map {β : Type} (f : α → β) :
    (carve want n items).map (fun (key, value) => (key, f value)) =
      carve want n (items.map fun (key, value) => (key, f value)) := by
  simp only [carve, List.map_filterMap, List.filterMap_map, Option.map_map]
  rfl

theorem past_length {key : Bytes} {rest : List Bool} (h : past want (firstBits key n) = some rest) :
    rest.length = n - want.length := by
  have := congrArg List.length (past_eq_some.mp h)
  rw [firstBits_length, List.length_append] at this
  omega

theorem firstBits_carve : (carve want n items).map (fun (key, value) => (firstBits key (n - want.length), value)) =
    (items.map fun (key, value) => (firstBits key n, value)).filterMap fun item =>
      (past want item.1).map fun key => (key, item.2) := by
  rw [carve, List.map_filterMap, List.filterMap_map]
  refine List.filterMap_congr fun item _ => ?_
  simp only [Option.map_map]
  refine Option.map_congr fun rest here => ?_
  simp only [Function.comp, ← past_length here, firstBits_pack]

theorem carve_carve : carve want' (n - want.length) (carve want n items) = carve (want ++ want') n items := by
  simp only [carve, List.filterMap_filterMap]
  refine List.filterMap_congr fun item _ => ?_
  rw [past_append]
  cases here : past want (firstBits item.1 n)
  case none => rfl
  case some rest =>
    simp only [Option.map_some, Option.bind_some]
    rw [← past_length here, firstBits_pack]

theorem carve_long {item : Bytes × α} (mem : item ∈ carve want n items) :
    (n - want.length + 7) / 8 ≤ item.1.length := by
  simp only [carve, List.mem_filterMap, Option.map_eq_some_iff] at mem
  obtain ⟨_, _, rest, here, rfl⟩ := mem
  rw [pack_length, past_length here]

end Carve

namespace Shape

variable {ε : Type} [Sha256] {shape : Shape ε} {code : ε → Option (List Bool)} {t : Radix (Entry ε)}
  {c : Cell} {want key rest : List Bool} {n passes matched : Nat}

-- There is room for what is left of a label where there was room for the whole.
theorem encode_relabel_ok (law : shape.Spelled code) (within : t.Within n) (bound : n ≤ maxBits)
    (h : shape.encode t n = .ok c) (label_eq : t.label = key ++ rest) :
    ∃ c', shape.encode (t.relabel rest) (n - key.length) = .ok c' := by
  have le := within.label_le
  have parts := congrArg List.length label_eq
  rw [List.length_append] at parts
  have ⟨tail, node⟩ := node_of_encode law.pens bound h
  have ⟨_, makes⟩ := (encode_relabel law.pens within bound bound h node rfl).mp (t.relabel_label ▸ h)
  have fits : (labelBits rest (n - key.length) ++ tail).length ≤ maxBits := by
    have shorter := labelBits_length_drop le (lt_of_le_maxBits bound) key.length
    obtain ⟨b, bits, _, _⟩ := makes
    have room := b.bits_le
    rw [← Builder.toBits_length, bits, List.length_append] at room
    rw [label_eq, List.drop_left, ← label_eq] at shorter
    rw [List.length_append]
    omega
  have ⟨c', made⟩ := makes.exists_makes fits
  exact ⟨c', (encode_relabel law.pens within bound (by omega) h node (by omega)).mpr ⟨by omega, made⟩⟩

theorem rerootFrom_inside (law : shape.Spelled code) (within : t.Within n) (bound : n ≤ maxBits)
    (h : shape.encode t n = .ok c) (ahead : want.drop matched = key) (label_eq : t.label = key ++ rest) :
    ∃ c', rerootFrom want (passes + 1) c n matched = .ok (some c') ∧
      shape.encode (t.relabel rest) (n - key.length) = .ok c' := by
  have le := within.label_le
  have ⟨tail, node⟩ := node_of_encode law.pens bound h
  rw [rerootFrom, failIf_bind_of_not (by simp [node.ordinary])]
  simp only [ahead]
  by_cases spent : key.isEmpty
  case pos =>
    rw [if_pos spent]
    obtain rfl := List.isEmpty_iff.mp spent
    rw [List.nil_append] at label_eq
    rw [← label_eq, t.relabel_label]
    exact ⟨c, rfl, h⟩
  case neg =>
    have ⟨s, read, ahead, refs⟩ := node.readLabel
    have ⟨c', encoded⟩ := encode_relabel_ok law within bound h label_eq
    have parts := congrArg List.length label_eq
    rw [List.length_append] at parts
    have ⟨short, makes⟩ := (encode_relabel law.pens within bound (by omega) h node (by omega)).mp encoded
    have writes := (storeLabel_writes short (lt_of_le_maxBits (by omega))).seq
      (ahead ▸ refs ▸ Builder.storeSlice_writes s)
    rw [if_neg spent, read, ok_bind]
    simp only [label_eq, append_diverges, Option.isSome_none, Bool.false_eq_true, if_false]
    rw [if_pos (by simp), List.drop_left]
    have ⟨fresh, stored, built⟩ := build_eq_ok.mp (writes.build.mpr makes)
    refine ⟨c', ?_, encoded⟩
    rw [call_eq_ok.mpr stored, ok_bind, built]
    rfl

theorem rerootFrom_goes (law : shape.Spelled code) {label : List Bool} {cells : Bool → Cell} {b : Bool}
    (f : Forked shape c label n cells) (ahead : want.drop matched = label ++ b :: rest) :
    rerootFrom want (passes + 1) c n matched =
      rerootFrom want passes (cells b) (n - (label.length + 1)) (matched + label.length + 1) := by
  have lt := f.lt
  have ⟨_, _, _, node⟩ := f.node law
  have ⟨s, read, _, _⟩ := node.readLabel
  rw [rerootFrom, failIf_bind_of_not (by simp [node.ordinary])]
  simp only [ahead]
  rw [if_neg (by simp), read, ok_bind]
  simp only [diverges_append, Option.isSome_none, Bool.false_eq_true, if_false]
  rw [if_neg (by simp), if_neg (by omega), getD_of_drop ahead, f.reference law]
  rfl

-- The walk ends at the tree of what is under the wanted bits.
theorem rerootFrom_holds (law : shape.Spelled code) (fits : t.Fits n) (bound : n ≤ maxBits)
    (h : shape.encode t n = .ok c) (ahead : want.drop matched = key) (le : key.length ≤ n)
    (enough : key.length < passes) :
    ∃ r, rerootFrom want passes c n matched = .ok r ∧
      shape.Holds r (n - key.length) fun k => t.find (key ++ k) := by
  have inside (t : Radix (Entry ε)) (key rest : List Bool) (label_eq : t.label = key ++ rest)
      (n : Nat) (c : Cell) (matched passes : Nat) (fits : t.Fits n) (bound : n ≤ maxBits)
      (h : shape.encode t n = .ok c) (ahead : want.drop matched = key) (enough : key.length < passes) :
      ∃ r, rerootFrom want passes c n matched = .ok r ∧
        shape.Holds r (n - key.length) fun k => t.find (key ++ k) := by
    obtain ⟨passes, rfl⟩ := Nat.exists_eq_add_one_of_ne_zero (Nat.ne_zero_of_lt enough)
    have ⟨c', run, encoded⟩ : ∃ c', rerootFrom want (passes + 1) c n matched = .ok (some c') ∧ _ :=
      rerootFrom_inside law fits.within bound h ahead label_eq
    have same (k : List Bool) : (t.relabel rest).find k = t.find (key ++ k) :=
      (Radix.find_append label_eq k).symm
    refine ⟨some c', run, t.relabel rest, Radix.fits_iff.mpr fun k v found => ?_, same, encoded⟩
    have := Radix.fits_iff.mp fits (key ++ k) v (same k ▸ found)
    rw [List.length_append] at this
    omega
  refine Radix.descent (motive := fun t key => ∀ n c matched passes, t.Fits n → n ≤ maxBits →
    shape.encode t n = .ok c → want.drop matched = key → key.length ≤ n → key.length < passes →
    ∃ r, rerootFrom want passes c n matched = .ok r ∧
      shape.Holds r (n - key.length) fun k => t.find (key ++ k))
    ?leaves ?inside ?ends ?past ?halts ?goes n c matched passes fits bound h ahead le enough
  case leaves =>
    intro t shared b labelRest keyRest label_eq n c matched passes fits bound h ahead le enough
    obtain ⟨passes, rfl⟩ := Nat.exists_eq_add_one_of_ne_zero (Nat.ne_zero_of_lt enough)
    have ⟨tail, node⟩ := node_of_encode law.pens bound h
    have ⟨s, read, _, _⟩ := node.readLabel
    refine ⟨none, ?_, fun k => ?_⟩
    · rw [rerootFrom, failIf_bind_of_not (by simp [node.ordinary])]
      simp only [ahead]
      rw [if_neg (by simp), read, ok_bind]
      simp only [label_eq, diverges_parts, Option.isSome_some, if_true]
      rfl
    · simp only [List.append_assoc, List.cons_append, Radix.find_eq_none_of_leaves label_eq]
  case inside =>
    intro t key b rest label_eq n c matched passes fits bound h ahead _ enough
    exact inside t key _ label_eq n c matched passes fits bound h ahead enough
  case ends =>
    intro key value n c matched passes fits bound h ahead _ enough
    exact inside (.leaf key value) key [] (List.append_nil key).symm n c matched passes fits bound h ahead enough
  case past =>
    intro label value b rest n c matched passes fits bound h ahead le enough
    obtain rfl : label.length = n := fits
    simp at le
  case halts =>
    intro label child n c matched passes fits bound h ahead _ enough
    exact inside (.fork label child) label [] (List.append_nil label).symm n c matched passes fits bound h ahead enough
  case goes =>
    intro label child b rest hi n c matched passes fits bound h ahead le enough
    obtain ⟨passes, rfl⟩ := Nat.exists_eq_add_one_of_ne_zero (Nat.ne_zero_of_lt enough)
    have ⟨cells, each, f⟩ := forked_of_encode fits.within bound h
    simp only [List.length_append, List.length_cons] at le enough
    have ⟨r, run, held⟩ := hi _ (cells b) (matched + label.length + 1) passes (fits.right b) (by omega)
      (each b) (by rw [Nat.add_assoc, drop_of_drop ahead]) (by omega) (by omega)
    refine ⟨r, ?_, ?_⟩
    · rw [rerootFrom_goes law f ahead, ← run, Nat.sub_sub]
    · have width : n - (label ++ b :: rest).length = n - label.length - 1 - rest.length := by
        simp only [List.length_append, List.length_cons]
        omega
      rw [width]
      simpa using held

variable {m : List Bool → Option (Entry ε)} {root : Option Cell}

theorem Holds.reroot (law : shape.Spelled code) (held : shape.Holds (some c) n m) (bound : n ≤ maxBits)
    (le : want.length ≤ n) :
    ∃ r, reroot want c n = .ok r ∧ shape.Holds r (n - want.length) fun k => m (want ++ k) := by
  have ⟨t, fits, found, encoded⟩ := held
  have ahead : want.drop 0 = want := rfl
  have ⟨r, run, held⟩ := rerootFrom_holds law fits bound encoded ahead le (Nat.lt_succ_self _)
  simp only [found] at held
  exact ⟨r, run, held⟩

def rerooted (want : List Bool) (root : Option Cell) (n : Nat) : Except CellError (Option Cell) :=
  match root with
  | some c => reroot want c n
  | none   => pure none

theorem rerooted_of_items (law : shape.Spelled code) {items : List (Bytes × Entry ε)}
    (built : shape.buildAll n items = .ok root) (want : List Bool) (le : want.length ≤ n) :
    ∃ r, rerooted want root n = .ok r ∧
      shape.buildAll (n - want.length) (carve want n items) = .ok r ∧
      shape.validateTree r (n - want.length) = .ok () := by
  have ⟨bound, _, held⟩ := buildAll_eq_ok.mp built
  have ⟨r, run, held⟩ : ∃ r, rerooted want root n = .ok r ∧
      shape.Holds r (n - want.length) fun k => given items n (want ++ k) := by
    cases root
    case none => exact ⟨none, rfl, fun k => held (want ++ k)⟩
    case some c => exact held.reroot law bound le
  have same : given (carve want n items) (n - want.length) = fun k => given items n (want ++ k) := by
    funext k
    rw [given, firstBits_carve, last_filterMap fun _ _ => past_eq_some, given]
  refine ⟨r, run, buildAll_eq_ok.mpr ⟨by omega, fun item => carve_long, ?_⟩, held.validates law (by omega)⟩
  rw [same]
  exact held

end Shape

section Built

variable [Sha256]

-- A form of dictionary: how one is opened on a root, and that one is carved from it by its root.
structure Carving {ε : Type} (shape : Shape ε) (δ : Type) where
  fromRoot : Option Cell → Nat → Except CellError δ
  subdict  : δ → Bytes → Nat → Except CellError δ
  opens    : ∀ {n : Nat} (root : Option Cell), n ≤ maxBits → ∃ dict, fromRoot root n = .ok dict
  carves   : ∀ {root : Option Cell} {n : Nat} {dict : δ} {front : Bytes} {frontBits : Nat} {want : List Bool},
    fromRoot root n = .ok dict → frontBits ≤ n → keyOf front frontBits = .ok want →
      subdict dict front frontBits = Shape.rerooted want root n >>= fun r => fromRoot r (n - frontBits)

namespace Carving

variable {ε δ : Type} {shape : Shape ε} {code : ε → Option (List Bool)} (form : Carving shape δ)
  {items : List (Bytes × Shape.Entry ε)} {n frontBits : Nat} {dict sub : δ} {front : Bytes} {want : List Bool}

def fromItems (form : Carving shape δ) (n : Nat) (items : List (Bytes × Shape.Entry ε)) : Except CellError δ :=
  shape.buildAll n items >>= fun root => form.fromRoot root n

theorem of_items (law : shape.Spelled code) (built : form.fromItems n items = .ok dict) (le : frontBits ≤ n)
    (read : keyOf front frontBits = .ok want) : ∃ root sub, form.subdict dict front frontBits = .ok sub ∧
      form.fromItems (n - frontBits) (carve want n items) = .ok sub ∧
      form.fromRoot root (n - frontBits) = .ok sub ∧ shape.validateTree root (n - frontBits) = .ok () := by
  obtain ⟨_, rfl⟩ := keyOf_eq_ok.mp read
  obtain ⟨root, all, opened⟩ := bind_eq_ok.mp built
  obtain ⟨bound, _⟩ := Shape.buildAll_eq_ok.mp all
  obtain ⟨r, run, carved, valid⟩ := Shape.rerooted_of_items law all
    (firstBits front frontBits) (by simpa using le)
  rw [firstBits_length] at carved valid
  obtain ⟨sub, opens⟩ := form.opens r (le_trans (Nat.sub_le n frontBits) bound)
  refine ⟨r, sub, ?_, bind_eq_ok.mpr ⟨r, carved, opens⟩, opens, valid⟩
  rw [form.carves opened le read]
  exact bind_eq_ok.mpr ⟨r, run, opens⟩

theorem twice (law : shape.Spelled code) (built : form.fromItems n items = .ok dict) (le : frontBits ≤ n)
    (read : keyOf front frontBits = .ok want) (carved : form.subdict dict front frontBits = .ok sub)
    {front' both : Bytes} {frontBits' : Nat} {want' : List Bool} (le' : frontBits' ≤ n - frontBits)
    (read' : keyOf front' frontBits' = .ok want')
    (read_both : keyOf both (frontBits + frontBits') = .ok (want ++ want')) :
    form.subdict sub front' frontBits' = form.subdict dict both (frontBits + frontBits') := by
  obtain ⟨_, _, carved', built', _⟩ := form.of_items law built le read
  obtain rfl := Except.ok.inj (carved.symm.trans carved')
  obtain ⟨_, deeper, again, built_twice, _⟩ := form.of_items law built' le' read'
  obtain ⟨_, _, once, built_once, _⟩ := form.of_items law built (by omega) read_both
  have width : want.length = frontBits := by rw [← (keyOf_eq_ok.mp read).right, firstBits_length]
  rw [← width, carve_carve, width, Nat.sub_sub] at built_twice
  rw [again, once, ← built_twice, built_once]

end Carving

def Dict.carving : Carving Shape.plain Dict where
  fromRoot         := Dict.fromRoot
  subdict          := Dict.subdict
  opens root bound := ⟨_, Dict.fromRoot_eq_ok.mpr ⟨bound, rfl⟩⟩
  carves           := by
    intro root n dict front frontBits want opened le read
    obtain ⟨_, rfl⟩ := Dict.fromRoot_eq_ok.mp opened
    rw [Dict.subdict, failIf_bind_of_not (not_lt.mpr le), read, ok_bind]
    cases root
    case none => rfl
    case some c =>
      refine congrArg (reroot _ c _ >>= ·) (funext fun r => ?_)
      cases r <;> rfl

def AugDict.carving {ε : Type} (aug : Augmentation ε) : Carving aug.shape (AugDict ε) where
  fromRoot         := AugDict.fromRoot aug
  subdict          := AugDict.subdict
  opens root bound := ⟨_, AugDict.fromRoot_eq_ok.mpr ⟨bound, rfl⟩⟩
  carves           := by
    intro root n dict front frontBits want opened le read
    obtain ⟨_, rfl⟩ := AugDict.fromRoot_eq_ok.mp opened
    rw [AugDict.subdict, failIf_bind_of_not (not_lt.mpr le), read, ok_bind]
    cases root <;> rfl

-- The dictionary below a run of bits is the one built from what is under them, and carving twice is
-- carving once by both runs.
theorem subdict_carves :
    (∀ keyBits items dict, Dict.fromItems keyBits items = .ok dict →
      ∀ front frontBits want, frontBits ≤ keyBits → keyOf front frontBits = .ok want →
      ∃ sub, dict.subdict front frontBits = .ok sub ∧
        Dict.fromItems (keyBits - frontBits) (carve want keyBits items) = .ok sub ∧
        ∀ front' frontBits' want' both, frontBits' ≤ keyBits - frontBits →
          keyOf front' frontBits' = .ok want' → keyOf both (frontBits + frontBits') = .ok (want ++ want') →
          sub.subdict front' frontBits' = dict.subdict both (frontBits + frontBits')) ∧
    ∀ (ε : Type) (aug : Augmentation ε) (code : ε → Option (List Bool)), aug.shape.Spelled code →
      ∀ keyBits items dict, AugDict.fromItems aug keyBits items = .ok dict →
      ∀ front frontBits want, frontBits ≤ keyBits → keyOf front frontBits = .ok want →
      ∃ sub, dict.subdict front frontBits = .ok sub ∧
        AugDict.fromItems aug (keyBits - frontBits) (carve want keyBits items) = .ok sub ∧
        sub.validate = .ok () ∧
        ∀ front' frontBits' want' both, frontBits' ≤ keyBits - frontBits →
          keyOf front' frontBits' = .ok want' → keyOf both (frontBits + frontBits') = .ok (want ++ want') →
          sub.subdict front' frontBits' = dict.subdict both (frontBits + frontBits') := by
  constructor
  · intro keyBits items dict built front frontBits want le read
    have law := Shape.plain_lawful.toSpelled
    obtain ⟨_, sub, carved, made, _⟩ := Dict.carving.of_items law built le read
    refine ⟨sub, carved, ?_, fun _ _ _ _ => Dict.carving.twice law built le read carved⟩
    rw [Dict.fromItems, carve_map]
    exact made
  · intro ε aug code law keyBits items dict built front frontBits want le read
    obtain ⟨_, sub, carved, made, opens, valid⟩ := (AugDict.carving aug).of_items law built le read
    obtain ⟨_, rfl⟩ := AugDict.fromRoot_eq_ok.mp opens
    refine ⟨_, carved, ?_, valid, fun _ _ _ _ => (AugDict.carving aug).twice law built le read carved⟩
    refine Eq.trans (congrArg (aug.shape.buildAll (keyBits - frontBits) · >>= _) ?_) made
    exact carve_map fun (entry : ε × Builder) => Shape.Entry.mk entry.1 entry.2

end Built

section Carved

attribute [local instance] Sha256.standard

-- Keys of eight bits, of which two start with the same four.
def carvedRun : Option (Bool × Bool) := do
  let (_, value) ← ((Builder.storeUint 0xaa 8).call .new).toOption
  let plain ← (Dict.fromItems 8 [([0x10], value), ([0x12], value), ([0x80], value)]).toOption
  let aug ← (AugDict.fromItems countSum 8
    [([0x10], 1, value), ([0x12], 2, value), ([0x80], 3, value)]).toOption
  return (plain.root.isSome, aug.root.isSome)

theorem subdict_carves_nibble : ∃ value plain sub aug augSub,
    Dict.fromItems 8 [([0x10], value), ([0x12], value), ([0x80], value)] = .ok plain ∧
    plain.subdict [0x10] 4 = .ok sub ∧
    Dict.fromItems 4 [([0x00], value), ([0x20], value)] = .ok sub ∧
    AugDict.fromItems countSum 8 [([0x10], 1, value), ([0x12], 2, value), ([0x80], 3, value)] = .ok aug ∧
    aug.subdict [0x10] 4 = .ok augSub ∧
    AugDict.fromItems countSum 4 [([0x00], 1, value), ([0x20], 2, value)] = .ok augSub ∧
    augSub.validate = .ok () ∧ augSub.subdict [0x20] 3 = aug.subdict [0x12] 7 := by
  have run : carvedRun = some (true, true) := by decide +kernel
  simp only [carvedRun, Option.bind_eq_bind, Option.bind_eq_some_iff, toOption_eq_some,
    Option.pure_def, Option.some_inj, Prod.mk.injEq, Prod.exists] at run
  obtain ⟨_, value, _, plain, built, aug, built', _⟩ := run
  have ⟨sub, carved, made, _⟩ := subdict_carves.left 8 _ plain built [0x10] 4 _ (by decide) rfl
  have ⟨augSub, carved', made', valid, twice⟩ := subdict_carves.right UInt32 countSum _
    countSum_codec.lawful.toSpelled 8 _ aug built' [0x10] 4 _ (by decide) rfl
  exact ⟨value, plain, sub, aug, augSub, built, carved, made, built', carved', made', valid,
    twice [0x20] 3 _ [0x12] (by decide) rfl rfl⟩

end Carved

end TonNet
