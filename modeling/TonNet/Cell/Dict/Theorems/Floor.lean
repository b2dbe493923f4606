import TonNet.Cell.Dict.Floor
import TonNet.Cell.Dict.Theorems.Listing

-- What is found at the nearest key: keys are compared as bytes, and a lookup reads only the first bits
-- of them.

namespace TonNet

open Fallible Method Keyed

section Order

variable {bits : List Bool} {key : Bytes}

theorem pack_toBits (bits : List Bool) : (pack bits).toBits =
    bits ++ List.replicate (8 * ((bits.length + 7) / 8) - bits.length) false := by
  have read : ∀ i, (pack bits).bitAt i = _ := (pack_bits bits.length le_rfl).right
  refine List.ext_getElem (by simp; omega) fun i hi _ => ?_
  simp only [Bytes.toBits, List.getElem_map, List.getElem_range, read, List.getElem_append,
    List.getElem_replicate]
  split
  case isTrue lt => simp [lt]
  case isFalse ge => simp [ge]

theorem firstBits_append (key : Bytes) {n : Nat} (long : (n + 7) / 8 ≤ key.length) :
    ∃ rest, key.toBits = firstBits key n ++ rest ∧ 8 * ((n + 7) / 8) - n ≤ rest.length := by
  refine ⟨key.toBits.drop n, ?_, by simp; omega⟩
  have taken : key.toBits.take n = firstBits key n := by
    rw [Bytes.toBits, ← List.map_take, List.take_range, Nat.min_eq_left (by omega), firstBits]
  rw [← taken, List.take_append_drop]

-- Nothing that is as long comes before a run of cleared bits.
theorem not_lt_replicate_false {rest : List Bool} {n : Nat} (long : n ≤ rest.length) :
    ¬rest < List.replicate n false := by
  induction n generalizing rest
  case zero => simp
  case succ n hi =>
    cases rest
    case nil => simp at long
    case cons bit rest =>
      rw [List.replicate_succ, List.cons_lt_cons_iff, not_or]
      exact ⟨by simp, fun h => hi (by simpa using long) h.right⟩

theorem pack_le_iff (long : (bits.length + 7) / 8 ≤ key.length) :
    pack bits ≤ key ↔ bits ≤ firstBits key bits.length := by
  have ⟨rest, split, spare⟩ := firstBits_append key long
  rw [← List.not_lt, Bytes.lt_iff_toBits_lt, pack_toBits, split,
    List.append_lt_append_iff (by simp), ← not_lt, not_iff_not]
  exact or_iff_left fun h => not_lt_replicate_false spare h.right

theorem le_pack_iff (long : (bits.length + 7) / 8 ≤ key.length) :
    key ≤ pack bits ↔ firstBits key bits.length < bits ∨ key = pack bits := by
  have same : key.toBits = (pack bits).toBits ↔ key = pack bits := ⟨Bytes.toBits_inj, fun h => h ▸ rfl⟩
  rw [← List.not_lt, Bytes.lt_iff_toBits_lt, not_lt, le_iff_lt_or_eq, ← Bytes.lt_iff_toBits_lt, same,
    ← List.not_le, pack_le_iff long, not_le]

-- What a key may hold past the bits that are read puts it after the key that is stored under them.
theorem le_pack_iff_of_length {n : Nat} (long : (n + 7) / 8 ≤ key.length) (width : bits.length = n) :
    key ≤ pack bits ↔ (if key = pack (firstBits key n) then (firstBits key n ≤ ·)
      else (firstBits key n < ·)) bits := by
  subst width
  rw [le_pack_iff long]
  split
  case isTrue packed =>
    refine Iff.trans (or_congr_right ?_) le_iff_lt_or_eq.symm
    refine ⟨fun same => ?_, fun same => ?_⟩
    · rw [same, firstBits_pack]
    · rw [packed, same]
  case isFalse spare =>
    refine or_iff_left fun same => spare ?_
    rw [same, firstBits_pack]

end Order

namespace Dict

variable {dict : Dict} {key : Bytes} {entries : List (List Bool × Builder)}
  {shown : List (Bytes × DictEntry)} {R : List Bool × Builder → Bytes × DictEntry → Prop}
  {P : List Bool → Prop}

-- A walk over the shown entries picks the one under the key that is first, in the sense of `first`, of
-- those that qualify.
def Picks (R : List Bool × Builder → Bytes × DictEntry → Prop) (entries : List (List Bool × Builder))
    (shown : List (Bytes × DictEntry)) (qualifies : List Bool → Prop)
    (first : List Bool → List Bool → Prop) (floor : Option (Bytes × DictEntry))
    (x : Except CellError (Option (Bytes × DictEntry))) : Prop :=
  (x = .ok floor ∧ ∀ entry ∈ entries, ¬qualifies entry.1) ∨
  ∃ item ∈ shown, x = .ok (some item) ∧ ∃ entry ∈ entries, R entry item ∧ qualifies entry.1 ∧
    ∀ other ∈ entries, qualifies other.1 → first entry.1 other.1

theorem firstAtOrAfter_picks (stored : List.Forall₂ R entries shown)
    (sorted : (entries.map Prod.fst).Pairwise (· < ·))
    (qualify : ∀ entry item, entry ∈ entries → R entry item → (key ≤ item.1 ↔ P entry.1)) :
    Picks R entries shown P (· ≤ ·) none (firstAtOrAfter key (shown.map .ok)) := by
  induction stored
  case nil => exact .inl ⟨rfl, nofun⟩
  case cons entry item entries shown same _ hi =>
    obtain ⟨found, value⟩ := item
    rw [List.map_cons, List.pairwise_cons] at sorted
    have here := qualify entry _ (by simp) same
    rw [List.map_cons, firstAtOrAfter, ok_bind]
    dsimp only
    by_cases reached : key ≤ found
    case pos =>
      rw [if_pos reached]
      refine .inr ⟨_, by simp, rfl, entry, by simp, same, here.mp reached, fun other mem _ => ?_⟩
      obtain rfl | mem := List.mem_cons.mp mem
      · exact le_rfl
      · exact le_of_lt (sorted.left _ (List.mem_map_of_mem mem))
    case neg =>
      have before : ¬P entry.1 := fun h => reached (here.mpr h)
      rw [if_neg reached]
      obtain ⟨none, far⟩ | ⟨item, mem, some, nearest, stored, same, qualifies, least⟩ :=
        hi sorted.right fun entry item mem => qualify entry item (List.mem_cons_of_mem _ mem)
      · exact .inl ⟨none, List.forall_mem_cons.mpr ⟨before, far⟩⟩
      · refine .inr ⟨item, by simp [mem], some, nearest, by simp [stored], same, qualifies,
          List.forall_mem_cons.mpr ⟨fun h => absurd h before, least⟩⟩

theorem lastAtOrBefore_picks {floor : Option (Bytes × DictEntry)}
    (stored : List.Forall₂ R entries shown) (sorted : (entries.map Prod.fst).Pairwise (· < ·))
    (qualify : ∀ entry item, entry ∈ entries → R entry item → (item.1 ≤ key ↔ P entry.1))
    (closed : ∀ bits bits', bits < bits' → P bits' → P bits) :
    Picks R entries shown P (· ≥ ·) floor (lastAtOrBefore key floor (shown.map .ok)) := by
  induction stored generalizing floor
  case nil => exact .inl ⟨rfl, nofun⟩
  case cons entry item entries shown same _ hi =>
    obtain ⟨found, value⟩ := item
    rw [List.map_cons, List.pairwise_cons] at sorted
    have here := qualify entry _ (by simp) same
    have above (other : List Bool × Builder) (mem : other ∈ entries) : entry.1 < other.1 :=
      sorted.left _ (List.mem_map_of_mem mem)
    rw [List.map_cons, lastAtOrBefore, ok_bind]
    dsimp only
    by_cases passed : found ≤ key
    case pos =>
      rw [if_pos passed]
      have later : Picks R entries shown P (· ≥ ·) (some (found, value)) _ :=
        hi sorted.right fun entry item mem => qualify entry item (List.mem_cons_of_mem _ mem)
      obtain ⟨none, far⟩ | ⟨item, mem, some, nearest, stored, same, qualifies, greatest⟩ := later
      · exact .inr ⟨_, by simp, none, entry, by simp, same, here.mp passed,
          List.forall_mem_cons.mpr ⟨fun _ => le_rfl, fun other mem h => absurd h (far other mem)⟩⟩
      · exact .inr ⟨item, by simp [mem], some, nearest, by simp [stored], same, qualifies,
          List.forall_mem_cons.mpr ⟨fun _ => le_of_lt (above _ stored), greatest⟩⟩
    case neg =>
      have beyond : ¬P entry.1 := fun h => passed (here.mpr h)
      rw [if_neg passed]
      exact .inl ⟨rfl, List.forall_mem_cons.mpr ⟨beyond, fun other mem h =>
        beyond (closed _ _ (above other mem) h)⟩⟩

-- The answer is the entry under the first stored key that qualifies, and nothing where none does.
def Nearest (m : List Bool → Option Builder) (qualifies : List Bool → Prop)
    (first : List Bool → List Bool → Prop) : Option (Bytes × DictEntry) → Prop
  | none                => ∀ bits value, m bits = some value → ¬qualifies bits
  | some (found, entry) => ∃ bits value, m bits = some value ∧ found = pack bits ∧
    entry.value = .ok value ∧ qualifies bits ∧
    ∀ other value, m other = some value → qualifies other → first bits other

variable {m : List Bool → Option Builder} {first : List Bool → List Bool → Prop} {bits : List Bool}

theorem Picks.nearest {x : Except CellError (Option (Bytes × DictEntry))}
    (h : Picks (fun entry item => item.1 = pack entry.1 ∧ item.2.value = .ok entry.2) entries shown P first
      none x) (all : ∀ key value, (key, value) ∈ entries ↔ m key = some value) :
    ∃ answer, x = .ok answer ∧ (∀ item ∈ answer, item ∈ shown) ∧ Nearest m P first answer := by
  obtain ⟨none, far⟩ | ⟨item, mem, some, entry, kept, stored, qualifies, least⟩ := h
  · exact ⟨_, none, nofun, fun bits value found => far (bits, value) ((all bits value).mpr found)⟩
  · refine ⟨_, some, fun _ same => Option.some.inj same ▸ mem, entry.1, entry.2, (all _ _).mp kept,
      stored.left, stored.right, qualifies, fun other value found => ?_⟩
    exact least (other, value) ((all other value).mpr found)

theorem yielded_of_items (h : dict.items = shown.map .ok) : dict.yielded = shown := by
  rw [yielded, h, List.filterMap_map]
  simp [Function.comp_def, Except.toOption]

-- What is found at the bits that were read, where they are stored and qualify.
theorem Nearest.here {answer : Option (Bytes × DictEntry)} (h : Nearest m P first answer)
    (antisymm : ∀ other, P other → first other bits → other = bits) {value : Builder}
    (found : m bits = some value) (qualifies : P bits) : ∃ entry, answer = some (pack bits, entry) := by
  cases answer
  case none => exact absurd qualifies (h bits value found)
  case some item =>
    obtain ⟨name, entry⟩ := item
    obtain ⟨nearest, _, _, rfl, _, reached, least⟩ := h
    rw [antisymm nearest reached (least bits value found qualifies)]
    exact ⟨entry, rfl⟩

section Stored

variable [Sha256] {keyBits : Nat} {items : List (Bytes × Builder)}

theorem Holds.width (held : dict.Holds m) {value : Builder} (found : m bits = some value) :
    bits.length = dict.keyBits :=
  have found : (m bits).map (Shape.Entry.mk ()) = some ⟨(), value⟩ := by rw [found]; rfl
  held.held.width found

theorem Holds.before (held : dict.Holds m) (read : keyOf key dict.keyBits = .ok bits) :
    ∃ answer, dict.entryAtOrBefore key = .ok answer ∧ (∀ item ∈ answer, item ∈ dict.yielded) ∧
      Nearest m (· ≤ bits) (· ≥ ·) answer := by
  obtain ⟨long, rfl⟩ := keyOf_eq_ok.mp read
  have ⟨entries, shown, sorted, all, same, stored⟩ := held.spells
  rw [entryAtOrBefore, yielded_of_items same, same]
  refine (lastAtOrBefore_picks stored sorted (fun entry item mem stored => ?_)
    fun bits bits' lt le => le_of_lt (lt_of_lt_of_le lt le)).nearest all
  have width := held.width ((all entry.1 entry.2).mp mem)
  rw [stored.left, pack_le_iff (width ▸ long), width]

theorem Holds.after (held : dict.Holds m) (read : keyOf key dict.keyBits = .ok bits) :
    ∃ answer, dict.entryAtOrAfter key = .ok answer ∧ (∀ item ∈ answer, item ∈ dict.yielded) ∧
      Nearest m (if key = pack bits then (bits ≤ ·) else (bits < ·)) (· ≤ ·) answer := by
  obtain ⟨long, rfl⟩ := keyOf_eq_ok.mp read
  have ⟨entries, shown, sorted, all, same, stored⟩ := held.spells
  rw [entryAtOrAfter, yielded_of_items same, same]
  refine (firstAtOrAfter_picks stored sorted fun entry item mem stored => ?_).nearest all
  rw [stored.left, le_pack_iff_of_length long (held.width ((all entry.1 entry.2).mp mem))]

-- The floor is found under whatever key a lookup takes. The ceiling is the least key from the bits on
-- where the key is spelled as the stored ones are, and past them where it holds anything more.
theorem entry_nearest (built : fromItems keyBits items = .ok dict) (read : keyOf key keyBits = .ok bits) :
    (∃ answer, dict.entryAtOrBefore key = .ok answer ∧
      Nearest (last (items.map fun (key, value) => (firstBits key keyBits, value))) (· ≤ bits)
        (· ≥ ·) answer) ∧
    (∃ answer, dict.entryAtOrAfter key = .ok answer ∧
      Nearest (last (items.map fun (key, value) => (firstBits key keyBits, value)))
        (if key = pack bits then (bits ≤ ·) else (bits < ·)) (· ≤ ·) answer) ∧
    ∀ entry, dict.get key = .ok (.found entry) →
      dict.entryAtOrBefore key = .ok (some (pack bits, entry)) ∧
      (key = pack bits → dict.entryAtOrAfter key = .ok (some (pack bits, entry))) := by
  have lists : Lists items keyBits _ := ⟨fromItems_long built, rfl⟩
  obtain ⟨rfl, held⟩ := (fromItems_eq_ok lists).mp built
  have ⟨before, floor, floored, below⟩ := held.before read
  have ⟨after, ceil, ceiled, above⟩ := held.after read
  refine ⟨⟨before, floor, below⟩, ⟨after, ceil, above⟩, fun entry got => ?_⟩
  obtain ⟨long, rfl⟩ := keyOf_eq_ok.mp read
  have ⟨entries, shown, sorted, all, same, stored⟩ := held.spells
  have finds := (agrees held.bound (by simp [same]) key long).left
  have ⟨value, found⟩ : ∃ value, last (items.map fun (key, value) => (firstBits key dict.keyBits, value))
      (firstBits key dict.keyBits) = some value := by
    have mem := (finds entry).mp got
    rw [yielded_of_items same] at mem
    have ⟨stored, kept, name, _⟩ := stored.exists_mem mem
    have here := (all stored.1 stored.2).mp kept
    rw [pack_inj (by rw [firstBits_length, held.width here]) name]
    exact ⟨_, here⟩
  -- A lookup finds whatever is yielded under the bits, so it is the same entry.
  have only {answer : Option (Bytes × DictEntry)} (mem : ∀ item ∈ answer, item ∈ dict.yielded)
      (here : ∃ entry, answer = some (pack (firstBits key dict.keyBits), entry)) :
      answer = some (pack (firstBits key dict.keyBits), entry) := by
    obtain ⟨other, rfl⟩ := here
    rw [Lookup.found.inj (Except.ok.inj (got.symm.trans ((finds other).mpr (mem _ rfl))))]
  refine ⟨?_, fun packed => ?_⟩
  · rw [floor, only floored (below.here (fun other le ge => le_antisymm le ge) found le_rfl)]
  · rw [if_pos packed] at above
    rw [ceil, only ceiled (above.here (fun other ge le => le_antisymm le ge) found le_rfl)]

end Stored

end Dict

section Nibble

attribute [local instance] Sha256.standard

-- A dictionary of keys of half a byte, asked for a whole one.
def nibbleRun (keys : List Bytes) : Option (Bool × Option Bytes × Bool) := do
  let (_, value) ← ((Builder.storeUint 0xaa 8).call .new).toOption
  let dict ← (Dict.fromItems 4 (keys.map (·, value))).toOption
  let found ← (dict.get [0x5f]).toOption
  let after ← (dict.entryAtOrAfter [0x5f]).toOption
  return (found matches .found _, after.map Prod.fst, (keyOf [0x5f] 4).toOption = some [false, true, false, true])

theorem nibble_of_run {keys : List Bytes} {next : Option Bytes} (run : nibbleRun keys = some (true, next, true)) :
    ∃ value dict entry after, Dict.fromItems 4 (keys.map (·, value)) = .ok dict ∧
      dict.get [0x5f] = .ok (.found entry) ∧ dict.entryAtOrAfter [0x5f] = .ok after ∧
      after.map Prod.fst = next ∧ keyOf [0x5f] 4 = .ok [false, true, false, true] := by
  simp only [nibbleRun, Option.bind_eq_bind, Option.bind_eq_some_iff, toOption_eq_some, Option.pure_def,
    Option.some_inj, Prod.mk.injEq, Prod.exists, decide_eq_true_eq] at run
  obtain ⟨_, value, _, dict, built, found, got, after, walked, hit, next, read⟩ := run
  cases found
  case found entry => exact ⟨value, dict, entry, after, built, got, walked, next, read⟩
  all_goals cases hit

-- A lookup finds the entry under the first half of the byte, and no key comes at or after the whole.
theorem Dict.after_nibble : ∃ value dict entry, Dict.fromItems 4 [([0x50], value)] = .ok dict ∧
    dict.get [0x5f] = .ok (.found entry) ∧ dict.entryAtOrAfter [0x5f] = .ok none := by
  have run : nibbleRun [[0x50]] = some (true, none, true) := by decide +kernel
  obtain ⟨value, dict, entry, after, built, got, walked, nothing, _⟩ := nibble_of_run run
  exact ⟨value, dict, entry, built, got, Option.map_eq_none_iff.mp nothing ▸ walked⟩

-- Between two other keys the entry is its own floor, and the key after it is the ceiling.
theorem Dict.entry_nearest_nibbles : ∃ value dict entry after,
    Dict.fromItems 4 [([0x20], value), ([0x50], value), ([0x80], value)] = .ok dict ∧
    dict.get [0x5f] = .ok (.found entry) ∧
    dict.entryAtOrBefore [0x5f] = .ok (some (pack [false, true, false, true], entry)) ∧
    dict.entryAtOrAfter [0x5f] = .ok after ∧ after.map Prod.fst = some [0x80] := by
  have run : nibbleRun [[0x20], [0x50], [0x80]] = some (true, some [0x80], true) := by decide +kernel
  obtain ⟨value, dict, entry, after, built, got, walked, next, read⟩ := nibble_of_run run
  exact ⟨value, dict, entry, after, built, got,
    ((Dict.entry_nearest built read).right.right entry got).left, walked, next⟩

end Nibble

end TonNet
