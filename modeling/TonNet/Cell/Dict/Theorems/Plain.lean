import TonNet.Cell.Dict.Plain
import TonNet.Cell.Dict.Theorems.Map

-- A plain dictionary is a canonical form of the map it holds.

namespace TonNet

open Fallible Method Keyed

theorem Shape.plain_lawful : Shape.plain.Lawful fun _ => some [] where
  writes  := fun h => by cases h; exact Builder.Writes.pure ()
  refuses := nofun
  reads   := fun h => by cases h; exact Slice.Reads.pure ()
  checks  := by
    rintro _ _ s ⟨⟩ ahead
    have spent : s.remainingBits = 0 := by rw [← Slice.ahead_length, ahead]; rfl
    exact ⟨s, ends_bind.mpr ⟨s, s, rfl, ends_failIf.mpr ⟨by simp [spent], rfl⟩⟩⟩

namespace Dict

variable [Sha256] {dict dict' : Dict} {keyBits : Nat} {m : List Bool → Option Builder} {key : Bytes}
  {value : Builder} {items : List (Bytes × Builder)}

-- The items of a map: each key is long enough, and the last item under it counts.
structure Lists (items : List (Bytes × Builder)) (keyBits : Nat) (m : List Bool → Option Builder) :
    Prop where
  long : ∀ item ∈ items, (keyBits + 7) / 8 ≤ item.1.length
  last : last (items.map fun (key, value) => (firstBits key keyBits, value)) = m

omit [Sha256] in
theorem Lists.concat (lists : Lists items keyBits m) (long : (keyBits + 7) / 8 ≤ key.length) :
    Lists (items ++ [(key, value)]) keyBits
      (Function.update m (firstBits key keyBits) (some value)) where
  long := by
    rw [List.forall_mem_append]
    exact ⟨lists.long, by simpa using long⟩
  last := by
    rw [List.map_append, ← lists.last]
    exact last_concat value

omit [Sha256] in
theorem Lists.without (lists : Lists items keyBits m) (bits : List Bool) :
    Lists (items.filter fun item => firstBits item.1 keyBits ≠ bits) keyBits
      (Function.update m bits none) where
  long := fun item mem => lists.long item (List.mem_of_mem_filter mem)
  last := by
    rw [← lists.last, ← last_filter, List.filter_map]
    rfl

structure Holds (dict : Dict) (m : List Bool → Option Builder) : Prop where
  bound : dict.keyBits ≤ maxBits
  held  : Shape.plain.Holds dict.root dict.keyBits fun key => (m key).map (Shape.Entry.mk ())

theorem set_eq_commit : set key value = Method.commit fun dict => do
    let bits ← keyOf key dict.keyBits
    let root ← Shape.plain.setRoot dict.root dict.keyBits bits ⟨(), value⟩
    return ((), { dict with root := some root }) := by
  refine Method.ext fun dict => ?_
  simp only [outcome_commit, set, outcome_bind, outcome_get, outcome_ofExcept]
  cases keyOf key dict.keyBits
  case error => rfl
  case ok bits =>
    simp only [ok_bind]
    cases Shape.plain.setRoot dict.root dict.keyBits bits ⟨(), value⟩ <;> rfl

theorem remove_eq_commit : remove key = Method.commit fun dict => do
    let bits ← keyOf key dict.keyBits
    match ← Shape.plain.removeRoot dict.root dict.keyBits bits with
    | none      => return (false, dict)
    | some root => return (true, { dict with root }) := by
  refine Method.ext fun dict => ?_
  simp only [outcome_commit, remove, outcome_bind, outcome_get, outcome_ofExcept]
  cases keyOf key dict.keyBits
  case error => rfl
  case ok bits =>
    simp only [ok_bind]
    cases Shape.plain.removeRoot dict.root dict.keyBits bits
    case error => rfl
    case ok removed => cases removed <;> rfl

omit [Sha256] in
theorem map_update (bits : List Bool) (x : Option Builder) :
    (fun key => (Function.update m bits x key).map (Shape.Entry.mk ())) =
      Function.update (fun key => (m key).map (Shape.Entry.mk ())) bits (x.map (Shape.Entry.mk ())) := by
  funext key
  by_cases same : key = bits
  case pos => simp [same]
  case neg => simp [same]

theorem fromItems_eq_ok (lists : Lists items keyBits m) : fromItems keyBits items = .ok dict ↔
    dict.keyBits = keyBits ∧ dict.Holds m := by
  have same : Shape.given (items.map fun (key, value) => (key, Shape.Entry.mk () value)) keyBits =
      fun key => (m key).map (Shape.Entry.mk ()) := by
    funext key
    rw [← lists.last, ← last_map, List.map_map, Shape.given, List.map_map]
    rfl
  rw [fromItems, bind_eq_ok]
  simp only [Shape.buildAll_eq_ok, same, fromRoot, failIf_bind_eq_ok, not_lt, pure_eq_ok]
  constructor
  · rintro ⟨root, ⟨bound, _, held⟩, _, rfl⟩
    exact ⟨rfl, bound, held⟩
  · rintro ⟨rfl, bound, held⟩
    refine ⟨dict.root, ⟨bound, fun item mem => ?_, held⟩, bound, rfl⟩
    obtain ⟨item, here, rfl⟩ := List.mem_map.mp mem
    exact lists.long item here

theorem fromItems_long (ok : fromItems keyBits items = .ok dict) :
    ∀ item ∈ items, (keyBits + 7) / 8 ≤ item.1.length := by
  rw [fromItems, bind_eq_ok] at ok
  have ⟨_, built, _⟩ := ok
  have ⟨_, long, _⟩ := Shape.buildAll_eq_ok.mp built
  exact fun item mem => long _ (List.mem_map.mpr ⟨item, mem, rfl⟩)

theorem set_ends (h : dict.Holds m) (long : (dict.keyBits + 7) / 8 ≤ key.length) :
    (set key value).Ends dict () dict' ↔ dict'.keyBits = dict.keyBits ∧
      dict'.Holds (Function.update m (firstBits key dict.keyBits) (some value)) := by
  have spec {root : Option Cell} : (∃ c, Shape.plain.setRoot _ _ _ ⟨(), value⟩ = .ok c ∧ some c = root) ↔ _ :=
    Shape.setRoot_eq_ok Shape.plain_lawful h.held (firstBits_length key _) h.bound
  rw [set_eq_commit, ends_commit, keyOf_eq_ok.mpr ⟨long, rfl⟩, ok_bind, bind_eq_ok]
  simp only [pure_eq_ok, Prod.mk.injEq, true_and]
  constructor
  · rintro ⟨root, ok, rfl⟩
    exact ⟨rfl, h.bound, (map_update ..).symm ▸ spec.mp ⟨root, ok, rfl⟩⟩
  · rintro ⟨width, _, held⟩
    rw [map_update, width] at held
    obtain ⟨root, ok, same⟩ := spec.mpr held
    exact ⟨root, ok, by cases dict'; simp_all⟩

theorem set_short (short : key.length < (dict.keyBits + 7) / 8) :
    ¬(set key value).Ends dict () dict' := by
  rw [set_eq_commit, ends_commit, bind_eq_ok]
  rintro ⟨_, named, _⟩
  exact absurd (keyOf_eq_ok.mp named).left (not_le.mpr short)

theorem remove_short {found : Bool} (short : key.length < (dict.keyBits + 7) / 8) :
    ¬(remove key).Ends dict found dict' := by
  rw [remove_eq_commit, ends_commit, bind_eq_ok]
  rintro ⟨_, named, _⟩
  exact absurd (keyOf_eq_ok.mp named).left (not_le.mpr short)

theorem remove_of_absent (h : dict.Holds m) (long : (dict.keyBits + 7) / 8 ≤ key.length)
    (absent : m (firstBits key dict.keyBits) = none) : (remove key).Ends dict false dict := by
  rw [remove_eq_commit, ends_commit, keyOf_eq_ok.mpr ⟨long, rfl⟩, ok_bind,
    Shape.removeRoot_of_absent Shape.plain_lawful h.held (firstBits_length ..) h.bound (by simp [absent])]
  rfl

theorem remove_ends (h : dict.Holds m) (long : (dict.keyBits + 7) / 8 ≤ key.length)
    (present : m (firstBits key dict.keyBits) = some value) {found : Bool} :
    (remove key).Ends dict found dict' ↔ found = true ∧ dict'.keyBits = dict.keyBits ∧
      dict'.Holds (Function.update m (firstBits key dict.keyBits) none) := by
  have present : (m (firstBits key dict.keyBits)).map (Shape.Entry.mk ()) = some ⟨(), value⟩ := by
    simp [present]
  have spec {r : Option (Option Cell)} : Shape.plain.removeRoot _ _ _ = .ok r ↔ _ :=
    Shape.removeRoot_eq_ok Shape.plain_lawful h.held (firstBits_length key _) h.bound present
  rw [remove_eq_commit, ends_commit, keyOf_eq_ok.mpr ⟨long, rfl⟩, ok_bind, bind_eq_ok]
  simp only [spec]
  constructor
  · rintro ⟨_, ⟨root, held, rfl⟩, same⟩
    obtain ⟨rfl, rfl⟩ := Prod.mk.inj (pure_eq_ok.mp same)
    exact ⟨rfl, rfl, h.bound, (map_update ..).symm ▸ held⟩
  · rintro ⟨rfl, width, _, held⟩
    rw [map_update, width] at held
    exact ⟨_, ⟨dict'.root, held, rfl⟩, by cases dict'; simp_all⟩

theorem Holds.unique (h : dict.Holds m) (h' : dict'.Holds m) (width : dict.keyBits = dict'.keyBits) :
    dict = dict' := by
  have same := h.held.unique (width ▸ h'.held)
  cases dict
  cases dict'
  simp_all

-- A change of a dictionary, and of a map.
inductive Change
  | set (key : Bytes) (value : Builder)
  | remove (key : Bytes)

def Change.run : Change → Method Dict CellError Unit
  | set key value => Dict.set key value
  | remove key    => do let _ ← Dict.remove key

def Change.on (keyBits : Nat) (m : List Bool → Option Builder) : Change → List Bool → Option Builder
  | set key value => Function.update m (firstBits key keyBits) (some value)
  | remove key    => Function.update m (firstBits key keyBits) none

theorem Change.remove_ends (h : dict.Holds m) (long : (dict.keyBits + 7) / 8 ≤ key.length) :
    (Change.remove key).run.Ends dict () dict' ↔ dict'.keyBits = dict.keyBits ∧
      dict'.Holds (Function.update m (firstBits key dict.keyBits) none) := by
  have run {dict' : Dict} : (Change.remove key).run.Ends dict () dict' ↔
      ∃ found, (Dict.remove key).Ends dict found dict' := by
    simp only [Change.run, ends_bind, ends_pure, true_and, exists_eq_right]
  cases present : m (firstBits key dict.keyBits)
  case none =>
    have stays := remove_of_absent h long present
    rw [← present, Function.update_eq_self, run]
    constructor
    · rintro ⟨_, removed⟩
      obtain ⟨_, rfl⟩ := removed.unique stays
      exact ⟨rfl, h⟩
    · rintro ⟨width, held⟩
      exact ⟨false, held.unique h width ▸ stays⟩
  case some value => simp only [run, Dict.remove_ends h long present, exists_eq_left]

theorem Change.ends (h : dict.Holds m) (change : Change) (ends : change.run.Ends dict () dict') :
    dict'.keyBits = dict.keyBits ∧ dict'.Holds (change.on dict.keyBits m) := by
  cases change
  case set key value =>
    by_cases long : (dict.keyBits + 7) / 8 ≤ key.length
    case pos => exact (set_ends h long).mp ends
    case neg => exact absurd ends (set_short (not_le.mp long))
  case remove key =>
    by_cases long : (dict.keyBits + 7) / 8 ≤ key.length
    case pos => exact (remove_ends h long).mp ends
    case neg =>
      have ⟨_, _, removed, _⟩ := ends_bind.mp ends
      exact absurd removed (remove_short (not_le.mp long))

theorem changes_end (h : dict.Holds m) {changes : List Change}
    (ends : (changes.forM Change.run).Ends dict () dict') :
    dict'.keyBits = dict.keyBits ∧ dict'.Holds (changes.foldl (Change.on dict.keyBits) m) := by
  induction changes generalizing dict m
  case nil =>
    obtain ⟨_, rfl⟩ := ends_pure.mp ends
    exact ⟨rfl, h⟩
  case cons change changes hi =>
    have ⟨_, between, first, rest⟩ := ends_bind.mp ends
    have ⟨width, held⟩ := change.ends h first
    have ⟨width', held'⟩ := hi held rest
    rw [width] at width' held'
    exact ⟨width', held'⟩

theorem Change.fails (change : Change) {e : CellError}
    (failed : change.run.outcome dict = (.error e, dict')) : dict' = dict := by
  cases change
  case set key value =>
    rw [run, set_eq_commit] at failed
    exact commit_fails failed
  case remove key =>
    rw [run, remove_eq_commit, outcome_bind] at failed
    split at failed
    case h_1 => cases failed
    case h_2 failed' =>
      cases failed
      exact commit_fails failed'

-- What setting and removing do to a dictionary that holds a map, in terms of building one from items.
structure Canonical (keyBits : Nat) (dict : Dict) (m : List Bool → Option Builder) : Prop where
  set    : ∀ key value items dict', (keyBits + 7) / 8 ≤ key.length →
    Lists items keyBits (Function.update m (firstBits key keyBits) (some value)) →
    ((Dict.set key value).Ends dict () dict' ↔ fromItems keyBits items = .ok dict')
  remove : ∀ key items found dict', (keyBits + 7) / 8 ≤ key.length →
    m (firstBits key keyBits) ≠ none →
    Lists items keyBits (Function.update m (firstBits key keyBits) none) →
    ((Dict.remove key).Ends dict found dict' ↔ found = true ∧ fromItems keyBits items = .ok dict')
  absent : ∀ key, (keyBits + 7) / 8 ≤ key.length → m (firstBits key keyBits) = none →
    (Dict.remove key).Ends dict false dict
  short  : ∀ key, key.length < (keyBits + 7) / 8 →
    (∀ value dict', ¬(Dict.set key value).Ends dict () dict') ∧
    (∀ found dict', ¬(Dict.remove key).Ends dict found dict') ∧
    ∀ items value dict', (key, value) ∈ items → fromItems keyBits items ≠ .ok dict'
  fails  : ∀ (change : Change) e dict', change.run.outcome dict = (.error e, dict') → dict' = dict

-- A dictionary built from items and changed any number of times, and the map it should hold.
def Reaches (keyBits : Nat) (dict : Dict) (m : List Bool → Option Builder) : Prop :=
  ∃ (items : List (Bytes × Builder)) (start : Dict) (m₀ : List Bool → Option Builder)
    (changes : List Change),
    Lists items keyBits m₀ ∧ fromItems keyBits items = .ok start ∧
    (changes.forM Change.run).Ends start () dict ∧ changes.foldl (Change.on keyBits) m₀ = m

theorem Reaches.holds (h : Reaches keyBits dict m) : dict.keyBits = keyBits ∧ dict.Holds m := by
  obtain ⟨items, start, m₀, changes, lists, built, ends, rfl⟩ := h
  obtain ⟨rfl, held⟩ := (fromItems_eq_ok lists).mp built
  exact changes_end held ends

theorem fromItems_canonical (lists : Lists items keyBits m) (built : fromItems keyBits items = .ok dict) :
    Canonical keyBits dict m ∧ ∀ dict₁ dict₂ m', Reaches keyBits dict₁ m' → Reaches keyBits dict₂ m' →
      dict₁.root = dict₂.root := by
  obtain ⟨rfl, h⟩ := (fromItems_eq_ok lists).mp built
  refine ⟨⟨?_, ?_, ?_, ?_, ?_⟩, ?_⟩
  · intro key value items dict' long lists
    rw [set_ends h long, fromItems_eq_ok lists]
  · intro key items found dict' long present lists
    have ⟨value, present⟩ := Option.ne_none_iff_exists'.mp present
    rw [remove_ends h long present, fromItems_eq_ok lists]
  · exact fun key long absent => remove_of_absent h long absent
  · intro key short
    refine ⟨fun _ _ => set_short short, fun _ _ => remove_short short, fun items value dict' mem ok => ?_⟩
    exact absurd (fromItems_long ok (key, value) mem) (not_le.mpr short)
  · exact fun change e dict' failed => change.fails failed
  · intro dict₁ dict₂ m' reached reached'
    have ⟨width, held⟩ := reached.holds
    have ⟨width', held'⟩ := reached'.holds
    exact congrArg root (held.unique held' (width.trans width'.symm))

end Dict

section Pair

attribute [local instance] Sha256.standard

-- Two keys of eight bits, and the dictionaries of the first one and of both.
def pairRun : Option (Bool × Bool) := do
  let (_, first) ← ((Builder.storeUint 0xaa 8).call .new).toOption
  let (_, second) ← ((Builder.storeUint 0xbb 8).call .new).toOption
  let one ← (Dict.fromItems 8 [([0x10], first)]).toOption
  let both ← (Dict.fromItems 8 [([0x10], first), ([0x80], second)]).toOption
  return (one.root.isSome, both.root.isSome)

theorem Dict.fromItems_canonical_pair : ∃ first second one both,
    Dict.fromItems 8 [([0x10], first)] = .ok one ∧
    Dict.fromItems 8 [([0x10], first), ([0x80], second)] = .ok both ∧
    (Dict.set [0x80] second).Ends one () both := by
  have run : pairRun = some (true, true) := by decide +kernel
  simp only [pairRun, Option.bind_eq_bind, Option.bind_eq_some_iff, toOption_eq_some,
    Option.pure_def, Option.some_inj, Prod.mk.injEq, Prod.exists] at run
  obtain ⟨_, first, _, _, second, _, one, built, both, built', _⟩ := run
  have lists : Dict.Lists [([0x10], first)] 8 _ := ⟨by simp, rfl⟩
  have ⟨canonical, _⟩ := Dict.fromItems_canonical lists built
  exact ⟨first, second, one, both, built, built',
    (canonical.set [0x80] second _ both (by decide) (lists.concat (by decide))).mpr built'⟩

end Pair

end TonNet
