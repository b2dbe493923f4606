import TonNet.Cell.Dict.Theorems.Plain
import TonNet.Cell.Dict.Theorems.Read

-- What a walk over a plain dictionary yields, against what its lookups find.

namespace TonNet

open Fallible Method Keyed

namespace Dict

variable {dict : Dict} {root : Option Cell} {keyBits : Nat}

-- What the iterator yields up to the first error.
def yielded (dict : Dict) : List (Bytes × DictEntry) :=
  dict.items.filterMap Except.toOption

-- The keys have the width of the dictionary and come in strictly ascending order.
def Ascends (dict : Dict) : Prop :=
  ∃ keys : List (List Bool), dict.yielded.map Prod.fst = keys.map pack ∧ keys.Pairwise (· < ·) ∧
    ∀ key ∈ keys, key.length = dict.keyBits

-- A lookup finds what the iterator yields, and only that.
def Agrees (dict : Dict) : Prop :=
  ∀ key : Bytes, (dict.keyBits + 7) / 8 ≤ key.length →
    (∀ entry, dict.get key = .ok (.found entry) ↔
      (pack (firstBits key dict.keyBits), entry) ∈ dict.yielded) ∧
    (dict.get key = .ok .absent ↔ ∀ entry, (pack (firstBits key dict.keyBits), entry) ∉ dict.yielded)

-- The iterator yields the entries of a map, each once and in order.
def Spells (dict : Dict) (m : List Bool → Option Builder) : Prop :=
  ∃ (entries : List (List Bool × Builder)) (shown : List (Bytes × DictEntry)),
    (entries.map Prod.fst).Pairwise (· < ·) ∧ (∀ key value, (key, value) ∈ entries ↔ m key = some value) ∧
    dict.items = shown.map .ok ∧
    List.Forall₂ (fun entry item => item.1 = pack entry.1 ∧ item.2.value = .ok entry.2) entries shown

theorem fromRoot_eq_ok : fromRoot root keyBits = .ok dict ↔ keyBits ≤ maxBits ∧ ⟨root, keyBits⟩ = dict := by
  rw [fromRoot, failIf_bind_eq_ok, not_lt, pure_eq_ok]

theorem yielded_eq (dict : Dict) : dict.yielded =
    ((dict.iter.items .plain).filterMap Except.toOption).map fun (key, _, entry) => (key, entry) := by
  rw [yielded, items, List.filterMap_map, List.map_filterMap]
  refine List.filterMap_congr fun item _ => ?_
  cases item <;> rfl

theorem ascends (dict : Dict) : dict.Ascends := by
  have ⟨keys, named, ascending, width⟩ : ∃ keys, List.Forall₂ (fun (item : Shape.Item Unit) key =>
      item.1 = pack key) ((dict.iter.items .plain).filterMap Except.toOption) keys ∧ _ :=
    DictIter.items_ascend dict.root dict.keyBits
  refine ⟨keys, ?_, ascending, width⟩
  rw [yielded_eq, List.map_map, ← List.forall₂_eq_eq_eq, List.forall₂_map_left_iff,
    List.forall₂_map_right_iff]
  exact named

theorem get_of_lookup {key : Bytes} (long : (dict.keyBits + 7) / 8 ≤ key.length)
    {found : Option (Unit × DictEntry)}
    (h : lookup (pure ()) (firstBits key dict.keyBits) dict.root dict.keyBits = .ok (Shape.answer found)) :
    dict.get key = .ok (Shape.answer (found.map Prod.snd)) := by
  rw [get, keyOf_eq_ok.mpr ⟨long, rfl⟩, ok_bind, h, ok_bind]
  cases found <;> rfl

-- Where nothing is left out, the two are one map.
theorem agrees_of_find {found : Bytes → Option DictEntry}
    (got : ∀ key, (dict.keyBits + 7) / 8 ≤ key.length → dict.get key = .ok (Shape.answer (found key)))
    (mem : ∀ key entry, (pack (firstBits key dict.keyBits), entry) ∈ dict.yielded ↔ found key = some entry) :
    dict.Agrees := by
  intro key long
  rw [got key long]
  simp only [Except.ok.injEq, Shape.answer_eq_found, Shape.answer_eq_absent, mem,
    Option.eq_none_iff_forall_ne_some]
  simp

theorem yielded_of_shows {c : Cell} {t : Radix (Unit × DictEntry)} (bound : keyBits ≤ maxBits)
    (shown : Shape.plain.Shows c keyBits t) :
    yielded ⟨some c, keyBits⟩ = t.entries.map fun (key, _, entry) => (pack key, entry) := by
  have items : (iter ⟨some c, keyBits⟩).items .plain = _ := DictIter.items_of_shows shown bound
  rw [yielded_eq, items, Shape.Yield, List.filterMap_map]
  simp [Function.comp_def, Except.toOption]

theorem agrees (bound : dict.keyBits ≤ maxBits) (ok : ∀ e, .error e ∉ dict.items) : dict.Agrees := by
  obtain ⟨root, keyBits⟩ := dict
  cases root
  case none =>
    have empty : yielded ⟨none, keyBits⟩ = [] := rfl
    have got (key : Bytes) (long : (keyBits + 7) / 8 ≤ key.length) :
        get ⟨none, keyBits⟩ key = .ok (Shape.answer (Option.map Prod.snd none)) := get_of_lookup long rfl
    exact agrees_of_find got fun key entry => by simp [empty]
  case some c =>
    have ⟨t, shown⟩ : ∃ t, Shape.plain.Shows c keyBits t := DictIter.shows_of_items fun e mem =>
      ok e (List.mem_map.mpr ⟨.error e, mem, rfl⟩)
    refine agrees_of_find (fun key long => get_of_lookup long (shown.lookup (firstBits_length key _)))
      fun key entry => ?_
    simp only [yielded_of_shows bound shown, List.mem_map, Prod.exists, Prod.mk.injEq,
      Option.map_eq_some_iff, exists_eq_right]
    constructor
    · rintro ⟨bits, u, _, mem, same, rfl⟩
      have here := Radix.mem_entries.mp mem
      have width := Radix.fits_iff.mp shown.fits bits _ here
      rw [pack_inj (by rw [width, firstBits_length]) same] at here
      exact ⟨u, here⟩
    · rintro ⟨u, here⟩
      exact ⟨_, u, entry, Radix.mem_entries.mpr here, rfl, rfl⟩

theorem Holds.spells [Sha256] {m : List Bool → Option Builder} (h : dict.Holds m) : dict.Spells m := by
  have ⟨entries, shown, ascending, all, same, stored⟩ := h.held.items Shape.plain_lawful h.bound
  refine ⟨entries.map fun (key, entry) => (key, entry.value),
    shown.map fun (key, _, entry) => (key, entry), ?_, fun key value => ?_, ?_, ?_⟩
  · rw [List.map_map]
    exact ascending
  · simp only [List.mem_map, Prod.mk.injEq, Prod.exists, all, Option.map_eq_some_iff]
    constructor
    · rintro ⟨_, _, ⟨value, found, rfl⟩, rfl, rfl⟩
      exact found
    · exact fun found => ⟨key, _, ⟨value, found, rfl⟩, rfl, rfl⟩
  · have items : dict.items = (dict.iter.items .plain).map _ := rfl
    have same : dict.iter.items .plain = _ := same
    rw [items, same, List.map_map, List.map_map]
    rfl
  · rw [List.forall₂_map_left_iff, List.forall₂_map_right_iff]
    exact stored.imp fun entry item h => ⟨h.left, h.right.value⟩

-- An iterator over any cells yields keys of the right width in order, and where it meets no error
-- lookups agree with it. Over what was built from items it yields the last item under each key.
theorem items_ascend_agree [Sha256] :
    (∀ root keyBits dict, fromRoot root keyBits = .ok dict →
      dict.Ascends ∧ ((∀ e, .error e ∉ dict.items) → dict.Agrees)) ∧
    ∀ keyBits items dict, fromItems keyBits items = .ok dict →
      dict.Spells (last (items.map fun (key, value) => (firstBits key keyBits, value))) := by
  constructor
  · intro root keyBits dict opened
    obtain ⟨bound, rfl⟩ := fromRoot_eq_ok.mp opened
    exact ⟨ascends _, agrees bound⟩
  · intro keyBits items dict built
    have lists : Lists items keyBits _ := ⟨fromItems_long built, rfl⟩
    exact ((fromItems_eq_ok lists).mp built).right.spells

end Dict

section Listed

attribute [local instance] Sha256.standard

-- The dictionary of two keys, from items out of order that give one key twice.
def listedRun : Option (Nat × Nat × Bool) := do
  let (_, first) ← ((Builder.storeUint 0xaa 8).call .new).toOption
  let (_, second) ← ((Builder.storeUint 0xbb 8).call .new).toOption
  let both ← (Dict.fromItems 8 [([0x80], first), ([0x10], first), ([0x80], second)]).toOption
  return (both.keyBits, both.yielded.length, both.items.all fun item => item.toOption.isSome)

theorem Dict.items_ascend_agree_listed : ∃ first second both,
    Dict.fromItems 8 [([0x80], first), ([0x10], first), ([0x80], second)] = .ok both ∧
    both.Ascends ∧ both.Agrees ∧ both.Spells (last [(firstBits [0x80] 8, first),
      (firstBits [0x10] 8, first), (firstBits [0x80] 8, second)]) := by
  have run : listedRun = some (8, 2, true) := by decide +kernel
  simp only [listedRun, Option.bind_eq_bind, Option.bind_eq_some_iff, toOption_eq_some,
    Option.pure_def, Option.some_inj, Prod.mk.injEq, Prod.exists] at run
  obtain ⟨_, first, _, _, second, _, both, built, width, _, whole⟩ := run
  have ⟨reads, spells⟩ := Dict.items_ascend_agree
  have opened : Dict.fromRoot both.root both.keyBits = .ok both :=
    Dict.fromRoot_eq_ok.mpr ⟨width ▸ by decide, rfl⟩
  have ⟨ascends, agrees⟩ := reads both.root both.keyBits both opened
  refine ⟨first, second, both, built, ascends, agrees fun e mem => ?_, spells 8 _ both built⟩
  simpa [Except.toOption] using List.all_eq_true.mp whole _ mem

end Listed

end TonNet
