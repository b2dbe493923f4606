import TonNet.Lib.Stages
import TonNet.Boc.Theorems.Parse
import TonNet.Cell.Dict.Theorems.Listing
import TonNet.Cell.Dict.Theorems.Summary

-- Keeping some entries takes the others out one after another, and comes as far as the maps on the
-- way can be built.

namespace TonNet

open Fallible Method Keyed

section Sieve

variable {σ α : Type} {keep : Bytes → α → StateM σ Bool} {captured : σ} {n : Nat} {gone : List Bytes}
  {items : List (Bytes × α)} {key : Bytes}

-- The keys that `keep` answers false for, when it is shown one item after the other.
def dropped (keep : Bytes → α → StateM σ Bool) : List (Bytes × α) → σ → List Bytes
  | [], _                         => []
  | (key, entry) :: rest, captured =>
    let (kept, captured) := (keep key entry).run captured
    if kept then dropped keep rest captured else key :: dropped keep rest captured

theorem dropped_sublist (shown : List (Bytes × α)) :
    (dropped keep shown captured).Sublist (shown.map Prod.fst) := by
  induction shown generalizing captured
  case nil => exact .slnil
  case cons item rest hi =>
    rcases answer : (keep item.1 item.2).run captured with ⟨_ | _, captured'⟩
    case false => simpa [dropped, answer] using hi
    case true => simpa [dropped, answer] using .cons _ hi

theorem foldlM_dropped (keep : Bytes → α → StateM σ Bool) (shown : List (Bytes × α))
    (front : List Bytes) (captured : σ) : ∃ captured',
    (shown.map Except.ok).foldlM (fun (toRemove, captured) item => do
      let (key, entry) ← item
      let (kept, captured) := (keep key entry).run captured
      return (if kept then toRemove else toRemove ++ [key], captured)) (front, captured) =
        (.ok (front ++ dropped keep shown captured, captured') : Except CellError _) := by
  induction shown generalizing front captured
  case nil => exact ⟨captured, by simp [dropped, pure_eq_ok]⟩
  case cons item rest hi =>
    obtain ⟨key, entry⟩ := item
    rw [List.map_cons, List.foldlM_cons]
    rcases answer : (keep key entry).run captured with ⟨_ | _, captured'⟩
    case false =>
      obtain ⟨last, run⟩ := hi (front ++ [key]) captured'
      refine ⟨last, ?_⟩
      simpa [dropped, answer] using run
    case true =>
      obtain ⟨last, run⟩ := hi front captured'
      refine ⟨last, ?_⟩
      simpa [dropped, answer] using run

-- The keys that are dropped are removed in the order they are shown.
theorem outcome_retainOver {δ : Type} {dict : δ} {items : δ → List (Except CellError (Bytes × α))}
    {remove : Bytes → Method δ CellError Bool} {shown : List (Bytes × α)}
    (yields : items dict = shown.map .ok) : (retainOver items remove keep captured).outcome dict =
      ((dropped keep shown captured).forM fun key => do let _ ← remove key).outcome dict := by
  obtain ⟨_, sieved⟩ := foldlM_dropped keep shown [] captured
  rw [← yields] at sieved
  rw [retainOver, outcome_bind_of_ends (ends_get.mpr ⟨rfl, rfl⟩)]
  exact outcome_bind_of_ends (ends_ofExcept.mpr ⟨sieved, rfl⟩)

-- The items of the other keys.
def without (n : Nat) (items : List (Bytes × α)) (gone : List Bytes) : List (Bytes × α) :=
  items.filter fun item => firstBits item.1 n ∉ gone.map (firstBits · n)

@[simp]
theorem without_nil : without n items [] = items := by
  simp [without]

theorem without_take {k : Nat} (here : gone[k]? = some key) :
    without n items (gone.take (k + 1)) =
      (without n items (gone.take k)).filter fun item => firstBits item.1 n ≠ firstBits key n := by
  rw [without, without, List.filter_filter, List.take_add_one, here]
  refine List.filter_congr fun item _ => ?_
  simp [not_or, Bool.and_comm]

-- One after the other, the dropped keys are taken out of what the dictionary was made of.
theorem stages_retainOver {β δ : Type} (made : List (Bytes × β) → δ → Prop) {given : List (Bytes × β)}
    {dict : δ} {items : δ → List (Except CellError (Bytes × α))} {remove : Bytes → Method δ CellError Bool}
    {shown : List (Bytes × α)} (yields : items dict = shown.map .ok) (built : made given dict)
    (removes : ∀ key ∈ shown.map Prod.fst, ∀ rest dict dict', made rest dict →
      ((do let _ ← remove key : Method δ CellError Unit).Ends dict () dict' ↔
        made (rest.filter fun item => firstBits item.1 n ≠ firstBits key n) dict'))
    (fails : ∀ key dict e dict',
      (do let _ ← remove key : Method δ CellError Unit).outcome dict = (.error e, dict') → dict' = dict) :
    Stages (fun k => made (without n given ((dropped keep shown captured).take k)))
      (dropped keep shown captured).length ((retainOver items remove keep captured).outcome dict) := by
  rw [outcome_retainOver yields]
  refine .forM _ ?start ?step fails
  case start =>
    rw [List.take_zero, without_nil]
    exact built
  case step =>
    intro k key here dict₁ dict₂ made₁
    rw [without_take here]
    exact removes key ((dropped_sublist shown).subset (List.mem_of_getElem? here)) _ _ _ made₁

end Sieve

namespace Dict

variable [Sha256] {dict dict' : Dict} {keyBits : Nat} {items : List (Bytes × Builder)} {σ : Type}
  {keep : Bytes → DictEntry → StateM σ Bool} {captured : σ} {shown : List (Bytes × DictEntry)}
  {m : List Bool → Option Builder} {gone : List Bytes}

omit [Sha256] in
theorem long_of_yields (yields : dict.items = shown.map .ok) {key : Bytes}
    (mem : key ∈ shown.map Prod.fst) : (dict.keyBits + 7) / 8 ≤ key.length := by
  have ⟨keys, named, _, width⟩ := dict.ascends
  have all : dict.yielded = shown := by
    rw [yielded, yields, List.filterMap_map]
    exact List.filterMap_some
  rw [← all, named] at mem
  obtain ⟨bits, here, rfl⟩ := List.mem_map.mp mem
  rw [pack_length, width bits here]

theorem retain_comes (built : fromItems keyBits items = .ok dict) (keep : Bytes → DictEntry → StateM σ Bool)
    (captured : σ) : ∃ shown, dict.items = shown.map .ok ∧
      Stages (fun k dict' => fromItems keyBits
          (without keyBits items ((dropped keep shown captured).take k)) = .ok dict')
        (dropped keep shown captured).length ((retain keep captured).outcome dict) := by
  have long := fromItems_long built
  have ⟨width, held⟩ := (fromItems_eq_ok ⟨long, rfl⟩).mp built
  have ⟨_, shown, _, _, yields, _⟩ := held.spells
  refine ⟨shown, yields, stages_retainOver (fun items dict' => fromItems keyBits items = .ok dict') yields
    built ?_ fun key _ _ _ => Change.fails (.remove key)⟩
  intro key named rest dict₁ dict₂ made
  have listed : Lists rest keyBits _ := ⟨fromItems_long made, rfl⟩
  have ⟨width₁, held₁⟩ := (fromItems_eq_ok listed).mp made
  have enough := long_of_yields yields named
  rw [width, ← width₁] at enough
  have removes : (Change.remove key).run.Ends dict₁ () dict₂ ↔ _ := Change.remove_ends held₁ enough
  rw [width₁] at removes
  rw [fromItems_eq_ok (listed.without _)]
  exact removes

end Dict

namespace AugDict

variable [Sha256] {ε : Type} {aug : Augmentation ε} {code : ε → Option (List Bool)} {dict : AugDict ε}
  {keyBits : Nat} {items : List (Bytes × ε × Builder)} {σ : Type}
  {keep : Bytes → AugEntry ε → StateM σ Bool} {captured : σ} {shown : List (Bytes × AugEntry ε)}

omit [Sha256] in
theorem given_filter (bits : List Bool) :
    given (items.filter fun item => firstBits item.1 keyBits ≠ bits) keyBits =
      Function.update (given items keyBits) bits none := by
  rw [given, given, ← last_filter, List.filter_map]
  rfl

theorem retain_comes (codec : aug.Codec code) (built : fromItems aug keyBits items = .ok dict)
    (keep : Bytes → AugEntry ε → StateM σ Bool) (captured : σ) : ∃ shown, dict.items = shown.map .ok ∧
      Stages (fun k dict' => fromItems aug keyBits
          (without keyBits items ((dropped keep shown captured).take k)) = .ok dict')
        (dropped keep shown captured).length ((retain keep captured).outcome dict) := by
  have ⟨long, of⟩ := fromItems_eq_ok.mp built
  obtain ⟨rfl, rfl, held⟩ := of
  have ⟨entries, ⟨_, named, shown, yields, stored⟩, _⟩ := held.spells codec
  have keys : shown.map Prod.fst = entries.map Prod.fst := by
    rw [← List.forall₂_eq_eq_eq, List.forall₂_map_left_iff, List.forall₂_map_right_iff]
    exact stored.flip.imp fun _ _ same => same.left
  have fails (key : Bytes) (dict₁ : AugDict ε) (e : CellError) (dict₂ : AugDict ε)
      (failed : (Change.remove key).run.outcome dict₁ = (.error e, dict₂)) : dict₂ = dict₁ :=
    Change.run_fails failed
  refine ⟨shown, yields, stages_retainOver (fun items dict' => fromItems _ _ items = .ok dict') yields built ?_
    fails⟩
  intro key mem rest dict₁ dict₂ made
  have ⟨long₁, of₁⟩ := fromItems_eq_ok.mp made
  rw [keys, List.mem_map] at mem
  obtain ⟨entry, mem, rfl⟩ := mem
  have removes : (Change.remove entry.1).run.Ends dict₁ () dict₂ ↔ _ := Change.ends_run codec of₁
  rw [fromItems_eq_ok, given_filter]
  refine removes.trans (and_congr_left fun _ => iff_of_true (named entry mem) fun item mem => ?_)
  exact long₁ item (List.mem_of_mem_filter mem)

end AugDict

-- Keeping the entries of a dictionary that `keep` answers true for.
theorem retain_stages [Sha256] :
    (∀ keyBits items dict, Dict.fromItems keyBits items = .ok dict →
      ∀ (σ : Type) (keep : Bytes → DictEntry → StateM σ Bool) (captured : σ),
      ∃ shown, dict.items = shown.map .ok ∧
        Stages (fun k dict' => Dict.fromItems keyBits
            (without keyBits items ((dropped keep shown captured).take k)) = .ok dict')
          (dropped keep shown captured).length ((Dict.retain keep captured).outcome dict)) ∧
    ∀ (ε : Type) (aug : Augmentation ε) (code : ε → Option (List Bool)), aug.Codec code →
      ∀ keyBits items dict, AugDict.fromItems aug keyBits items = .ok dict →
      ∀ (σ : Type) (keep : Bytes → AugEntry ε → StateM σ Bool) (captured : σ),
      ∃ shown, dict.items = shown.map .ok ∧
        Stages (fun k dict' => AugDict.fromItems aug keyBits
            (without keyBits items ((dropped keep shown captured).take k)) = .ok dict')
          (dropped keep shown captured).length ((AugDict.retain keep captured).outcome dict) :=
  ⟨fun _ _ _ built _ keep captured => Dict.retain_comes built keep captured,
    fun _ _ _ codec _ _ _ built _ keep captured => AugDict.retain_comes codec built keep captured⟩

section Narrow

attribute [local instance] Sha256.standard

-- Whether an entry is under the one key that is kept.
def narrowKeep {α : Type} (key : Bytes) (_ : α) : StateM Unit Bool :=
  return key == [0x80]

-- Keys of three bits. One value leaves no room in its cell for a longer label.
def narrowRun : Option (Bool × Bool × Nat × Nat × Bool) := do
  let (_, small) ← ((Builder.storeUint 0xaa 8).call .new).toOption
  let (_, large) ← ((Builder.storeSameBit false 1021).call .new).toOption
  let dict ← (Dict.fromItems 3
    [([0x00], small), ([0x20], small), ([0x40], small), ([0x60], large), ([0x80], small)]).toOption
  let kept ← (Dict.fromItems 3 [([0x80], small)]).toOption
  let (result, left) := (Dict.retain narrowKeep ()).outcome dict
  let counted ← (AugDict.fromItems countSum 3 [([0x00], 1, small), ([0x80], 2, small)]).toOption
  return (kept.root.isSome, result.toOption.isNone, dict.items.length, left.items.length,
    counted.root.isSome)

theorem narrowRun_eq : narrowRun = some (true, true, 5, 3, true) := by
  decide +kernel

theorem retain_stages_narrow : ∃ items dict shown, Dict.fromItems 3 items = .ok dict ∧
    dict.items = shown.map .ok ∧
    Stages (fun k dict' => Dict.fromItems 3 (without 3 items ((dropped narrowKeep shown ()).take k)) = .ok dict')
      (dropped narrowKeep shown ()).length ((Dict.retain narrowKeep ()).outcome dict) ∧
    ∃ items dict shown, AugDict.fromItems countSum 3 items = .ok dict ∧ dict.items = shown.map .ok ∧
    Stages (fun k dict' => AugDict.fromItems countSum 3
        (without 3 items ((dropped narrowKeep shown ()).take k)) = .ok dict')
      (dropped narrowKeep shown ()).length
      ((AugDict.retain narrowKeep ()).outcome dict) := by
  have run := narrowRun_eq
  simp only [narrowRun, Option.bind_eq_bind, Option.bind_eq_some_iff, toOption_eq_some,
    Option.pure_def, Option.some_inj, Prod.mk.injEq, Prod.exists] at run
  obtain ⟨_, small, _, _, large, _, dict, built, _, _, counted, built', _⟩ := run
  have ⟨shown, yields, comes⟩ := retain_stages.left 3 _ dict built Unit narrowKeep ()
  have ⟨shown', yields', comes'⟩ := retain_stages.right UInt32 countSum _ countSum_codec 3 _ counted built'
    Unit narrowKeep ()
  exact ⟨_, dict, shown, built, yields, comes, _, counted, shown', built', yields', comes'⟩

-- The kept key alone, as a tree whose label is not the shortest there is.
def spacedBag : Bytes :=
  .be 15 0xb5ee9c7201010101000400000474aa

def spacedRun : Option (Nat × Bytes × Option Nat × Option Nat) := do
  let root ← soleRoot spacedBag
  let dict ← (Dict.fromRoot (some root) 3).toOption
  let item ← dict.items.head?
  let (key, entry) ← item.toOption
  let small ← entry.value.toOption
  let kept ← (Dict.fromItems 3 [([0x80], small)]).toOption
  return (dict.items.length, key, dict.root.map Cell.bits, kept.root.map Cell.bits)

theorem spaced_of_run : ∃ root dict entry small kept, soleRoot spacedBag = some root ∧
    Dict.fromRoot (some root) 3 = .ok dict ∧ dict.items = [.ok ([0x80], entry)] ∧ entry.value = .ok small ∧
    Dict.fromItems 3 [([0x80], small)] = .ok kept ∧ dict ≠ kept := by
  have run : spacedRun = some (1, [0x80], some 16, some 15) := by decide +kernel
  simp only [spacedRun, Option.bind_eq_bind, Option.bind_eq_some_iff, toOption_eq_some,
    Option.pure_def, Option.some_inj, Prod.mk.injEq, Prod.exists] at run
  obtain ⟨root, parsed, dict, opened, item, first, _, entry, rfl, small, held, kept, built, one, rfl, wide,
    narrow⟩ := run
  refine ⟨root, dict, entry, small, kept, parsed, opened, ?_, held, built, fun same => ?_⟩
  · obtain ⟨item, only⟩ := List.length_eq_one_iff.mp one
    rw [only] at first ⊢
    rw [Option.some_inj.mp first]
  · rw [same, narrow] at wide
    cases wide

-- Removing the dropped entries one by one can fail on the way to a map that can be built, and a tree that
-- was not built by `from_items` stays another than the one that is.
theorem retain_narrow : (∃ small large dict kept e left,
    Dict.fromItems 3 [([0x00], small), ([0x20], small), ([0x40], small), ([0x60], large), ([0x80], small)] =
      .ok dict ∧
    Dict.fromItems 3 [([0x80], small)] = .ok kept ∧
    (Dict.retain narrowKeep ()).outcome dict = (.error e, left) ∧ left ≠ dict) ∧
    ∃ root dict entry small kept, soleRoot spacedBag = some root ∧ Dict.fromRoot (some root) 3 = .ok dict ∧
      dict.items = [.ok ([0x80], entry)] ∧ entry.value = .ok small ∧
      Dict.fromItems 3 [([0x80], small)] = .ok kept ∧
      (Dict.retain narrowKeep ()).outcome dict = (.ok (), dict) ∧ dict ≠ kept := by
  constructor
  case left =>
    have run := narrowRun_eq
    simp only [narrowRun, Option.bind_eq_bind, Option.bind_eq_some_iff, toOption_eq_some,
      Option.pure_def, Option.some_inj, Prod.mk.injEq, Prod.exists] at run
    obtain ⟨_, small, _, _, large, _, dict, built, kept, built', counted, _, _, failed, five, three, _⟩ := run
    rcases outcome : (Dict.retain narrowKeep ()).outcome dict with ⟨e | _, left⟩
    case error =>
      refine ⟨small, large, dict, kept, e, left, built, built', outcome, ?_⟩
      rintro rfl
      rw [outcome, five] at three
      cases three
    case ok =>
      rw [outcome] at failed
      cases failed
  case right =>
    obtain ⟨root, dict, entry, small, kept, parsed, opened, yields, held, built, other⟩ := spaced_of_run
    refine ⟨root, dict, entry, small, kept, parsed, opened, yields, held, built, ?_, other⟩
    have yields : dict.items = [([0x80], entry)].map .ok := yields
    rw [Dict.retain, outcome_retainOver yields]
    rfl

end Narrow

end TonNet
