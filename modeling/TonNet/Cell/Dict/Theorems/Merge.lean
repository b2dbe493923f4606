import TonNet.Lib.Stages
import TonNet.Cell.Dict.Theorems.Summary

-- Merging one augmented dictionary into another adds its entries one after another.

namespace TonNet

open Fallible Method Keyed

namespace AugDict

variable [Sha256] {ε : Type} {aug : Augmentation ε} {code : ε → Option (List Bool)}
  {dict dict' other : AugDict ε} {keyBits : Nat} {items more entries : List (Bytes × ε × Builder)}
  {m : List Bool → Option (Shape.Entry ε)}

section Given

omit [Sha256]

theorem given_append (key : List Bool) :
    given (items ++ more) keyBits key = (given more keyBits key).or (given items keyBits key) := by
  rw [given, List.map_append, last_append]
  rfl

theorem given_take {k : Nat} {key : Bytes} {extra : ε} {value : Builder}
    (here : entries[k]? = some (key, extra, value)) :
    given (items ++ entries.take (k + 1)) keyBits =
      Function.update (given (items ++ entries.take k) keyBits) (firstBits key keyBits) (some ⟨extra, value⟩) := by
  rw [given, given, List.take_add_one, here, ← List.append_assoc, List.map_append]
  exact last_concat _

-- The keys of two lists of items.
def Apart (keyBits : Nat) (items more : List (Bytes × ε × Builder)) : Prop :=
  ∀ item ∈ items, ∀ other ∈ more, firstBits item.1 keyBits ≠ firstBits other.1 keyBits

theorem Apart.symm (apart : Apart keyBits items more) : Apart keyBits more items :=
  fun other there item here => (apart item here other there).symm

theorem Apart.given (apart : Apart keyBits items more) {key : List Bool} {entry : Shape.Entry ε}
    (found : given more keyBits key = some entry) : AugDict.given items keyBits key = none := by
  refine last_eq_none fun _ named same => ?_
  obtain ⟨item, here, rfl⟩ := List.mem_map.mp named
  have absent : AugDict.given more keyBits key = none := by
    refine last_eq_none fun _ named' same' => ?_
    obtain ⟨other, there, rfl⟩ := List.mem_map.mp named'
    exact apart item here other there (same.trans same'.symm)
  rw [absent] at found
  cases found

theorem Apart.given_append_comm (apart : Apart keyBits items more) :
    AugDict.given (items ++ more) keyBits = AugDict.given (more ++ items) keyBits := by
  funext key
  rw [given_append, given_append]
  cases there : AugDict.given more keyBits key
  case none => rw [Option.none_or, Option.or_none]
  case some entry => rw [apart.given there, Option.none_or, Option.or_none]

end Given

theorem Of.get_absent (codec : aug.Codec code) (of : Of aug keyBits m dict) {key : Bytes}
    (long : (keyBits + 7) / 8 ≤ key.length) (absent : m (firstBits key keyBits) = none) :
    dict.get key = .ok .absent := by
  obtain ⟨rfl, rfl, held⟩ := of
  have ⟨found, looked, same⟩ := Shape.Holds.lookup codec.lawful dict.keyBits_le held
    (firstBits_length key dict.keyBits)
  rw [absent] at same
  cases same
  rw [get, keyOf_eq_ok.mpr ⟨long, rfl⟩, ok_bind]
  exact congrArg (· >>= _) looked

omit [Sha256] in
-- Changes made to a copy, which is put in place once they are all made.
theorem outcome_copied (changes : Method (AugDict ε) CellError Unit) (dict : AugDict ε) :
    (do let (_, merged) ← Method.ofExcept (changes.call dict); MonadState.set merged :
      Method (AugDict ε) CellError Unit).outcome dict =
      match changes.outcome dict with
      | (.ok _, merged) => (.ok (), merged)
      | (.error e, _)   => (.error e, dict) := by
  rw [outcome_bind, outcome_ofExcept, Method.call]
  rcases changes.outcome dict with ⟨_ | _, _⟩ <;> rfl

-- What is added is all of the other dictionary, where none of its keys is taken.
theorem combineWith_outcome (codec : aug.Codec code) (of : Of aug keyBits m dict)
    (width : other.keyBits = keyBits) (spells : other.Spells entries)
    (absent : ∀ entry ∈ entries, m (firstBits entry.1 keyBits) = none) :
    (combineWith other).outcome dict =
      match (entries.forM fun (key, extra, value) => (Change.set key extra value).run).outcome dict with
      | (.ok _, merged) => (.ok (), merged)
      | (.error e, _)   => (.error e, dict) := by
  have ⟨shown, yields, stored⟩ := spells.yields
  have free (entry : Bytes × ε × Builder) (here : entry ∈ entries) :
      (keyBits + 7) / 8 ≤ entry.1.length ∧ m (firstBits entry.1 keyBits) = none :=
    ⟨width ▸ spells.long entry here, absent entry here⟩
  have listed := (List.forall₂_and_left _ _).mpr ⟨free, stored⟩
  have same : ¬other.keyBits ≠ dict.keyBits := not_not.mpr (width.trans of.bits_eq.symm)
  rw [combineWith, outcome_bind_of_ends (ends_get.mpr ⟨rfl, rfl⟩),
    outcome_bind_of_ends (a := ()) (ends_failIf.mpr ⟨same, rfl⟩)]
  refine (outcome_bind_of_ends (a := entries) (ends_ofExcept.mpr ⟨?additions, rfl⟩)).trans ?_
  case additions =>
    rw [yields]
    refine mapM_eq_ok_of_forall₂ ?_
    rw [List.forall₂_map_left_iff]
    refine listed.flip.imp fun item entry ⟨⟨long, absent⟩, key, extra, value⟩ => ?_
    have ⟨slice, opened, read⟩ := bind_eq_ok.mp value
    simp only [ok_bind, of.get_absent codec long absent, opened, read, key, extra]
    rfl
  exact outcome_copied _ dict

omit [Sha256] in
theorem Spells.given_mem (spells : dict.Spells entries) {entry : Bytes × ε × Builder} (mem : entry ∈ entries) :
    given entries dict.keyBits (firstBits entry.1 dict.keyBits) = some ⟨entry.2.1, entry.2.2⟩ := by
  refine (last_eq_some ?_).mpr (List.mem_map.mpr ⟨entry, mem, rfl⟩)
  rw [List.map_map]
  exact spells.ascends.imp fun lt => lt.ne

-- The merge as a run of changes, where `made` are the unions on the way.
theorem combineWith_comes (codec : aug.Codec code) (built : fromItems aug keyBits items = .ok dict)
    (built' : fromItems aug keyBits more = .ok other) (apart : Apart keyBits items more) :
    ∃ entries, other.Spells entries ∧ given entries keyBits = given more keyBits ∧
      ∃ result, Stages (fun k merged => fromItems aug keyBits (items ++ entries.take k) = .ok merged)
          entries.length result ∧
        (combineWith other).outcome dict =
          match result with
          | (.ok _, merged) => (.ok (), merged)
          | (.error e, _)   => (.error e, dict) := by
  have ⟨long, of⟩ := fromItems_eq_ok.mp built
  have ⟨_, of'⟩ := fromItems_eq_ok.mp built'
  have ⟨entries, spells, same, _⟩ := of'.holds.spells (of'.aug_eq.symm ▸ codec)
  have absent (entry : Bytes × ε × Builder) (mem : entry ∈ entries) :
      given items keyBits (firstBits entry.1 keyBits) = none := by
    have found := spells.given_mem mem
    rw [same, of'.bits_eq] at found
    exact apart.given found
  have named : ∀ entry ∈ entries, (keyBits + 7) / 8 ≤ entry.1.length := of'.bits_eq ▸ spells.long
  refine ⟨entries, spells, of'.bits_eq ▸ same, _, ?_,
    combineWith_outcome codec of of'.bits_eq spells absent⟩
  refine .forM _ ?start ?step fun _ _ _ _ => Change.run_fails
  case start =>
    rw [List.take_zero, List.append_nil]
    exact built
  case step =>
    intro k (key, extra, value) here dict₁ dict₂ made
    have ⟨_, of₁⟩ := fromItems_eq_ok.mp made
    rw [Change.ends_run codec of₁, fromItems_eq_ok, given_take here]
    refine and_congr_left fun _ => iff_of_true (named _ (List.mem_of_getElem? here)) ?_
    rw [List.forall_mem_append]
    exact ⟨long, fun entry mem => named entry (List.mem_of_mem_take mem)⟩

theorem combineWith_union (codec : aug.Codec code) (built : fromItems aug keyBits items = .ok dict)
    (built' : fromItems aug keyBits more = .ok other) (apart : Apart keyBits items more)
    {merged : AugDict ε} (ends : (combineWith other).Ends dict () merged) :
    fromItems aug keyBits (items ++ more) = .ok merged := by
  have ⟨entries, _, same, ⟨result, last⟩, comes, run⟩ := combineWith_comes codec built built' apart
  rw [Ends, run] at ends
  cases result
  case error => cases ends
  case ok =>
    obtain rfl : last = merged := congrArg Prod.snd ends
    have all := comes.ends rfl
    rw [List.take_length] at all
    have union : given (items ++ entries) keyBits = given (items ++ more) keyBits := by
      funext key
      rw [given_append, given_append, same]
    have long := (fromItems_eq_ok.mp built).left
    have long' := (fromItems_eq_ok.mp built').left
    exact fromItems_eq_ok.mpr ⟨List.forall_mem_append.mpr ⟨long, long'⟩, union ▸ (fromItems_eq_ok.mp all).right⟩

-- Whether there is room for each of the unions on the way decides whether the merge comes to its end.
theorem combineWith_merges (codec : aug.Codec code) (built : fromItems aug keyBits items = .ok dict)
    (built' : fromItems aug keyBits more = .ok other) (apart : Apart keyBits items more) :
    ∃ entries, other.Spells entries ∧
      ((∃ merged, (combineWith other).Ends dict () merged) ↔
        ∀ k ≤ entries.length, ∃ merged, fromItems aug keyBits (items ++ entries.take k) = .ok merged) ∧
      (∀ merged, (combineWith other).Ends dict () merged →
        fromItems aug keyBits (items ++ more) = .ok merged) ∧
      (∀ e after, (combineWith other).outcome dict = (.error e, after) → after = dict) ∧
      ∀ merged merged', (combineWith other).Ends dict () merged → (combineWith dict).Ends other () merged' →
        merged = merged' := by
  obtain ⟨entries, spells, _, ⟨result, last⟩, comes, run⟩ := combineWith_comes codec built built' apart
  refine ⟨entries, spells, ?succeeds, fun _ => combineWith_union codec built built' apart, ?fails, ?both⟩
  case succeeds =>
    rw [← comes.succeeds]
    simp only [Ends, run]
    cases result
    case error => simp
    case ok => simp
  case fails =>
    intro e after failed
    rw [run] at failed
    cases result
    case error => exact (congrArg Prod.snd failed).symm
    case ok => cases failed
  case both =>
    intro merged merged' ends ends'
    obtain ⟨_, of⟩ := fromItems_eq_ok.mp (combineWith_union codec built built' apart ends)
    obtain ⟨_, of'⟩ := fromItems_eq_ok.mp (combineWith_union codec built' built apart.symm ends')
    exact of.unique (apart.given_append_comm ▸ of')

end AugDict

section Full

attribute [local instance] Sha256.standard

-- Keys of two bits. The large value leaves no room in its cell for a longer label, so it can only be
-- added where its neighbour is.
def fullRun : Option (Bool × Bool × Bool) := do
  let (_, small) ← ((Builder.storeUint 0xaa 8).call .new).toOption
  let (_, large) ← ((Builder.storeSameBit false 989).call .new).toOption
  let one ← (AugDict.fromItems countSum 2 [([0x80], 1, small)]).toOption
  let two ← (AugDict.fromItems countSum 2 [([0x00], 2, large), ([0x40], 3, small)]).toOption
  let union ← (AugDict.fromItems countSum 2
    [([0x80], 1, small), ([0x00], 2, large), ([0x40], 3, small)]).toOption
  let (_, merged) ← ((AugDict.combineWith one).call two).toOption
  return (union.root.isSome, ((AugDict.combineWith two).outcome one).1.toOption.isNone, merged.root.isSome)

theorem fullRun_eq : fullRun = some (true, true, true) := by
  decide +kernel

theorem AugDict.combineWith_merges_full : ∃ items more one two merged,
    AugDict.fromItems countSum 2 more = .ok one ∧ AugDict.fromItems countSum 2 items = .ok two ∧
    (AugDict.combineWith one).Ends two () merged ∧
    AugDict.fromItems countSum 2 (items ++ more) = .ok merged := by
  have run := fullRun_eq
  simp only [fullRun, Option.bind_eq_bind, Option.bind_eq_some_iff, toOption_eq_some, Prod.exists] at run
  obtain ⟨_, small, _, _, large, _, one, built, two, built', _, _, _, merged, run, _⟩ := run
  have apart : AugDict.Apart 2 [([0x00], (2 : UInt32), large), ([0x40], 3, small)] [([0x80], 1, small)] := by
    simp only [AugDict.Apart, List.forall_mem_cons, List.not_mem_nil, false_imp_iff, implies_true, and_true]
    decide
  have ⟨_, _, _, union, _⟩ := AugDict.combineWith_merges countSum_codec built' built apart
  exact ⟨_, _, one, two, merged, built, built', call_eq_ok.mp run, union merged (call_eq_ok.mp run)⟩

theorem AugDict.combineWith_full : ∃ small large one two union e,
    AugDict.fromItems countSum 2 [([0x80], 1, small)] = .ok one ∧
    AugDict.fromItems countSum 2 [([0x00], 2, large), ([0x40], 3, small)] = .ok two ∧
    AugDict.fromItems countSum 2 [([0x80], 1, small), ([0x00], 2, large), ([0x40], 3, small)] = .ok union ∧
    ((AugDict.combineWith two).outcome one).1 = .error e ∧
    ∃ merged, (AugDict.combineWith one).Ends two () merged := by
  have run := fullRun_eq
  simp only [fullRun, Option.bind_eq_bind, Option.bind_eq_some_iff, toOption_eq_some, Option.pure_def,
    Option.some_inj, Prod.mk.injEq, Prod.exists] at run
  obtain ⟨_, small, _, _, large, _, one, built, two, built', union, all, _, merged, run, _, failed, _⟩ := run
  rcases outcome : ((AugDict.combineWith two).outcome one).1 with e | _
  case error => exact ⟨small, large, one, two, union, e, built, built', all, outcome, merged, call_eq_ok.mp run⟩
  case ok =>
    rw [outcome] at failed
    cases failed

end Full

end TonNet
