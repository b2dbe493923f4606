import TonNet.Boc.Theorems.View
import Mathlib.Logic.Relation

-- What the build pass finds when it reaches a cell: the plan has taken it past every cell that the cell
-- references, so one that is not there has failed, or a cell under it has.

namespace TonNet

open Fallible Method Settle

variable {raw : List RawCell} {height : List Nat} {header : Header} {α : Type}

namespace Waves

theorem slices_eq (height order : List Nat) (n : Nat) :
    ((List.range n).map fun k => (order.drop (below height k)).take (height.count k)).flatten =
      order.take (below height n) := by
  induction n
  case zero => simp [below_zero]
  case succ n hi =>
    rw [List.range_succ, List.map_append, List.flatten_append, hi, below_succ, List.take_add]
    simp

-- The waves one after the other are the plan.
theorem order_byHeight (height : List Nat) :
    (byHeight height).order = (byHeight height).iter.flatten := by
  have ⟨order, plan, length, waves⟩ := byHeight_eq height
  have all : below height (tallest height + 1) = order.length := by
    rw [length, below, List.countP_eq_length]
    intro h mem
    exact decide_eq_true (Nat.lt_succ_of_le (le_tallest mem))
  have same : (List.range (tallest height + 1)).map (ofHeight height height.length) =
      (List.range (tallest height + 1)).map fun k => (order.drop (below height k)).take (height.count k) :=
    List.map_congr_left fun k _ => (waves k).symm
  rw [iter_byHeight, same, slices_eq, all, List.take_length, plan]

end Waves

-- A cell and the cells under it.
def Descends (raw : List RawCell) : Nat → Nat → Prop :=
  Relation.ReflTransGen fun index target => target ∈ refsAt raw index

theorem descends_iff {count : Nat} {f : Forward raw count} {finish : RawCell → List α → Except CellError α}
    {i j : Nat} : Descends raw i j ↔ (bagGraph finish f).Reaches i j := by
  constructor
  · intro path
    induction path
    case refl => exact .refl i
    case tail dep hi => exact hi.tail dep
  · intro path
    induction path
    case refl => exact .refl
    case step dep _ hi => exact .head dep hi

-- The pass before its first cell.
def blank (count : Nat) : Held α :=
  ⟨List.replicate count none, {}⟩

theorem finalize_order (one : Nat → List (Option α) → Except CellError (Option α)) (count : Nat)
    (height : List Nat) :
    finalize one count (.byHeight height) = runWave one (Waves.byHeight height).order (blank count) := by
  rw [Waves.order_byHeight, runWave, List.foldl_flatten]
  rfl

-- A value is missing once its cell is settled exactly if something under it failed.
theorem settled_missing {count : Nat} {f : Forward raw count} {finish : RawCell → List α → Except CellError α}
    {slots : List (Option α)} {index : Nat} (s : (bagGraph finish f).Settled slots) (lt : index < count) :
    slots[index]? = some none ↔ ∃ j e, Descends raw index j ∧ FailsAlone finish raw j e := by
  have within : index < slots.length := s.length ▸ lt
  have held := List.getElem?_eq_getElem within
  have value := s.value_iff lt
  constructor
  · intro missing
    by_contra sound
    push Not at sound
    have ⟨_, found⟩ := value.mpr fun j path e fails =>
      sound j e (descends_iff.mpr path) ((settled_fails s (path.lt lt)).mp fails)
    cases missing.symm.trans found
  · intro ⟨j, e, path, alone⟩
    cases found : slots[index]
    case none => rw [held, found]
    case some v =>
      have reaches : (bagGraph finish f).Reaches index j := descends_iff.mp path
      have fails := (settled_fails s (reaches.lt lt)).mpr alone
      exact absurd fails (value.mp ⟨v, by rw [held, found]⟩ j reaches e)

-- A cell of the plan, when the pass reaches it.
theorem missing_iff {count : Nat} (f : Forward raw count) (known : HeightsFrom raw 0 height)
    (finish : RawCell → List α → Except CellError α) {front rest : List Nat} {index target : Nat}
    (split : (Waves.byHeight height).order = front ++ index :: rest)
    (mem : target ∈ refsAt raw index) : target ∈ front ∧
      ((runWave (stepOver finish raw) front (blank count)).slots[target]? = some none ↔
        ∃ j e, Descends raw target j ∧ FailsAlone finish raw j e) := by
  rw [Waves.order_byHeight] at split
  have follows : (bagGraph finish f).Follows [] (front ++ index :: rest) :=
    split ▸ (Waves.byHeight_lists f known).follows f
  have ⟨first, _, _, ready, _⟩ := follows.of_append
  have done : target ∈ front.reverse ++ [] := ready mem
  have init : Passed (bagGraph finish f) [] (blank count) := .init _
  have filled := (init.runWave first).filled
  have verdict : (bagGraph finish f).Verdict _ _ := finalize_verdict f known
  refine ⟨by simpa using done, ?_⟩
  rw [← settled_missing verdict.settled (filled.within target done),
    ← filled.agree verdict.settled target done]
  rfl

theorem byHeight_plans [Sha256] {r r' : Reader} (read : (readRaw header).Ends r raw r')
    (tall : heights raw header.count = .ok height) :
    let plan := Waves.byHeight height
    -- every cell once, by height and then by index
    plan.order.Perm (List.range header.count) ∧
    plan.order = plan.iter.flatten ∧
    plan.iter = (List.range (Waves.tallest height + 1)).map
      (fun k => (List.range header.count).filter fun index => height[index]? = some k) ∧
    (∀ (index : Nat) (rawCell : RawCell), raw[index]? = some rawCell → height[index]? = some (heightOver height rawCell)) ∧
    -- the pass goes along the plan, and finds what a cell references where nothing has failed
    ∀ payload,
      finalize (buildStep raw payload) header.count plan =
        runWave (buildStep raw payload) plan.order (blank header.count) ∧
      ∀ front index rest, plan.order = front ++ index :: rest → ∀ target ∈ refsAt raw index,
        target ∈ front ∧
        ((runWave (buildStep raw payload) front (blank header.count)).slots[target]? = some none ↔
          ∃ j e, Descends raw target j ∧ FailsAlone (buildOver payload) raw j e) := by
  have ⟨f, _⟩ := readRaw_forward header (show Over r.bytes r from rfl) read
  have known := heights_known f tall
  have length : height.length = header.count := known.length.trans f.length
  intro plan
  refine ⟨?_, Waves.order_byHeight height, ?_, fun index rawCell here => ?_, fun payload => ⟨?_, ?_⟩⟩
  · rw [Waves.order_byHeight, ← length]
    exact Waves.byHeight_perm height
  · rw [Waves.iter_byHeight, length]
    rfl
  · have lt : index < height.length := known.length ▸ (List.getElem?_eq_some_iff.mp here).1
    rw [← known.above index rawCell (Nat.zero_le _) here, List.getD_eq_getElem _ _ lt, List.getElem?_eq_getElem lt]
  · exact finalize_order ..
  · intro front index rest split target mem
    rw [buildStep_eq]
    exact missing_iff f known (buildOver payload) split mem

section Faulty

-- A cell over one that claims a level it does not have.
def faultyBag : Bytes :=
  .be 16 0xb5ee9c72010102010005000100012000

attribute [local instance] Sha256.standard

def faultyRun : Option (List (List Nat) × List Nat × Option Bool) := do
  let (header, raw) ← readBag faultyBag
  let height ← (heights raw header.count).toOption
  return (raw.map RawCell.refs, (Waves.byHeight height).order,
    (runWave (buildStep raw faultyBag) [1] (blank header.count)).slots[1]?.map Option.isNone)

theorem byHeight_plans_faultyBag : ∃ header raw height, ReadBag faultyBag {} header raw ∧
    heights raw header.count = .ok height ∧ (Waves.byHeight height).order = [1, 0] ∧
    ∃ j e, Descends raw 1 j ∧ FailsAlone (buildOver faultyBag) raw j e := by
  have run : faultyRun = some ([[1], []], [1, 0], some true) := by decide +kernel
  simp only [faultyRun, Option.bind_eq_bind, Option.bind_eq_some_iff, toOption_eq_some, Option.pure_def,
    Option.some_inj, Prod.mk.injEq, Option.map_eq_some_iff, Option.isNone_iff_eq_none, exists_eq_right] at run
  obtain ⟨⟨header, raw⟩, bag, height, tall, refs, order, missing⟩ := run
  have ⟨r, r', headerRead, read⟩ := readBag_eq_some bag
  obtain ⟨root, leaf, rfl, named, _⟩ := raw_of_refs refs
  have here : [root, leaf][0]? = some root := rfl
  have target : 1 ∈ refsAt [root, leaf] 0 := by
    rw [refsAt_eq here, named]
    exact List.mem_singleton.mpr rfl
  have ⟨_, _, _, _, pass⟩ := byHeight_plans read tall
  have ⟨_, reached⟩ := (pass faultyBag).right [1] 0 [] order 1 target
  exact ⟨header, _, height, ⟨r, r', headerRead, read⟩, tall, order, reached.mp missing⟩

end Faulty

end TonNet
