import TonNet.Boc.Parse
import TonNet.Lib.Lists
import Mathlib.Data.List.Range
import Mathlib.Data.List.Count

-- The wave plan: a counting sort of the cells by their heights.

namespace TonNet

namespace Waves

variable {height : List Nat} {k m : Nat}

-- Where the wave of height `k` begins.
def below (height : List Nat) (k : Nat) : Nat :=
  height.countP (· < k)

-- The cells of one height among the first `m`, in ascending order.
def ofHeight (height : List Nat) (m k : Nat) : List Nat :=
  (List.range m).filter fun index => height[index]? = some k

theorem below_succ (height : List Nat) (k : Nat) :
    below height (k + 1) = below height k + height.count k := by
  induction height
  case nil => rfl
  case cons h height hi =>
    simp only [below, List.countP_cons, List.count_cons, beq_iff_eq, decide_eq_true_eq] at hi ⊢
    split_ifs <;> omega

theorem below_mono (height : List Nat) {k' : Nat} (h : k ≤ k') : below height k ≤ below height k' :=
  List.countP_mono_left fun x _ hx => by simp only [decide_eq_true_eq] at hx ⊢; omega

theorem below_le_length (height : List Nat) (k : Nat) : below height k ≤ height.length :=
  List.countP_le_length

theorem below_zero : below height 0 = 0 := by
  simp [below]

-- A list of counters as the function it tabulates.
def table (size : Nat) (f : Nat → Nat) : List Nat :=
  (List.range size).map f

section Table

variable {size : Nat} {f g : Nat → Nat} {j : Nat}

@[simp]
theorem length_table : (table size f).length = size := by
  simp [table]

theorem getElem?_table (h : j < size) : (table size f)[j]? = some (f j) := by
  simp [table, h]

theorem getD_table (h : j < size) : (table size f).getD j 0 = f j := by
  simp [table, h]

theorem table_congr (h : ∀ j < size, f j = g j) : table size f = table size g :=
  List.map_congr_left fun j hj => h j (List.mem_range.mp hj)

theorem set_table (v : Nat) : (table size f).set k v = table size (Function.update f k v) := by
  apply List.ext_getElem (by simp)
  intro j hj _
  have lt : j < size := by simpa using hj
  simp only [table, List.getElem_set, List.getElem_map, List.getElem_range, Function.update_apply,
    eq_comm]

theorem modify_table (u : Nat → Nat) :
    (table size f).modify k u = table size (Function.update f k (u (f k))) := by
  apply List.ext_getElem (by simp)
  intro j hj _
  have lt : j < size := by simpa using hj
  simp only [table, List.getElem_modify, List.getElem_map, List.getElem_range,
    Function.update_apply, eq_comm]
  split_ifs <;> simp_all

end Table

theorem counted_eq (height : List Nat) (size : Nat) (f : Nat → Nat) :
    height.foldl (fun starts wave => starts.modify (wave + 1) (· + 1)) (table size f) =
      table size fun k => f k + height.countP (· + 1 = k) := by
  induction height generalizing f
  case nil => rfl
  case cons h height hi =>
    rw [List.foldl_cons, modify_table, hi]
    refine table_congr fun k _ => ?_
    rw [Function.update_apply, List.countP_cons]
    simp only [decide_eq_true_eq, eq_comm (a := k)]
    split_ifs with e
    · subst e; omega
    · omega

-- Running sums turn the counts into the places where the waves begin.
theorem begun_eq (height : List Nat) {size : Nat} (h : m < size) :
    (List.range' 1 m).foldl (fun starts k => starts.modify k (· + starts.getD (k - 1) 0))
        (table size fun k => height.countP (· + 1 = k)) =
      table size fun k => if k ≤ m then below height k else height.countP (· + 1 = k) := by
  induction m
  case zero =>
    refine table_congr fun k _ => ?_
    split_ifs with e
    · obtain rfl : k = 0 := by omega
      simp [below]
    · rfl
  case succ m hi =>
    rw [List.range'_1_concat, List.foldl_append, hi (by omega), List.foldl_cons, List.foldl_nil,
      Nat.add_comm 1 m, Nat.add_sub_cancel, getD_table (by omega), modify_table]
    refine table_congr fun k _ => ?_
    have next : below height (m + 1) = below height m + height.countP (· + 1 = m + 1) := by
      rw [below_succ, List.count_eq_countP, Nat.add_left_cancel_iff]
      exact List.countP_congr fun x _ => by simp
    rw [Function.update_apply]
    split_ifs <;> first | omega | (simp_all; omega)

-- Moving every beginning one place up.
theorem shifted_eq {size : Nat} (f : Nat → Nat) (h : m < size) :
    (List.range' 1 m).reverse.foldl (fun starts k => starts.set k (starts.getD (k - 1) 0))
        (table size f) =
      table size fun k => if 1 ≤ k ∧ k ≤ m then f (k - 1) else f k := by
  induction m generalizing f
  case zero =>
    refine table_congr fun k _ => ?_
    rw [if_neg (by omega)]
  case succ m hi =>
    rw [List.range'_1_concat, List.reverse_append, List.reverse_singleton, List.singleton_append,
      List.foldl_cons, Nat.add_comm 1 m, Nat.add_sub_cancel, getD_table (by omega), set_table,
      hi _ (by omega)]
    refine table_congr fun k _ => ?_
    simp only [Function.update_apply]
    split_ifs <;> first | omega | rfl | (congr 1; omega)

-- What the placing loop has done after the first `m` cells: each wave holds its first ones, and its
-- cursor stands behind them.
structure Placed (height : List Nat) (size m : Nat) (starts order : List Nat) : Prop where
  cursors : starts = table size fun k => below height k + (height.take m).count k
  length  : order.length = height.length
  waves   : ∀ k, (order.drop (below height k)).take ((height.take m).count k) = ofHeight height m k

theorem count_take_le (height : List Nat) (m k : Nat) :
    (height.take m).count k ≤ height.count k :=
  (List.take_sublist m height).count_le k

theorem drop_take_set {l : List Nat} {start len slot v : Nat} (h : slot < start ∨ start + len ≤ slot) :
    ((l.set slot v).drop start).take len = (l.drop start).take len := by
  apply List.ext_getElem?
  intro i
  simp only [List.getElem?_take, List.getElem?_drop]
  split_ifs
  · rw [List.getElem?_set_ne (by omega)]
  · rfl

theorem drop_take_set_last {l : List Nat} {start len v : Nat} (h : start + len < l.length) :
    ((l.set (start + len) v).drop start).take (len + 1) = (l.drop start).take len ++ [v] := by
  have inside : len < ((l.set (start + len) v).drop start).length := by
    rw [List.length_drop, List.length_set]
    omega
  rw [List.take_succ_eq_append_getElem inside, drop_take_set (.inr le_rfl)]
  simp

theorem Placed.step {size wave : Nat} {starts order : List Nat} (p : Placed height size m starts order)
    (hw : height[m]? = some wave) :
    Placed height size (m + 1)
      (starts.set wave (below height wave + (height.take m).count wave + 1))
      (order.set (below height wave + (height.take m).count wave) m) := by
  have ⟨lt, hm⟩ := List.getElem?_eq_some_iff.mp hw
  have taken : height.take (m + 1) = height.take m ++ [wave] := by
    rw [List.take_succ_eq_append_getElem lt, hm]
  have more : (height.take m).count wave + 1 ≤ height.count wave := by
    have := count_take_le height (m + 1) wave
    rwa [taken, List.count_append, List.count_singleton_self] at this
  have next := below_succ height wave
  have fits := below_le_length height (wave + 1)
  have members (k : Nat) :
      ofHeight height (m + 1) k = ofHeight height m k ++ if wave = k then [m] else [] := by
    rw [ofHeight, List.range_succ, List.filter_append, ← ofHeight]
    congr 1
    by_cases same : wave = k <;> simp [hw, same]
  constructor
  case cursors =>
    rw [p.cursors, set_table]
    refine table_congr fun k _ => ?_
    rw [Function.update_apply, taken, List.count_append, List.count_singleton]
    by_cases same : k = wave
    case pos => subst same; simp; omega
    case neg => simp [same, Ne.symm same]
  case length => rw [List.length_set, p.length]
  case waves =>
    intro k
    rw [members, taken, List.count_append, List.count_singleton]
    by_cases same : wave = k
    case pos =>
      subst same
      rw [if_pos rfl, if_pos (beq_self_eq_true _), drop_take_set_last (by rw [p.length]; omega),
        p.waves]
    case neg =>
      have outside : below height wave + (height.take m).count wave < below height k ∨
          below height k + (height.take m).count k ≤
            below height wave + (height.take m).count wave := by
        have count := count_take_le height m k
        have after := below_succ height k
        cases Nat.lt_or_gt_of_ne same
        case inl less =>
          have := below_mono height (show wave + 1 ≤ k from less)
          omega
        case inr more =>
          have := below_mono height (show k + 1 ≤ wave from more)
          omega
      rw [if_neg same, if_neg (by simpa using same), Nat.add_zero, List.append_nil,
        drop_take_set outside, p.waves]

-- One cell into the next place of its wave.
def place (acc : List Nat × List Nat) (cell : Nat × Nat) : List Nat × List Nat :=
  match acc.1[cell.1]? with
  | none      => acc
  | some slot => (acc.1.set cell.1 (slot + 1), acc.2.set slot cell.2)

theorem placed_foldl {size : Nat} (tall : ∀ h ∈ height, h < size) {starts order rest : List Nat}
    (le : m ≤ height.length) (hr : height.drop m = rest) (p : Placed height size m starts order) :
    ∃ starts' order', (rest.zipIdx m).foldl place (starts, order) = (starts', order') ∧
      Placed height size height.length starts' order' := by
  induction rest generalizing m starts order
  case nil =>
    obtain rfl : m = height.length := le_antisymm le (List.drop_eq_nil_iff.mp hr)
    exact ⟨starts, order, rfl, p⟩
  case cons wave rest hi =>
    have hw : height[m]? = some wave := by
      rw [← List.head?_drop, hr]
      rfl
    have cursor : starts[wave]? = some (below height wave + (height.take m).count wave) := by
      rw [p.cursors, getElem?_table (tall wave (List.mem_of_getElem? hw))]
    have tail : height.drop (m + 1) = rest := by
      rw [← List.drop_drop, hr]
      rfl
    rw [List.zipIdx_cons, List.foldl_cons, place]
    simp only [cursor]
    exact hi (List.getElem?_eq_some_iff.mp hw).1 tail (p.step hw)

def tallest (height : List Nat) : Nat :=
  height.foldl max 0

theorem le_tallest {h : Nat} (mem : h ∈ height) : h ≤ tallest height := by
  have whole : (0 :: height).max? = some (tallest height) := List.max?_cons'
  exact (List.max?_eq_some_iff.mp whole).right h (List.mem_cons_of_mem _ mem)

theorem tallest_mem (height : List Nat) : tallest height ∈ 0 :: height := by
  have whole : (0 :: height).max? = some (tallest height) := List.max?_cons'
  exact (List.max?_eq_some_iff.mp whole).left

-- The sort, with its loops named.
theorem byHeight_loops (height : List Nat) :
    let counted := height.foldl (fun starts wave => starts.modify (wave + 1) (· + 1))
      (List.replicate (tallest height + 2) 0)
    let begun := ((List.range counted.length).drop 1).foldl
      (fun starts k => starts.modify k (· + starts.getD (k - 1) 0)) counted
    let placed := height.zipIdx.foldl place (begun, List.replicate height.length 0)
    let shifted := ((List.range placed.1.length).drop 1).reverse.foldl
      (fun starts k => starts.set k (starts.getD (k - 1) 0)) placed.1
    byHeight height = ⟨placed.2, shifted.set 0 0⟩ :=
  rfl

theorem byHeight_eq (height : List Nat) : ∃ order, byHeight height =
    ⟨order, table (tallest height + 2) (below height)⟩ ∧ order.length = height.length ∧
      ∀ k, (order.drop (below height k)).take (height.count k) =
        ofHeight height height.length k := by
  have zeros : List.replicate (tallest height + 2) 0 = table (tallest height + 2) fun _ => 0 := by
    simp [table]
  have counted := counted_eq height (tallest height + 2) fun _ => 0
  simp only [Nat.zero_add] at counted
  have rest : (List.range (tallest height + 2)).drop 1 = List.range' 1 (tallest height + 1) := by
    rw [List.range_eq_range', List.drop_range']
    simp
  have begun := begun_eq height (Nat.lt_succ_self (tallest height + 1))
  have begins : (table (tallest height + 2) fun k => if k ≤ tallest height + 1 then below height k
      else height.countP (· + 1 = k)) = table (tallest height + 2) (below height) :=
    table_congr fun k hk => if_pos (by omega)
  have init : Placed height (tallest height + 2) 0 (table (tallest height + 2) (below height))
      (List.replicate height.length 0) :=
    ⟨by simp, by simp, by simp [ofHeight]⟩
  have tall : ∀ h ∈ height, h < tallest height + 2 := fun h mem => by
    have := le_tallest mem
    omega
  have ⟨spent, order, run, p⟩ := placed_foldl tall (Nat.zero_le _) (List.drop_zero ..) init
  have shifted := shifted_eq (fun k => below height k + (height.take height.length).count k)
    (Nat.lt_succ_self (tallest height + 1))
  refine ⟨order, ?_, p.length, by simpa using p.waves⟩
  have loops := byHeight_loops height
  simp only [zeros, counted, length_table, rest, begun, begins, run, p.cursors, shifted,
    set_table] at loops
  rw [loops]
  congr 1
  refine table_congr fun k hk => ?_
  rw [Function.update_apply]
  cases k
  case zero => rw [if_pos rfl, below_zero]
  case succ k => rw [if_neg (by omega), if_pos (by omega), Nat.add_sub_cancel, List.take_length,
    below_succ]

theorem iter_byHeight (height : List Nat) :
    (byHeight height).iter =
      (List.range (tallest height + 1)).map (ofHeight height height.length) := by
  have ⟨order, plan, length, waves⟩ := byHeight_eq height
  rw [plan, iter]
  have pairs : (table (tallest height + 2) (below height)).zip
      ((table (tallest height + 2) (below height)).drop 1) =
        (List.range (tallest height + 1)).map fun k => (below height k, below height (k + 1)) := by
    apply List.ext_getElem (by simp)
    intro k _ _
    simp [table, Nat.add_comm]
  simp only [pairs, List.filterMap_map]
  rw [← List.filterMap_eq_map]
  apply List.filterMap_congr
  intro k _
  have le := below_mono height (Nat.le_succ k)
  have fits := below_le_length height (k + 1)
  have size := below_succ height k
  simp only [Function.comp_apply, length]
  rw [if_pos ⟨le, fits⟩, ← waves k, size, Nat.add_sub_cancel_left]

end Waves

end TonNet
