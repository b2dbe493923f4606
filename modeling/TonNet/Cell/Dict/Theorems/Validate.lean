import TonNet.Cell.Theorems.Produced
import TonNet.Cell.Dict.Theorems.Summary

-- A dictionary that passes validation carries the right summaries, wherever its cells come from.

namespace TonNet

open Fallible Method

section Nodes

variable {ε : Type}

-- The nodes of a dictionary, each with the bits of the key that are left at it.
def Shape.nodes : Nat → Cell → Nat → List (Cell × Nat)
  | 0, c, n          => [(c, n)]
  | passes + 1, c, n =>
    (c, n) ::
      match (readLabel n).call c.parse with
      | .error _       => []
      | .ok (label, _) =>
        if label.length = n then []
        else (c.refs.take 2).flatMap fun child => nodes passes child (n - label.length - 1)

theorem Shape.mem_nodes (passes : Nat) (c : Cell) (n : Nat) : (c, n) ∈ nodes passes c n := by
  cases passes <;> simp [nodes]

theorem Shape.nodes_leaf {passes n : Nat} {c : Cell} {label : Label} {s : Slice}
    (read : (readLabel n).call c.parse = .ok (label, s)) (spent : label.length = n) :
    nodes (passes + 1) c n = [(c, n)] := by
  rw [nodes, read]
  dsimp only
  rw [if_pos spent]

theorem Shape.nodes_fork {passes n : Nat} {c : Cell} {label : Label} {s : Slice}
    (read : (readLabel n).call c.parse = .ok (label, s)) (more : label.length ≠ n) :
    nodes (passes + 1) c n =
      (c, n) :: (c.refs.take 2).flatMap fun child => nodes passes child (n - label.length - 1) := by
  rw [nodes, read]
  dsimp only
  rw [if_neg more]

variable [Sha256]

-- A fork put together again from what it should hold.
def Shape.refork (shape : Shape ε) (c : Cell) (n : Nat) : Option Cell := do
  let (label, _) ← ((readLabel n).call c.parse).toOption
  let left ← c.reference 0
  let right ← c.reference 1
  if label.length = n then none
  else (shape.fork label left right n (n - label.length - 1)).toOption

-- The strings that are hashed when a dictionary is validated.
def Shape.compared (shape : Shape ε) (root : Cell) (n : Nat) : List Bytes :=
  root.hashed ++ ((nodes (n + 1) root n).filterMap fun (c, n) => shape.refork c n).flatMap Cell.hashed

end Nodes

namespace Augmentation

variable {ε : Type} {aug : Augmentation ε} {code : ε → Option (List Bool)} {c : Cell} {n : Nat} {label : Label}

-- A fork of its shortest label, of the summary its two sides combine to, and of two references.
structure Exact (aug : Augmentation ε) (code : ε → Option (List Bool)) (c : Cell) (n : Nat) (label : Label)
    (cells : Bool → Cell) (extra : ε) : Prop where
  refs     : c.refs = [cells false, cells true]
  content  : ∃ bits, code extra = some bits ∧ c.toBits = labelBits label n ++ bits
  combined : ∃ extras : Bool → ε,
    (∀ b, extraOf aug.read (cells b) (n - label.length - 1) = .ok (extras b)) ∧
    aug.combine (extras false) (extras true) = .ok extra

-- A tree whose forks are all exact.
inductive Laid (aug : Augmentation ε) (code : ε → Option (List Bool)) : Cell → Nat → Prop
  | leaf {c : Cell} {n : Nat} {label : Label} {s : Slice} (opens : Shape.Opens c n label s)
    (spent : label.length = n) : Laid aug code c n
  | fork {c : Cell} {n : Nat} {label : Label} {s : Slice} {cells : Bool → Cell} {extra : ε}
    (opens : Shape.Opens c n label s) (more : label.length < n) (exact : aug.Exact code c n label cells extra)
    (below : ∀ b, Laid aug code (cells b) (n - label.length - 1)) : Laid aug code c n

theorem Exact.reference {cells : Bool → Cell} {extra : ε} (h : aug.Exact code c n label cells extra) (b : Bool) :
    c.reference b.toNat = some (cells b) := by
  rw [Cell.reference, h.refs]
  cases b <;> rfl

theorem Exact.of_mem {cells : Bool → Cell} {extra : ε} (h : aug.Exact code c n label cells extra)
    {child : Cell} (mem : child ∈ c.refs.take 2) : ∃ b, child = cells b := by
  rw [h.refs] at mem
  obtain rfl | rfl : child = cells false ∨ child = cells true := by simpa using mem
  · exact ⟨false, rfl⟩
  · exact ⟨true, rfl⟩

theorem Laid.nodes (h : aug.Laid code c n) (passes : Nat) :
    ∀ node ∈ Shape.nodes passes c n, aug.Laid code node.1 node.2 := by
  induction passes generalizing c n
  case zero => simpa [Shape.nodes] using h
  case succ passes hi =>
    obtain ⟨opens, spent⟩ | ⟨opens, more, exact, below⟩ := id h
    · rw [Shape.nodes_leaf opens.read spent]
      simpa using h
    · rw [Shape.nodes_fork opens.read more.ne]
      refine List.forall_mem_cons.mpr ⟨h, List.forall_mem_flatMap.mpr fun child mem => ?_⟩
      obtain ⟨b, rfl⟩ := exact.of_mem mem
      exact hi (below b)

theorem Laid.exact {s : Slice} (h : aug.Laid code c n) (read : (readLabel n).call c.parse = .ok (label, s))
    (more : label.length < n) : ∃ cells extra, aug.Exact code c n label cells extra := by
  obtain ⟨opens, spent⟩ | ⟨opens, _, exact, _⟩ := h
  · have ⟨same, _⟩ := Prod.mk.inj (Except.ok.inj (opens.read.symm.trans read))
    exact absurd spent (same ▸ more.ne)
  · have ⟨same, _⟩ := Prod.mk.inj (Except.ok.inj (opens.read.symm.trans read))
    exact ⟨_, _, same ▸ exact⟩

theorem Exact.carried (codec : aug.Codec code) {cells : Bool → Cell} {extra : ε} {s : Slice}
    (h : aug.Exact code c n label cells extra) (opens : Shape.Opens c n label s) (more : label.length < n)
    (bound : n ≤ maxBits) : ∃ s', aug.read.Ends s extra s' := by
  have ⟨bits, coded, content⟩ := h.content
  have node : Node c label n bits := ⟨opens.ordinary, more.le, bound, content⟩
  have ⟨_, read, ahead, refs⟩ := node.readLabel
  obtain ⟨_, rfl⟩ := Prod.mk.inj (Except.ok.inj (opens.read.symm.trans read))
  have ⟨s', reads, _⟩ := codec.reads coded s [] s.refsAhead (by simpa using ahead) rfl
  exact ⟨s', reads⟩

-- A summary that can be read at the top is there all the way down.
theorem Laid.sums (codec : aug.Codec code) (h : aug.Laid code c n) (bound : n ≤ maxBits) {e : ε}
    (read : extraOf aug.read c n = .ok e) : ∃ t, aug.Sums c n t e := by
  induction h generalizing e
  case leaf opens spent =>
    rw [opens.extraOf, value_eq_ok] at read
    obtain ⟨_, carried⟩ := read
    exact ⟨_, .leaf opens spent (call_eq_ok.mpr carried)⟩
  case fork c n label s cells extra opens more exact below hi =>
    have ⟨extras, each, combined⟩ := exact.combined
    have ⟨s', carried⟩ := exact.carried codec opens more bound
    rw [opens.extraOf, value_of_ends carried] at read
    obtain rfl := Except.ok.inj read
    choose child sums using fun b => hi b (by omega) (each b)
    exact ⟨_, .fork opens more exact.reference sums combined (call_eq_ok.mpr carried)⟩

variable [Sha256] {strings : List Bytes}

theorem refork_of_fork {left right expected : Cell} {s : Slice}
    (read : (readLabel n).call c.parse = .ok (label, s)) (more : label.length ≠ n)
    (hl : c.reference 0 = some left) (hr : c.reference 1 = some right)
    (built : aug.shape.fork label left right n (n - label.length - 1) = .ok expected) :
    aug.shape.refork c n = some expected := by
  simp only [Shape.refork, read, hl, hr, Except.toOption, Option.bind_eq_bind, Option.bind_some, if_neg more,
    built]

-- A fork with the hash of the one its parts make is that one.
theorem Codec.exact_of_fork (codec : aug.Codec code) (cf : CollisionFree strings) (bound : n ≤ maxBits)
    {cells : Bool → Cell} {expected : Cell} (wf : c.WellFormed) (wfs : ∀ b, (cells b).WellFormed)
    (inside : c.hashed ⊆ strings) (known : expected.hashed ⊆ strings)
    (built : aug.shape.fork label (cells false) (cells true) n (n - label.length - 1) = .ok expected)
    (same : expected.reprHash = c.reprHash) : ∃ extra, aug.Exact code c n label cells extra := by
  have ⟨_, extra, bits, carried, coded, makes⟩ := (Shape.fork_eq_ok codec.lawful.toSpelled bound).mp built
  have refs : ∀ r ∈ [cells false, cells true], r.WellFormed := by simpa using ⟨wfs false, wfs true⟩
  obtain rfl := Cell.eq_of_reprHash_eq cf (makes.wellFormed refs) wf known inside same
  have ⟨_, content, refs⟩ := makes.cell
  obtain ⟨left, readLeft, carried⟩ := bind_eq_ok.mp carried
  obtain ⟨right, readRight, combined⟩ := bind_eq_ok.mp carried
  refine ⟨extra, refs, ⟨bits, coded, content⟩, fun b => if b then right else left, ?_, combined⟩
  rintro (_ | _)
  · exact readLeft
  · exact readRight

theorem Codec.laid_of_validate (codec : aug.Codec code) (cf : CollisionFree strings) {passes : Nat}
    (wf : c.WellFormed) (inside : c.hashed ⊆ strings)
    (again : ∀ node ∈ Shape.nodes passes c n, ∀ expected, aug.shape.refork node.1 node.2 = some expected →
      expected.hashed ⊆ strings)
    (ordinary : ∀ node ∈ Shape.nodes passes c n, node.1.isExotic = false) (bound : n ≤ maxBits)
    (valid : aug.shape.validateNode passes c n = .ok ()) : aug.Laid code c n := by
  induction passes generalizing c n
  case zero => cases valid
  case succ passes hi =>
    have here : c.isExotic = false := ordinary _ (Shape.mem_nodes ..)
    rw [Shape.validateNode, if_neg (by simp [here]), bind_eq_ok] at valid
    obtain ⟨⟨label, s⟩, read, valid⟩ := valid
    have le := readLabel_le read
    by_cases spent : label.length = n
    case pos => exact .leaf ⟨here, read⟩ spent
    case neg =>
      simp only [if_neg spent, okOr_bind_eq_ok] at valid
      obtain ⟨left, hl, right, hr, valid⟩ := valid
      obtain ⟨_, checked, valid⟩ := bind_eq_ok.mp valid
      obtain ⟨_, validLeft, validRight⟩ := bind_eq_ok.mp valid
      let cells (b : Bool) : Cell := if b then right else left
      have branch (b : Bool) : c.reference b.toNat = some (cells b) := by
        cases b
        · exact hl
        · exact hr
      have mem (b : Bool) : cells b ∈ c.refs.take 2 := by
        refine List.mem_of_getElem? (i := b.toNat) ?_
        rw [List.getElem?_take, if_pos (Bool.toNat_lt b)]
        exact branch b
      have ref (b : Bool) : cells b ∈ c.refs := List.mem_of_mem_take (mem b)
      have nodes (b : Bool) : Shape.nodes passes (cells b) (n - label.length - 1) ⊆
          Shape.nodes (passes + 1) c n := by
        rw [Shape.nodes_fork read spent]
        exact fun node there => List.mem_cons_of_mem _ (List.mem_flatMap.mpr ⟨cells b, mem b, there⟩)
      have plain (b : Bool) : (cells b).isExotic = false := ordinary (cells b, _) (nodes b (Shape.mem_nodes ..))
      have plainLeft : left.isExotic = false := plain false
      have plainRight : right.isExotic = false := plain true
      rw [onlyIf, if_pos (by simp [plainLeft, plainRight]), bind_eq_ok] at checked
      obtain ⟨expected, built, checked⟩ := checked
      have known := again (c, n) (Shape.mem_nodes ..) expected (refork_of_fork read spent hl hr built)
      have built : aug.shape.fork label (cells false) (cells true) n (n - label.length - 1) = .ok expected := built
      obtain ⟨extra, exact⟩ := codec.exact_of_fork cf bound wf (fun b => wf.refs _ (ref b)) inside known built
        (not_not.mp (failIf_eq_ok.mp checked))
      refine .fork ⟨here, read⟩ (lt_of_le_of_ne le spent) exact fun b => ?_
      refine hi (wf.refs _ (ref b)) (fun _ there => inside (Cell.hashed_subset_of_mem (ref b) there))
        (fun node there => again node (nodes b there)) (fun node there => ordinary node (nodes b there))
        (by omega) ?_
      cases b
      · exact validLeft
      · exact validRight

end Augmentation

namespace AugDict

variable {ε : Type} {aug : Augmentation ε} {code : ε → Option (List Bool)} {dict : AugDict ε} {keyBits : Nat}
  {root : Cell}

-- The entries come in ascending order of their keys.
def Ascends (dict : AugDict ε) : Prop :=
  ∃ keys : List (List Bool), (dict.items.filterMap Except.toOption).map Prod.fst = keys.map pack ∧
    keys.Pairwise (· < ·)

theorem ascends (dict : AugDict ε) : dict.Ascends := by
  obtain ⟨keys, named, ascending, _⟩ : ∃ keys, List.Forall₂ (fun (item : Shape.Item ε) key =>
      item.1 = pack key) ((dict.iter.items dict.aug.shape).filterMap Except.toOption) keys ∧ _ :=
    DictIter.items_ascend dict.root dict.keyBits
  have yielded : dict.items.filterMap Except.toOption =
      ((dict.iter.items dict.aug.shape).filterMap Except.toOption).map
        fun item => (item.1, ⟨item.2.1, item.2.2⟩) := by
    rw [items, List.filterMap_map, List.map_filterMap]
    refine List.filterMap_congr fun item _ => ?_
    cases item <;> rfl
  refine ⟨keys, ?_, ascending⟩
  rw [yielded, List.map_map, ← List.forall₂_eq_eq_eq, List.forall₂_map_left_iff, List.forall₂_map_right_iff]
  exact named

-- The one item of a leaf whose summary cannot be read.
theorem items_of_unread {label : Label} {s : Slice} (opens : Shape.Opens root keyBits label s)
    (spent : label.length = keyBits) {bound : keyBits ≤ maxBits} {e : CellError}
    (unread : aug.read.value s = .error e) : items ⟨aug, some root, keyBits, bound⟩ = [.error e] := by
  have failed : aug.shape.look (root, [], keyBits) = .error e := by
    rw [Shape.look, failIf_bind_of_not (by simp [opens.ordinary]), opens.read, ok_bind]
    dsimp only
    rw [extend_eq_ok (by simpa using spent ▸ bound), ok_bind, if_pos spent]
    have carried : aug.shape.readExtra.call s = .error e := call_eq_error.mpr unread
    rw [carried]
    rfl
  have runs : Unfold.Runs aug.shape.look [(root, [], keyBits)] _ := DictIter.runs_items (some root) keyBits
  rw [items, iter, runs.unique (.fails failed)]
  rfl

-- The summaries of the entries combine to the one at the root.
theorem rootExtra_of_laid (codec : aug.Codec code) (laid : aug.Laid code root keyBits)
    (opened : fromRoot aug (some root) keyBits = .ok dict)
    (assoc : Associates aug.combine
      (Combined aug.combine fun e => ∃ item, .ok item ∈ dict.items ∧ item.2.extra = e)) :
    dict.rootExtra = (dict.items.mapM id >>= fun shown =>
      combineAll aug.combine (shown.map fun item => item.2.extra)) := by
  obtain ⟨bound, rfl⟩ := fromRoot_eq_ok.mp opened
  cases read : extraOf aug.read root keyBits
  case error e =>
    have total : rootExtra ⟨aug, some root, keyBits, bound⟩ = .error e := by
      rw [rootExtra]
      dsimp only
      rw [read]
      rfl
    obtain ⟨opens, spent⟩ | ⟨opens, more, exact, _⟩ := laid
    · rw [opens.extraOf] at read
      rw [total, items_of_unread opens spent read]
      rfl
    · have ⟨_, carried⟩ := exact.carried codec opens more bound
      rw [opens.extraOf, value_of_ends carried] at read
      cases read
  case ok e =>
    have ⟨t, sums⟩ := laid.sums codec bound read
    have listed : items ⟨aug, some root, keyBits, bound⟩ =
        (t.entries.map fun (key, extra, entry) => (pack key, AugEntry.mk extra entry)).map .ok := by
      rw [items, iter, DictIter.items_of_shows sums.shows bound, Shape.Yield, List.map_map, List.map_map,
        List.map_map]
      rfl
    have all : ∀ a ∈ t.entries.map fun entry => entry.2.1,
        ∃ item, .ok item ∈ items ⟨aug, some root, keyBits, bound⟩ ∧ item.2.extra = a := by
      rw [List.forall_mem_map, listed]
      exact fun entry mem =>
        ⟨_, List.mem_map.mpr ⟨_, List.mem_map.mpr ⟨entry, mem, rfl⟩, rfl⟩, rfl⟩
    have whole (shown : List (Bytes × AugEntry ε)) :
        (shown.map Except.ok).mapM id = (.ok shown : Except CellError _) :=
      mapM_eq_ok_of_forall₂ (List.forall₂_map_left_iff.mpr (List.forall₂_same.mpr fun _ _ => rfl))
    have total : rootExtra ⟨aug, some root, keyBits, bound⟩ = .ok (some e) := by
      rw [rootExtra]
      dsimp only
      rw [read]
      rfl
    rw [total, ← sums.combineAll assoc all, listed, whole, ok_bind, List.map_map]
    rfl

variable [Sha256]

-- What validation says about a dictionary whose nodes are all there.
theorem validate_sound (codec : aug.Codec code) (opened : fromRoot aug (some root) keyBits = .ok dict)
    (wf : root.WellFormed) (cf : CollisionFree (aug.shape.compared root keyBits))
    (ordinary : ∀ node ∈ Shape.nodes (keyBits + 1) root keyBits, node.1.isExotic = false)
    (valid : dict.validate = .ok ()) :
    (∀ c n label s, (c, n) ∈ Shape.nodes (keyBits + 1) root keyBits →
      (readLabel n).call c.parse = .ok (label, s) → label.length < n →
      ∃ cells extra, aug.Exact code c n label cells extra) ∧
    dict.Ascends ∧
    (Associates aug.combine (Combined aug.combine fun e => ∃ item, .ok item ∈ dict.items ∧ item.2.extra = e) →
      dict.rootExtra = (dict.items.mapM id >>= fun shown =>
        combineAll aug.combine (shown.map fun item => item.2.extra))) := by
  have laid : aug.Laid code root keyBits := by
    obtain ⟨bound, rfl⟩ := fromRoot_eq_ok.mp opened
    refine codec.laid_of_validate cf wf (List.subset_append_left ..) (fun node mem expected built => ?_)
      ordinary bound valid
    refine List.subset_append_of_subset_right _ fun s there => ?_
    exact List.mem_flatMap.mpr ⟨expected, List.mem_filterMap.mpr ⟨node, mem, built⟩, there⟩
  exact ⟨fun c n label s mem read more => (laid.nodes _ (c, n) mem).exact read more, dict.ascends,
    fun assoc => rootExtra_of_laid codec laid opened assoc⟩

end AugDict

section Forked

attribute [local instance] Sha256.standard

-- A fork over two leaves, as it may come from the wire.
def forkedRun : Option (Bool × Bool × Bool × Bool × Option UInt32) := do
  let (_, value) ← ((Builder.storeUint 0xaa 8).call .new).toOption
  let left ← (countSum.shape.leaf [] ⟨1, value⟩ 0).toOption
  let right ← (countSum.shape.leaf [] ⟨2, value⟩ 0).toOption
  let root ← (countSum.shape.fork [] left right 1 0).toOption
  let dict ← (AugDict.fromRoot countSum (some root) 1).toOption
  let extra ← dict.rootExtra.toOption
  return (value.refs.isEmpty, decide (CollisionFree (countSum.shape.compared root 1)),
    (Shape.nodes 2 root 1).all fun node => !node.1.isExotic, dict.validate.toOption.isSome, extra)

theorem AugDict.validate_sound_forked : ∃ root dict, AugDict.fromRoot countSum (some root) 1 = .ok dict ∧
    dict.validate = .ok () ∧ dict.rootExtra = .ok (some 3) ∧
    (dict.items.mapM id >>= fun shown =>
      combineAll countSum.combine (shown.map fun item => item.2.extra)) = .ok (some 3) := by
  have run : forkedRun = some (true, true, true, true, some 3) := by decide +kernel
  simp only [forkedRun, Option.bind_eq_bind, Option.bind_eq_some_iff, toOption_eq_some, Option.pure_def,
    Option.some_inj, Prod.mk.injEq, Prod.exists, decide_eq_true_eq, List.isEmpty_iff] at run
  obtain ⟨_, value, _, left, hl, right, hr, root, built, dict, opened, _, extra, empty, cf, plain, valid, rfl⟩ := run
  have spelled := countSum_codec.lawful.toSpelled
  have leaf {e : UInt32} {c : Cell} (h : countSum.shape.leaf [] ⟨e, value⟩ 0 = .ok c) : c.WellFormed := by
    have ⟨_, _, _, makes⟩ := (Shape.leaf_eq_ok spelled (by decide)).mp h
    exact makes.wellFormed (by simp [empty])
  have wf : root.WellFormed := by
    have ⟨_, _, _, _, _, makes⟩ := (Shape.fork_eq_ok spelled (by decide)).mp built
    exact makes.wellFormed (by simpa using ⟨leaf hl, leaf hr⟩)
  have valid : dict.validate = .ok () := by
    obtain ⟨_, valid⟩ := Option.isSome_iff_exists.mp valid
    exact toOption_eq_some.mp valid
  have ⟨_, _, total⟩ := AugDict.validate_sound countSum_codec opened wf cf (by simpa using plain) valid
  exact ⟨root, dict, opened, valid, extra, (total (countSum_associates _)).symm.trans extra⟩

end Forked

end TonNet
