import TonNet.Cell.Dict.Theorems.Tree

-- Setting and removing an entry rebuilds the cells on its path to those of the changed tree.

namespace TonNet

open Fallible Method Builder Slice

theorem getD_of_drop {bits front rest : List Bool} {b : Bool} {at_ : Nat}
    (h : bits.drop at_ = front ++ b :: rest) : bits.getD (at_ + front.length) false = b := by
  rw [List.getD_eq_getElem?_getD, ← List.getElem?_drop, h]
  simp

theorem drop_of_drop {bits front rest : List Bool} {b : Bool} {at_ : Nat}
    (h : bits.drop at_ = front ++ b :: rest) : bits.drop (at_ + (front.length + 1)) = rest := by
  rw [← List.drop_drop, h]
  simp

theorem extend_eq_ok {label run : Label} (le : (label ++ run).length ≤ maxBits) :
    label.extend run = .ok (label ++ run) := by
  induction run generalizing label
  case nil => simp [Label.extend, pure, Except.pure]
  case cons bit run hi =>
    have room : ¬label.length ≥ maxBits := by
      simp only [List.length_append, List.length_cons] at le
      omega
    have rest : Label.extend (label ++ [bit]) run = .ok _ := hi (by simpa using le)
    rw [List.append_assoc, List.singleton_append] at rest
    rw [Label.extend, List.foldlM_cons, Label.push, failIf_bind_of_not room]
    exact rest

namespace Shape

variable {ε : Type} [Sha256] {shape : Shape ε} {code : ε → Option (List Bool)} {c c' : Cell}
  {label key bits rest : List Bool} {n consumed passes : Nat} {path : List Step} {b : Bool}

section Descend

omit [Sha256]

theorem descendFrom_leaves {i : Nat} (node : Node c label n rest)
    (leaves : diverges label (bits.drop consumed) = some i) :
    shape.descendFrom bits (passes + 1) path c n consumed =
      .ok ⟨path, c, label, n, consumed, some i⟩ := by
  have ⟨s, read, _⟩ := node.readLabel
  rw [descendFrom, failIf_bind_of_not (by simp [node.ordinary]), read, ok_bind]
  simp only [leaves, Option.isSome_some, true_or, if_true]
  rfl

theorem descendFrom_ends (node : Node c label n rest) (length : label.length = n)
    (along : diverges label (bits.drop consumed) = none) :
    shape.descendFrom bits (passes + 1) path c n consumed =
      .ok ⟨path, c, label, n, consumed, none⟩ := by
  have ⟨s, read, _⟩ := node.readLabel
  rw [descendFrom, failIf_bind_of_not (by simp [node.ordinary]), read, ok_bind]
  simp only [along, length, or_true, if_true]
  rfl

end Descend

-- What the cell of a fork is made of.
structure Forked (shape : Shape ε) (c : Cell) (label : List Bool) (n : Nat) (cells : Bool → Cell) :
    Prop where
  lt    : label.length < n
  bound : n ≤ maxBits
  built : shape.fork label (cells false) (cells true) n (n - label.length - 1) = .ok c

variable {cells : Bool → Cell}

theorem Forked.node (f : Forked shape c label n cells) (law : shape.Spelled code) :
    ∃ e extra, code e = some extra ∧ Node c label n extra := by
  have ⟨le, e, extra, _, coded, makes⟩ := (fork_eq_ok law f.bound).mp f.built
  exact ⟨e, extra, coded, makes.node le f.bound⟩

theorem Forked.reference (f : Forked shape c label n cells) (law : shape.Spelled code) (b : Bool) :
    c.reference b.toNat = some (cells b) := by
  have ⟨_, _, _, _, _, makes⟩ := (fork_eq_ok law f.bound).mp f.built
  rw [Cell.reference, makes.cell.right.right]
  cases b <;> rfl

-- A fork that a descent gets through, to the branches that it is over.
structure Passable (shape : Shape ε) (c : Cell) (label : List Bool) (n : Nat) (cells : Bool → Cell) :
    Prop where
  ordinary  : c.isExotic = false
  checked   : ∃ s s', (readLabel n).call c.parse = .ok (label, s) ∧ shape.checkFork.Ends s () s'
  reference : ∀ b, c.reference b.toNat = some (cells b)

theorem Forked.passable (f : Forked shape c label n cells) (law : shape.Lawful code) :
    shape.Passable c label n cells where
  ordinary  := by
    have ⟨_, _, _, node⟩ := f.node law.toSpelled
    exact node.ordinary
  checked   := by
    have ⟨_, _, coded, node⟩ := f.node law.toSpelled
    have ⟨s, read, ahead, _⟩ := node.readLabel
    have ⟨s', check⟩ := law.checks coded ahead
    exact ⟨s, s', read, check⟩
  reference := f.reference law.toSpelled

section Passable

variable (h : shape.Passable c label n cells)
include h

omit [Sha256] in
theorem Passable.descendFrom (lt : label.length < n) (along : bits.drop consumed = label ++ b :: rest) :
    shape.descendFrom bits (passes + 1) path c n consumed =
      shape.descendFrom bits passes (⟨c, label, n, b.toNat⟩ :: path) (cells b)
        (n - (label.length + 1)) (consumed + (label.length + 1)) := by
  have ⟨s, s', read, check⟩ := h.checked
  have stays : diverges label (bits.drop consumed) = none := by
    rw [along, diverges_eq_diverge, Radix.diverge_eq_none (by simp)]
    exact ⟨_, rfl⟩
  rw [Shape.descendFrom, failIf_bind_of_not (by simp [h.ordinary]), read, ok_bind]
  simp only [stays, Option.isSome_none, Bool.false_eq_true, false_or, if_neg (ne_of_lt lt)]
  rw [call_eq_ok.mpr check, ok_bind, getD_of_drop along, h.reference]
  rfl

theorem Passable.rebuild (b : Bool) (child : Cell) : Step.rebuild shape ⟨c, label, n, b.toNat⟩ child =
      shape.fork label (Function.update cells b child false) (Function.update cells b child true) n
        (n - label.length - 1) := by
  have sibling : c.reference (1 - b.toNat) = some (cells !b) := by
    rw [← h.reference (!b)]
    cases b <;> rfl
  rw [Step.rebuild, sibling]
  cases b <;> simp [okOr, Step.below]

end Passable

-- Every fork on the way to a key lets the descent through.
def Leads (shape : Shape ε) : Radix (Entry ε) → Nat → List Bool → Prop
  | .leaf _ _, _, _           => True
  | .fork label child, n, key => ∀ b rest, key = label ++ b :: rest →
    (∀ c cells, (∀ b, shape.encode (child b) (n - label.length - 1) = .ok (cells b)) →
      Forked shape c label n cells → shape.Passable c label n cells) ∧
    shape.Leads (child b) (n - label.length - 1) rest

theorem Lawful.leads (law : shape.Lawful code) (t : Radix (Entry ε)) (n : Nat) (key : List Bool) :
    shape.Leads t n key := by
  induction t generalizing n key
  case leaf => trivial
  case fork label child hi => exact fun b rest _ => ⟨fun _ _ _ f => f.passable law, hi b _ rest⟩

theorem forked_of_encode {child : Bool → Radix (Entry ε)} (within : (Radix.fork label child).Within n)
    (bound : n ≤ maxBits) (h : shape.encode (.fork label child) n = .ok c) :
    ∃ cells : Bool → Cell, (∀ b, shape.encode (child b) (n - label.length - 1) = .ok (cells b)) ∧
      Forked shape c label n cells := by
  have ⟨cells, each, built⟩ := encode_fork_eq_ok.mp h
  exact ⟨cells, each, within.left, bound, built⟩

-- The fork with another tree below one side.
theorem encode_update {child : Bool → Radix (Entry ε)} {t : Radix (Entry ε)}
    (each : ∀ b, shape.encode (child b) (n - label.length - 1) = .ok (cells b)) :
    shape.encode (.fork label (Function.update child b t)) n = .ok c' ↔
      ∃ cell, shape.encode t (n - label.length - 1) = .ok cell ∧
        shape.fork label (Function.update cells b cell false) (Function.update cells b cell true) n
          (n - label.length - 1) = .ok c' := by
  rw [encode_fork_eq_ok]
  constructor
  · rintro ⟨cells', each', built⟩
    have cell := each' b
    rw [Function.update_self] at cell
    have same : cells' = Function.update cells b (cells' b) := by
      funext side
      by_cases here : side = b
      case pos => rw [here, Function.update_self]
      case neg =>
        have other := each' side
        rw [Function.update_of_ne here, each side] at other
        rw [Function.update_of_ne here, Except.ok.inj other]
    exact ⟨cells' b, cell, same ▸ built⟩
  · rintro ⟨cell, encoded, built⟩
    refine ⟨Function.update cells b cell, fun side => ?_, built⟩
    by_cases here : side = b
    case pos => rw [here, Function.update_self, Function.update_self, encoded]
    case neg => rw [Function.update_of_ne here, Function.update_of_ne here, each side]

section Split

variable {t : Radix (Entry ε)} {entry : Entry ε} {shared labelRest keyRest : List Bool}

-- What is behind the label of a node, under another one.
def relabelled (node : Cell) (max : Nat) (label : List Bool) (max' : Nat) : Except CellError Cell := do
  let (_, kept) ← (do
    storeLabel label max'
    let (_, slice) ← Method.ofExcept ((skipLabel max).call node.parse)
    Builder.storeSlice slice : Store Unit).call .new
  kept.build

theorem relabelled_eq_ok {code : ε → Option (List Bool × List Cell)} (law : shape.Pens code) {m : Nat} (within : t.Within n)
    (bound : n ≤ maxBits) (bound' : m ≤ maxBits) (h : shape.encode t n = .ok c)
    (width : m + t.label.length = n + label.length) :
    relabelled c n label m = .ok c' ↔ shape.encode (t.relabel label) m = .ok c' := by
  have ⟨rest, node⟩ := node_of_encode law bound h
  have ⟨s, skips, ahead, refs⟩ := node.skipLabel
  have le : label.length ≤ m := by
    have := within.label_le
    omega
  have copies : Writes (do
      let (_, slice) ← Method.ofExcept ((skipLabel n).call c.parse)
      Builder.storeSlice slice) ([] ++ rest) ([] ++ c.refs) () :=
    (Writes.ofExcept (call_eq_ok.mpr skips)).bind (ahead ▸ refs ▸ storeSlice_writes s)
  rw [encode_relabel law within bound bound' h node width, and_iff_right le]
  exact ((storeLabel_writes le (lt_of_le_maxBits bound')).seq copies).build

theorem split_eq_relabelled (node : Cell) (label : Label) (index : Nat) (key : List Bool) :
    shape.split node label index n key entry = (do
      let kept ← relabelled node n (label.drop (index + 1)) (n - index - 1)
      let fresh ← shape.leaf (key.drop (index + 1)) entry (n - index - 1)
      let (left, right) := if label.getD index false then (fresh, kept) else (kept, fresh)
      shape.fork (label.take index) left right n (n - index - 1)) := by
  simp [Shape.split, relabelled]

theorem split_eq_bind (node : Cell) :
    shape.split node (shared ++ b :: labelRest) shared.length n (shared ++ (!b) :: keyRest) entry = (do
      let kept ← relabelled node n labelRest (n - shared.length - 1)
      let fresh ← shape.leaf keyRest entry (n - shared.length - 1)
      let (left, right) := if b then (fresh, kept) else (kept, fresh)
      shape.fork shared left right n (n - shared.length - 1)) := by
  simp [split_eq_relabelled]

theorem split_eq_ok {code : ε → Option (List Bool × List Cell)} (law : shape.Pens code) (within : t.Within n) (bound : n ≤ maxBits)
    (h : shape.encode t n = .ok c) (label_eq : t.label = shared ++ b :: labelRest) :
    shape.split c t.label shared.length n (shared ++ (!b) :: keyRest) entry = .ok c' ↔
      shape.encode (t.split shared.length (shared ++ (!b) :: keyRest) entry) n = .ok c' := by
  have shorter := within.label_le
  have kept {kept : Cell} : relabelled c n labelRest (n - shared.length - 1) = .ok kept ↔
      shape.encode (t.relabel labelRest) (n - shared.length - 1) = .ok kept :=
    relabelled_eq_ok law within bound (by omega) h (by simp [label_eq] at shorter ⊢; omega)
  rw [Radix.split_eq label_eq, encode_fork_eq_ok, label_eq, split_eq_bind]
  simp only [bind_eq_ok, kept]
  constructor
  · rintro ⟨kept, encoded, fresh, leaf, built⟩
    refine ⟨fun side => if side = b then kept else fresh, fun side => ?_, ?_⟩
    · by_cases here : side = b
      case pos => simpa [here] using encoded
      case neg => simpa [here, encode] using leaf
    · cases b <;> simpa using built
  · rintro ⟨cells, each, built⟩
    refine ⟨cells b, by simpa using each b, cells !b, by simpa [encode] using each !b, ?_⟩
    cases b <;> simpa using built

-- The other side of a fork, under the whole run of bits down to it.
theorem collapse_eq_ok (law : shape.Spelled code) (f : Forked shape c label n cells)
    (within : t.Within (n - label.length - 1))
    (h : shape.encode t (n - label.length - 1) = .ok (cells !b)) :
    collapse ⟨c, label, n, b.toNat⟩ = .ok c' ↔
      shape.encode (t.relabel (label ++ (!b) :: t.label)) n = .ok c' := by
  have lt := f.lt
  have bound := f.bound
  have shorter := within.label_le
  have ⟨rest, node⟩ := node_of_encode law.pens (by omega) h
  have ⟨s, read, ahead, refs⟩ := node.readLabel
  have sibling : c.reference (1 - b.toNat) = some (cells !b) := by
    rw [← f.reference law (!b)]
    cases b <;> rfl
  have le : (label ++ (!b) :: t.label).length ≤ n := by
    simp only [List.length_append, List.length_cons]
    omega
  have writes := (storeLabel_writes le (lt_of_le_maxBits bound)).seq
    (ahead ▸ refs ▸ storeSlice_writes s)
  rw [encode_relabel law.pens within (by omega) bound h node (by simp; omega), and_iff_right le,
    ← List.nil_append (cells !b).refs, ← writes.build, collapse, sibling]
  have other : decide (b.toNat = 0) = !b := by cases b <;> rfl
  have room : ¬label.length ≥ maxBits := by omega
  have whole : Label.extend (label ++ [!b]) t.label = .ok (label ++ (!b) :: t.label) := by
    rw [extend_eq_ok (by simpa using le.trans bound), List.append_assoc, List.singleton_append]
  simp only [okOr, pure_bind, Step.below]
  rw [failIf_bind_of_not (by simp [node.ordinary]), other, Label.push, failIf_bind_of_not room,
    pure_bind, read, ok_bind, whole, ok_bind]

end Split

section Change

variable {t : Radix (Entry ε)} {root : Cell}

theorem rebuild_cons (step : Step) (path : List Step) (child : Cell) :
    shape.rebuild (step :: path) child = step.rebuild shape child >>= shape.rebuild path := by
  rw [rebuild, List.foldlM_cons]
  rfl

-- What is done where the descent for an entry stopped.
def place (shape : Shape ε) (bits : List Bool) (entry : Entry ε) (walk : Walk) : Except CellError Cell := do
  let tail := bits.drop walk.consumed
  let bottom ←
    match walk.diverged with
    | some index => shape.split walk.node walk.label index walk.remaining tail entry
    | none       => shape.leaf tail entry walk.remaining
  shape.rebuild walk.path bottom

-- The cells on the path to a key are rebuilt to those of the tree with the entry set.
theorem place_eq_ok {code : ε → Option (List Bool × List Cell)} (law : shape.Pens code) (entry : Entry ε)
    (leads : shape.Leads t n key) (within : t.Within n) (apart : t.Apart key) (length : key.length = n)
    (bound : n ≤ maxBits) (h : shape.encode t n = .ok c) (left : bits.drop consumed = key)
    (enough : n < passes) :
    (shape.descendFrom bits passes path c n consumed >>= shape.place bits entry) = .ok root ↔
      ∃ c', shape.encode (t.insert key entry) n = .ok c' ∧ shape.rebuild path c' = .ok root := by
  refine Radix.walk (motive := fun t key => ∀ n c path consumed passes, shape.Leads t n key → t.Within n →
    key.length = n → n ≤ maxBits → shape.encode t n = .ok c → bits.drop consumed = key → n < passes →
    ((shape.descendFrom bits passes path c n consumed >>= shape.place bits entry) = .ok root ↔
      ∃ c', shape.encode (t.insert key entry) n = .ok c' ∧ shape.rebuild path c' = .ok root))
    ?_ ?_ ?_ apart n c path consumed passes leads within length bound h left enough
  all_goals clear leads within apart length bound h left enough
  · intro t shared b labelRest keyRest label_eq n c path consumed passes _ within length bound h left
      enough
    obtain ⟨passes, rfl⟩ := Nat.exists_eq_add_one_of_ne_zero (Nat.ne_zero_of_lt enough)
    obtain ⟨rest, node⟩ := node_of_encode law bound h
    have leaves : diverges t.label (bits.drop consumed) = some shared.length := by
      rw [left, label_eq, diverges_eq_diverge, Radix.diverge_append]
    rw [descendFrom_leaves node leaves, ok_bind, place, bind_eq_ok]
    simp only [left, split_eq_ok law within bound h label_eq, Radix.insert_of_leaves label_eq]
  · intro key value n c path consumed passes _ within length bound h left enough
    obtain ⟨passes, rfl⟩ := Nat.exists_eq_add_one_of_ne_zero (Nat.ne_zero_of_lt enough)
    obtain ⟨rest, node⟩ := node_of_encode law bound h
    have along : diverges key (bits.drop consumed) = none := by
      rw [left, diverges_eq_diverge, Radix.diverge_eq_none le_rfl]
    rw [descendFrom_ends node length along, ok_bind, place, bind_eq_ok]
    simp only [left, Radix.insert_leaf, encode]
  · intro label child b rest _ hi n c path consumed passes leads within length bound h left
      enough
    obtain ⟨passes, rfl⟩ := Nat.exists_eq_add_one_of_ne_zero (Nat.ne_zero_of_lt enough)
    obtain ⟨cells, each, f⟩ := forked_of_encode within bound h
    have lt := f.lt
    obtain ⟨passes_on, leads⟩ := leads b rest rfl
    have passable := passes_on c cells each f
    rw [passable.descendFrom lt left, Radix.insert_fork]
    have below := hi (n - (label.length + 1)) (cells b) (⟨c, label, n, b.toNat⟩ :: path)
      (consumed + (label.length + 1)) passes leads (within.right b) (by simp at length; omega) (by omega)
      (each b) (drop_of_drop left) (by omega)
    rw [below]
    simp only [encode_update each, rebuild_cons, passable.rebuild, bind_eq_ok]
    constructor
    · rintro ⟨c', encoded, c'', built, up⟩
      exact ⟨c'', ⟨c', encoded, built⟩, up⟩
    · rintro ⟨c'', ⟨c', encoded, built⟩, up⟩
      exact ⟨c', encoded, c'', built, up⟩

-- What is done where the descent for a key to remove stopped.
def displace (shape : Shape ε) (walk : Walk) : Except CellError (Option (Option Cell)) :=
  if walk.diverged.isSome then return none
  else
    match walk.path with
    | []             => return some none
    | parent :: path => do
      let merged ← collapse parent
      let root ← shape.rebuild path merged
      return some (some root)

theorem displace_of_absent (law : shape.Lawful code) (within : t.Within n) (apart : t.Apart key)
    (length : key.length = n) (bound : n ≤ maxBits) (h : shape.encode t n = .ok c)
    (left : bits.drop consumed = key) (enough : n < passes) (absent : t.find key = none) :
    (shape.descendFrom bits passes path c n consumed >>= shape.displace) = .ok none := by
  refine Radix.walk (motive := fun t key => ∀ n c path consumed passes, t.Within n → key.length = n →
    n ≤ maxBits → shape.encode t n = .ok c → bits.drop consumed = key → n < passes →
    t.find key = none →
    (shape.descendFrom bits passes path c n consumed >>= shape.displace) = .ok none)
    ?_ ?_ ?_ apart n c path consumed passes within length bound h left enough absent
  all_goals clear within apart length bound h left enough absent
  · intro t shared b labelRest keyRest label_eq n c path consumed passes within length bound h left
      enough _
    obtain ⟨passes, rfl⟩ := Nat.exists_eq_add_one_of_ne_zero (Nat.ne_zero_of_lt enough)
    obtain ⟨rest, node⟩ := node_of_encode law.pens bound h
    have leaves : diverges t.label (bits.drop consumed) = some shared.length := by
      rw [left, label_eq, diverges_eq_diverge, Radix.diverge_append]
    rw [descendFrom_leaves node leaves, ok_bind]
    rfl
  · intro key value _ _ _ _ _ _ _ _ _ _ _ absent
    simp [Radix.find] at absent
  · intro label child b rest _ hi n c path consumed passes within length bound h left enough absent
    obtain ⟨passes, rfl⟩ := Nat.exists_eq_add_one_of_ne_zero (Nat.ne_zero_of_lt enough)
    obtain ⟨cells, each, f⟩ := forked_of_encode within bound h
    have lt := f.lt
    rw [(f.passable law).descendFrom lt left]
    exact hi _ _ _ _ _ (within.right b) (by simp at length; omega) (by omega) (each b)
      (drop_of_drop left) (by omega) (by simpa using absent)

-- The cells on the path to a key are rebuilt to those of the tree without it. Where the tree is one
-- leaf, what is left depends on what it hangs from.
theorem displace_eq_ok (law : shape.Lawful code) {r : Option (Option Cell)} (within : t.Within n)
    (apart : t.Apart key) (length : key.length = n) (bound : n ≤ maxBits)
    (h : shape.encode t n = .ok c) (left : bits.drop consumed = key) (enough : n < passes)
    {entry : Entry ε} (found : t.find key = some entry) :
    (shape.descendFrom bits passes path c n consumed >>= shape.displace) = .ok r ↔
      match t.erase key with
      | some t' => ∃ c', shape.encode t' n = .ok c' ∧ ∃ root, shape.rebuild path c' = .ok root ∧
        some (some root) = r
      | none    => shape.displace ⟨path, c, t.label, n, consumed, none⟩ = .ok r := by
  refine Radix.walk (motive := fun t key => ∀ n c path consumed passes, t.Within n → key.length = n →
    n ≤ maxBits → shape.encode t n = .ok c → bits.drop consumed = key → n < passes →
    t.find key = some entry →
    ((shape.descendFrom bits passes path c n consumed >>= shape.displace) = .ok r ↔
      match t.erase key with
      | some t' => ∃ c', shape.encode t' n = .ok c' ∧ ∃ root, shape.rebuild path c' = .ok root ∧
        some (some root) = r
      | none    => shape.displace ⟨path, c, t.label, n, consumed, none⟩ = .ok r))
    ?_ ?_ ?_ apart n c path consumed passes within length bound h left enough found
  all_goals clear within apart length bound h left enough found
  · intro t shared b labelRest keyRest label_eq _ _ _ _ _ _ _ _ _ _ _ found
    rw [Radix.find_eq_none_of_leaves label_eq] at found
    cases found
  · intro key value n c path consumed passes within length bound h left enough _
    obtain ⟨passes, rfl⟩ := Nat.exists_eq_add_one_of_ne_zero (Nat.ne_zero_of_lt enough)
    have ⟨rest, node⟩ := node_of_encode law.pens bound h
    have along : diverges key (bits.drop consumed) = none := by
      rw [left, diverges_eq_diverge, Radix.diverge_eq_none le_rfl]
    rw [descendFrom_ends node length along, ok_bind]
    rfl
  · intro label child b rest _ hi n c path consumed passes within length bound h left enough found
    obtain ⟨passes, rfl⟩ := Nat.exists_eq_add_one_of_ne_zero (Nat.ne_zero_of_lt enough)
    have ⟨cells, each, f⟩ := forked_of_encode within bound h
    have lt := f.lt
    have below := hi (n - (label.length + 1)) (cells b) (⟨c, label, n, b.toNat⟩ :: path)
      (consumed + (label.length + 1)) passes (within.right b) (by simp at length; omega) (by omega)
      (each b) (drop_of_drop left) (by omega) (by simpa using found)
    rw [(f.passable law).descendFrom lt left, below, Radix.erase_fork]
    cases (child b).erase rest
    case some t' =>
      simp only [encode_update each, rebuild_cons, (f.passable law).rebuild, bind_eq_ok]
      exact ⟨fun ⟨c', encoded, root, ⟨c'', built, up⟩, same⟩ =>
          ⟨c'', ⟨c', encoded, built⟩, root, up, same⟩,
        fun ⟨c'', ⟨c', encoded, built⟩, root, up, same⟩ =>
          ⟨c', encoded, root, ⟨c'', built, up⟩, same⟩⟩
    case none =>
      simp only [displace, Option.isSome_none, Bool.false_eq_true, if_false, bind_eq_ok,
        collapse_eq_ok law.toSpelled f (within.right !b) (each !b), pure_eq_ok]

end Change

end Shape

end TonNet
