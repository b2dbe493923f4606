import TonNet.Boc.Theorems.Parse
import TonNet.Cell.Dict.Theorems.Listing
import TonNet.Cell.Dict.Theorems.PrefixFree
import TonNet.Cell.Dict.Theorems.Summary

-- What a change leaves of the tree it was made in, whoever made that tree.

namespace TonNet

open Fallible Method Builder Slice

section References

variable {refs : List Cell}

theorem advance_refs (count : Nat) :
    Yields (fun s => s.refsAhead = refs) (fun _ => True) (advance count) := by
  intro s _ _ held step
  obtain ⟨h, _, rfl⟩ := advance_ends.mp step
  exact ⟨trivial, (refsAhead_past count h).trans held⟩

theorem loadBit_refs : Yields (fun s => s.refsAhead = refs) (fun _ => True) loadBit :=
  (advance_refs 1).bind fun _ _ => Yields.get.bind fun _ _ => .pure trivial

theorem loadUint_refs (count : Nat) :
    Yields (fun s => s.refsAhead = refs) (fun _ => True) (loadUint count) :=
  Yields.failIf.bind fun _ _ => (advance_refs count).bind fun _ _ => Yields.get.bind fun _ _ => .pure trivial

theorem unaryLength_refs (room len : Nat) :
    Yields (fun s => s.refsAhead = refs) (fun _ => True) (unaryLength room len) := by
  induction room generalizing len
  case zero =>
    unfold unaryLength
    refine loadBit_refs.bind fun bit _ => ?_
    cases bit
    case false => exact .pure trivial
    case true => exact fun _ _ _ _ h => absurd h ends_throw
  case succ room hi =>
    unfold unaryLength
    refine loadBit_refs.bind fun bit _ => ?_
    cases bit
    case false => exact .pure trivial
    case true => exact hi (len + 1)

theorem readRun_refs (max : Nat) : Yields (fun s => s.refsAhead = refs) (fun _ => True) (readRun max) := by
  refine loadBit_refs.bind fun first _ => ?_
  cases first
  case false => exact (unaryLength_refs max 0).bind fun _ _ => .pure trivial
  case true =>
    refine loadBit_refs.bind fun second _ => ?_
    cases second
    case false => exact (loadUint_refs _).bind fun _ _ => Yields.failIf.bind fun _ _ => .pure trivial
    case true =>
      exact loadBit_refs.bind fun _ _ => (loadUint_refs _).bind fun _ _ =>
        Yields.failIf.bind fun _ _ => .pure trivial

-- A label is made of bits only.
theorem readLabelInto_refs {sink : LabelSink} {max : Nat} {s s' : Slice} {label : List Bool}
    (h : (sink.readLabelInto max).Ends s label s') : s'.refsAhead = s.refsAhead := by
  have ⟨run, t, header, _, spells⟩ := readLabelInto_ends.mp h
  have held : Yields (fun t => t.refsAhead = s.refsAhead) (fun _ => True) (readRun max) := readRun_refs max
  have ⟨_, same⟩ := held rfl header
  cases spells
  case spelled => exact (refsAhead_past ..).trans same
  case repeated => exact same

end References

-- The two kinds of dictionary whose forks hold nothing of their own.
inductive DictForm
  | plain
  | pfx

-- What stands between the label of a node and what it holds.
def DictForm.mark : DictForm → (fork : Bool) → List Bool
  | plain, _  => []
  | pfx, fork => [fork]

-- A node as it is read, with the bits behind its label.
def Opened (c : Cell) (n : Nat) (label rest : List Bool) : Prop :=
  ∃ s, Shape.Opens c n label s ∧ s.ahead = rest

section Opened

variable {c : Cell} {n : Nat} {label label' rest rest' : List Bool} {s : Slice}

theorem Opened.unique (h : Opened c n label rest) (h' : Opened c n label' rest') :
    label = label' ∧ rest = rest' := by
  obtain ⟨s, opens, rfl⟩ := h
  obtain ⟨s', opens', rfl⟩ := h'
  cases opens.read.symm.trans opens'.read
  exact ⟨rfl, rfl⟩

theorem Shape.Opens.refs (h : Shape.Opens c n label s) : s.refsAhead = c.refs := by
  have read : (LabelSink.label.readLabelInto n).Ends c.parse label s := call_eq_ok.mp h.read
  exact (readLabelInto_refs read).trans c.parse_refsAhead

theorem opened_of_node (h : Node c label n rest) : Opened c n label rest := by
  have ⟨s, read, ahead, _⟩ := h.readLabel
  exact ⟨s, ⟨h.ordinary, read⟩, ahead⟩

-- A label of a dictionary fits wherever it is read to.
theorem opens_of_readLabelVec (bound : n ≤ maxBits) (ordinary : c.isExotic = false)
    (h : (readLabelVec n).call c.parse = .ok (label, s)) : Shape.Opens c n label s := by
  have read : (LabelSink.vec.readLabelInto n).Ends c.parse label s := call_eq_ok.mp h
  have ⟨run, t, header, _, spells⟩ := readLabelInto_ends.mp read
  have room : LabelSink.label.Holds run.len := le_trans (readRun_le header) bound
  have reads : (LabelSink.label.readLabelInto n).Ends c.parse label s :=
    readLabelInto_ends.mpr ⟨run, t, header, room, spells⟩
  exact ⟨ordinary, call_eq_ok.mpr reads⟩

theorem Opened.plain {fork : Bool} (h : Opened c n label rest) :
    Opened c n label (DictForm.plain.mark fork ++ rest) :=
  h

theorem Opened.pfx {fork : Bool} (h : Opened c n label (fork :: rest)) :
    Opened c n label (DictForm.pfx.mark fork ++ rest) :=
  h

theorem ahead_of_loadBit {bit : Bool} {s' : Slice} (h : loadBit.call s = .ok (bit, s')) :
    s.ahead = bit :: s'.ahead := by
  obtain ⟨room, rfl, rfl⟩ := loadBit_ends.mp (call_eq_ok.mp h)
  exact ahead_cons room

end Opened

section Path

variable {form : DictForm} {c c' child sibling : Cell} {n : Nat} {label key tail extra : List Bool}
  {new : Option Cell} {b : Bool}

-- The two references of a fork, by the side that is taken.
def sides (b : Bool) (taken other : Cell) : List Cell :=
  if b then [other, taken] else [taken, other]

-- The forks on the way to a key, each with the bits that follow its label and its marker.
inductive Passes (form : DictForm) : Cell → Nat → List Bool → Cell → List Bool → Prop
  | here {c : Cell} {n : Nat} {label tail extra : List Bool} {b : Bool}
    (node : Opened c n label (form.mark true ++ extra)) : Passes form c n (label ++ b :: tail) c extra
  | deeper {c child fork : Cell} {n : Nat} {label tail extra more : List Bool} {b : Bool}
    (node : Opened c n label (form.mark true ++ extra)) (branch : c.reference b.toNat = some child)
    (rest : Passes form child (n - (label.length + 1)) tail fork more) :
    Passes form c n (label ++ b :: tail) fork more

-- The new tree has all of the old one but the entry under the key, with another in its place or none.
inductive Keeps (form : DictForm) : Cell → Nat → List Bool → Option Cell → Prop
  | entry {c : Cell} {n : Nat} {key value : List Bool} {new : Option Cell}
    (node : Opened c n key (form.mark false ++ value)) : Keeps form c n key new
  -- The key is new: the old node is found below a fork, with a shorter label.
  | beside {c c' kept : Cell} {n : Nat} {shared label tail rest : List Bool} {b : Bool}
    (node : Opened c n (shared ++ b :: label) rest) (branch : c'.reference b.toNat = some kept)
    (same : Opened kept (n - shared.length - 1) label rest) (refs : kept.refs = c.refs) :
    Keeps form c n (shared ++ (!b) :: tail) (some c')
  | deeper {c c' child child' : Cell} {n : Nat} {label tail rest : List Bool} {b : Bool}
    (node : Opened c n label rest) (branch : c.reference b.toNat = some child)
    (kept : Keeps form child (n - (label.length + 1)) tail (some child'))
    (same : Opened c' n label rest) (refs : c'.refs = c.refs.set b.toNat child') :
    Keeps form c n (label ++ b :: tail) (some c')
  -- The entry goes, and with it a fork that has nothing but another branch: that one is found in the
  -- place of the fork, with a longer label.
  | merged {c c' child sibling : Cell} {n : Nat} {label tail below value rest : List Bool} {b : Bool}
    (node : Opened c n label (form.mark true))
    (branches : c.refs = sides b child sibling)
    (gone : Opened child (n - (label.length + 1)) tail (form.mark false ++ value))
    (other : Opened sibling (n - (label.length + 1)) below rest)
    (same : Opened c' n (label ++ (!b) :: below) rest) (refs : c'.refs = sibling.refs) :
    Keeps form c n (label ++ b :: tail) (some c')

-- What the code does.
inductive Rewrites (form : DictForm) : Cell → Nat → List Bool → Option Cell → Prop
  | entry {c : Cell} {n : Nat} {key value : List Bool} {new : Option Cell}
    (node : Opened c n key (form.mark false ++ value)) : Rewrites form c n key new
  | beside {c c' kept : Cell} {n : Nat} {shared label tail rest : List Bool} {b : Bool}
    (node : Opened c n (shared ++ b :: label) rest) (branch : c'.reference b.toNat = some kept)
    (same : Opened kept (n - shared.length - 1) label rest) (refs : kept.refs = c.refs) :
    Rewrites form c n (shared ++ (!b) :: tail) (some c')
  | deeper {c c' child child' sibling : Cell} {n : Nat} {label tail extra : List Bool} {b : Bool}
    (node : Opened c n label (form.mark true ++ extra)) (checked : form = .plain → extra = [])
    (branch : c.reference b.toNat = some child) (other : c.reference (1 - b.toNat) = some sibling)
    (rewritten : Rewrites form child (n - (label.length + 1)) tail (some child'))
    (made : Opened c' n label (form.mark true))
    (refs : c'.refs = sides b child' sibling) :
    Rewrites form c n (label ++ b :: tail) (some c')
  | merged {c c' child sibling : Cell} {n : Nat} {label tail below value extra rest : List Bool} {b : Bool}
    (node : Opened c n label (form.mark true ++ extra)) (checked : form = .plain → extra = [])
    (branch : c.reference b.toNat = some child) (other : c.reference (1 - b.toNat) = some sibling)
    (gone : Opened child (n - (label.length + 1)) tail (form.mark false ++ value))
    (survives : Opened sibling (n - (label.length + 1)) below rest)
    (made : Opened c' n (label ++ (!b) :: below) rest) (refs : c'.refs = sibling.refs) :
    Rewrites form c n (label ++ b :: tail) (some c')

-- No fork on the way has anything but its label, its marker and its two branches.
def Bare (form : DictForm) (c : Cell) (n : Nat) (key : List Bool) : Prop :=
  ∀ fork extra, Passes form c n key fork extra → extra = [] ∧ fork.refs.length = 2

theorem not_passes_of_entry {fork : Cell} (node : Opened c n key label) : ¬Passes form c n key fork extra := by
  intro passes
  cases passes
  case here node' =>
    have same := congrArg List.length (node.unique node').1
    simp at same
  case deeper _ node' _ =>
    have same := congrArg List.length (node.unique node').1
    simp at same

theorem not_passes_of_parts {fork : Cell} {shared : List Bool} {rest : List Bool}
    (node : Opened c n (shared ++ b :: label) rest) :
    ¬Passes form c n (shared ++ (!b) :: tail) fork extra := by
  intro passes
  generalize same : shared ++ (!b) :: tail = key at passes
  have parts (tail' : List Bool) : shared ++ (!b) :: tail ≠ (shared ++ b :: label) ++ tail' := by
    simp
  cases passes
  case here node' => exact parts _ ((node.unique node').1 ▸ same)
  case deeper _ node' _ => exact parts _ ((node.unique node').1 ▸ same)

theorem passes_iff {fork : Cell} {more : List Bool} (node : Opened c n label (form.mark true ++ extra))
    (branch : c.reference b.toNat = some child) : Passes form c n (label ++ b :: tail) fork more ↔
      (fork = c ∧ more = extra) ∨ Passes form child (n - (label.length + 1)) tail fork more := by
  constructor
  · intro passes
    generalize same : label ++ b :: tail = key at passes
    cases passes
    case here node' =>
      obtain ⟨rfl, rest⟩ := node.unique node'
      exact .inl ⟨rfl, (List.append_cancel_left rest).symm⟩
    case deeper branch' node' rest =>
      obtain ⟨rfl, _⟩ := node.unique node'
      obtain ⟨rfl, rfl⟩ := List.cons.inj (List.append_cancel_left same)
      cases branch.symm.trans branch'
      exact .inr rest
  · rintro (⟨rfl, rfl⟩ | rest)
    · exact .here node
    · exact .deeper node branch rest

theorem bare_iff (node : Opened c n label (form.mark true ++ extra)) (branch : c.reference b.toNat = some child) :
    Bare form c n (label ++ b :: tail) ↔
      (extra = [] ∧ c.refs.length = 2) ∧ Bare form child (n - (label.length + 1)) tail := by
  unfold Bare
  simp only [passes_iff node branch]
  constructor
  · exact fun all => ⟨all c extra (.inl ⟨rfl, rfl⟩), fun fork more rest => all fork more (.inr rest)⟩
  · rintro ⟨here, rest⟩ fork more (⟨rfl, rfl⟩ | passes)
    · exact here
    · exact rest fork more passes

theorem sides_set (child' : Cell) : (sides b child sibling).set b.toNat child' = sides b child' sibling := by
  cases b <;> rfl

theorem refs_eq_sides (branch : c.reference b.toNat = some child)
    (other : c.reference (1 - b.toNat) = some sibling) (two : c.refs.length = 2) :
    c.refs = sides b child sibling := by
  rw [Cell.reference] at branch other
  obtain ⟨left, right, h⟩ := List.length_eq_two.mp two
  rw [h] at branch other ⊢
  cases b
  case false =>
    cases branch
    cases other
    rfl
  case true =>
    cases branch
    cases other
    rfl

theorem keeps_deeper_iff {child' : Cell} (node : Opened c n label (form.mark true ++ extra))
    (branch : c.reference b.toNat = some child) (other : c.reference (1 - b.toNat) = some sibling)
    (made : Opened c' n label (form.mark true)) (refs : c'.refs = sides b child' sibling) :
    Keeps form c n (label ++ b :: tail) (some c') ↔
      (extra = [] ∧ c.refs.length = 2) ∧ Keeps form child (n - (label.length + 1)) tail (some child') := by
  constructor
  · intro keeps
    generalize same : label ++ b :: tail = key at keeps
    rcases keeps with node' | ⟨node', -, -, -⟩ | ⟨node', branch', kept, made', refs'⟩ |
      ⟨node', -, -, -, made', -⟩
    · obtain ⟨rfl, _⟩ := node.unique node'
      simp at same
    · obtain ⟨rfl, _⟩ := node.unique node'
      simp at same
    · obtain ⟨rfl, rfl⟩ := node.unique node'
      obtain ⟨rfl, rfl⟩ := List.cons.inj (List.append_cancel_left same)
      cases branch.symm.trans branch'
      have empty : extra = [] := by
        have := (made.unique made').2
        simpa using this
      have two : c.refs.length = 2 := by
        have := congrArg List.length (refs.symm.trans refs')
        rw [List.length_set] at this
        cases b <;> exact this.symm
      rw [refs, refs_eq_sides branch other two, sides_set] at refs'
      refine ⟨⟨empty, two⟩, ?_⟩
      cases b <;> cases refs' <;> exact kept
    · obtain ⟨rfl, _⟩ := node.unique node'
      have := congrArg List.length (made.unique made').1
      simp at this
  · rintro ⟨⟨rfl, two⟩, kept⟩
    rw [List.append_nil] at node
    refine .deeper node branch kept made ?_
    rw [refs, refs_eq_sides branch other two, sides_set]

theorem keeps_merged_iff {below value rest : List Bool} (node : Opened c n label (form.mark true ++ extra))
    (branch : c.reference b.toNat = some child) (other : c.reference (1 - b.toNat) = some sibling)
    (gone : Opened child (n - (label.length + 1)) tail (form.mark false ++ value))
    (survives : Opened sibling (n - (label.length + 1)) below rest)
    (made : Opened c' n (label ++ (!b) :: below) rest) (refs : c'.refs = sibling.refs) :
    Keeps form c n (label ++ b :: tail) (some c') ↔ extra = [] ∧ c.refs.length = 2 := by
  constructor
  · intro keeps
    generalize same : label ++ b :: tail = key at keeps
    rcases keeps with node' | ⟨node', -, -, -⟩ | ⟨node', -, -, made', -⟩ | ⟨node', branches, -, -, -, -⟩
    · obtain ⟨rfl, _⟩ := node.unique node'
      simp at same
    · obtain ⟨rfl, _⟩ := node.unique node'
      simp at same
    · obtain ⟨rfl, _⟩ := node.unique node'
      have := congrArg List.length (made.unique made').1
      simp at this
    · have ⟨_, empty⟩ := node.unique node'
      refine ⟨by simpa using empty, ?_⟩
      rw [branches, sides]
      split <;> rfl
  · rintro ⟨rfl, two⟩
    rw [List.append_nil] at node
    exact .merged node (refs_eq_sides branch other two) gone survives made refs

theorem Rewrites.keeps_iff (h : Rewrites form c n key new) : Keeps form c n key new ↔ Bare form c n key := by
  induction h
  case entry node =>
    exact ⟨fun _ _ _ passes => (not_passes_of_entry node passes).elim, fun _ => .entry node⟩
  case beside node branch same refs =>
    exact ⟨fun _ _ _ passes => (not_passes_of_parts node passes).elim, fun _ => .beside node branch same refs⟩
  case deeper node _ branch other _ made refs hi =>
    rw [keeps_deeper_iff node branch other made refs, bare_iff node branch, hi]
  case merged node _ branch other gone survives made refs =>
    have none_below : Bare form _ _ _ := fun _ _ passes => (not_passes_of_entry gone passes).elim
    rw [keeps_merged_iff node branch other gone survives made refs, bare_iff node branch,
      and_iff_left none_below]

-- A plain dictionary looks at the bits of the forks it goes through.
theorem Rewrites.checked (h : Rewrites .plain c n key new) :
    ∀ fork extra, Passes .plain c n key fork extra → extra = [] := by
  induction h
  case entry node => exact fun _ _ passes => (not_passes_of_entry node passes).elim
  case beside node _ _ _ => exact fun _ _ passes => (not_passes_of_parts node passes).elim
  case deeper node checked branch _ _ _ _ hi =>
    intro fork extra passes
    rcases (passes_iff node branch).mp passes with ⟨rfl, rfl⟩ | passes
    · exact checked rfl
    · exact hi fork extra passes
  case merged node checked branch _ gone _ _ _ =>
    intro fork extra passes
    rcases (passes_iff node branch).mp passes with ⟨rfl, rfl⟩ | passes
    · exact checked rfl
    · exact (not_passes_of_entry gone passes).elim

end Path

section Cells

variable [Sha256] {ε : Type} {shape : Shape ε} {code : ε → Option (List Bool)} {form : DictForm}
  {c c' child sibling left right : Cell} {n below : Nat} {label rest : List Bool} {b : Bool} {s : Slice}

-- A shape whose forks carry a marker and no more.
structure Shape.Marks (shape : Shape ε) (code : ε → Option (List Bool)) (form : DictForm) : Prop
    extends Spelled shape code where
  forks : ∀ {left right : Cell} {below : Nat} {e : ε}, shape.forkExtra left right below = .ok e →
    code e = some (form.mark true)

omit [Sha256] in
theorem Shape.plain_marks : Shape.plain.Marks (fun _ => some []) .plain where
  toSpelled := Shape.plain_lawful.toSpelled
  forks _   := rfl

omit [Sha256] in
theorem Shape.pfx_marks : Shape.pfx.Marks (fun bit => some [bit]) .pfx where
  toSpelled := Shape.pfx_lawful.toSpelled
  forks h   := by cases h; rfl

theorem Shape.Marks.fork (law : shape.Marks code form) (bound : n ≤ maxBits)
    (h : shape.fork label left right n below = .ok c) :
    Opened c n label (form.mark true) ∧ c.refs = [left, right] := by
  have ⟨le, e, bits, extra, coded, makes⟩ := (fork_eq_ok law.toSpelled bound).mp h
  cases coded.symm.trans (law.forks extra)
  exact ⟨opened_of_node (makes.node le bound), makes.cell.2.2⟩

theorem Shape.Marks.rebuild (law : shape.Marks code form) (bound : n ≤ maxBits)
    (h : Step.rebuild shape ⟨c, label, n, b.toNat⟩ child = .ok c') : ∃ sibling,
      c.reference (1 - b.toNat) = some sibling ∧ Opened c' n label (form.mark true) ∧
      c'.refs = sides b child sibling := by
  rw [Step.rebuild, okOr_bind_eq_ok] at h
  obtain ⟨sibling, other, built⟩ := h
  obtain ⟨made, refs⟩ := law.fork bound built
  refine ⟨sibling, other, made, ?_⟩
  rw [refs]
  cases b <;> rfl

-- What is left of a node is stored behind another label.
theorem stored_behind (bound : n ≤ maxBits)
    (h : (do
      let (_, b) ← (do storeLabel label n; storeSlice s : Store Unit).call .new
      b.build) = .ok c) : Opened c n label s.ahead ∧ c.refs = s.refsAhead := by
  have ⟨_, run, _⟩ := build_eq_ok.mp h
  have ⟨_, _, first, _⟩ := ends_bind.mp run
  have le : label.length ≤ n := by
    by_contra gt
    exact not_storeLabel_ends (not_le.mp gt) bound first
  have makes := ((storeLabel_writes le (lt_of_le_maxBits bound)).seq (storeSlice_writes s)).build.mp h
  exact ⟨opened_of_node (makes.node le bound), by simpa using makes.cell.2.2⟩

theorem Shape.Opens.relabelled {label' : List Bool} {m : Nat} (opens : Opens c n label s) (bound : m ≤ maxBits)
    (h : Shape.relabelled c n label' m = .ok c') : Opened c' m label' s.ahead ∧ c'.refs = c.refs := by
  rw [← opens.refs]
  refine stored_behind bound ?_
  rw [Shape.relabelled, call_eq_ok.mpr (skipLabel_of_readLabel opens.read)] at h
  exact h

theorem Shape.Marks.split (law : shape.Marks code form) {shared tail : List Bool} {entry : Entry ε}
    (bound : n ≤ maxBits) (opens : Opens c n (shared ++ b :: label) s)
    (h : shape.split c (shared ++ b :: label) shared.length n (shared ++ (!b) :: tail) entry = .ok c') :
    ∃ kept, c'.reference b.toNat = some kept ∧ Opened kept (n - shared.length - 1) label s.ahead ∧
      kept.refs = c.refs := by
  rw [split_eq_bind, bind_eq_ok] at h
  have ⟨kept, stored, h⟩ := h
  have ⟨fresh, _, h⟩ := bind_eq_ok.mp h
  have ⟨same, refs⟩ := opens.relabelled (by omega) stored
  refine ⟨kept, ?_, same, refs⟩
  have ⟨_, branches⟩ := law.fork bound h
  rw [Cell.reference, branches]
  cases b <;> rfl

theorem Shape.collapse_opened (bound : n ≤ maxBits) (h : collapse ⟨c, label, n, b.toNat⟩ = .ok c') :
    ∃ sibling below rest, c.reference (1 - b.toNat) = some sibling ∧
      Opened sibling (n - (label.length + 1)) below rest ∧ Opened c' n (label ++ (!b) :: below) rest ∧
      c'.refs = sibling.refs := by
  rw [collapse, okOr_bind_eq_ok] at h
  obtain ⟨sibling, other, h⟩ := h
  obtain ⟨ordinary, h⟩ := failIf_bind_eq_ok.mp h
  obtain ⟨longer, pushed, h⟩ := bind_eq_ok.mp h
  obtain ⟨⟨below, s⟩, read, h⟩ := bind_eq_ok.mp h
  obtain ⟨whole, extended, h⟩ := bind_eq_ok.mp h
  obtain ⟨_, rfl⟩ := push_eq_ok.mp pushed
  obtain rfl := extend_append extended
  have opens : Opens sibling (n - (label.length + 1)) below s := ⟨by simpa using ordinary, read⟩
  obtain ⟨made, refs⟩ := stored_behind bound h
  have side : decide (b.toNat = 0) = !b := by cases b <;> rfl
  rw [side, List.append_assoc, List.singleton_append] at made
  exact ⟨sibling, below, s.ahead, other, ⟨s, opens, rfl⟩, made, refs.trans opens.refs⟩

theorem PfxDict.collapse_opened (bound : n ≤ maxBits)
    (h : collapse c n label (1 - b.toNat) = .ok c') :
    ∃ sibling below rest, c.reference (1 - b.toNat) = some sibling ∧
      Opened sibling (n - (label.length + 1)) below rest ∧ Opened c' n (label ++ (!b) :: below) rest ∧
      c'.refs = sibling.refs := by
  rw [collapse, okOr_bind_eq_ok] at h
  obtain ⟨sibling, other, h⟩ := h
  obtain ⟨ordinary, h⟩ := failIf_bind_eq_ok.mp h
  obtain ⟨_, h⟩ := failIf_bind_eq_ok.mp h
  obtain ⟨⟨below, s⟩, read, h⟩ := bind_eq_ok.mp h
  have opens : Shape.Opens sibling (n - (label.length + 1)) below s := ⟨by simpa using ordinary, read⟩
  obtain ⟨made, refs⟩ := stored_behind bound h
  have side : decide (1 - b.toNat = 1) = !b := by cases b <;> rfl
  rw [side, List.append_assoc, List.singleton_append] at made
  exact ⟨sibling, below, s.ahead, other, ⟨s, opens, rfl⟩, made, refs.trans opens.refs⟩

end Cells

section Plain

open Shape

variable [Sha256] {c root : Cell} {n consumed passes : Nat} {bits : List Bool} {path : List Step}

omit [Sha256] in
theorem plain_checkFork {s s' : Slice} {u : Unit} (h : Shape.plain.checkFork.call s = .ok (u, s')) : s.ahead = [] := by
  have ⟨_, _, got, spent⟩ := ends_bind.mp (call_eq_ok.mp h)
  obtain ⟨rfl, rfl⟩ := ends_get.mp got
  have := (ends_failIf.mp spent).1
  rw [not_not, ← ahead_length] at this
  exact List.eq_nil_of_length_eq_zero this

-- Where a descent goes through a node that it can read.
inductive Stop (bits : List Bool) (passes : Nat) (path : List Step) (c : Cell) (n consumed : Nat) (walk : Walk) : Prop
  | leaves {shared label tail : List Bool} {b : Bool} {s : Slice} (opens : Opens c n (shared ++ b :: label) s)
    (parts : bits.drop consumed = shared ++ (!b) :: tail)
    (stops : walk = ⟨path, c, shared ++ b :: label, n, consumed, some shared.length⟩)
  | ends {s : Slice} (opens : Opens c n (bits.drop consumed) s)
    (stops : walk = ⟨path, c, bits.drop consumed, n, consumed, none⟩)
  | goes {label tail : List Bool} {b : Bool} {child : Cell} (node : Opened c n label [])
    (along : bits.drop consumed = label ++ b :: tail) (branch : c.reference b.toNat = some child)
    (goes : Shape.plain.descendFrom bits passes (⟨c, label, n, b.toNat⟩ :: path) child
      (n - (label.length + 1)) (consumed + (label.length + 1)) = .ok walk)

omit [Sha256] in
theorem descendFrom_stop {walk : Walk} (length : (bits.drop consumed).length = n)
    (h : Shape.plain.descendFrom bits (passes + 1) path c n consumed = .ok walk) :
    Stop bits passes path c n consumed walk := by
  rw [descendFrom, failIf_bind_eq_ok] at h
  obtain ⟨ordinary, h⟩ := h
  obtain ⟨⟨label, s⟩, read, h⟩ := bind_eq_ok.mp h
  have opens : Opens c n label s := ⟨by simpa using ordinary, read⟩
  have le := readLabel_le read
  dsimp only at h
  rw [diverges_eq_diverge] at h
  cases parts : Radix.diverge label (bits.drop consumed)
  case some i =>
    rw [parts, if_pos (.inl rfl)] at h
    obtain ⟨shared, b, labelRest, keyRest, rfl, rfl, key⟩ := Radix.diverge_eq_some parts
    exact .leaves opens key (pure_eq_ok.mp h).symm
  case none =>
    obtain ⟨tail, along⟩ := (Radix.diverge_eq_none (by omega)).mp parts
    rw [parts] at h
    by_cases whole : label.length = n
    case pos =>
      rw [if_pos (.inr whole)] at h
      obtain rfl : tail = [] := by
        rw [← along, List.length_append] at length
        exact List.eq_nil_of_length_eq_zero (by omega)
      rw [List.append_nil] at along
      subst along
      exact .ends opens (pure_eq_ok.mp h).symm
    case neg =>
      rw [if_neg (by simp [whole])] at h
      obtain ⟨⟨_, s'⟩, checked, h⟩ := bind_eq_ok.mp h
      obtain ⟨child, branch, h⟩ := okOr_bind_eq_ok.mp h
      cases tail
      case nil =>
        rw [← along, List.append_nil] at length
        exact absurd length whole
      case cons b tail =>
        rw [getD_of_drop along.symm] at branch h
        exact .goes ⟨s, opens, plain_checkFork checked⟩ along.symm branch h

theorem place_rewrites {entry : Entry Unit} (bound : n ≤ maxBits) (length : (bits.drop consumed).length = n)
    (h : (Shape.plain.descendFrom bits passes path c n consumed >>= Shape.plain.place bits entry) = .ok root) :
    ∃ c', Rewrites .plain c n (bits.drop consumed) (some c') ∧ Shape.plain.rebuild path c' = .ok root := by
  induction passes generalizing path c n consumed
  case zero => cases h
  case succ passes hi =>
    have ⟨walk, descended, placed⟩ := bind_eq_ok.mp h
    rcases descendFrom_stop length descended with ⟨opens, parts, rfl⟩ | ⟨opens, rfl⟩ |
      ⟨node, along, branch, goes⟩
    · have ⟨c', built, up⟩ := bind_eq_ok.mp placed
      rw [parts] at built ⊢
      have ⟨kept, there, same, refs⟩ := Shape.plain_marks.split bound opens built
      exact ⟨c', .beside ⟨_, opens, rfl⟩ there same refs, up⟩
    · have ⟨c', _, up⟩ := bind_eq_ok.mp placed
      exact ⟨c', .entry (Opened.plain ⟨_, opens, rfl⟩), up⟩
    · have ⟨child', rewritten, up⟩ := hi (by omega) (by rw [List.length_drop] at length ⊢; omega)
        (bind_eq_ok.mpr ⟨walk, goes, placed⟩)
      rw [rebuild_cons, bind_eq_ok] at up
      have ⟨c', built, up⟩ := up
      have ⟨sibling, other, made, refs⟩ := Shape.plain_marks.rebuild bound built
      rw [drop_of_drop along] at rewritten
      rw [along]
      exact ⟨c', .deeper node.plain (fun _ => rfl) branch other rewritten made refs, up⟩

-- What removing a key comes to below a node, where it has the key.
theorem displace_rewrites {new : Option Cell} (bound : n ≤ maxBits) (length : (bits.drop consumed).length = n)
    (h : (Shape.plain.descendFrom bits passes path c n consumed >>= Shape.plain.displace) = .ok (some new)) :
    (∃ value, Opened c n (bits.drop consumed) value ∧
      Shape.plain.displace ⟨path, c, bits.drop consumed, n, consumed, none⟩ = .ok (some new)) ∨
    ∃ c' root, Rewrites .plain c n (bits.drop consumed) (some c') ∧ Shape.plain.rebuild path c' = .ok root ∧
      new = some root := by
  induction passes generalizing path c n consumed
  case zero => cases h
  case succ passes hi =>
    have ⟨walk, descended, displaced⟩ := bind_eq_ok.mp h
    rcases descendFrom_stop length descended with ⟨opens, parts, rfl⟩ | ⟨opens, rfl⟩ |
      ⟨node, along, branch, goes⟩
    · cases displaced
    · exact .inl ⟨_, ⟨_, opens, rfl⟩, displaced⟩
    · have below := hi (by omega) (by rw [List.length_drop] at length ⊢; omega)
        (bind_eq_ok.mpr ⟨walk, goes, displaced⟩)
      rw [drop_of_drop along] at below
      rw [along]
      rcases below with ⟨value, gone, displaced⟩ | ⟨child', root, rewritten, up, rfl⟩
      · have ⟨c', collapsed, rebuilt⟩ := bind_eq_ok.mp displaced
        have ⟨root, up, last⟩ := bind_eq_ok.mp rebuilt
        have ⟨sibling, label, rest, other, survives, made, refs⟩ := Shape.collapse_opened bound collapsed
        cases last
        exact .inr ⟨c', root, .merged node.plain (fun _ => rfl) branch other gone.plain survives made refs,
          up, rfl⟩
      · rw [rebuild_cons, bind_eq_ok] at up
        have ⟨c', built, up⟩ := up
        have ⟨sibling, other, made, refs⟩ := Shape.plain_marks.rebuild bound built
        exact .inr ⟨c', root, .deeper node.plain (fun _ => rfl) branch other rewritten made refs,
          up, rfl⟩

theorem setRoot_rewrites {entry : Entry Unit} (bound : n ≤ maxBits) (length : bits.length = n)
    (h : Shape.plain.setRoot (some c) n bits entry = .ok root) : Rewrites .plain c n bits (some root) := by
  have ⟨c', rewritten, up⟩ : ∃ c', Rewrites .plain c n (bits.drop 0) (some c') ∧
      Shape.plain.rebuild [] c' = .ok root := place_rewrites bound length h
  cases up
  exact rewritten

theorem removeRoot_rewrites {new : Option Cell} (bound : n ≤ maxBits) (length : bits.length = n)
    (h : Shape.plain.removeRoot (some c) n bits = .ok (some new)) : Rewrites .plain c n bits new := by
  have displaced : (Shape.plain.descendFrom bits (n + 1) [] c n 0 >>= Shape.plain.displace) = .ok (some new) := h
  have whole : (bits.drop 0).length = n := length
  rcases displace_rewrites bound whole displaced with ⟨value, node, _⟩ | ⟨c', root, rewritten, up, rfl⟩
  · exact .entry node.plain
  · cases up
    exact rewritten

end Plain

namespace PfxDict

variable [Sha256] {c c' : Cell} {n passes : Nat} {key : List Bool} {value : Builder}

theorem insert_rewrites (bound : n ≤ maxBits) (h : insert value passes c n key = .ok c') :
    Rewrites .pfx c n key (some c') := by
  induction passes generalizing c n key c'
  case zero => cases h
  case succ passes hi =>
    rw [insert, failIf_bind_eq_ok] at h
    obtain ⟨ordinary, h⟩ := h
    obtain ⟨⟨label, s⟩, read, h⟩ := bind_eq_ok.mp h
    have opens := opens_of_readLabelVec bound (by simpa using ordinary) read
    dsimp only at h
    rw [diverges_eq_diverge] at h
    cases parts : Radix.diverge label key
    case some i =>
      obtain ⟨shared, b, labelRest, keyRest, rfl, rfl, rfl⟩ := Radix.diverge_eq_some parts
      rw [parts] at h
      dsimp only at h
      rw [split_eq] at h
      obtain ⟨kept, there, same, refs⟩ := Shape.pfx_marks.split bound opens h
      exact .beside ⟨s, opens, rfl⟩ there same refs
    case none =>
      rw [parts] at h
      obtain ⟨short, h⟩ := failIf_bind_eq_ok.mp h
      obtain ⟨tail, rfl⟩ := (Radix.diverge_eq_none (not_lt.mp short)).mp parts
      obtain ⟨⟨isFork, s'⟩, marker, h⟩ := bind_eq_ok.mp h
      have ahead := ahead_of_loadBit marker
      rw [List.drop_left] at h
      cases isFork
      case false =>
        obtain _ | ⟨b, tail⟩ := tail
        · rw [List.append_nil]
          exact .entry (Opened.pfx ⟨s, opens, ahead⟩)
        · cases h
      case true =>
        obtain ⟨more, h⟩ := failIf_bind_eq_ok.mp h
        obtain ⟨room, h⟩ := failIf_bind_eq_ok.mp h
        obtain _ | ⟨b, tail⟩ := tail
        · exact absurd rfl more
        · obtain ⟨child, branch, h⟩ := okOr_bind_eq_ok.mp h
          obtain ⟨child', inserted, built⟩ := bind_eq_ok.mp h
          rw [rebuildFork_eq] at built
          obtain ⟨sibling, other, made, refs⟩ := Shape.pfx_marks.rebuild bound (b := b) built
          exact .deeper (Opened.pfx ⟨s, opens, ahead⟩) (by simp) branch other (hi (by omega) inserted) made refs

-- What is left of a node from which a key was removed.
def Left (c : Cell) (n : Nat) (key : List Bool) : Removal → Prop
  | .notFound   => True
  | .gone       => ∃ value, Opened c n key (false :: value)
  | .rebuilt c' => Rewrites .pfx c n key (some c')

theorem removeFrom_left {left : Removal} (bound : n ≤ maxBits) (h : removeFrom passes c n key = .ok left) :
    Left c n key left := by
  induction passes generalizing c n key left
  case zero => cases h
  case succ passes hi =>
    rw [removeFrom, failIf_bind_eq_ok] at h
    obtain ⟨ordinary, h⟩ := h
    obtain ⟨⟨label, s⟩, read, h⟩ := bind_eq_ok.mp h
    have opens := opens_of_readLabelVec bound (by simpa using ordinary) read
    dsimp only at h
    split at h
    case isTrue =>
      cases h
      trivial
    case isFalse along =>
      simp only [not_or, Bool.not_eq_true, Option.isSome_eq_false_iff, Option.isNone_iff_eq_none, not_lt] at along
      rw [diverges_eq_diverge] at along
      obtain ⟨tail, rfl⟩ := (Radix.diverge_eq_none along.2).mp along.1
      obtain ⟨⟨isFork, s'⟩, marker, h⟩ := bind_eq_ok.mp h
      have ahead := ahead_of_loadBit marker
      rw [List.drop_left] at h
      cases isFork
      case false =>
        obtain _ | ⟨b, tail⟩ := tail
        · cases h
          rw [List.append_nil]
          exact ⟨s'.ahead, s, opens, ahead⟩
        · cases h
          trivial
      case true =>
        obtain ⟨room, h⟩ := failIf_bind_eq_ok.mp h
        obtain _ | ⟨b, tail⟩ := tail
        · cases h
          trivial
        · obtain ⟨child, branch, h⟩ := okOr_bind_eq_ok.mp h
          obtain ⟨below, removed, h⟩ := bind_eq_ok.mp h
          have left_below := hi (by omega) removed
          cases below
          case notFound =>
            cases h
            trivial
          case gone =>
            obtain ⟨value, gone⟩ := left_below
            obtain ⟨c', collapsed, last⟩ := bind_eq_ok.mp h
            cases last
            obtain ⟨sibling, label', rest, other, survives, made, refs⟩ := collapse_opened (b := b) bound collapsed
            exact .merged (Opened.pfx ⟨s, opens, ahead⟩) (by simp) branch other gone.pfx survives made refs
          case rebuilt child' =>
            obtain ⟨c', built, last⟩ := bind_eq_ok.mp h
            cases last
            rw [rebuildFork_eq] at built
            obtain ⟨sibling, other, made, refs⟩ := Shape.pfx_marks.rebuild bound (b := b) built
            exact .deeper (Opened.pfx ⟨s, opens, ahead⟩) (by simp) branch other left_below made refs

end PfxDict

section Change

variable [Sha256] {form : DictForm} {c : Cell} {n : Nat} {bits : List Bool} {new : Option Cell}

-- A tree that is read as a dictionary, and the tree after an entry was set or removed there.
inductive Changed (c : Cell) (n : Nat) : DictForm → List Bool → Option Cell → Prop
  | set {dict dict' : Dict} {key : Bytes} {value : Builder} (read : Dict.fromRoot (some c) n = .ok dict)
    (run : (Dict.set key value).Ends dict () dict') : Changed c n .plain (firstBits key n) dict'.root
  | remove {dict dict' : Dict} {key : Bytes} (read : Dict.fromRoot (some c) n = .ok dict)
    (run : (Dict.remove key).Ends dict true dict') : Changed c n .plain (firstBits key n) dict'.root
  | pfxSet {dict dict' : PfxDict} {key : Bytes} {keyLen : Nat} {value : Builder}
    (read : PfxDict.fromRoot (some c) n = .ok dict) (run : (PfxDict.set key keyLen value).Ends dict () dict') :
    Changed c n .pfx (firstBits key keyLen) dict'.root
  | pfxRemove {dict dict' : PfxDict} {key : Bytes} {keyLen : Nat}
    (read : PfxDict.fromRoot (some c) n = .ok dict) (run : (PfxDict.remove key keyLen).Ends dict true dict') :
    Changed c n .pfx (firstBits key keyLen) dict'.root

-- Every fork on the way has two references, and in a prefix dictionary nothing behind its marker.
def Twofold (form : DictForm) (c : Cell) (n : Nat) (key : List Bool) : Prop :=
  ∀ fork extra, Passes form c n key fork extra → fork.refs.length = 2 ∧ (form = .pfx → extra = [])

omit [Sha256] in
theorem PfxDict.fromRoot_eq_ok {root : Option Cell} {dict : PfxDict} :
    PfxDict.fromRoot root n = .ok dict ↔ ∃ bound, ⟨root, n, bound⟩ = dict := by
  rw [PfxDict.fromRoot]
  split
  case isTrue h =>
    rw [pure_eq_ok, exists_prop_of_true h]
  case isFalse h =>
    constructor
    · intro read
      cases read
    · rintro ⟨bound, _⟩
      exact absurd bound h

theorem Changed.rewrites (changed : Changed c n form bits new) : Rewrites form c n bits new := by
  cases changed
  case set read run =>
    obtain ⟨bound, rfl⟩ := Dict.fromRoot_eq_ok.mp read
    rw [Dict.set_eq_commit, ends_commit, bind_eq_ok] at run
    obtain ⟨bits, named, run⟩ := run
    obtain ⟨_, rfl⟩ := keyOf_eq_ok.mp named
    have ⟨root, built, same⟩ := bind_eq_ok.mp run
    cases same
    exact setRoot_rewrites bound (firstBits_length ..) built
  case remove read run =>
    obtain ⟨bound, rfl⟩ := Dict.fromRoot_eq_ok.mp read
    rw [Dict.remove_eq_commit, ends_commit, bind_eq_ok] at run
    obtain ⟨bits, named, run⟩ := run
    obtain ⟨_, rfl⟩ := keyOf_eq_ok.mp named
    have ⟨removed, left, same⟩ := bind_eq_ok.mp run
    cases removed
    case none => cases same
    case some root =>
      cases same
      exact removeRoot_rewrites bound (firstBits_length ..) left
  case pfxSet read run =>
    obtain ⟨bound, rfl⟩ := PfxDict.fromRoot_eq_ok.mp read
    rw [PfxDict.set_eq_commit] at run
    have ⟨_, run⟩ := PfxDict.named_of_ends run
    have ⟨root, built, same⟩ := bind_eq_ok.mp run
    cases same
    exact PfxDict.insert_rewrites bound built
  case pfxRemove read run =>
    obtain ⟨bound, rfl⟩ := PfxDict.fromRoot_eq_ok.mp read
    rw [PfxDict.remove_eq_commit] at run
    have ⟨_, run⟩ := PfxDict.named_of_ends run
    have ⟨⟨_, root⟩, removed, same⟩ := bind_eq_ok.mp run
    cases same
    have ⟨left, ran, shown⟩ := bind_eq_ok.mp removed
    have spec := PfxDict.removeFrom_left bound ran
    cases left
    case notFound => cases shown
    case gone =>
      cases shown
      have ⟨value, node⟩ := spec
      exact .entry node.pfx
    case rebuilt =>
      cases shown
      exact spec

omit [Sha256] in
theorem Rewrites.bare_iff_twofold (h : Rewrites form c n bits new) :
    Bare form c n bits ↔ Twofold form c n bits := by
  refine ⟨fun bare fork extra passes => ?_, fun two fork extra passes => ?_⟩
  · have ⟨empty, length⟩ := bare fork extra passes
    exact ⟨length, fun _ => empty⟩
  · have ⟨length, empty⟩ := two fork extra passes
    refine ⟨?_, length⟩
    cases form
    case plain => exact h.checked fork extra passes
    case pfx => exact empty rfl

theorem PfxDict.removed_false {root root' : Option Cell} (h : removed root n bits = .ok (false, root')) :
    root' = root := by
  cases root
  case none =>
    cases h
    rfl
  case some root =>
    have ⟨left, _, shown⟩ := bind_eq_ok.mp h
    cases left <;> cases shown
    rfl

-- A change loses nothing exactly where the forks it goes through have nothing to lose. A key that is
-- not there to be removed changes nothing.
theorem change_keeps_iff :
    (∀ form c n bits new, Changed c n form bits new →
      ((Bare form c n bits ∧ Keeps form c n bits new) ↔ Twofold form c n bits) ∧
      (Keeps form c n bits new ↔ Twofold form c n bits)) ∧
    (∀ (dict dict' : Dict) key, (Dict.remove key).Ends dict false dict' → dict' = dict) ∧
    ∀ (dict dict' : PfxDict) key keyLen, (PfxDict.remove key keyLen).Ends dict false dict' → dict' = dict := by
  refine ⟨fun form c n bits new changed => ?_, fun dict dict' key run => ?_, fun dict dict' key keyLen run => ?_⟩
  · have rewritten := changed.rewrites
    rw [rewritten.keeps_iff, and_self, and_self, rewritten.bare_iff_twofold]
  · rw [Dict.remove_eq_commit, ends_commit, bind_eq_ok] at run
    have ⟨_, _, run⟩ := run
    have ⟨removed, _, same⟩ := bind_eq_ok.mp run
    cases removed <;> cases same
    rfl
  · rw [PfxDict.remove_eq_commit] at run
    have ⟨_, run⟩ := PfxDict.named_of_ends run
    have ⟨⟨_, root⟩, removed, same⟩ := bind_eq_ok.mp run
    cases same
    rw [PfxDict.removed_false removed]

end Change

section Fork

-- A fork over two leaves that are the same cell, and one with a third reference.
def twofoldBag : Bytes :=
  .be 19 0xb5ee9c72010102010008000201200101000130

def threefoldBag : Bytes :=
  .be 22 0xb5ee9c7201010301000b000301200101020001300000

attribute [local instance] Sha256.standard

-- A node of one of the bags, as it is read.
def nodeRun (c : Cell) (n : Nat) : Option (Bool × List Bool × List Bool) := do
  let (label, s) ← ((readLabel n).call c.parse).toOption
  return (c.isExotic, label, s.ahead)

theorem opened_of_nodeRun {c : Cell} {n : Nat} {label rest : List Bool}
    (h : nodeRun c n = some (false, label, rest)) : Opened c n label rest := by
  simp only [nodeRun, Option.bind_eq_bind, Option.bind_eq_some_iff, toOption_eq_some, Option.pure_def,
    Option.some_inj, Prod.mk.injEq, Prod.exists] at h
  obtain ⟨_, s, read, ordinary, rfl, ahead⟩ := h
  exact ⟨s, ⟨ordinary, read⟩, ahead⟩

-- The first of the two entries removed.
def twofoldRun (bag : Bytes) : Option (Bool × Nat × Bool × Bool × Option Nat) := do
  let root ← soleRoot bag
  let dict ← (Dict.fromRoot (some root) 1).toOption
  let (found, dict') ← ((Dict.remove [0]).call dict).toOption
  let child ← root.reference 0
  return (found, root.refs.length, nodeRun root 1 = some (false, [], []),
    nodeRun child 0 = some (false, [], [true]), dict'.root.map (·.refs.length))

theorem fork_removed (bag : Bytes) (count : Nat)
    (h : twofoldRun bag = some (true, count, true, true, some 0)) :
    ∃ root dict dict' child, soleRoot bag = some root ∧ Dict.fromRoot (some root) 1 = .ok dict ∧
      (Dict.remove [0]).Ends dict true dict' ∧ root.refs.length = count ∧ Opened root 1 [] [] ∧
      root.reference 0 = some child ∧ Opened child 0 [] [true] ∧ ∃ c', dict'.root = some c' ∧ c'.refs = [] := by
  simp only [twofoldRun, Option.bind_eq_bind, Option.bind_eq_some_iff, toOption_eq_some, Option.pure_def,
    Option.some_inj, Prod.mk.injEq, Prod.exists, Option.map_eq_some_iff, List.length_eq_zero_iff,
    decide_eq_true_eq] at h
  obtain ⟨root, parsed, dict, read, _, dict', run, child, branch, rfl, count, node, below, last⟩ := h
  exact ⟨root, dict, dict', child, parsed, read, call_eq_ok.mp run, count, opened_of_nodeRun node, branch,
    opened_of_nodeRun below, last⟩

theorem change_keeps_iff_twofoldBag : ∃ root dict dict', soleRoot twofoldBag = some root ∧
    Dict.fromRoot (some root) 1 = .ok dict ∧ (Dict.remove [0]).Ends dict true dict' ∧
    Bare .plain root 1 [false] ∧ Keeps .plain root 1 [false] dict'.root := by
  have ⟨root, dict, dict', child, parsed, read, run, two, node, branch, below, _⟩ :=
    fork_removed twofoldBag 2 (by decide +kernel)
  refine ⟨root, dict, dict', parsed, read, run, ?_⟩
  refine (change_keeps_iff.1 .plain root 1 [false] dict'.root (.remove read run)).1.mpr fun fork extra passes => ?_
  have fork_or := (passes_iff node.plain (b := false) branch).mp passes
  rcases fork_or with ⟨rfl, _⟩ | passes
  · exact ⟨two, nofun⟩
  · exact (not_passes_of_entry below passes).elim

-- The third reference of the fork is gone, and no error told of it.
theorem change_loses_threefoldBag : ∃ root dict dict', soleRoot threefoldBag = some root ∧
    Dict.fromRoot (some root) 1 = .ok dict ∧ (Dict.remove [0]).Ends dict true dict' ∧ root.refs.length = 3 ∧
    (∃ c', dict'.root = some c' ∧ c'.refs = []) ∧
    ¬Bare .plain root 1 [false] ∧ ¬Keeps .plain root 1 [false] dict'.root := by
  have ⟨root, dict, dict', child, parsed, read, run, three, node, branch, below, last⟩ :=
    fork_removed threefoldBag 3 (by decide +kernel)
  have crowded : ¬Bare .plain root 1 [false] := fun bare => by
    have := (bare root [] (.here node.plain)).2
    omega
  have changed : Changed root 1 .plain [false] dict'.root := .remove read run
  exact ⟨root, dict, dict', parsed, read, run, three, last, crowded, fun keeps =>
    crowded (changed.rewrites.keeps_iff.mp keeps)⟩

end Fork

end TonNet
