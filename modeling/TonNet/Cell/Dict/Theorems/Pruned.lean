import TonNet.Cell.Dict.Plain
import TonNet.Cell.Dict.Theorems.Aug
import TonNet.Cell.Dict.Theorems.Prefix
import TonNet.Cell.Theorems.Copy

-- A dictionary and a copy of it with subtrees pruned: what is asked of the copy and what is changed in
-- it comes to what the dictionary itself comes to, unless the copy says that it is pruned.

namespace TonNet

open Fallible Method Builder

-- The one failure that a copy has of its own.
def LeftOut (e : CellError) : Prop :=
  e = .pruned

section Labels

variable {R : Cell → Cell → Prop} {X : CellError → Prop}

theorem skipLabel_lockstep (max : Nat) :
    Lockstep X (Slice.Parallel R) (fun _ _ => True) (skipLabel max) (skipLabel max) := by
  refine (readRun_lockstep max).same fun run => ?_
  cases run
  case spelled count => exact Slice.skipBits_lockstep count
  case repeated => exact .pure trivial

theorem readLabelVec_lockstep (max : Nat) :
    Lockstep X (Slice.Parallel R) (· = ·) (readLabelVec max) (readLabelVec max) := by
  refine (readRun_lockstep max).same fun run => ?_
  cases run
  case spelled count =>
    have each : ∀ next ∈ List.replicate count Slice.loadBit,
        Lockstep X (Slice.Parallel R) (· = ·) (id next) (id next) := by
      intro next mem
      rw [List.eq_of_mem_replicate mem]
      exact Slice.loadBit_lockstep
    exact (Lockstep.mapM each).mono fun _ _ same => List.forall₂_eq_eq_eq ▸ same
  case repeated => exact .pure rfl

theorem storeRun_lockstep (run : List Bool) :
    Lockstep X (Parallel R) (fun _ _ => True) (storeRun run) (storeRun run) := by
  refine Lockstep.get.bind fun b b' h => ?_
  dsimp only
  rw [h.canExtendBy, h.bitsLeft]
  exact (Lockstep.failIf Iff.rfl _).bind fun _ _ _ => forM_same _ storeBit_lockstep

theorem storeLabel_lockstep (label : List Bool) (max : Nat) :
    Lockstep X (Parallel R) (fun _ _ => True) (storeLabel label max) (storeLabel label max) := by
  refine (Lockstep.failIf Iff.rfl _).bind fun _ _ _ => .ite Iff.rfl (fun _ => ?_) fun _ => ?_
  · refine (storeBit_lockstep _).bind fun _ _ _ => (storeSameBit_lockstep _ _).bind fun _ _ _ => ?_
    exact (storeBit_lockstep _).bind fun _ _ _ => storeRun_lockstep label
  · refine .ite Iff.rfl (fun _ => ?_) fun _ => ?_
    · refine (storeUint_lockstep _ _).bind fun _ _ _ => (storeUint_lockstep _ _).bind fun _ _ _ => ?_
      exact storeRun_lockstep label
    · refine (storeUint_lockstep _ _).bind fun _ _ _ => (storeBit_lockstep _).bind fun _ _ _ => ?_
      exact storeUint_lockstep _ _

end Labels

section Copies

variable [Sha256]

-- A node is opened in the copy and in the tree, or the copy has it no longer.
theorem Cell.Copy.opens {α β : Type} {V : α → β → Prop} {c c' : Cell} {f : Unit → Except CellError α}
    {g : Unit → Except CellError β} (h : c.Copy c') (kept : c.Kept Copy c' → Echoes LeftOut V (f ()) (g ())) :
    Echoes LeftOut V (failIf c.isExotic .pruned >>= f) (failIf c'.isExotic .pruned >>= g) := by
  cases exotic : c.isExotic
  case true => exact .excused rfl
  case false =>
    have here := h.kept exotic
    rw [← here.isExotic, exotic]
    exact kept here

-- What two runs of a builder leave is built alike.
theorem built_echo {x y : Store Unit} (h : Lockstep LeftOut (Parallel Cell.Copy) (fun _ _ => True) x y) :
    Echoes LeftOut Cell.Copy (do let (_, cell) ← x.call .new; cell.build)
      (do let (_, cell) ← y.call .new; cell.build) :=
  (h .new).bind fun _ _ related => related.right.build

namespace Shape

variable {ε : Type} {shape : Shape ε} {E : ε → ε → Prop}

-- A node's summary is read, combined and written in a copy as in the tree.
structure Spares (shape : Shape ε) (E : ε → ε → Prop) : Prop where
  readExtra  : Lockstep LeftOut (Slice.Parallel Cell.Copy) E shape.readExtra shape.readExtra
  writeExtra : ∀ ⦃e e'⦄, E e e' →
    Lockstep LeftOut (Parallel Cell.Copy) (fun _ _ => True) (shape.writeExtra e) (shape.writeExtra e')
  checkFork  : Lockstep LeftOut (Slice.Parallel Cell.Copy) (fun _ _ => True) shape.checkFork shape.checkFork
  forkExtra  : ∀ ⦃left left' right right' : Cell⦄ (below : Nat), left.Copy left' → right.Copy right' →
    Echoes LeftOut E (shape.forkExtra left right below) (shape.forkExtra left' right' below)

structure Step.Copy (step step' : Step) : Prop where
  node      : step.node.Kept Cell.Copy step'.node
  label     : step.label = step'.label
  remaining : step.remaining = step'.remaining
  branch    : step.branch = step'.branch

theorem Step.Copy.below {step step' : Step} (h : step.Copy step') : step.below = step'.below := by
  rw [Step.below, Step.below, h.label, h.remaining]

structure Walk.Copy (walk walk' : Walk) : Prop where
  path      : List.Forall₂ Step.Copy walk.path walk'.path
  node      : walk.node.Kept Cell.Copy walk'.node
  label     : walk.label = walk'.label
  remaining : walk.remaining = walk'.remaining
  consumed  : walk.consumed = walk'.consumed
  diverged  : walk.diverged = walk'.diverged

variable {bits : List Bool} {node node' left left' right right' child child' : Cell} {path path' : List Step}

theorem Spares.descendFrom (h : shape.Spares E) (passes : Nat) (copy : node.Copy node')
    (steps : List.Forall₂ Step.Copy path path') (remaining consumed : Nat) :
    Echoes LeftOut Walk.Copy (shape.descendFrom bits passes path node remaining consumed)
      (shape.descendFrom bits passes path' node' remaining consumed) := by
  induction passes generalizing path path' node node' remaining consumed
  case zero => exact .throw _
  case succ passes hi =>
    refine copy.opens fun kept => (readLabel_lockstep remaining kept.parse).bind ?_
    rintro ⟨label, slice⟩ ⟨_, slice'⟩ ⟨rfl, hs⟩
    refine .ite Iff.rfl (fun _ => .pure ⟨steps, kept, rfl, rfl, rfl, rfl⟩) fun _ => ?_
    refine (h.checkFork hs).bind fun _ _ _ => (Echoes.okOr (kept.reference _) _).bind fun _ _ below => ?_
    refine hi below (.cons ?_ steps) _ _
    exact ⟨kept, rfl, rfl, rfl⟩

theorem Spares.leaf (h : shape.Spares E) {entry : Entry ε} (extra : E entry.extra entry.extra)
    (value : ∀ r ∈ entry.value.refs, r.WellFormed) (key : List Bool) (max : Nat) :
    Echoes LeftOut Cell.Copy (shape.leaf key entry max) (shape.leaf key entry max) :=
  built_echo <| (storeLabel_lockstep key max).bind fun _ _ _ => (h.writeExtra extra).bind fun _ _ _ =>
    storeBuilder_lockstep (Cell.Copy.refs_refl value)

theorem Spares.fork (h : shape.Spares E) (hl : left.Copy left') (hr : right.Copy right') (label : List Bool)
    (remaining below : Nat) : Echoes LeftOut Cell.Copy (shape.fork label left right remaining below)
      (shape.fork label left' right' remaining below) :=
  built_echo <| (storeLabel_lockstep label remaining).bind fun _ _ _ =>
    (Lockstep.ofExcept (h.forkExtra below hl hr)).bind fun _ _ extra =>
      (h.writeExtra extra).bind fun _ _ _ => (storeRef_lockstep hl).bind fun _ _ _ => storeRef_lockstep hr

theorem Spares.rebuildStep (h : shape.Spares E) {step step' : Step} (hs : step.Copy step')
    (copy : child.Copy child') :
    Echoes LeftOut Cell.Copy (step.rebuild shape child) (step'.rebuild shape child') := by
  have sides := hs.node.reference (1 - step.branch)
  unfold Step.rebuild
  rw [← hs.branch, ← hs.label, ← hs.remaining, ← hs.below]
  refine (Echoes.okOr sides _).bind fun sibling sibling' side => ?_
  by_cases first : step.branch = 0
  case pos =>
    rw [if_pos first, if_pos first]
    exact h.fork copy side _ _ _
  case neg =>
    rw [if_neg first, if_neg first]
    exact h.fork side copy _ _ _

theorem Spares.rebuild (h : shape.Spares E) (steps : List.Forall₂ Step.Copy path path')
    (copy : child.Copy child') :
    Echoes LeftOut Cell.Copy (shape.rebuild path child) (shape.rebuild path' child') := by
  induction steps generalizing child child'
  case nil => exact .pure copy
  case cons here _ hi => exact (h.rebuildStep here copy).bind fun _ _ copy => hi copy

theorem relabelled_echo (kept : node.Kept Cell.Copy node') (n : Nat) (label : List Bool) (below : Nat) :
    Echoes LeftOut Cell.Copy (relabelled node n label below) (relabelled node' n label below) := by
  refine built_echo <| (storeLabel_lockstep label below).bind fun _ _ _ => ?_
  refine (Lockstep.ofExcept (skipLabel_lockstep n kept.parse)).bind fun _ _ rest => ?_
  exact storeSlice_lockstep rest.right

theorem Spares.split (h : shape.Spares E) {entry : Entry ε} (extra : E entry.extra entry.extra)
    (value : ∀ r ∈ entry.value.refs, r.WellFormed) (kept : node.Kept Cell.Copy node') (label : Label)
    (index n : Nat) (key : List Bool) :
    Echoes LeftOut Cell.Copy (shape.split node label index n key entry)
      (shape.split node' label index n key entry) := by
  rw [split_eq_relabelled, split_eq_relabelled]
  refine (relabelled_echo kept _ _ _).bind fun old old' old_copy => ?_
  refine (h.leaf extra value _ _).bind fun fresh fresh' fresh_copy => ?_
  cases label.getD index false
  case false => exact h.fork old_copy fresh_copy _ _ _
  case true => exact h.fork fresh_copy old_copy _ _ _

theorem collapse_echo {parent parent' : Step} (hp : parent.Copy parent') :
    Echoes LeftOut Cell.Copy (collapse parent) (collapse parent') := by
  have sides := hp.node.reference (1 - parent.branch)
  unfold collapse
  rw [← hp.branch, ← hp.label, ← hp.remaining, ← hp.below]
  refine (Echoes.okOr sides _).bind fun sibling sibling' side => side.opens fun kept => ?_
  refine Echoes.rfl.bind fun label _ same => same ▸ (readLabel_lockstep _ kept.parse).bind ?_
  rintro ⟨below, slice⟩ ⟨_, slice'⟩ ⟨rfl, hs⟩
  refine Echoes.rfl.bind fun label _ same => same ▸ ?_
  exact built_echo <| (storeLabel_lockstep label _).bind fun _ _ _ => storeSlice_lockstep hs

variable {root root' : Option Cell}

theorem Spares.setRoot (h : shape.Spares E) (copy : Option.Rel Cell.Copy root root') (keyBits : Nat)
    (bits : List Bool) (entry : Entry ε) (extra : E entry.extra entry.extra)
    (value : ∀ r ∈ entry.value.refs, r.WellFormed) :
    Echoes LeftOut Cell.Copy (shape.setRoot root keyBits bits entry) (shape.setRoot root' keyBits bits entry) := by
  cases copy
  case none => exact h.leaf extra value _ _
  case some copy =>
    refine (h.descendFrom _ copy .nil keyBits 0).bind fun walk walk' same => ?_
    rw [← same.diverged, ← same.consumed, ← same.remaining, ← same.label]
    cases walk.diverged
    case none => exact (h.leaf extra value _ _).bind fun _ _ => h.rebuild same.path
    case some => exact (h.split extra value same.node _ _ _ _).bind fun _ _ => h.rebuild same.path

theorem Spares.removeRoot (h : shape.Spares E) (copy : Option.Rel Cell.Copy root root') (keyBits : Nat)
    (bits : List Bool) :
    Echoes LeftOut (Option.Rel (Option.Rel Cell.Copy)) (shape.removeRoot root keyBits bits)
      (shape.removeRoot root' keyBits bits) := by
  cases copy
  case none => exact .pure .none
  case some copy =>
    refine (h.descendFrom _ copy .nil keyBits 0).bind fun walk walk' same => ?_
    rw [← same.diverged]
    refine .ite Iff.rfl (fun _ => .pure .none) fun _ => ?_
    have steps := same.path
    generalize walk.path = path, walk'.path = path' at steps
    cases steps
    case nil => exact .pure (.some .none)
    case cons parent rest =>
      refine (collapse_echo parent).bind fun _ _ merged => (h.rebuild rest merged).bind fun _ _ copy => ?_
      exact .pure (.some (.some copy))

theorem plain_spares : plain.Spares (· = ·) where
  readExtra         := .pure rfl
  writeExtra _ _ _  := .pure trivial
  checkFork         := Lockstep.get.bind fun _ _ h => by
    rw [h.remainingBits]
    exact (Lockstep.failIf Iff.rfl _).mono fun _ _ _ => trivial
  forkExtra _ _ _ _ _ _ _ := .pure rfl

theorem pfx_spares : pfx.Spares (· = ·) where
  readExtra            := Slice.loadBit_lockstep
  writeExtra bit _ same := same ▸ storeBit_lockstep bit
  checkFork            := .pure trivial
  forkExtra _ _ _ _ _ _ _ := .pure rfl

end Shape

-- A summary that is read off a copy, combined and written as the one of the tree, or is said to be
-- pruned. The summaries are the same, or alike in what they hold cells.
structure Augmentation.Spares {ε : Type} (aug : Augmentation ε) (E : ε → ε → Prop) : Prop where
  read    : Lockstep LeftOut (Slice.Parallel Cell.Copy) E aug.read aug.read
  combine : ∀ ⦃left left' right right'⦄, E left left' → E right right' →
    Echoes LeftOut E (aug.combine left right) (aug.combine left' right')
  write   : ∀ ⦃e e'⦄, E e e' →
    Lockstep LeftOut (Parallel Cell.Copy) (fun _ _ => True) (aug.write e) (aug.write e')

section Aug

variable {ε : Type} {aug : Augmentation ε} {E : ε → ε → Prop}

theorem Augmentation.Spares.extraOf (h : aug.Spares E) {node node' : Cell} (copy : node.Copy node') (max : Nat) :
    Echoes LeftOut E (extraOf aug.read node max) (extraOf aug.read node' max) :=
  copy.opens fun kept => ((skipLabel_lockstep max).bind fun _ _ _ => h.read).value kept.parse

theorem Augmentation.Spares.shape (h : aug.Spares E) : aug.shape.Spares E where
  readExtra  := h.read
  writeExtra := h.write
  checkFork  := h.read.bind fun _ _ _ => Lockstep.get.bind fun _ _ same => by
    rw [same.remainingBits]
    exact (Lockstep.failIf Iff.rfl _).mono fun _ _ _ => trivial
  forkExtra _ _ _ _ below hl hr := (h.extraOf hl below).bind fun _ _ left =>
    (h.extraOf hr below).bind fun _ _ right => h.combine left right

theorem countSum_spares : countSum.Spares (· = ·) where
  read               := Slice.loadU32_lockstep
  combine _ _ _ _    := fun left right => .pure (congrArg₂ (· + ·) left right)
  write extra _ same := same ▸ storeUint_lockstep extra.toNat 32

end Aug

namespace PfxDict

variable {bits key label : List Bool} {node node' child child' : Cell} {value : Builder} {X : CellError → Prop}

theorem getFrom_echo (passes : Nat) (copy : node.Copy node') (remaining consumed : Nat) :
    Lookup.Echo X (DictEntry.Shown Cell.Copy) (getFrom bits passes node remaining consumed)
      (getFrom bits passes node' remaining consumed) := by
  induction passes generalizing node node' remaining consumed
  case zero => exact .inr (.throw _)
  case succ passes hi =>
    rw [getFrom, getFrom]
    cases exotic : node.isExotic
    case true => exact .inl (if_pos rfl)
    case false =>
      have kept := copy.kept exotic
      rw [if_neg (by simp), if_neg (by simp [← kept.isExotic, exotic])]
      refine .bind (readLabel_lockstep remaining kept.parse) ?_
      rintro ⟨label, slice⟩ ⟨_, slice'⟩ ⟨rfl, hs⟩
      refine .ite (fun _ => .absent) fun _ => .bind (Slice.loadBit_lockstep hs) ?_
      rintro ⟨isFork, rest⟩ ⟨_, rest'⟩ ⟨rfl, hr⟩
      refine .ite (fun _ => .ite (fun _ => .found ⟨⟨kept, ?_⟩, copy, exotic⟩) fun _ => .absent) fun _ => ?_
      · exact congrArg₂ (· - ·) kept.bits hr.remainingBits
      · refine .bind (.failIf Iff.rfl _) fun _ _ _ => .ite (fun _ => .absent) fun _ => ?_
        exact .bind (.okOr (kept.reference _) _) fun _ _ below => hi below _ _

theorem rebuildFork_echo (kept : node.Kept Cell.Copy node') (copy : child.Copy child') (remaining branch : Nat) :
    Echoes LeftOut Cell.Copy (rebuildFork label remaining node branch child)
      (rebuildFork label remaining node' branch child') := by
  have step : Shape.Step.Copy ⟨node, label, remaining, branch⟩ ⟨node', label, remaining, branch⟩ :=
    ⟨kept, rfl, rfl, rfl⟩
  exact Shape.pfx_spares.rebuildStep step copy

theorem leafCell_echo (sound : ∀ r ∈ value.refs, r.WellFormed) (remaining : Nat) :
    Echoes LeftOut Cell.Copy (leafCell label remaining value) (leafCell label remaining value) := by
  rw [leafCell_eq]
  exact Shape.pfx_spares.leaf rfl sound label remaining

theorem insert_echo (sound : ∀ r ∈ value.refs, r.WellFormed) (passes : Nat) (copy : node.Copy node')
    (remaining : Nat) : Echoes LeftOut Cell.Copy (insert value passes node remaining key)
      (insert value passes node' remaining key) := by
  induction passes generalizing node node' remaining key
  case zero => exact .throw _
  case succ passes hi =>
    refine copy.opens fun kept => (readLabelVec_lockstep remaining kept.parse).bind ?_
    rintro ⟨label, slice⟩ ⟨_, slice'⟩ ⟨rfl, hs⟩
    dsimp only
    cases diverges label key
    case some index =>
      dsimp only
      rw [split_eq, split_eq]
      exact Shape.pfx_spares.split rfl sound kept label index remaining key
    case none =>
      refine (Echoes.failIf Iff.rfl _).bind fun _ _ _ => (Slice.loadBit_lockstep hs).bind ?_
      rintro ⟨isFork, _⟩ ⟨_, _⟩ ⟨rfl, _⟩
      refine .ite Iff.rfl (fun _ => .ite Iff.rfl (fun _ => leafCell_echo sound _) fun _ => .throw _) fun _ => ?_
      refine (Echoes.failIf Iff.rfl _).bind fun _ _ _ => (Echoes.failIf Iff.rfl _).bind fun _ _ _ => ?_
      refine (Echoes.okOr (kept.reference _) _).bind fun _ _ below => (hi below _).bind fun _ _ copy => ?_
      exact rebuildFork_echo kept copy _ _

theorem collapse_echo (kept : node.Kept Cell.Copy node') (remaining survivor : Nat) :
    Echoes LeftOut Cell.Copy (collapse node remaining label survivor)
      (collapse node' remaining label survivor) := by
  refine (Echoes.okOr (kept.reference survivor) _).bind fun _ _ side => side.opens fun kept => ?_
  refine (Echoes.failIf Iff.rfl _).bind fun _ _ _ => (readLabel_lockstep _ kept.parse).bind ?_
  rintro ⟨below, slice⟩ ⟨_, slice'⟩ ⟨rfl, hs⟩
  exact built_echo <| (storeLabel_lockstep _ _).bind fun _ _ _ => storeSlice_lockstep hs

end PfxDict

-- What is left of a copy without a key, and of the tree.
inductive Removal.Copy : Removal → Removal → Prop
  | notFound : Copy .notFound .notFound
  | gone : Copy .gone .gone
  | rebuilt {c c' : Cell} (copy : c.Copy c') : Copy (.rebuilt c) (.rebuilt c')

namespace PfxDict

variable {key : List Bool} {node node' : Cell}

theorem removeFrom_echo (passes : Nat) (copy : node.Copy node') (remaining : Nat) :
    Echoes LeftOut Removal.Copy (removeFrom passes node remaining key) (removeFrom passes node' remaining key) := by
  induction passes generalizing node node' remaining key
  case zero => exact .throw _
  case succ passes hi =>
    refine copy.opens fun kept => (readLabelVec_lockstep remaining kept.parse).bind ?_
    rintro ⟨label, slice⟩ ⟨_, slice'⟩ ⟨rfl, hs⟩
    refine .ite Iff.rfl (fun _ => .pure .notFound) fun _ => (Slice.loadBit_lockstep hs).bind ?_
    rintro ⟨isFork, _⟩ ⟨_, _⟩ ⟨rfl, _⟩
    refine .ite Iff.rfl (fun _ => .ite Iff.rfl (fun _ => .pure .gone) fun _ => .pure .notFound) fun _ => ?_
    refine (Echoes.failIf Iff.rfl _).bind fun _ _ _ => .ite Iff.rfl (fun _ => .pure .notFound) fun _ => ?_
    refine (Echoes.okOr (kept.reference _) _).bind fun _ _ below => (hi below _).bind fun _ _ left => ?_
    cases left
    case notFound => exact .pure .notFound
    case gone => exact (collapse_echo kept _ _).bind fun _ _ copy => .pure (.rebuilt copy)
    case rebuilt copy => exact (rebuildFork_echo kept copy _ _).bind fun _ _ copy => .pure (.rebuilt copy)

end PfxDict

-- An entry that a copy shows is the tree's own, but for what is pruned below it.
theorem DictEntry.Shown.eq {e e' : DictEntry} (h : e.Shown Cell.Copy e') (refs : e.cell.refs = e'.cell.refs) :
    e = e' := by
  have np : e.cell.cellType ≠ .prunedBranch := by
    intro pruned
    have := h.ordinary
    simp [Cell.isExotic, pruned] at this
  have cell := h.related.wellFormed.ext h.related.wellFormed' h.cell.cellType h.cell.bits h.cell.data refs np
  cases e
  cases e'
  exact DictEntry.mk.injEq .. ▸ ⟨cell, h.bitOffset⟩

def DictEntry.Exactly (e e' : DictEntry) : Prop :=
  e.Shown Cell.Copy e' ∧ (e.cell.refs = e'.cell.refs → e = e')

theorem DictEntry.Shown.exactly {e e' : DictEntry} (h : e.Shown Cell.Copy e') : e.Exactly e' :=
  ⟨h, h.eq⟩

-- Two roots of which one is a copy of the other, and so hashes to the same at level zero.
structure Thins (root root' : Option Cell) : Prop where
  copy : Option.Rel Cell.Copy root root'
  hash : root.map Cell.hash = root'.map Cell.hash

theorem Thins.of {root root' : Option Cell} (copy : Option.Rel Cell.Copy root root') : Thins root root' := by
  refine ⟨copy, ?_⟩
  cases copy
  case none => rfl
  case some copy => exact congrArg some copy.hash

structure Dict.Copy (d d' : Dict) : Prop where
  root    : Thins d.root d'.root
  keyBits : d.keyBits = d'.keyBits

structure AugDict.Copy {ε : Type} (aug : Augmentation ε) (d d' : AugDict ε) : Prop where
  root    : Thins d.root d'.root
  keyBits : d.keyBits = d'.keyBits
  same    : d.aug = aug
  same'   : d'.aug = aug

structure PfxDict.Copy (d d' : PfxDict) : Prop where
  root    : Thins d.root d'.root
  keyBits : d.keyBits = d'.keyBits

variable {key : Bytes} {value : Builder}

theorem Dict.get_exactly {X : CellError → Prop} {d d' : Dict} (copy : d.Copy d') :
    Lookup.Echo X DictEntry.Exactly (d.get key) (d'.get key) :=
  (get_echo Cell.Copy.copies copy.root.copy copy.keyBits key).mono fun _ _ => DictEntry.Shown.exactly

theorem Dict.set_lockstep (sound : ∀ r ∈ value.refs, r.WellFormed) :
    Lockstep LeftOut Copy (· = ·) (Dict.set key value) (Dict.set key value) := by
  refine Lockstep.get.bind ?_
  rintro ⟨root, keyBits⟩ ⟨root', _⟩ ⟨roots, rfl⟩
  refine (Lockstep.ofExcept .rfl).bind fun bits _ same => same ▸ ?_
  have step := Shape.plain_spares.setRoot roots.copy keyBits bits ⟨(), value⟩ rfl sound
  exact (Lockstep.ofExcept step).bind fun _ _ copy => .set ⟨.of (.some copy), rfl⟩

theorem Dict.remove_lockstep : Lockstep LeftOut Copy (· = ·) (Dict.remove key) (Dict.remove key) := by
  refine Lockstep.get.bind ?_
  rintro ⟨root, keyBits⟩ ⟨root', _⟩ ⟨roots, rfl⟩
  refine (Lockstep.ofExcept .rfl).bind fun bits _ same => same ▸ ?_
  refine (Lockstep.ofExcept (Shape.plain_spares.removeRoot roots.copy keyBits bits)).bind ?_
  rintro _ _ (copy | _)
  case none => exact .pure rfl
  case some => exact (Lockstep.set ⟨.of copy, rfl⟩).bind fun _ _ _ => .pure rfl

section

variable {ε : Type} {aug : Augmentation ε} {E : ε → ε → Prop} {extra : ε}

-- The summary and the entry under it.
structure AugEntry.Exactly (E : ε → ε → Prop) (e e' : AugEntry ε) : Prop where
  extra : E e.extra e'.extra
  entry : e.entry.Exactly e'.entry

namespace AugDict

theorem get_echo (h : aug.Spares E) {d d' : AugDict ε} (copy : Copy aug d d') :
    Lookup.Echo LeftOut (AugEntry.Exactly E) (d.get key) (d'.get key) := by
  rw [get, get, copy.keyBits, copy.same, copy.same']
  refine .bind .rfl fun bits _ e => e ▸ ?_
  refine (lookup_echo Cell.Copy.copies h.read copy.root.copy _).chain rfl rfl rfl ?_
  exact fun _ _ ⟨extra, entry⟩ => .found ⟨extra, entry.exactly⟩

theorem set_lockstep (h : aug.Spares E) (new : E extra extra) (sound : ∀ r ∈ value.refs, r.WellFormed) :
    Lockstep LeftOut (Copy aug) (· = ·) (AugDict.set key extra value) (AugDict.set key extra value) := by
  refine Lockstep.get.bind ?_
  rintro ⟨aug, root, keyBits, _⟩ ⟨aug', root', keyBits', _⟩ ⟨roots, widths, same, same'⟩
  dsimp only at widths same same'
  subst widths same same'
  refine (Lockstep.ofExcept .rfl).bind fun bits _ same => same ▸ ?_
  have step := h.shape.setRoot roots.copy keyBits bits ⟨extra, value⟩ new sound
  exact (Lockstep.ofExcept step).bind fun _ _ copy => .set ⟨.of (.some copy), rfl, rfl, rfl⟩

theorem remove_lockstep (h : aug.Spares E) :
    Lockstep LeftOut (Copy aug) (· = ·) (AugDict.remove key) (AugDict.remove key) := by
  refine Lockstep.get.bind ?_
  rintro ⟨aug, root, keyBits, _⟩ ⟨aug', root', keyBits', _⟩ ⟨roots, widths, same, same'⟩
  dsimp only at widths same same'
  subst widths same same'
  refine (Lockstep.ofExcept .rfl).bind fun bits _ same => same ▸ ?_
  refine (Lockstep.ofExcept (h.shape.removeRoot roots.copy keyBits bits)).bind ?_
  rintro _ _ (copy | _)
  case none => exact .pure rfl
  case some => exact (Lockstep.set ⟨.of copy, rfl, rfl, rfl⟩).bind fun _ _ _ => .pure rfl

end AugDict

end

namespace PfxDict

variable {keyLen : Nat} {X : CellError → Prop}

theorem get_echo {d d' : PfxDict} (copy : d.Copy d') :
    Lookup.Echo X DictEntry.Exactly (d.get key keyLen) (d'.get key keyLen) := by
  rw [get, get, copy.keyBits]
  refine .bind .rfl fun bits _ e => e ▸ ?_
  have roots := copy.root.copy
  generalize d.root = root, d'.root = root' at roots
  cases roots
  case none => exact .absent
  case some node =>
    exact (getFrom_echo _ node _ _).mono fun _ _ => DictEntry.Shown.exactly

theorem set_lockstep (sound : ∀ r ∈ value.refs, r.WellFormed) :
    Lockstep LeftOut Copy (· = ·) (PfxDict.set key keyLen value) (PfxDict.set key keyLen value) := by
  refine Lockstep.get.bind ?_
  rintro ⟨root, keyBits, _⟩ ⟨root', _, _⟩ ⟨⟨roots, _⟩, rfl⟩
  refine (Lockstep.ofExcept .rfl).bind fun bits _ same => same ▸ ?_
  cases roots
  case none =>
    exact (Lockstep.ofExcept (leafCell_echo sound keyBits)).bind fun _ _ copy => .set ⟨.of (.some copy), rfl⟩
  case some node _ _ =>
    exact (Lockstep.ofExcept (insert_echo sound _ node _)).bind fun _ _ copy => .set ⟨.of (.some copy), rfl⟩

theorem remove_lockstep :
    Lockstep LeftOut Copy (· = ·) (PfxDict.remove key keyLen) (PfxDict.remove key keyLen) := by
  refine Lockstep.get.bind ?_
  rintro ⟨root, keyBits, _⟩ ⟨root', _, _⟩ ⟨⟨roots, _⟩, rfl⟩
  refine (Lockstep.ofExcept .rfl).bind fun bits _ same => same ▸ ?_
  cases roots
  case none => exact .pure rfl
  case some node _ _ =>
    refine (Lockstep.ofExcept (removeFrom_echo _ node _)).bind fun _ _ left => ?_
    cases left
    case notFound => exact .pure rfl
    case gone => exact (Lockstep.set ⟨.of .none, rfl⟩).bind fun _ _ _ => .pure rfl
    case rebuilt copy => exact (Lockstep.set ⟨.of (.some copy), rfl⟩).bind fun _ _ _ => .pure rfl

end PfxDict

-- A dictionary with subtrees left out says so or answers as the whole one does. It is changed likewise,
-- and what it is changed to is a copy of what the whole one is changed to, of the same hash.
theorem copy_answers_or_prunes :
    ((∀ (d d' : Dict) (key : Bytes), d.Copy d' →
        Lookup.Echo (fun _ => False) DictEntry.Exactly (d.get key) (d'.get key)) ∧
      (∀ (key : Bytes) (value : Builder), (∀ r ∈ value.refs, r.WellFormed) →
        Lockstep LeftOut Dict.Copy (· = ·) (Dict.set key value) (Dict.set key value)) ∧
      ∀ key : Bytes, Lockstep LeftOut Dict.Copy (· = ·) (Dict.remove key) (Dict.remove key)) ∧
    (∀ (ε : Type) (aug : Augmentation ε) (E : ε → ε → Prop), aug.Spares E →
      (∀ (d d' : AugDict ε) (key : Bytes), AugDict.Copy aug d d' →
        Lookup.Echo LeftOut (AugEntry.Exactly E) (d.get key) (d'.get key)) ∧
      (∀ (key : Bytes) (extra : ε) (value : Builder), E extra extra → (∀ r ∈ value.refs, r.WellFormed) →
        Lockstep LeftOut (AugDict.Copy aug) (· = ·) (AugDict.set key extra value)
          (AugDict.set key extra value)) ∧
      ∀ key : Bytes, Lockstep LeftOut (AugDict.Copy aug) (· = ·) (AugDict.remove key) (AugDict.remove key)) ∧
    (∀ (d d' : PfxDict) (key : Bytes) (keyLen : Nat), d.Copy d' →
        Lookup.Echo (fun _ => False) DictEntry.Exactly (d.get key keyLen) (d'.get key keyLen)) ∧
      (∀ (key : Bytes) (keyLen : Nat) (value : Builder), (∀ r ∈ value.refs, r.WellFormed) →
        Lockstep LeftOut PfxDict.Copy (· = ·) (PfxDict.set key keyLen value) (PfxDict.set key keyLen value)) ∧
      ∀ (key : Bytes) (keyLen : Nat),
        Lockstep LeftOut PfxDict.Copy (· = ·) (PfxDict.remove key keyLen) (PfxDict.remove key keyLen) := by
  refine ⟨?_, ?_, ?_⟩
  · exact ⟨fun _ _ _ => Dict.get_exactly, fun _ _ => Dict.set_lockstep, fun _ => Dict.remove_lockstep⟩
  · intro ε aug E spares
    exact ⟨fun _ _ _ => AugDict.get_echo spares, fun _ _ _ => AugDict.set_lockstep spares,
      fun _ => AugDict.remove_lockstep spares⟩
  · exact ⟨fun _ _ _ _ => PfxDict.get_echo, fun _ _ _ => PfxDict.set_lockstep,
      fun _ _ => PfxDict.remove_lockstep⟩

end Copies

section LeftOutSamples

attribute [local instance] Sha256.standard

-- A tree without the subtree at `path`, which is under no Merkle cell.
def leaveOut (root : Cell) (path : List Nat) : Option Cell := do
  let s ← root.at? path
  let branch ← (s.standIn 0).toOption
  if root.merklesOn path = 0 then (root.replaceAt path branch).toOption else none

theorem leaveOut_copy {root copy : Cell} {path : List Nat} (wf : root.WellFormed)
    (h : leaveOut root path = some copy) : copy.Copy root := by
  simp only [leaveOut, Option.bind_eq_bind, Option.bind_eq_some_iff, toOption_eq_some,
    Option.ite_none_right_eq_some] at h
  have ⟨s, hp, branch, stands, merkles, replaced⟩ := h
  rw [← merkles] at stands
  exact .of_standIn wf hp (by omega) stands replaced

-- A fork over two one-bit keys.
def twoKeysBag : Bytes :=
  .be 22 0xb5ee9c7201010301000b000201200102000130000110

-- The second key is left out, the first one is given another value.
def twoKeysRun : Option (Option Nat) := do
  let root ← soleRoot twoKeysBag
  let copy ← leaveOut root [1]
  let (_, changed) ← ((Dict.set [0] .new).call ⟨some copy, 1⟩).toOption
  return changed.root.map Cell.bits

theorem copy_answers_or_prunes_twoKeys :
    (∃ root copy, soleRoot twoKeysBag = some root ∧ leaveOut root [1] = some copy ∧
      ∃ changed changed', (Dict.set [0] .new).call ⟨some copy, 1⟩ = .ok ((), changed) ∧
        (Dict.set [0] .new).call ⟨some root, 1⟩ = .ok ((), changed') ∧
        changed.root.map Cell.hash = changed'.root.map Cell.hash) ∧
    Lockstep LeftOut (AugDict.Copy countSum) (· = ·) (AugDict.remove [0]) (AugDict.remove [0]) := by
  refine ⟨?_, (copy_answers_or_prunes.right.left _ _ _ countSum_spares).right.right [0]⟩
  have run : twoKeysRun = some (some 2) := by decide +kernel
  simp only [twoKeysRun, Option.bind_eq_bind, Option.bind_eq_some_iff, toOption_eq_some, Prod.exists] at run
  have ⟨root, parsed, copy, cut, _, changed, set, _⟩ := run
  have copies : Dict.Copy ⟨some copy, 1⟩ ⟨some root, 1⟩ :=
    ⟨.of (.some (leaveOut_copy (soleRoot_wellFormed parsed) cut)), rfl⟩
  have steps := copy_answers_or_prunes.left.right.left [0] .new (List.forall_mem_nil _) copies
  have ⟨⟨_, changed'⟩, set', _, root'⟩ := steps.of_ok set
  exact ⟨root, copy, parsed, cut, changed, changed', set, set', root'.root.hash⟩

-- A summary kept in a cell of its own.
def reaching : Augmentation Nat where
  read := do
    let cell ← Slice.loadRef
    let (extra, _) ← Method.ofExcept ((Slice.loadUint 8).call cell.parse)
    return extra
  combine left right := return left + right
  write extra := do
    let (_, builder) ← Method.ofExcept ((Builder.storeUint extra 8).call .new)
    let cell ← Method.ofExcept builder.build
    Builder.storeRef cell

-- One key, the summary of which is 7.
def reachingBag : Bytes :=
  .be 18 0xb5ee9c720101020100070001014801000207

def entryOf {α : Type} : Except CellError (Lookup α) → Option α
  | .ok (.found entry) => some entry
  | _                  => none

theorem entryOf_eq_some {α : Type} {looked : Except CellError (Lookup α)} {entry : α} :
    entryOf looked = some entry ↔ looked = .ok (.found entry) := by
  unfold entryOf
  split
  case h_1 found => simp
  case h_2 other => simpa using other entry

def reachingRun : Option (Bool × Nat × Nat × List Bool × List Bool) := do
  let root ← soleRoot reachingBag
  let copy ← leaveOut root [0]
  let full ← (AugDict.fromRoot reaching (some root) 1).toOption
  let part ← (AugDict.fromRoot reaching (some copy) 1).toOption
  let found ← entryOf (part.get [0])
  let found' ← entryOf (full.get [0])
  let entry ← entryOf (Dict.get ⟨some copy, 1⟩ [0])
  let entry' ← entryOf (Dict.get ⟨some root, 1⟩ [0])
  return (root.subcells.all (!·.isExotic), found.extra, found'.extra, entry.cell.refs.map Cell.isExotic,
    entry'.cell.refs.map Cell.isExotic)

-- The branch in the place of the summary's cell is read as if it were that cell. Without summaries the
-- entry that is found has the branch among its references.
theorem copy_answers_otherwise_reaching :
    ∃ root copy full part found found' entry entry', soleRoot reachingBag = some root ∧
      (∀ c ∈ root.subcells, c.isExotic = false) ∧ copy.Copy root ∧
      AugDict.fromRoot reaching (some root) 1 = .ok full ∧
      AugDict.fromRoot reaching (some copy) 1 = .ok part ∧
      part.get [0] = .ok (.found found) ∧ full.get [0] = .ok (.found found') ∧
      found.extra = 1 ∧ found'.extra = 7 ∧
      Dict.get ⟨some copy, 1⟩ [0] = .ok (.found entry) ∧ Dict.get ⟨some root, 1⟩ [0] = .ok (.found entry') ∧
      entry.cell.refs.map Cell.isExotic = [true] ∧ entry'.cell.refs.map Cell.isExotic = [false] := by
  have run : reachingRun = some (true, 1, 7, [true], [false]) := by decide +kernel
  simp only [reachingRun, Option.bind_eq_bind, Option.bind_eq_some_iff, toOption_eq_some, entryOf_eq_some,
    Option.pure_def, Option.some_inj, Prod.mk.injEq, List.all_eq_true, Bool.not_eq_true'] at run
  have ⟨root, parsed, copy, cut, full, whole, part, partly, found, got, found', got', entry, looked, entry',
    looked', ordinary, extra, extra', refs, refs'⟩ := run
  exact ⟨root, copy, full, part, found, found', entry, entry', parsed, ordinary,
    leaveOut_copy (soleRoot_wellFormed parsed) cut, whole, partly, got, got', extra, extra', looked, looked',
    refs, refs'⟩

end LeftOutSamples

end TonNet
