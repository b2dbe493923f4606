import Mathlib.Data.List.Forall2

-- Reading a tree by opening one node after the other, where what was seen decides what is opened
-- next. Nothing is opened but the root and what hangs below an opened node.

variable {ν ν' φ α : Type}

theorem List.Forall₂.rel_getElem? {R : ν → ν' → Prop} {l : List ν} {m : List ν'} (h : Forall₂ R l m)
    (i : Nat) : Option.Rel R l[i]? m[i]? := by
  induction h generalizing i
  case nil => exact .none
  case cons here _ hi =>
    cases i
    case zero => exact .some here
    case succ i => exact hi i

inductive Place
  | root
  -- The child at `index` of the node that was opened as number `parent`.
  | child (parent index : Nat)

-- `look` goes on with what the node shows, or with nothing where there is no such node.
inductive Reading (φ α : Type)
  | answer (a : α)
  | look (place : Place) (next : Option φ → Reading φ α)

-- How the nodes of a tree hang together, and what each shows of itself.
structure View (ν φ : Type) where
  child : ν → Nat → Option ν
  face  : ν → φ

namespace View

variable (view : View ν φ)

def find (root : ν) (opened : List ν) : Place → Option ν
  | .root               => some root
  | .child parent index => opened[parent]?.bind (view.child · index)

-- The answer, and every node that was opened on the way, in order.
def run (root : ν) : Reading φ α → (opened : List ν) → α × List ν
  | .answer a, opened        => (a, opened)
  | .look place next, opened =>
    match view.find root opened place with
    | none      => run root (next none) opened
    | some node => run root (next (some (view.face node))) (opened ++ [node])

variable {view} {view' : View ν' φ} {R : ν → ν' → Prop} {Readable : ν → Prop}
  {Readable' : ν' → Prop} {root : ν} {root' : ν'} {opened : List ν} {opened' : List ν'}

theorem opened_subset (reading : Reading φ α) (opened : List ν) :
    opened ⊆ (view.run root reading opened).2 := by
  induction reading generalizing opened
  case answer => exact List.Subset.refl opened
  case look place next hi =>
    rw [run]
    cases view.find root opened place
    case none => exact hi none opened
    case some node => exact List.Subset.trans (List.subset_append_left ..) (hi _ _)

-- A relation that two readable nodes keep: they show the same, and their children stand in it again.
def Tracks (view : View ν φ) (view' : View ν' φ) (Readable : ν → Prop) (Readable' : ν' → Prop)
    (R : ν → ν' → Prop) : Prop :=
  ∀ ⦃node node'⦄, R node node' → Readable node → Readable' node' →
    view.face node = view'.face node' ∧
      ∀ index, Option.Rel R (view.child node index) (view'.child node' index)

theorem Tracks.find (tracks : Tracks view view' Readable Readable' R) (h : R root root')
    (related : List.Forall₂ R opened opened') (readable : ∀ node ∈ opened, Readable node)
    (readable' : ∀ node ∈ opened', Readable' node) (place : Place) :
    Option.Rel R (view.find root opened place) (view'.find root' opened' place) := by
  cases place
  case root => exact .some h
  case child parent index =>
    have found := related.rel_getElem? parent
    rw [View.find, View.find]
    cases there : opened[parent]? <;> cases there' : opened'[parent]? <;> rw [there, there'] at found
      <;> cases found
    case none.none => exact .none
    case some.some node node' rel =>
      exact (tracks rel (readable _ (List.mem_of_getElem? there))
        (readable' _ (List.mem_of_getElem? there'))).right index

-- A reading that opens readable nodes only does on the one tree what it does on the other.
theorem Tracks.run (tracks : Tracks view view' Readable Readable' R) (h : R root root')
    (reading : Reading φ α) (related : List.Forall₂ R opened opened')
    (readable : ∀ node ∈ (view.run root reading opened).2, Readable node)
    (readable' : ∀ node ∈ (view'.run root' reading opened').2, Readable' node) :
    (view.run root reading opened).1 = (view'.run root' reading opened').1 ∧
      List.Forall₂ R (view.run root reading opened).2 (view'.run root' reading opened').2 := by
  induction reading generalizing opened opened'
  case answer => exact ⟨rfl, related⟩
  case look place next hi =>
    have found := tracks.find h related
      (fun node mem => readable node (opened_subset (.look place next) opened mem))
      (fun node mem => readable' node (opened_subset (.look place next) opened' mem)) place
    rw [View.run] at readable readable' ⊢
    rw [View.run]
    generalize view.find root opened place = node? at found readable ⊢
    generalize view'.find root' opened' place = node'? at found readable' ⊢
    cases found
    case none => exact hi none related readable readable'
    case some node node' rel =>
      dsimp only at readable readable' ⊢
      have same := (tracks rel (readable node (opened_subset (next _) _ (by simp)))
        (readable' node' (opened_subset (next _) _ (by simp)))).left
      rw [← same] at readable' ⊢
      exact hi _ (List.rel_append related (.cons rel .nil)) readable readable'

end View
