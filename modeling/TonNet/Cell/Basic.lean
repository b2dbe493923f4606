import TonNet.Cell.Identity

namespace TonNet

open Fallible

-- The most data bits and references a cell may hold.
def maxBits : Nat := 1023
def maxRefs : Nat := 4

-- `data` holds the bits, and where they do not fill the last byte then a set bit and zeros.
structure Cell where
  data     : Bytes
  bits     : Nat
  refs     : List Cell
  cellType : CellType
  identity : Identity

namespace Cell

@[elab_as_elim, induction_eliminator]
theorem induction {motive : Cell → Prop}
    (node : ∀ c : Cell, (∀ r ∈ c.refs, motive r) → motive c) (c : Cell) : motive c :=
  @Cell.rec motive (fun refs => ∀ r ∈ refs, motive r)
    (fun _ _ _ _ _ h => node _ h)
    (fun _ h => absurd h (List.not_mem_nil))
    (fun _ _ hd tl r h => (List.mem_cons.mp h).elim (· ▸ hd) (tl r))
    c

def levelMask (c : Cell) : Nat :=
  c.identity.levelMask

def level (c : Cell) : Nat :=
  levelOf c.levelMask

def hashAt (c : Cell) (level : Nat) : Hash :=
  c.identity.hashAt level

def depthAt (c : Cell) (level : Nat) : UInt16 :=
  c.identity.depthAt level

-- The level-zero hash, which is what a proof reproduces.
def hash (c : Cell) : Hash :=
  c.hashAt 0

def depth (c : Cell) : UInt16 :=
  c.depthAt 0

-- The cell's own identity: its hash at its own level.
def reprHash (c : Cell) : Hash :=
  c.hashAt c.level

def reference (c : Cell) (index : Nat) : Option Cell :=
  c.refs[index]?

def isExotic (c : Cell) : Bool :=
  c.cellType ≠ .ordinary

-- `PartialEq` of the source: two cells are the same cell by their representation hash.
def same (c c' : Cell) : Bool :=
  c.reprHash = c'.reprHash

def fromParts [Sha256] (data : Bytes) (bits : Nat) (refs : List Cell) (cellType : CellType)
    (levelMask : Nat) : Except CellError Cell := do
  failIf (refs.length > maxRefs) (.malformed "cell has more than four references")
  let identity ← summarize data bits (refs.map Cell.identity) cellType levelMask
  return ⟨data, bits, refs, cellType, identity⟩

-- Every cell of the tree, itself first, each as often as the tree holds it.
mutual
def subcells : Cell → List Cell
  | ⟨data, bits, refs, cellType, identity⟩ =>
    ⟨data, bits, refs, cellType, identity⟩ :: subcellsOf refs
def subcellsOf : List Cell → List Cell
  | []         => []
  | c :: cells => c.subcells ++ subcellsOf cells
end

-- The cell reached by following reference positions down from a cell.
def at? (c : Cell) : List Nat → Option Cell
  | []        => some c
  | i :: path => (c.reference i).bind (·.at? path)

theorem subcellsOf_eq_flatMap (cells : List Cell) : subcellsOf cells = cells.flatMap subcells := by
  induction cells
  case nil => rfl
  case cons hi => simp [subcellsOf, hi]

theorem subcells_eq (c : Cell) : c.subcells = c :: c.refs.flatMap subcells := by
  rw [← subcellsOf_eq_flatMap]
  cases c
  rfl

theorem mem_subcells {c d : Cell} : d ∈ c.subcells ↔ d = c ∨ ∃ r ∈ c.refs, d ∈ r.subcells := by
  rw [subcells_eq]
  simp

theorem self_mem_subcells (c : Cell) : c ∈ c.subcells :=
  mem_subcells.mpr (.inl rfl)

theorem at?_append (c : Cell) (front back : List Nat) :
    c.at? (front ++ back) = (c.at? front).bind (·.at? back) := by
  induction front generalizing c
  case nil => rfl
  case cons i front hi =>
    simp only [List.cons_append, at?, Option.bind_assoc]
    exact congrArg _ (funext hi)

theorem mem_subcells_iff_at? {c d : Cell} : d ∈ c.subcells ↔ ∃ path, c.at? path = some d := by
  constructor
  case mp =>
    intro hd
    induction c
    case node c hi =>
      cases mem_subcells.mp hd
      case inl e => exact ⟨[], by rw [e]; rfl⟩
      case inr hd =>
        have ⟨r, hr, hd⟩ := hd
        have ⟨i, hi'⟩ := List.mem_iff_getElem?.mp hr
        have ⟨path, hp⟩ := hi r hr hd
        exact ⟨i :: path, Option.bind_eq_some_iff.mpr ⟨r, hi', hp⟩⟩
  case mpr =>
    intro ⟨path, hp⟩
    induction path generalizing c
    case nil => exact Option.some_inj.mp hp ▸ self_mem_subcells c
    case cons i path hi =>
      have ⟨r, hr, hp⟩ := Option.bind_eq_some_iff.mp hp
      exact mem_subcells.mpr (.inr ⟨r, List.mem_of_getElem? hr, hi hp⟩)

theorem fromParts_eq_ok [Sha256] {data : Bytes} {bits : Nat} {refs : List Cell}
    {cellType : CellType} {mask : Nat} {c : Cell} :
    fromParts data bits refs cellType mask = .ok c ↔
      refs.length ≤ maxRefs ∧ ∃ identity,
        summarize data bits (refs.map Cell.identity) cellType mask = .ok identity ∧
        ⟨data, bits, refs, cellType, identity⟩ = c := by
  rw [fromParts, failIf_bind_eq_ok, bind_eq_ok, Nat.not_lt]
  simp only [pure_eq_ok]

end Cell

end TonNet
