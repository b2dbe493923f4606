import TonNet.Boc.Theorems.Lazy

-- Whatever was asked of a reader before, it answers as one that is asked for the first time, and it
-- never builds a cell twice.

namespace TonNet

open Fallible Method Settle

inductive LazyBoc.Call where
  | cell (index : Nat)
  | root (n : Nat)
  | roots
  | prewarm (indices : List Nat)

section

variable [Sha256]

-- What a call leaves of the build, also when it fails.
def LazyBoc.after (boc : LazyBoc) (state : Build) : Call → Build
  | .cell index      => ((boc.cell index).outcome state).2
  | .root n          => ((boc.root n).outcome state).2
  | .roots           => (boc.roots.outcome state).2
  | .prewarm indices => ((boc.prewarm indices).outcome state).2

-- A reader of a bag against a view of it that keeps nothing.
structure LazyBoc.Mirrors (boc : LazyBoc) (view : BocView) (state : Build) : Prop where
  cell    : ∀ index, (boc.cell index).value state = view.cell index
  root    : ∀ n, (boc.root n).value state =
    okOr boc.header.rootList[n]? .badReference >>= view.cell
  roots   : boc.roots.value state = boc.header.rootList.mapM view.cell
  prewarm : ∀ indices : List Nat, (boc.prewarm indices).value state =
    indices.forM fun index => do let _ ← view.cell index
  closed  : ∀ index rawCell cell, boc.raw.cells[index]? = some rawCell →
    state.get index = some cell →
    List.Forall₂ (fun target ref => state.get target = some ref) rawCell.refs cell.refs
  counts  : state.Counts

variable {bytes : Bytes} {options : ParseOptions} {header : Header} {raw : RawCells} {count : Nat}
  {f : Forward raw.cells count} {state : Build} {slots : List (Option Cell)}

theorem buildAt_past (f : Forward raw.cells count) {index : Nat} (past : ¬index < count) :
    (buildAt raw index).outcome state = (.error .badReference, state) := by
  have beyond : index ≥ raw.cells.length := f.length ▸ Nat.le_of_not_lt past
  rw [buildAt, outcome_bind, failIf, if_pos beyond]
  rfl

-- What one request comes to does not depend on the requests before it.
theorem buildAt_steady (full : (raw.graph f).Settled slots) (index : Nat) :
    Steady (fun state => state.Sound raw f ∧ state.Counts) (buildAt raw index)
      ((buildAt raw index).value (.new count)) := by
  intro state ⟨sound, counts⟩
  by_cases lt : index < count
  case pos =>
    have ⟨result, state', run, comes, sound', counts'⟩ := buildAt_outcome sound full lt
    have ⟨fresh, _, run', comes', _⟩ := buildAt_outcome (Build.Sound.new raw f) full lt
    obtain rfl := full.comes_unique lt comes comes'
    rw [value, run']
    exact ⟨state', run, sound', counts' counts⟩
  case neg =>
    have fresh : (buildAt raw index).value (.new count) = .error .badReference :=
      congrArg Prod.fst (buildAt_past f lt)
    rw [fresh]
    exact ⟨state, buildAt_past f lt, sound, counts⟩

-- A kept cell stands over kept cells, the ones it names.
theorem Build.Sound.closed (sound : state.Sound raw f) {index : Nat} {rawCell : RawCell} {cell : Cell}
    (here : raw.cells[index]? = some rawCell) (held : state.get index = some cell) :
    List.Forall₂ (fun target ref => state.get target = some ref) rawCell.refs cell.refs := by
  have ⟨done, filled, _⟩ := sound.kept
  have lt : index < count := f.length ▸ (List.getElem?_eq_some_iff.mp here).fst
  have built := Build.get_eq_some.mp held
  have value := (filled.holds index (filled.mem_of_isSome lt (by rw [built]; rfl))).symm.trans built
  have one := kept_eq_some.mp (Option.some_inj.mp value)
  have ⟨_, refs, here', all, finished⟩ := stepOver_eq_some.mp one
  obtain rfl := Option.some_inj.mp (here.symm.trans here')
  rw [buildOver_refs finished]
  exact all.imp fun _ _ => Build.get_eq_some.mpr

theorem Build.Sound.aged (raw : RawCells) (f : Forward raw.cells count) (generation : Nat) :
    ({ Build.new count with generation } : Build).Sound raw f :=
  { Build.Sound.new raw f with marks := by simp [Build.new] }

omit [Sha256] in
theorem Build.Counts.aged (count : Nat) {generation : Nat} (within : generation < 2 ^ 32) :
    ({ Build.new count with generation } : Build).Counts where
  held    := by simp [Build.new, List.countP_replicate]
  once    := rfl
  counter := within

theorem BocView.cell_eq {rawCells : List RawCell} {height : List Nat}
    (read : ReadBag bytes options header rawCells) (tall : heights rawCells header.count = .ok height)
    (index : Nat) :
    BocView.cell ⟨bytes, header⟩ index =
      (buildAt ⟨rawCells, bytes⟩ index).value (.new header.count) := by
  have ⟨r, r', headerRead, rawRead⟩ := read
  rw [readHeader_place headerRead] at rawRead
  by_cases past : index ≥ header.count
  case pos =>
    have fails : (buildAt ⟨rawCells, bytes⟩ index).outcome (.new header.count) = _ :=
      buildAt_past read.forward (Nat.not_lt.mpr past)
    rw [BocView.cell, buildCell, failIf, if_pos past, value, value, fails]
    rfl
  case neg =>
    rw [BocView.cell, buildCell, value_bind_of_ends (a := ()) (ends_failIf.mpr ⟨past, rfl⟩)]
    have ends : (readCells header).Ends ⟨bytes, header.bodyOffset⟩ ⟨rawCells, bytes⟩ r' := by
      simp only [readCells, ends_bind, ends_get, ends_ofExcept, ends_pure]
      exact ⟨_, _, ⟨rfl, rfl⟩, rawCells, r', rawRead, height, r', ⟨tall, rfl⟩, rfl, rfl⟩
    rw [value_bind_of_ends ends, value_ofExcept]

namespace LazyBoc

-- Every call is made of requests for cells, so what these keep and answer settles the others.
section Steady

variable {boc : LazyBoc} {I : Build → Prop} {answer : Nat → Except CellError Cell}

theorem root_steady (cell : ∀ index, Steady I (boc.cell index) (answer index)) (n : Nat) :
    Steady I (boc.root n) (okOr boc.header.rootList[n]? .badReference >>= answer) :=
  Steady.okOr.bind cell

theorem roots_steady (cell : ∀ index, Steady I (boc.cell index) (answer index)) :
    Steady I boc.roots (boc.header.rootList.mapM answer) :=
  Steady.mapM cell boc.header.rootList

theorem prewarm_steady (cell : ∀ index, Steady I (boc.cell index) (answer index))
    (indices : List Nat) : Steady I (boc.prewarm indices)
      (indices.forM fun index => do let _ ← answer index) :=
  Steady.forM (fun index => (cell index).bind fun _ => Steady.pure) indices

theorem after_keeps (cell : ∀ index, Steady I (boc.cell index) (answer index)) (call : Call)
    (keeps : I state) : I (boc.after state call) := by
  cases call
  case cell index => exact (cell index).keeps keeps
  case root n => exact (root_steady cell n).keeps keeps
  case roots => exact (roots_steady cell).keeps keeps
  case prewarm indices => exact (prewarm_steady cell indices).keeps keeps

theorem history_keeps (cell : ∀ index, Steady I (boc.cell index) (answer index))
    (history : List Call) (keeps : I state) : I (history.foldl boc.after state) :=
  List.foldlRecOn history boc.after keeps fun _ keeps call _ => after_keeps cell call keeps

end Steady

-- The counter may stand anywhere when the history begins, so that it wraps inside short ones too.
theorem mirrors_view {boc : LazyBoc} (opened : openWith bytes options = .ok boc) :
    ∃ view, BocView.openWith bytes options = .ok view ∧
      ∀ generation < 2 ^ 32, ∀ history : List Call,
        boc.Mirrors view (history.foldl boc.after { boc.build with generation }) := by
  obtain ⟨header, raw, height, read, tall, rfl⟩ := openWith_eq_ok.mp opened
  have ⟨r, _, headerRead, _⟩ := read
  refine ⟨⟨bytes, header⟩, ?_, fun generation within history => ?_⟩
  · rw [BocView.openWith, bind_eq_ok]
    exact ⟨header, value_eq_ok.mpr ⟨r, headerRead⟩, rfl⟩
  · have f : Forward (RawCells.mk raw bytes).cells header.count := read.forward
    have full : (bagGraph (buildOver bytes) f).Settled _ :=
      (finalize_verdict f (heights_known f tall)).settled
    let boc : LazyBoc := ⟨header, ⟨raw, bytes⟩, .new header.count⟩
    have cell (index : Nat) : Steady (fun state => state.Sound boc.raw f ∧ state.Counts)
        (boc.cell index) (BocView.cell ⟨bytes, header⟩ index) := by
      rw [BocView.cell_eq read tall]
      exact buildAt_steady full index
    have start : Build.Sound boc.raw f { boc.build with generation } ∧
        Build.Counts { boc.build with generation } :=
      ⟨Build.Sound.aged boc.raw f generation, Build.Counts.aged header.count within⟩
    have run := history_keeps cell history start
    exact {
      cell    := fun index => (cell index).value run
      root    := fun n => (root_steady cell n).value run
      roots   := (roots_steady cell).value run
      prewarm := fun indices => (prewarm_steady cell indices).value run
      closed  := fun index rawCell cell here held => run.left.closed here held
      counts  := run.right
    }

end LazyBoc

end

section Stray

attribute [local instance] Sha256.standard

-- The second cell of the bag fails each time it is asked for, on either side of the wrap.
theorem LazyBoc.mirrors_view_strayBag : ∃ boc view, openWith strayBag {} = .ok boc ∧
    BocView.openWith strayBag {} = .ok view ∧
    boc.Mirrors view ([.cell 1, .prewarm [0, 1], .roots, .cell 1].foldl boc.after
      { boc.build with generation := 2 ^ 32 - 2 }) := by
  have ⟨_, _, ok, _⟩ := stray_read
  have ⟨boc, opened, _⟩ := bind_eq_ok.mp ok
  have ⟨view, viewed, mirrors⟩ := mirrors_view opened
  exact ⟨boc, view, opened, viewed, mirrors _ (by decide) _⟩

end Stray

end TonNet
