import TonNet.Boc.Parse

-- Finalizing a bag's cells under any plan and on any number of workers, into cells or into their
-- identities alone, and the view that offers both.

namespace TonNet

open Fallible

def cellsPerWorker : Nat := 1024

-- How many threads a wave is split across, on a machine that reports `parallelism` of them.
def workersFor (parallelism width : Nat) : Nat :=
  let affords := width / cellsPerWorker
  if affords < 2 then 1 else max (min parallelism affords) 1

-- `slice::chunks`
def chunks {α : Type} (each : Nat) (l : List α) : List (List α) :=
  (List.range ((l.length + each - 1) / each)).map fun k => (l.drop (k * each)).take each

section Finalize

variable {α : Type} (one : Nat → List (Option α) → Except CellError (Option α))

-- The workers read what was held before the wave and write nothing.
def splitAcrossWorkers (wave : List Nat) (slots : List (Option α)) (workers : Nat) :
    Option (List (Nat × Except CellError (Option α))) :=
  if workers < 2 ∨ wave = [] then none
  else
    let each := (wave.length + workers - 1) / workers
    some <| (chunks each wave).flatMap fun part => part.map fun index => (index, one index slots)

def runWaveOn (workers : Nat) (wave : List Nat) (held : Held α) : Held α :=
  match if workers > 1 then splitAcrossWorkers one wave held.slots workers else none with
  | some produced => produced.foldl (fun held (index, outcome) => keep held index outcome) held
  | none          => runWave one wave held

-- Each wave is handed to as many workers as `workers` says.
def finalizeOn (workers : List Nat → Nat) (count : Nat) (waves : Waves) : Held α :=
  waves.iter.foldl (fun held wave => runWaveOn one (workers wave) wave held)
    ⟨List.replicate count none, {}⟩

end Finalize

-- What is held for the references of a cell, or nothing if it is not held for one of them.
def gather {α : Type} (slots : List (Option α)) : List Nat → Except CellError (Option (List α))
  | []                => return some []
  | target :: targets =>
    match slots[target]? with
    | some (some value) => do
      let rest ← gather slots targets
      return rest.map (value :: ·)
    | some none         => return none
    | none              => throw .badReference

variable [Sha256]

def buildStep (raw : List RawCell) (payload : Bytes) (index : Nat) (built : List (Option Cell)) :
    Except CellError (Option Cell) :=
  match raw[index]? with
  | some rawCell => buildOne rawCell payload built
  | none         => throw .badReference

-- `build_planned` on the given workers.
def buildPlannedOn (workers : List Nat → Nat) (raw : List RawCell) (payload : Bytes)
    (waves : Waves) (header : Header) : Except CellError (List Cell) := do
  let held := finalizeOn (buildStep raw payload) workers header.count waves
  held.lowest.intoResult
  roots held.slots header

def summarizeOne (rawCell : RawCell) (bytes : Bytes) (computed : List (Option Identity)) :
    Except CellError (Option Identity) := do
  -- The children are looked at through an array of four.
  match ← gather computed (rawCell.refs.take maxRefs) with
  | none          => return none
  | some children =>
    failIf (rawCell.refs.length > maxRefs) .badReference
    let data ← rawCell.data.of bytes
    let identity ← summarize data rawCell.bits children rawCell.cellType rawCell.levelMask
    match rawCell.stored with
    | none        => return some identity
    | some stored =>
      let stored ← stored.of bytes
      checkStored identity stored
      return some identity

def summarizeStep (raw : List RawCell) (bytes : Bytes) (index : Nat)
    (computed : List (Option Identity)) : Except CellError (Option Identity) :=
  match raw[index]? with
  | some rawCell => summarizeOne rawCell bytes computed
  | none         => throw .badReference

def verifyPlanned (raw : List RawCell) (bytes : Bytes) (waves : Waves) (header : Header) :
    Except CellError (List Hash) := do
  let held := finalize (summarizeStep raw bytes) header.count waves
  held.lowest.intoResult
  let roots ← roots held.slots header
  return roots.map Identity.reprHash

def verifyRoots (header : Header) : Read (List Hash) := do
  let r ← get
  let raw ← readRaw header
  let height ← Method.ofExcept (heights raw header.count)
  Method.ofExcept (verifyPlanned raw r.bytes (Waves.byHeight height) header)

-- A bag read only as far as its header.
structure BocView where
  bytes  : Bytes
  header : Header

namespace BocView

def openWith (bytes : Bytes) (options : ParseOptions) : Except CellError BocView := do
  let header ← Method.value (readHeader bytes options) ⟨bytes, 0⟩
  return ⟨bytes, header⟩

def materialize (view : BocView) : Except CellError (List Cell) :=
  Method.value (readAndBuild view.header) ⟨view.bytes, view.header.bodyOffset⟩

def verify (view : BocView) : Except CellError (List Hash) :=
  Method.value (verifyRoots view.header) ⟨view.bytes, view.header.bodyOffset⟩

end BocView

end TonNet
