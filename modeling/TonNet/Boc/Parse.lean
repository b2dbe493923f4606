import TonNet.Cell.Basic
import TonNet.Boc.Header

-- Reading the cells of a bag and building them, children before parents.

namespace TonNet

open Fallible

-- Where a cell's bytes lie in the bag.
structure Span where
  start : Nat
  stop  : Nat

namespace Span

def new (start len : Nat) : Except CellError Span := do
  failIf (start + len ≥ 2 ^ 32) (.malformed "bag of cells is too large to index")
  return ⟨start, start + len⟩

def of (span : Span) (bytes : Bytes) : Except CellError Bytes := do
  failIf (span.start > span.stop ∨ span.stop > bytes.length) .truncated
  return (bytes.drop span.start).take (span.stop - span.start)

end Span

structure RawCell where
  data      : Span
  bits      : Nat
  refs      : List Nat
  cellType  : CellType
  levelMask : Nat
  stored    : Option Span

-- `u8::trailing_zeros`
def trailingZeros (byte : UInt8) : Nat :=
  ((List.range 8).find? byte.toNat.testBit).getD 8

-- The number of data bits a cell holds, from its bit descriptor and stored bytes. Both bytes that
-- carry no data, `0x00` and `0x80`, are refused at the end of a partial one.
def bitLen (d2 : Nat) (data : Bytes) : Except CellError Nat :=
  let full := d2 >>> 1
  if d2 &&& 1 = 0 then
    return full * 8
  else do
    let last ← okOr data.getLast? (.malformed "partial byte with no data")
    failIf (trailingZeros last ≥ 7) (.malformed "partial byte has no completion bit")
    return full * 8 + (7 - trailingZeros last)

-- A pruned branch carries its level mask twice, and one hash and one depth per level it marks.
def checkBranch (data : Bytes) (levelMask : Nat) : Except CellError Unit := do
  let stored ← okOr data[1]? (.malformed "pruned branch has no mask byte")
  failIf (stored.toNat ≠ levelMask) (.malformed "pruned branch mask disagrees with its descriptor")
  failIf (stored.toNat = 0) (.malformed "pruned branch has no level")
  let levels := countOnes stored.toNat
  failIf (data.length ≠ 2 + levels * 34)
    (.malformed "pruned branch length disagrees with its level mask")

def classify (exotic : Bool) (data : Bytes) (levelMask refCount : Nat) :
    Except CellError CellType :=
  if exotic then do
    let tag ← okOr data.head? (.malformed "exotic cell has no type byte")
    let cellType ← okOr (CellType.fromTag tag) (.malformed "unknown exotic cell type")
    match cellType.expectedRefs with
    | none              => return cellType
    | some expectedRefs =>
      failIf (refCount ≠ expectedRefs)
        (.malformed "exotic cell has the wrong number of references")
      if cellType = .prunedBranch then
        checkBranch data levelMask
      return cellType
  else return .ordinary

-- References point strictly forward, which is what keeps the graph acyclic.
def readTarget (header : Header) (index : Nat) : Read Nat := do
  let target ← Reader.uint header.refSize
  failIf (target ≥ header.count ∨ target ≤ index) .badReference
  return target

-- The next `n` bytes, and where they lie.
def takeSpan (n : Nat) : Read (Bytes × Span) := do
  let start ← Reader.consumed
  let taken ← Reader.take n
  let span ← Method.ofExcept (Span.new start taken.length)
  return (taken, span)

-- The hashes and depths a cell carries ahead of its data, one of each per level its mask marks and
-- one more besides.
def readStored (d1 levelMask : Nat) : Read (Option Span) :=
  if d1 &&& withHashes ≠ 0 then do
    let perLevel := countOnes levelMask + 1
    let (_, span) ← takeSpan (perLevel * (32 + 2))
    return some span
  else return none

def readCell (header : Header) (index : Nat) : Read RawCell := do
  let d1 ← Reader.byte
  let d2 ← Reader.byte
  let refCount := d1 &&& 7
  failIf (refCount > maxRefs) (.malformed "cell has more than four references")
  let exotic := d1 &&& 8 ≠ 0
  let levelMask := d1 >>> 5
  let stored ← readStored d1 levelMask
  let (data, span) ← takeSpan ((d2 >>> 1) + (d2 &&& 1))
  let bits ← Method.ofExcept (bitLen d2 data)
  failIf (bits > maxBits) (.malformed "cell holds more than 1023 bits")
  let cellType ← Method.ofExcept (classify exotic data levelMask refCount)
  let refs ← (List.range refCount).mapM fun _ => readTarget header index
  return { data := span, bits, refs, cellType, levelMask, stored }

def readRaw (header : Header) : Read (List RawCell) :=
  (List.range header.count).mapM (readCell header)

-- The failure at the lowest index, which is the one reported.
structure Lowest where
  held : Option (Nat × CellError) := none

namespace Lowest

def record (lowest : Lowest) (index : Nat) (error : CellError) : Lowest :=
  match lowest.held with
  | none         => ⟨some (index, error)⟩
  | some (at', _) => if index < at' then ⟨some (index, error)⟩ else lowest

def intoResult (lowest : Lowest) : Except CellError Unit :=
  match lowest.held with
  | some (_, error) => throw error
  | none            => return ()

end Lowest

-- The height of one cell over the heights already known.
def heightOver (height : List Nat) (rawCell : RawCell) : Nat :=
  rawCell.refs.foldl (fun tallest target => max tallest (height.getD target 0 + 1)) 0

def heights (raw : List RawCell) (count : Nat) : Except CellError (List Nat) := do
  let height := (List.range count).reverse.foldl (fun height index =>
    match raw[index]? with
    | none         => height
    | some rawCell => height.set index (heightOver height rawCell)) (List.replicate count 0)
  failIf (height.any (· > maxDepth)) (.tooDeep maxDepth)
  return height

-- The cells in the order they are built, cut into waves of one height.
structure Waves where
  order  : List Nat
  starts : List Nat

namespace Waves

-- A counting sort. Each wave's beginning is spent as a cursor, so walking the cells in index order
-- leaves each wave ascending, and one shift at the end puts the beginnings back.
def byHeight (height : List Nat) : Waves :=
  let tallest := height.foldl max 0
  let counted := height.foldl (fun starts wave => starts.modify (wave + 1) (· + 1))
    (List.replicate (tallest + 2) 0)
  let begun := ((List.range counted.length).drop 1).foldl
    (fun starts k => starts.modify k (· + starts.getD (k - 1) 0)) counted
  let (spent, order) := height.zipIdx.foldl (fun (starts, order) (wave, index) =>
    match starts[wave]? with
    | none      => (starts, order)
    | some slot => (starts.set wave (slot + 1), order.set slot index))
    (begun, List.replicate height.length 0)
  let shifted := ((List.range spent.length).drop 1).reverse.foldl
    (fun starts k => starts.set k (starts.getD (k - 1) 0)) spent
  ⟨order, shifted.set 0 0⟩

def iter (waves : Waves) : List (List Nat) :=
  (waves.starts.zip (waves.starts.drop 1)).filterMap fun (first, last) =>
    if first ≤ last ∧ last ≤ waves.order.length then
      some ((waves.order.drop first).take (last - first))
    else none

end Waves

section Finalize

variable {α : Type}

-- What a pass over the bag holds: the results so far, and the failure to report.
structure Held (α : Type) where
  slots  : List (Option α)
  lowest : Lowest

def keep (held : Held α) (index : Nat) (outcome : Except CellError (Option α)) : Held α :=
  match outcome with
  | .ok (some value) => { held with slots := held.slots.set index (some value) }
  | .ok none         => held
  | .error error     => { held with lowest := held.lowest.record index error }

variable (one : Nat → List (Option α) → Except CellError (Option α))

-- The default build runs on one thread.
def runWave (wave : List Nat) (held : Held α) : Held α :=
  wave.foldl (fun held index => keep held index (one index held.slots)) held

def finalize (count : Nat) (waves : Waves) : Held α :=
  waves.iter.foldl (fun held wave => runWave one wave held) ⟨List.replicate count none, {}⟩

def roots (built : List (Option α)) (header : Header) : Except CellError (List α) :=
  header.rootList.mapM fun index => okOr (built[index]?.join) .badReference

end Finalize

def checkStored (identity : Identity) (stored : Bytes) : Except CellError Unit := do
  let count := identity.count
  failIf (stored.length ≠ count * 34)
    (.malformed "cell stores a different number of hashes than its level mask allows")
  let missing := CellError.malformed "cell has fewer hashes than its level mask calls for"
  (List.range count).forM fun index => do
    let hash ← okOr (identity.hash index) missing
    failIf ((stored.drop (index * 32)).take 32 ≠ hash.bytes)
      (.malformed "cell stores a hash its contents do not give")
  let base := count * 32
  (List.range count).forM fun index => do
    let depth ← okOr (identity.depth index) missing
    failIf ((stored.drop (base + index * 2)).take 2 ≠ depthBytes depth)
      (.malformed "cell stores a depth its contents do not give")

-- The children a raw cell names, or nothing if one of them failed to build.
def children (built : List (Option Cell)) : List Nat → Except CellError (Option (List Cell))
  | []                => return some []
  | target :: targets =>
    match built[target]? with
    | some (some child) => do
      let rest ← children built targets
      return rest.map (child :: ·)
    | some none         => return none
    | none              => throw .badReference

variable [Sha256]

def buildOne (rawCell : RawCell) (payload : Bytes) (built : List (Option Cell)) :
    Except CellError (Option Cell) := do
  match ← children built rawCell.refs with
  | none      => return none
  | some refs =>
    let data ← rawCell.data.of payload
    let cell ← Cell.fromParts data rawCell.bits refs rawCell.cellType rawCell.levelMask
    match rawCell.stored with
    | none        => return some cell
    | some stored =>
      let stored ← stored.of payload
      checkStored cell.identity stored
      return some cell

def buildPlanned (raw : List RawCell) (payload : Bytes) (waves : Waves) (header : Header) :
    Except CellError (List Cell) := do
  let one (index : Nat) (built : List (Option Cell)) : Except CellError (Option Cell) :=
    match raw[index]? with
    | some rawCell => buildOne rawCell payload built
    | none         => throw .badReference
  let held := finalize one header.count waves
  held.lowest.intoResult
  roots held.slots header

def readAndBuild (header : Header) : Read (List Cell) := do
  let r ← get
  let raw ← readRaw header
  let height ← Method.ofExcept (heights raw header.count)
  Method.ofExcept (buildPlanned raw r.bytes (Waves.byHeight height) header)

def parseBocWith (bytes : Bytes) (options : ParseOptions) : Except CellError (List Cell) := do
  let (roots, _) ← Method.call (do
    let header ← readHeader bytes options
    readAndBuild header) ⟨bytes, 0⟩
  return roots

def parseBoc (bytes : Bytes) : Except CellError (List Cell) :=
  parseBocWith bytes {}

end TonNet
