import TonNet.Cell.Dict.Shape

-- The augmented dictionary: every node also carries a summary of what is below it.

namespace TonNet

open Fallible

-- How a caller reads, combines and writes summaries.
structure Augmentation (ε : Type) where
  read    : Load ε
  combine : ε → ε → Except CellError ε
  write   : ε → Store Unit

variable {ε : Type}

def Augmentation.shape (aug : Augmentation ε) : Shape ε where
  readExtra  := aug.read
  writeExtra := aug.write
  checkFork  := do
    let _ ← aug.read
    let slice ← get
    failIf (slice.remainingBits ≠ 0) (.malformed "a dictionary fork carrying data past its summary")
  forkExtra left right below := do
    let left ← extraOf aug.read left below
    let right ← extraOf aug.read right below
    aug.combine left right

structure AugEntry (ε : Type) where
  extra : ε
  entry : DictEntry

-- No key is wider than a cell.
structure AugDict (ε : Type) where
  aug        : Augmentation ε
  root       : Option Cell
  keyBits    : Nat
  keyBits_le : keyBits ≤ maxBits

namespace AugDict

def fromRoot (aug : Augmentation ε) (root : Option Cell) (keyBits : Nat) :
    Except CellError (AugDict ε) :=
  if h : keyBits ≤ maxBits then return ⟨aug, root, keyBits, h⟩
  else throw (.malformed "dictionary key wider than a cell")

def new (aug : Augmentation ε) (keyBits : Nat) : Except CellError (AugDict ε) :=
  fromRoot aug none keyBits

def rootExtra (dict : AugDict ε) : Except CellError (Option ε) :=
  match dict.root with
  | none      => return none
  | some root => do
    let extra ← extraOf dict.aug.read root dict.keyBits
    return some extra

def get (dict : AugDict ε) (key : Bytes) : Except CellError (Lookup (AugEntry ε)) := do
  let bits ← keyOf key dict.keyBits
  match ← lookup dict.aug.read bits dict.root dict.keyBits with
  | .found (extra, entry) => return .found ⟨extra, entry⟩
  | .absent               => return .absent
  | .pruned               => return .pruned

def iter (dict : AugDict ε) : DictIter :=
  .new dict.root dict.keyBits

-- What the iterator yields when it is run until it stops.
def items (dict : AugDict ε) : List (Except CellError (Bytes × AugEntry ε)) :=
  (dict.iter.items dict.aug.shape).map fun item =>
    item.map fun (key, extra, entry) => (key, ⟨extra, entry⟩)

variable [Sha256]

def validate (dict : AugDict ε) : Except CellError Unit :=
  dict.aug.shape.validateTree dict.root dict.keyBits

def set (key : Bytes) (extra : ε) (value : Builder) : Method (AugDict ε) CellError Unit := do
  let dict ← MonadState.get
  let bits ← Method.ofExcept (keyOf key dict.keyBits)
  let root ← Method.ofExcept (dict.aug.shape.setRoot dict.root dict.keyBits bits ⟨extra, value⟩)
  MonadState.set { dict with root := some root }

def remove (key : Bytes) : Method (AugDict ε) CellError Bool := do
  let dict ← MonadState.get
  let bits ← Method.ofExcept (keyOf key dict.keyBits)
  match ← Method.ofExcept (dict.aug.shape.removeRoot dict.root dict.keyBits bits) with
  | none      => return false
  | some root =>
    MonadState.set { dict with root }
    return true

def fromItems (aug : Augmentation ε) (keyBits : Nat) (items : List (Bytes × ε × Builder)) :
    Except CellError (AugDict ε) := do
  let root ← aug.shape.buildAll keyBits (items.map fun (key, extra, value) => (key, ⟨extra, value⟩))
  fromRoot aug root keyBits

def retain {σ : Type} (keep : Bytes → AugEntry ε → StateM σ Bool) (captured : σ) :
    Method (AugDict ε) CellError Unit :=
  retainOver items remove keep captured

def combineWith (other : AugDict ε) : Method (AugDict ε) CellError Unit := do
  let dict ← MonadState.get
  failIf (other.keyBits ≠ dict.keyBits) (.malformed "combining dictionaries of different key widths")
  -- The other side is read whole before this dictionary is touched.
  let additions ← Method.ofExcept <| other.items.mapM fun item => do
    let (key, found) ← item
    match ← dict.get key with
    | .absent =>
      let slice ← found.entry.slice
      let value ← slice.toBuilder
      return (key, found.extra, value)
    | _       => throw (.malformed "combining dictionaries that share a key")
  -- Built into a copy, so a store that fails leaves this dictionary as it was.
  let (_, merged) ← Method.ofExcept <|
    (additions.forM fun (key, extra, value) => set key extra value : Method _ _ Unit).call dict
  MonadState.set merged

end AugDict

end TonNet
