import TonNet.Cell.Dict.Shape

-- The plain dictionary: its nodes carry a label and a value, and nothing else.

namespace TonNet

open Fallible

def Shape.plain : Shape Unit where
  readExtra      := return ()
  writeExtra _   := return ()
  checkFork      := do
    let slice ← get
    failIf (slice.remainingBits ≠ 0) (.malformed "a dictionary fork carrying data past its label")
  forkExtra _ _ _ := return ()

namespace Dict

def new (keyBits : Nat) : Except CellError Dict :=
  fromRoot none keyBits

def iter (dict : Dict) : DictIter :=
  .new dict.root dict.keyBits

-- What the iterator yields when it is run until it stops.
def items (dict : Dict) : List (Except CellError (Bytes × DictEntry)) :=
  (dict.iter.items .plain).map fun item => item.map fun (key, _, entry) => (key, entry)

variable [Sha256]

def set (key : Bytes) (value : Builder) : Method Dict CellError Unit := do
  let dict ← MonadState.get
  let bits ← Method.ofExcept (keyOf key dict.keyBits)
  let root ← Method.ofExcept (Shape.plain.setRoot dict.root dict.keyBits bits ⟨(), value⟩)
  -- Nothing is assigned until the whole path is rebuilt.
  MonadState.set { dict with root := some root }

def remove (key : Bytes) : Method Dict CellError Bool := do
  let dict ← MonadState.get
  let bits ← Method.ofExcept (keyOf key dict.keyBits)
  match ← Method.ofExcept (Shape.plain.removeRoot dict.root dict.keyBits bits) with
  | none      => return false
  | some root =>
    MonadState.set { dict with root }
    return true

def fromItems (keyBits : Nat) (items : List (Bytes × Builder)) : Except CellError Dict := do
  let root ← Shape.plain.buildAll keyBits (items.map fun (key, value) => (key, ⟨(), value⟩))
  fromRoot root keyBits

def retain {σ : Type} (keep : Bytes → DictEntry → StateM σ Bool) (captured : σ) :
    Method Dict CellError Unit :=
  retainOver items remove keep captured

end Dict

end TonNet
