import TonNet.Cell.Dict
import TonNet.Tlb.Error

namespace TonNet

open Fallible

-- A reader of chain data out of a slice.
abbrev Decode := Method Slice BlockError

-- `?` on a cell error, in a reader and in a function.
instance : MonadLift Load Decode where
  monadLift := Method.mapErr .cell

instance : MonadLift (Except CellError) (Except BlockError) where
  monadLift := Except.mapError .cell

structure Coins where
  nanotons : Nat
deriving DecidableEq

def Coins.zero : Coins :=
  ⟨0⟩

def Coins.load : Decode Coins := do
  let nanotons ← Slice.loadVarUint 16
  return ⟨nanotons⟩

-- Reads 32 bytes into an array of that size.
def loadHash : Load Hash := do
  let bytes ← Slice.loadBytes 32
  return (Hash.ofBytes? bytes).getD .zero

end TonNet
