import TonNet.Cell.Dict.Aug

-- Walking an augmented dictionary by the summaries of its forks.

namespace TonNet

open Fallible

-- What a visitor asks for at a node.
inductive Traverse
  | continues
  | skip
  | stop
  deriving DecidableEq

-- A node as it is offered to a visitor: a fork by the bits of every key below it, a leaf by its key.
inductive AugNode (ε : Type)
  | fork (front : List Bool) (extra : ε)
  | leaf (key : Bytes) (extra : ε) (entry : DictEntry)

variable {ε σ : Type}

namespace Shape

variable (shape : Shape ε)

-- Offers the node and what is below it, and says whether the walk was asked to stop. Every pass but
-- the last takes a bit of the key.
def traverseNode (visit : AugNode ε → StateM σ Traverse) :
    Nat → Cell → Nat → List Bool → Method σ CellError Bool
  | 0, _, _, _                         => throw noBranch
  | passes + 1, node, remaining, front => do
    failIf node.isExotic .pruned
    let (label, slice) ← Method.ofExcept ((readLabel remaining).call node.parse)
    let here := front ++ label
    if label.length = remaining then
      let (extra, slice) ← Method.ofExcept (shape.readExtra.call slice)
      let answer ← visit (.leaf (pack here) extra ⟨node, node.bits - slice.remainingBits⟩)
      return answer = .stop
    else
      -- A fork is offered before either child.
      let (extra, _) ← Method.ofExcept (shape.readExtra.call slice)
      match ← visit (.fork here extra) with
      | .stop      => return true
      | .skip      => return false
      | .continues =>
        let below := remaining - label.length - 1
        let left ← okOr (node.reference 0) noBranch
        let right ← okOr (node.reference 1) noBranch
        if ← traverseNode visit passes left below (here ++ [false]) then return true
        else traverseNode visit passes right below (here ++ [true])

-- The summaries of the forks, added to those found so far.
def collectForks : Nat → Cell → Nat → List Bool → Method (List (List Bool × ε)) CellError Unit
  | 0, _, _, _                         => throw noBranch
  | passes + 1, node, remaining, front => do
    -- A pruned branch is opaque.
    if node.isExotic then return ()
    else
      let (label, slice) ← Method.ofExcept ((readLabel remaining).call node.parse)
      let here := front ++ label
      onlyIf (label.length < remaining) do
        let (extra, _) ← Method.ofExcept (shape.readExtra.call slice)
        modify (· ++ [(here, extra)])
        let below := remaining - label.length - 1
        let left ← okOr (node.reference 0) noBranch
        let right ← okOr (node.reference 1) noBranch
        collectForks passes left below (here ++ [false])
        collectForks passes right below (here ++ [true])

end Shape

namespace AugDict

variable (dict : AugDict ε)

def traverseExtra (visit : AugNode ε → StateM σ Traverse) : Method σ CellError Unit := do
  if let some root := dict.root then
    let _ ← dict.aug.shape.traverseNode visit (dict.keyBits + 1) root dict.keyBits []

def forkExtras : Except CellError (List (List Bool × ε)) := do
  let (_, out) ← (do
    if let some root := dict.root then
      dict.aug.shape.collectForks (dict.keyBits + 1) root dict.keyBits [] :
      Method (List (List Bool × ε)) CellError Unit).call []
  return out

end AugDict

end TonNet
