import TonNet.Cell.Dict.Plain
import TonNet.Cell.Dict.Aug

-- The nearest keys of a dictionary, and the dictionary below the first bits of a key.

namespace TonNet

open Fallible

section Reroot

variable [Sha256] (want : List Bool)

-- The walk down to where the wanted bits run out. Every pass but the last takes at least one of them.
def rerootFrom : Nat → Cell → Nat → Nat → Except CellError (Option Cell)
  | 0, _, _, _                           => throw noBranch
  | passes + 1, node, remaining, matched => do
    failIf node.isExotic .pruned
    let ahead := want.drop matched
    -- Its label is already written under the key that is left.
    if ahead.isEmpty then return some node
    else
      let (label, slice) ← (readLabel remaining).call node.parse
      if (diverges label ahead).isSome then return none
      else if ahead.length ≤ label.length then
        -- What is left of the label goes in front of everything the node held past it.
        let (_, fresh) ← (do
          storeLabel (label.drop ahead.length) (remaining - ahead.length)
          Builder.storeSlice slice : Store Unit).call .new
        let cell ← fresh.build
        return some cell
      else if label.length = remaining then return none
      else
        let branch := (want.getD (matched + label.length) false).toNat
        let child ← okOr (node.reference branch) noBranch
        rerootFrom passes child (remaining - (label.length + 1)) (matched + label.length + 1)

def reroot (root : Cell) (keyBits : Nat) : Except CellError (Option Cell) :=
  rerootFrom want (want.length + 1) root keyBits 0

end Reroot

def widerThanKey : CellError :=
  .malformed "dictionary prefix wider than the key"

namespace Dict

def firstAtOrAfter (key : Bytes) :
    List (Except CellError (Bytes × DictEntry)) → Except CellError (Option (Bytes × DictEntry))
  | []           => return none
  | item :: rest => do
    let (found, entry) ← item
    if key ≤ found then return some (found, entry)
    else firstAtOrAfter key rest

def entryAtOrAfter (dict : Dict) (key : Bytes) : Except CellError (Option (Bytes × DictEntry)) :=
  firstAtOrAfter key dict.items

def lastAtOrBefore (key : Bytes) (floor : Option (Bytes × DictEntry)) :
    List (Except CellError (Bytes × DictEntry)) → Except CellError (Option (Bytes × DictEntry))
  | []           => return floor
  | item :: rest => do
    let (found, entry) ← item
    if found ≤ key then lastAtOrBefore key (some (found, entry)) rest
    -- The walk is ascending, so once it passes the key nothing nearer remains.
    else return floor

def entryAtOrBefore (dict : Dict) (key : Bytes) : Except CellError (Option (Bytes × DictEntry)) :=
  lastAtOrBefore key none dict.items

def subdict [Sha256] (dict : Dict) (front : Bytes) (frontBits : Nat) : Except CellError Dict := do
  failIf (frontBits > dict.keyBits) widerThanKey
  let want ← keyOf front frontBits
  let narrower := dict.keyBits - frontBits
  match dict.root with
  | none      => new narrower
  | some root =>
    match ← reroot want root dict.keyBits with
    | some cell => fromRoot (some cell) narrower
    | none      => new narrower

end Dict

def AugDict.subdict [Sha256] {ε : Type} (dict : AugDict ε) (front : Bytes) (frontBits : Nat) :
    Except CellError (AugDict ε) := do
  failIf (frontBits > dict.keyBits) widerThanKey
  let want ← keyOf front frontBits
  let narrower := dict.keyBits - frontBits
  let root ← match dict.root with
    | some root => reroot want root dict.keyBits
    | none      => pure none
  fromRoot dict.aug root narrower

end TonNet
