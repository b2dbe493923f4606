import Mathlib.Tactic.TypeStar

namespace TonNet

inductive CellError
  | notABagOfCells
  | truncated
  | header (field : String)
  | checksum
  | badReference
  | malformed (what : String)
  | tooManyCells (limit : Nat)
  | tooDeep (limit : Nat)
  | notEnoughBits (requested available : Nat)
  | notEnoughRefs
  | tooWide (requested width : Nat)
  | noRoomForBits (requested available : Nat)
  | noRoomForRefs (limit : Nat)
  | keyLength (given expected : Nat)
  | labelTooLong
  | encoding (what : String)
  | pruned
deriving DecidableEq, Repr

-- The text a caller sees.
def CellError.message : CellError → String
  | notABagOfCells                    => "not a bag of cells"
  | truncated                         => "bag of cells is truncated"
  | header field                      => s!"bag of cells header is invalid: {field}"
  | checksum                          => "bag of cells checksum does not match"
  | badReference                      =>
    "cell reference is out of range or does not point forward"
  | malformed what                    => s!"cell is malformed: {what}"
  | tooManyCells limit                => s!"bag of cells declares more than {limit} cells"
  | tooDeep limit                     => s!"cell tree is deeper than {limit}"
  | notEnoughBits requested available =>
    s!"slice has {available} bits left, {requested} requested"
  | notEnoughRefs                     => "slice has no references left"
  | tooWide requested width           =>
    s!"cannot read {requested} bits into a {width}-bit integer"
  | noRoomForBits requested available =>
    s!"cell has {available} bits free, {requested} requested"
  | noRoomForRefs limit               => s!"cell already holds its {limit} references"
  | keyLength given expected          =>
    s!"dictionary key is {given} bits, the dictionary holds {expected}"
  | labelTooLong                      => "dictionary label is longer than the key it labels"
  | encoding what                     => s!"transport encoding is invalid: {what}"
  | pruned                            => "the dictionary prunes the branch this change needs"

end TonNet
