import TonNet.Cell.Error

namespace TonNet

inductive BlockError
  | cell (error : CellError)
  | wrongConstructor (expected : String)
  | malformed (what : String)
  | notAMerkleProof
  | proofInconsistent
  | proofNotAnchored
  | notCovered
  | chainBroken (how : String)
  | backwardLink
  | notEnoughWeight (carried total : Nat)
  | notAKeyBlock
  | notBound
deriving DecidableEq

def BlockError.message : BlockError → String
  | cell error                   => error.message
  | wrongConstructor expected    => s!"expected {expected}, found a different constructor"
  | malformed what               => s!"malformed {what}"
  | notAMerkleProof              => "not a merkle proof"
  | proofInconsistent            => "merkle proof content does not hash to the root it carries"
  | proofNotAnchored             => "no merkle proof roots at the required hash"
  | notCovered                   => "the proof does not cover what was read"
  | chainBroken how              => s!"the proof chain {how}"
  | backwardLink                 =>
    "the proof chain has a backward link, which this release does not verify"
  | notEnoughWeight carried total =>
    s!"signatures carry {carried} of {total}, short of two thirds"
  | notAKeyBlock                 => "not a key block, so it carries no configuration"
  | notBound                     => "the account state does not bind to the proved block"

end TonNet
