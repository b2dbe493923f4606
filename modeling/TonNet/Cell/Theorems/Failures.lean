import TonNet.Lib.Throws
import TonNet.Cell.Dict.Shape

-- The errors that writing a cell of a dictionary can fail with.

namespace TonNet

open Fallible Method

-- Too little room, too little left to copy, or parts that are no cell.
def CellError.unbuilt : CellError → Bool
  | notEnoughBits ..  => true
  | notEnoughRefs     => true
  | tooWide ..        => true
  | noRoomForBits ..  => true
  | noRoomForRefs ..  => true
  | labelTooLong      => true
  | malformed what    => what ∈ [
    "value does not fit the requested bits",
    "cell has more than four references",
    "cell level mask marks more levels than the cell model has",
    "cell has more hashes than its level mask allows",
    "cell has fewer hashes than its level mask calls for",
    "cell level mask is not the one its children imply",
    "exotic cell is too short for its hash",
    "exotic cell is too short for its depth"]
  | _                 => false

abbrev Unbuilt (e : CellError) : Prop :=
  e.unbuilt = true

namespace Slice

theorem advance_throws (n : Nat) : Throws Unbuilt (advance n) := by
  refine .bind .get fun s => ?_
  split
  · exact .bind (.set _) fun _ => .pure _
  · exact .throw rfl

theorem skipBits_throws (n : Nat) : Throws Unbuilt (skipBits n) :=
  .bind (advance_throws n) fun _ => .pure _

theorem loadBit_throws : Throws Unbuilt loadBit :=
  .bind (advance_throws 1) fun _ => .bind .get fun _ => .pure _

theorem loadUint_throws (n : Nat) : Throws Unbuilt (loadUint n) :=
  .bind (.failIf rfl) fun _ => .bind (advance_throws n) fun _ => .bind .get fun _ => .pure _

theorem loadRef_throws : Throws Unbuilt loadRef := by
  refine .bind .get fun s => ?_
  split
  · exact .bind (.okOr rfl) fun _ => .bind (.set _) fun _ => .pure _
  · exact .throw rfl

end Slice

section Label

open Slice

theorem unaryLength_throws (room len : Nat) : Throws Unbuilt (unaryLength room len) := by
  induction room generalizing len
  case zero =>
    unfold unaryLength
    refine .bind loadBit_throws fun bit => ?_
    split
    · exact .throw rfl
    · exact .pure _
  case succ room hi =>
    unfold unaryLength
    refine .bind loadBit_throws fun bit => ?_
    split
    · exact hi _
    · exact .pure _

theorem readRun_throws (max : Nat) : Throws Unbuilt (readRun max) := by
  refine .bind loadBit_throws fun first => .ite ?_ (.bind loadBit_throws fun second => .ite ?_ ?_)
  · exact .bind (unaryLength_throws max 0) fun _ => .pure _
  · exact .bind (loadUint_throws _) fun _ => .bind (.failIf rfl) fun _ => .pure _
  · exact .bind loadBit_throws fun _ => .bind (loadUint_throws _) fun _ => .bind (.failIf rfl) fun _ =>
      .pure _

theorem skipLabel_throws (max : Nat) : Throws Unbuilt (skipLabel max) := by
  refine .bind (readRun_throws max) fun run => ?_
  cases run
  case spelled => exact skipBits_throws _
  case repeated => exact .pure _

end Label

namespace Builder

theorem roomFor_throws (n : Nat) : Throws Unbuilt (roomFor n) :=
  .bind .get fun _ => .failIf rfl

theorem storeBit_throws (bit : Bool) : Throws Unbuilt (storeBit bit) := by
  refine .bind .get fun b => ?_
  split
  · exact .set _
  · exact .throw rfl

theorem storeRef_throws (cell : Cell) : Throws Unbuilt (storeRef cell) := by
  refine .bind .get fun b => ?_
  split
  · exact .set _
  · exact .throw rfl

theorem storeUint_throws (value bits : Nat) : Throws Unbuilt (storeUint value bits) :=
  .bind (.failIf rfl) fun _ => .bind (.failIf (by decide)) fun _ => .bind (roomFor_throws _) fun _ =>
    .forM fun _ => storeBit_throws _

theorem storeSameBit_throws (bit : Bool) (count : Nat) : Throws Unbuilt (storeSameBit bit count) :=
  .bind (roomFor_throws _) fun _ => .forM fun _ => storeBit_throws _

theorem storeSlice_throws (slice : Slice) : Throws Unbuilt (storeSlice slice) := by
  refine .bind (roomFor_throws _) fun _ => .bind .get fun _ => .bind (.failIf rfl) fun _ => ?_
  refine .bind (.foldlM (fun slice _ => ?_) _) fun _ => .bind (.foldlM (fun slice _ => ?_) _) fun _ =>
    .pure _
  · exact .bind (.ofExcept (Slice.loadBit_throws.call slice)) fun _ => .bind (storeBit_throws _) fun _ =>
      .pure _
  · exact .bind (.ofExcept (Slice.loadRef_throws.call slice)) fun _ => .bind (storeRef_throws _) fun _ =>
      .pure _

theorem storeBuilder_throws (other : Builder) : Throws Unbuilt (storeBuilder other) :=
  .bind (roomFor_throws _) fun _ => .bind .get fun _ => .bind (.failIf rfl) fun _ =>
    .bind (.forM fun _ => storeBit_throws _) fun _ => .forM storeRef_throws

theorem storeRun_throws (run : List Bool) : Throws Unbuilt (storeRun run) :=
  .bind .get fun _ => .bind (.failIf rfl) fun _ => .forM storeBit_throws

theorem storeLabel_throws (label : List Bool) (max : Nat) : Throws Unbuilt (storeLabel label max) := by
  refine .bind (.failIf rfl) fun _ => .ite ?_ (.ite ?_ ?_)
  · exact .bind (storeBit_throws _) fun _ => .bind (storeSameBit_throws _ _) fun _ =>
      .bind (storeBit_throws _) fun _ => storeRun_throws _
  · exact .bind (storeUint_throws _ _) fun _ => .bind (storeUint_throws _ _) fun _ => storeRun_throws _
  · exact .bind (storeUint_throws _ _) fun _ => .bind (storeBit_throws _) fun _ => storeUint_throws _ _

end Builder

section Build

theorem Identity.blank_throws (mask : Nat) : Fails Unbuilt (Identity.blank mask) :=
  .bind (.failIf (by decide)) fun _ _ => .pure _

theorem Identity.set_throws (identity : Identity) (index : Nat) (hash : Hash) (depth : UInt16) :
    Fails Unbuilt (identity.set index hash depth) :=
  .ite (.pure _) (.bind (.okOr (by decide)) fun _ _ => .bind (.failIf (by decide)) fun _ _ =>
    .bind (.failIf (by decide)) fun _ _ => .pure _)

theorem copyStored_throws (data : Bytes) (stored : Nat) (identity : Identity) (index : Nat) :
    Fails Unbuilt (copyStored data stored identity index) :=
  .bind (.okOr (by decide)) fun _ _ => .bind (.okOr (by decide)) fun _ _ => Identity.set_throws _ _ _ _

variable [Sha256]

theorem computeLevel_throws (data : Bytes) (bits : Nat) (refs : List Identity) (cellType : CellType)
    (mask : Nat) (acc : Identity × Nat) (level : Nat) :
    Fails Unbuilt (computeLevel data bits refs cellType mask acc level) :=
  .ite (.pure _) (.bind (Identity.set_throws _ _ _ _) fun _ _ => .pure _)

theorem compute_throws (data : Bytes) (bits : Nat) (refs : List Identity) (cellType : CellType)
    (mask : Nat) : Fails Unbuilt (compute data bits refs cellType mask) := by
  have counted (result : Identity × Nat) : Fails Unbuilt (do
      failIf (result.2 ≠ result.1.count)
        (.malformed "cell has fewer hashes than its level mask calls for")
      return result.1 : Except CellError Identity) :=
    .bind (.failIf (by decide)) fun _ _ => .pure _
  refine .bind (Identity.blank_throws mask) fun blank _ => .ite ?_ ?_
  · exact .bind (.foldlM (copyStored_throws _ _) _) fun _ _ =>
      .bind (Identity.set_throws _ _ _ _) fun _ _ => .bind (.pure _) fun _ _ => counted _
  · exact .bind (.foldlM (computeLevel_throws _ _ _ _ _) _) fun _ _ => counted _

theorem build_throws (b : Builder) : Fails Unbuilt b.build :=
  .bind (.failIf (by decide)) fun _ _ =>
    .bind (.bind (.failIf (by decide)) fun _ _ => compute_throws _ _ _ _ _) fun _ _ => .pure _

-- A cell that is written and then built.
theorem written_throws {x : Store Unit} (h : Throws Unbuilt x) :
    Fails Unbuilt (do let (_, b) ← x.call .new; b.build) :=
  .bind (h.call _) fun _ _ => build_throws _

end Build

end TonNet
