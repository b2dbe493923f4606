import TonNet.Cell.Dict
import TonNet.Cell.Theorems.Reveal

-- Reading two cells that share their level-zero hash. Whatever a proof leaves out of one of them,
-- reads that succeed on both see the same.

namespace TonNet

open Fallible Method

variable [Sha256] {strings : List Bytes}

structure Same (strings : List Bytes) (c c' : Cell) : Prop where
  wf   : c.WellFormed
  wf'  : c'.WellFormed
  sub  : c.hashed ⊆ strings
  sub' : c'.hashed ⊆ strings
  hash : c.hash = c'.hash

namespace Same

variable {c c' : Cell}

theorem shows (cf : CollisionFree strings) (s : Same strings c c')
    (np : c.cellType ≠ .prunedBranch) (np' : c'.cellType ≠ .prunedBranch) : c.Matches c' 0 :=
  Cell.matches_of_hashAt_eq cf s.wf s.wf' s.sub s.sub' (fun h => absurd h np)
    (fun h => absurd h np') s.hash

theorem refs (cf : CollisionFree strings) (s : Same strings c c') (ho : c.cellType = .ordinary)
    (ho' : c'.cellType = .ordinary) : List.Forall₂ (Same strings) c.refs c'.refs := by
  have m := (s.shows cf (by simp [ho]) (by simp [ho'])).refs
  rw [ho] at m
  refine m.imp_mem fun r hr r' hr' ⟨hash, _⟩ => ?_
  constructor
  case wf => exact s.wf.refs r hr
  case wf' => exact s.wf'.refs r' hr'
  case sub => exact fun _ hb => s.sub (Cell.hashed_subset_of_mem hr hb)
  case sub' => exact fun _ hb => s.sub' (Cell.hashed_subset_of_mem hr' hb)
  case hash => exact hash

end Same

-- Two cursors at the same place of cells that hold the same bits.
structure Slice.Same (strings : List Bytes) (s s' : Slice) : Prop where
  data    : s.cell.data = s'.cell.data
  bits    : s.cell.bits = s'.cell.bits
  refs    : List.Forall₂ (TonNet.Same strings) s.cell.refs s'.cell.refs
  bit     : s.bit = s'.bit
  nextRef : s.nextRef = s'.nextRef
  endBit  : s.endBit = s'.endBit
  endRef  : s.endRef = s'.endRef

theorem Same.parse {c c' : Cell} (cf : CollisionFree strings) (s : Same strings c c')
    (ho : c.isExotic = false) (ho' : c'.isExotic = false) : c.parse.Same strings c'.parse := by
  have ho : c.cellType = .ordinary := by simpa [Cell.isExotic] using ho
  have ho' : c'.cellType = .ordinary := by simpa [Cell.isExotic] using ho'
  have m := s.shows cf (by simp [ho]) (by simp [ho'])
  exact ⟨m.data, m.bits, s.refs cf ho ho', rfl, rfl, m.bits, m.refs.length_eq⟩

namespace Slice

variable {s s' : Slice}

theorem Same.remainingBits (h : s.Same strings s') : s.remainingBits = s'.remainingBits := by
  rw [Slice.remainingBits, Slice.remainingBits, h.endBit, h.bit]

theorem Same.reference (h : s.Same strings s') {i j : Nat} (hij : i = j) {r r' : Cell}
    (hr : s.cell.reference i = some r) (hr' : s'.cell.reference j = some r') :
    TonNet.Same strings r r' :=
  h.refs.at_index hr (hij ▸ hr')

-- Each reader on two such cursors: same numbers, cells with the same hash, cursors again at one
-- place.
theorem advance_same (n : Nat) : Twin (Same strings) (· = ·) (advance n) (advance n) := by
  intro s t hs _ _ _ _ ha hb
  obtain ⟨_, rfl, rfl⟩ := advance_ends.mp ha
  obtain ⟨_, rfl, rfl⟩ := advance_ends.mp hb
  exact ⟨hs.bit, { hs with bit := congrArg (· + n) hs.bit }⟩

theorem skipBits_same (n : Nat) : Twin (Same strings) (fun _ _ => True) (skipBits n) (skipBits n) :=
  (advance_same n).bind fun _ _ _ => .pure trivial

-- A reader of data alone.
theorem data_same {α : Type} {f : Bytes → Nat → α} (n : Nat) :
    Twin (Same strings) (· = ·)
      (do let start ← advance n; let s ← get; return f s.cell.data start : Load α)
      (do let start ← advance n; let s ← get; return f s.cell.data start) := by
  refine (advance_same n).bind fun start _ h => Twin.get.bind fun s t hs => .pure ?_
  rw [hs.data, h]

theorem loadBit_same : Twin (Same strings) (· = ·) loadBit loadBit :=
  data_same 1

theorem loadUintOf_same (width n : Nat) :
    Twin (Same strings) (· = ·) (loadUintOf width n) (loadUintOf width n) :=
  Twin.failIf.bind fun _ _ _ => data_same (f := fun data start => uintAt data start n) n

theorem loadUint_same (n : Nat) : Twin (Same strings) (· = ·) (loadUint n) (loadUint n) :=
  loadUintOf_same 64 n

theorem loadU16_same : Twin (Same strings) (· = ·) loadU16 loadU16 :=
  loadUint_same 16

theorem loadU32_same : Twin (Same strings) (· = ·) loadU32 loadU32 :=
  (loadUint_same 32).same fun _ => .pure rfl

theorem loadI32_same : Twin (Same strings) (· = ·) loadI32 loadI32 :=
  (loadUint_same 32).same fun _ => .pure rfl

theorem loadBytes_same (n : Nat) : Twin (Same strings) (· = ·) (loadBytes n) (loadBytes n) :=
  Twin.get.bind fun _ _ _ => Twin.failIf.bind fun _ _ _ =>
    data_same (f := fun data start => [] ++ (List.range n).map fun byte =>
      UInt8.ofNat (uintAt data (start + byte * 8) 8)) (n * 8)

theorem loadVarUint_same (max : Nat) :
    Twin (Same strings) (· = ·) (loadVarUint max) (loadVarUint max) := by
  suffices h : Twin (Same strings) (· = ·) (readVar max) (readVar max) from
    h.same fun _ => .pure rfl
  refine Twin.failIf.bind fun _ _ _ => Twin.get.bind fun s t _ => (loadUint_same _).same fun len => ?_
  have rewinds {α : Type} (e : CellError) (start a b : Slice) (r : α) :
      ¬(do set start; throw e : Load α).Ends a r b := by
    simp [ends_bind]
  refine .ite (fun _ => .of_fails fun _ _ _ => rewinds _ _ _ _ _) fun _ => ?_
  refine .tryCatch ?_ (fun _ _ _ _ => rewinds _ _ _ _ _) fun _ _ _ _ => rewinds _ _ _ _ _
  exact (loadUintOf_same 128 _).same fun _ => .pure rfl

theorem loadRef_same : Twin (Same strings) (TonNet.Same strings) loadRef loadRef := by
  refine Twin.get.bind fun s t h => ?_
  by_cases hs : s.nextRef < s.endRef
  case neg => rw [dif_neg hs]; exact .throw_left
  case pos =>
    have ht : t.nextRef < t.endRef := h.nextRef ▸ h.endRef ▸ hs
    rw [dif_pos hs, dif_pos ht]
    refine (Twin.okOr fun _ _ => h.reference h.nextRef).bind fun r r' hr => ?_
    intro _ _ _ _ _ _ _ ha hb
    simp only [ends_bind, ends_set, ends_pure] at ha hb
    obtain ⟨_, _, rfl, rfl, rfl⟩ := ha
    obtain ⟨_, _, rfl, rfl, rfl⟩ := hb
    exact ⟨hr, { h with nextRef := congrArg (· + 1) h.nextRef }⟩

theorem loadMaybeRef_same :
    Twin (Same strings) (Option.Rel (TonNet.Same strings)) loadMaybeRef loadMaybeRef := by
  refine loadBit_same.same fun bit => .ite (fun _ => ?_) fun _ => .pure .none
  exact loadRef_same.bind fun _ _ h => .pure (.some h)

end Slice

end TonNet
