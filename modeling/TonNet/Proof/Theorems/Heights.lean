import TonNet.Lite.Types
import TonNet.Proof.Theorems.Chain

-- The heights a chain of links goes through.

namespace TonNet

open Fallible Wire

-- A client and a block header count a height unsigned.
def Wire.BlockIdExt.height (id : BlockIdExt) : UInt32 :=
  (Lite.BlockIdExt.ofWire id).seqno

def Wire.BlockLink.dest? : BlockLink → Option BlockIdExt
  | .back _ _     => none
  | .forward link => some link.dest

-- The blocks a chain visits, the one it starts from first.
def Wire.PartialBlockProof.visited (proof : PartialBlockProof) (anchor : BlockIdExt) :
    List BlockIdExt :=
  anchor :: proof.steps.filterMap BlockLink.dest?

-- A run of blocks that only goes up.
structure Climbs (visited : List BlockIdExt) : Prop where
  ascending : (visited.map BlockIdExt.height).Pairwise (· < ·)
  once      : visited.Nodup
  above     : ∀ first last, visited.head? = some first → visited.getLast? = some last →
    first.height ≤ last.height

-- Numbers that ascend signed ascend unsigned as well, unless they pass from below zero to above it.
theorem toUInt32_lt_iff {a b : Int32} (h : a < b) : a.toUInt32 < b.toUInt32 ↔ ¬(a < 0 ∧ 0 ≤ b) := by
  rw [UInt32.lt_iff_toNat_lt, Int32.lt_iff_toInt_lt, Int32.le_iff_toInt_le]
  rw [Int32.lt_iff_toInt_lt] at h
  have value (x : Int32) : x.toInt = if 2 * x.toUInt32.toNat < 2 ^ 32 then (x.toUInt32.toNat : Int)
      else (x.toUInt32.toNat : Int) - (2 ^ 32 : Nat) := BitVec.toInt_eq_toNat_cond ..
  have va := value a
  have vb := value b
  have la := a.toUInt32.toNat_lt
  have lb := b.toUInt32.toNat_lt
  have zero : (0 : Int32).toInt = 0 := rfl
  split_ifs at va vb <;> omega

-- The ends of a run that ascends bound what lies between them.
theorem seqno_bounds {ids : List BlockIdExt} {first last : BlockIdExt}
    (ascending : ids.Pairwise (·.seqno < ·.seqno)) (head : ids.head? = some first)
    (ends : ids.getLast? = some last) :
    ∀ id ∈ ids, first.seqno ≤ id.seqno ∧ id.seqno ≤ last.seqno := by
  have ⟨rest, starts⟩ := List.head?_eq_some_iff.mp head
  have ⟨front, closes⟩ := List.getLast?_eq_some_iff.mp ends
  intro id mem
  constructor
  · rw [starts] at ascending mem
    cases List.mem_cons.mp mem
    case inl same => exact same ▸ Int32.le_refl _
    case inr later => exact Int32.le_of_lt ((List.pairwise_cons.mp ascending).left id later)
  · rw [closes] at ascending mem
    cases List.mem_append.mp mem
    case inl earlier =>
      exact Int32.le_of_lt ((List.pairwise_append.mp ascending).right.right id earlier last (by simp))
    case inr same => exact List.mem_singleton.mp same ▸ Int32.le_refl _

theorem climbs_iff {ids : List BlockIdExt} {first last : BlockIdExt}
    (ascending : ids.Pairwise (·.seqno < ·.seqno)) (head : ids.head? = some first)
    (ends : ids.getLast? = some last) :
    Climbs ids ↔ ¬(first.seqno < 0 ∧ 0 ≤ last.seqno) := by
  have bounds := seqno_bounds ascending head ends
  constructor
  · rintro climbs ⟨below, above⟩
    have up : first.seqno < last.seqno := Int32.lt_of_lt_of_le below above
    have down : ¬first.height < last.height := (toUInt32_lt_iff up).not.mpr (not_not.mpr ⟨below, above⟩)
    have same : first.height = last.height :=
      UInt32.le_antisymm (climbs.above first last head ends) (UInt32.not_lt.mp down)
    exact Int32.ne_of_lt up (congrArg UInt32.toInt32 same)
  · intro same
    constructor
    case ascending =>
      rw [List.pairwise_map]
      refine ascending.imp_of_mem fun {a b} ha hb lt => (toUInt32_lt_iff lt).mpr fun ⟨neg, pos⟩ => ?_
      exact same ⟨Int32.lt_of_le_of_lt (bounds a ha).left neg, Int32.le_trans pos (bounds b hb).right⟩
    case once =>
      exact ascending.imp fun lt e => Int32.ne_of_lt lt (congrArg BlockIdExt.seqno e)
    case above =>
      intro first' last' head' ends'
      obtain rfl : first = first' := Option.some_inj.mp (head.symm.trans head')
      obtain rfl : last = last' := Option.some_inj.mp (ends.symm.trans ends')
      have le := (bounds first (List.mem_of_mem_head? head)).right
      cases Int32.lt_or_eq_of_le le
      case inl lt => exact UInt32.le_of_lt ((toUInt32_lt_iff lt).mpr same)
      case inr eq => exact UInt32.le_of_eq (congrArg Int32.toUInt32 eq)

section

variable [Sha256] [Ed25519] [Tl] {anchor : BlockIdExt} {proof : PartialBlockProof}
variable {block : ProvenBlock}

theorem Trail.visited {source : BlockIdExt} {steps : List BlockLink} (t : Trail source steps block) :
    Path (source :: steps.filterMap BlockLink.dest?) steps ∧
      (source :: steps.filterMap BlockLink.dest?).getLast? = some block.id := by
  induction t
  case last source step block head =>
    have ⟨link, forward, _, _, _, _, _, a, proven⟩ := verifyLink_eq_ok.mp head
    have dest : [step].filterMap BlockLink.dest? = [block.id] := by
      rw [forward, proven]
      rfl
    rw [dest]
    exact ⟨.cons head (.start (proven ▸ a.destChain)), rfl⟩
  case next source step steps mid block head _ hi =>
    have ⟨link, forward, _, _, _, _, _, a, proven⟩ := verifyLink_eq_ok.mp head
    have dest : (step :: steps).filterMap BlockLink.dest? =
        mid.id :: steps.filterMap BlockLink.dest? := by
      rw [forward, proven]
      rfl
    rw [dest]
    exact ⟨.cons head hi.left, by simpa using hi.right⟩

theorem verifyChain_climbs_iff (h : verifyChain anchor proof = .ok block) :
    (∀ link, .forward link ∈ proof.steps → ∃ header, destHeader link = .ok header ∧
      header.seqno = link.dest.height) ∧
    (proof.visited anchor).getLast? = some block.id ∧
    (Climbs (proof.visited anchor) ↔ ¬(anchor.seqno < 0 ∧ 0 ≤ proof.dest.seqno)) := by
  have ⟨_, ends, trail⟩ := verifyChain_eq_ok.mp h
  have ⟨path, last⟩ := trail.visited
  refine ⟨fun link mem => ?_, last, ends ▸ climbs_iff path.ascending rfl last⟩
  have ⟨_, header, _, _, a⟩ := trail.accepted_of_mem mem
  exact ⟨header, a.stated, a.seqno⟩

end

section Wrapped

attribute [local instance] Sha256.standard chainEd25519 chainTl

-- The first block of the sample, counted from the far end of the heights.
def blockFarA : BlockIdExt :=
  { blockA with seqno := -1 }

def chainFarAB : PartialBlockProof where
  complete := true
  source   := blockFarA
  dest     := blockB
  steps    := [.forward { linkAB with source := blockFarA }]

theorem verifyChain_chainFarAB : verifyChain blockFarA chainFarAB = .ok ⟨blockB, true, 1000⟩ := by
  decide +kernel

theorem climbs_chainAC : Climbs (chainAC.visited blockA) :=
  (verifyChain_climbs_iff verifyChain_chainAC).right.right.mpr (by decide)

theorem not_climbs_chainFarAB :
    verifyChain blockFarA chainFarAB = .ok ⟨blockB, true, 1000⟩ ∧
      (chainFarAB.visited blockFarA).map BlockIdExt.height = [4294967295, 2] ∧
      ¬Climbs (chainFarAB.visited blockFarA) := by
  refine ⟨verifyChain_chainFarAB, by decide, fun climbs => ?_⟩
  exact absurd climbs.ascending (by decide)

end Wrapped

end TonNet
