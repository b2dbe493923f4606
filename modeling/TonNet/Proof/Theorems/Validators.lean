import TonNet.Proof.Validators
import TonNet.Tlb.Theorems.Same

-- Reading the validator set out of two configurations that share their level-zero hash.

namespace TonNet

open Fallible Method Slice

variable [Sha256] {strings : List Bytes}

theorem readValidator_same :
    Twin (Slice.Same strings) (· = ·) readValidator readValidator := by
  refine (lift_same (loadUint_same 8)).same fun _ => Twin.failIf.bind fun _ _ _ => ?_
  refine (lift_same (loadUint_same 32)).same fun _ => Twin.failIf.bind fun _ _ _ => ?_
  refine (lift_same (loadBytes_same 32)).same fun bytes => ?_
  refine Twin.same (.okOr fun _ _ h h' => Option.some.inj (h.symm.trans h')) fun publicKey => ?_
  exact (lift_same (loadUint_same 64)).same fun _ => .pure rfl

namespace ValidatorSet

structure Header.Same (strings : List Bytes) (h h' : Header) : Prop where
  utimeSince : h.utimeSince = h'.utimeSince
  utimeUntil : h.utimeUntil = h'.utimeUntil
  total      : h.total = h'.total
  main       : h.main = h'.main
  list       : TonNet.Same strings h.list h'.list

theorem loadExtended_same :
    Twin (Slice.Same strings) (· = ·) loadExtended loadExtended := by
  refine (lift_same (loadUint_same 8)).same fun _ => .ite (fun _ => .pure rfl) fun _ => ?_
  exact .ite (fun _ => .pure rfl) fun _ => .throw_left

theorem loadList_same (extended : Bool) :
    Twin (Slice.Same strings) (TonNet.Same strings) (loadList extended) (loadList extended) := by
  refine .ite (fun _ => ?_) fun _ => lift_same loadRef_same
  refine (lift_same (loadUint_same 64)).same fun _ => ?_
  refine (lift_same loadMaybeRef_same).bind fun _ _ h => .okOr ?_
  rintro r r' rfl rfl
  cases h
  case some h => exact h

theorem loadHeader_same :
    Twin (Slice.Same strings) (Header.Same strings) loadHeader loadHeader := by
  refine loadExtended_same.same fun extended => (lift_same loadU32_same).same fun utimeSince => ?_
  refine (lift_same loadU32_same).same fun utimeUntil => (lift_same loadU16_same).same fun total => ?_
  refine (lift_same loadU16_same).same fun main => Twin.failIf.bind fun _ _ _ => ?_
  exact (loadList_same extended).bind fun _ _ h => .pure ⟨rfl, rfl, rfl, rfl, h⟩

-- Both tags have a high bit set.
theorem ordinary_of_loadHeader {param : Cell} {header : Header} (wf : param.WellFormed)
    (h : loadHeader.value param.parse = .ok header) : param.isExotic = false := by
  have ⟨_, run⟩ := value_eq_ok.mp h
  have ⟨extended, _, run, _⟩ := ends_bind.mp run
  have ⟨tag, _, read, run⟩ := ends_bind.mp run
  have tagged : tag = validatorsExtTag ∨ tag = validatorsTag := by
    by_contra other
    rw [not_or] at other
    rw [if_neg other.left, if_neg other.right] at run
    exact ends_throw run
  refine wf.sound.ordinary_of_tag (k := 4) (value_eq_ok.mpr ⟨_, ends_mapErr.mp read⟩) ?_ ?_
  · decide
  · rcases tagged with rfl | rfl <;> decide

theorem enroll_agree (cf : CollisionFree strings) {d d' : Dict} (h : d.Same strings d') (roll : Roll)
    (index : Nat) : Agree (· = ·) (enroll d roll index) (enroll d' roll index) := by
  refine (lift_agree (Dict.get_agree cf h _)).bind ?_
  rintro _ _ (_ | _ | _ | h)
  case left => exact .throw_left
  case right => exact .throw_right
  case absent => exact .throw_left
  refine (lift_agree h.slice).bind fun _ _ h => (readValidator_same.value h).same fun _ => ?_
  exact .rfl

theorem close_agree {h h' : Header} (s : h.Same strings h') (roll : Roll) :
    Agree (· = ·) (close h roll) (close h' roll) := by
  intro _ _ ha hb
  unfold close at ha hb
  split_ifs at ha hb
  obtain rfl := pure_eq_ok.mp ha
  obtain rfl := pure_eq_ok.mp hb
  simp only [s.utimeSince, s.utimeUntil, s.total, s.main]

theorem fromCell_agree (cf : CollisionFree strings) {param param' : Cell}
    (s : TonNet.Same strings param param') : Agree (· = ·) (fromCell param) (fromCell param') := by
  have headers : Agree (Header.Same strings) (loadHeader.value param.parse)
      (loadHeader.value param'.parse) := fun h h' hh hh' =>
    have shown : Shown strings param param' :=
      ⟨s, ordinary_of_loadHeader s.wf hh, ordinary_of_loadHeader s.wf' hh'⟩
    loadHeader_same.value (shown.slices cf) hh hh'
  refine headers.bind fun h h' s => ?_
  refine (lift_agree (Dict.fromRoot_agree (.some s.list) _)).bind fun _ _ d => ?_
  rw [s.main]
  refine Agree.same (.foldlM _ rfl ?_) fun roll => close_agree s roll
  rintro roll _ index rfl
  exact enroll_agree cf d roll index

theorem currentSet_agree (cf : CollisionFree strings) {params params' : Dict}
    (h : params.Same strings params') :
    Agree (DictEntry.Same strings) (currentSet params) (currentSet params') := by
  refine (lift_agree (Dict.get_agree cf h _)).bind ?_
  rintro _ _ (_ | _ | _ | entry)
  case left => exact .throw_left
  case right => exact .throw_right
  case found => exact .pure entry
  refine (lift_agree (Dict.get_agree cf h _)).bind ?_
  rintro _ _ (_ | _ | _ | entry)
  case left => exact .throw_left
  case right => exact .throw_right
  case absent => exact .throw_left
  case found => exact .pure entry

theorem fromConfig_agree (cf : CollisionFree strings) {config config' : Cell}
    (s : TonNet.Same strings config config') :
    Agree (· = ·) (fromConfig config) (fromConfig config') := by
  refine (lift_agree (Dict.fromRoot_agree (.some s) _)).bind fun _ _ d => ?_
  refine (currentSet_agree cf d).bind fun _ _ h => (lift_agree h.slice).bind fun _ _ h => ?_
  exact (lift_agree (loadRef_same.value h)).bind fun _ _ s => fromCell_agree cf s

end ValidatorSet

end TonNet
