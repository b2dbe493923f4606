import TonNet.Proof.Theorems.Weight

-- The members of a validator set: the main validators of the list, and nothing else that the
-- configuration states.

namespace TonNet

open Fallible Method Keyed

-- The cursor of a cell past its first `k` bits.
def Cell.cursor (c : Cell) (k : Nat) (h : k ≤ c.bits) : Slice :=
  { c.parse with bit := k, bit_le := h }

section Cursor

variable {c : Cell} {k n v : Nat} {h : k ≤ c.bits} {s : Slice}

open Slice

theorem advance_cursor {start : Nat} : (advance n).Ends (c.cursor k h) start s ↔
    k = start ∧ ∃ h' : k + n ≤ c.bits, c.cursor (k + n) h' = s := by
  rw [advance_ends]
  have room : n ≤ (c.cursor k h).remainingBits ↔ k + n ≤ c.bits := by
    show n ≤ c.bits - k ↔ _
    omega
  exact ⟨fun ⟨fits, at', moved⟩ => ⟨at', room.mp fits, moved⟩,
    fun ⟨at', fits, moved⟩ => ⟨room.mpr fits, at', moved⟩⟩

-- A reader of data alone.
theorem data_cursor {α : Type} {f : Bytes → Nat → α} {a : α} :
    (do let start ← advance n; let s ← get; return f s.cell.data start : Load α).Ends
      (c.cursor k h) a s ↔ f c.data k = a ∧ ∃ h' : k + n ≤ c.bits, c.cursor (k + n) h' = s := by
  constructor
  · intro run
    have ⟨start, _, moves, run⟩ := ends_bind.mp run
    obtain ⟨rfl, fits, rfl⟩ := advance_cursor.mp moves
    have ⟨_, _, held, run⟩ := ends_bind.mp run
    obtain ⟨rfl, rfl⟩ := ends_get.mp held
    obtain ⟨read, rfl⟩ := ends_pure.mp run
    exact ⟨read, fits, rfl⟩
  · rintro ⟨read, fits, rfl⟩
    refine ends_bind.mpr ⟨k, _, advance_cursor.mpr ⟨rfl, fits, rfl⟩, ?_⟩
    exact ends_bind.mpr ⟨_, _, ends_get.mpr ⟨rfl, rfl⟩, ends_pure.mpr ⟨read, rfl⟩⟩

theorem loadUint_cursor (width : n ≤ 64) : (loadUint n).Ends (c.cursor k h) v s ↔
    uintAt c.data k n = v ∧ ∃ h' : k + n ≤ c.bits, c.cursor (k + n) h' = s := by
  have pass : (failIf (n > 64) (.tooWide n 64) : Load Unit).Ends (c.cursor k h) () (c.cursor k h) :=
    ends_failIf.mpr ⟨by omega, rfl⟩
  rw [loadUint, loadUintOf, ends_bind_of_ends pass]
  exact data_cursor (f := fun data start => uintAt data start n)

theorem loadU32_cursor {v : UInt32} : loadU32.Ends (c.cursor k h) v s ↔
    UInt32.ofNat (uintAt c.data k 32) = v ∧ ∃ h' : k + 32 ≤ c.bits, c.cursor (k + 32) h' = s := by
  rw [loadU32, ends_bind]
  constructor
  · rintro ⟨_, _, read, run⟩
    obtain ⟨rfl, fits, rfl⟩ := (loadUint_cursor (by decide)).mp read
    obtain ⟨same, rfl⟩ := ends_pure.mp run
    exact ⟨same, fits, rfl⟩
  · rintro ⟨same, fits, rfl⟩
    exact ⟨_, _, (loadUint_cursor (by decide)).mpr ⟨rfl, fits, rfl⟩, ends_pure.mpr ⟨same, rfl⟩⟩

theorem loadBit_cursor {bit : Bool} : loadBit.Ends (c.cursor k h) bit s ↔
    c.data.bitAt k = bit ∧ ∃ h' : k + 1 ≤ c.bits, c.cursor (k + 1) h' = s :=
  data_cursor (f := fun data start => data.bitAt start)

theorem loadRef_cursor {r : Cell} :
    (∃ s, loadRef.Ends (c.cursor k h) r s) ↔ c.refs[0]? = some r := by
  simp only [loadRef, ends_bind, ends_get]
  constructor
  · rintro ⟨_, _, _, ⟨rfl, rfl⟩, run⟩
    split at run
    case isTrue =>
      obtain ⟨_, _, held, run⟩ := ends_bind.mp run
      obtain ⟨_, _, _, run⟩ := ends_bind.mp run
      exact (ends_pure.mp run).left ▸ (ends_okOr.mp held).left
    case isFalse => exact absurd run ends_throw
  · intro held
    have more : (c.cursor k h).nextRef < (c.cursor k h).endRef :=
      (List.getElem?_eq_some_iff.mp held).fst
    refine ⟨(c.cursor k h).pastRef more, _, _, ⟨rfl, rfl⟩, ?_⟩
    rw [dif_pos more]
    refine ends_bind.mpr ⟨r, _, ends_okOr.mpr ⟨held, rfl⟩, ?_⟩
    exact ends_bind.mpr ⟨.unit, _, ends_set.mpr rfl, ends_pure.mpr ⟨rfl, rfl⟩⟩

end Cursor

namespace ValidatorSet

variable {param : Cell} {header : Header}

-- The fields behind the tag, and the list behind the declared weight.
theorem loadList_extended {k : Nat} {h : k ≤ param.bits} {list : Cell} :
    (∃ s, (loadList true).Ends (param.cursor k h) list s) ↔
      k + 65 ≤ param.bits ∧ param.data.bitAt (k + 64) = true ∧ param.refs[0]? = some list := by
  constructor
  · rintro ⟨_, run⟩
    have ⟨_, _, read, run⟩ := ends_bind.mp run
    obtain ⟨_, _, rfl⟩ := (loadUint_cursor (by decide)).mp (ends_mapErr.mp read)
    have ⟨maybe, _, read, run⟩ := ends_bind.mp run
    obtain ⟨rfl, rfl⟩ := ends_okOr.mp run
    have ⟨bit, _, flag, run⟩ := ends_bind.mp (ends_mapErr.mp read)
    obtain ⟨set, room, rfl⟩ := loadBit_cursor.mp flag
    cases bit
    case false => cases (ends_pure.mp run).left
    case true =>
      have ⟨r, _, held, run⟩ := ends_bind.mp run
      obtain rfl := Option.some_inj.mp (ends_pure.mp run).left
      exact ⟨room, set, loadRef_cursor.mp ⟨_, held⟩⟩
  · rintro ⟨room, set, held⟩
    have ⟨s, held⟩ := loadRef_cursor (k := k + 64 + 1) (h := room).mpr held
    refine ⟨s, ends_bind.mpr ⟨_, _, ends_mapErr.mpr
      ((loadUint_cursor (by decide)).mpr ⟨rfl, by omega, rfl⟩), ?_⟩⟩
    refine ends_bind.mpr ⟨some list, s, ends_mapErr.mpr ?_, ends_okOr.mpr ⟨rfl, rfl⟩⟩
    refine ends_bind.mpr ⟨true, _, loadBit_cursor.mpr ⟨set, room, rfl⟩, ?_⟩
    exact ends_bind.mpr ⟨list, s, held, ends_pure.mpr ⟨rfl, rfl⟩⟩

-- What the extended form declares. The bits from 104 to 168 are the weight of every validator of
-- every shard, and are not among what the header holds.
theorem loadHeader_extended (extended : Slice.uintAt param.data 0 8 = validatorsExtTag) :
    loadHeader.value param.parse = .ok header ↔
      169 ≤ param.bits ∧ param.data.bitAt 168 = true ∧ param.refs[0]? = some header.list ∧
      UInt32.ofNat (Slice.uintAt param.data 8 32) = header.utimeSince ∧
      UInt32.ofNat (Slice.uintAt param.data 40 32) = header.utimeUntil ∧
      Slice.uintAt param.data 72 16 = header.total ∧ Slice.uintAt param.data 88 16 = header.main ∧
      ¬(header.main = 0 ∨ header.main > header.total) := by
  rw [value_eq_ok, show param.parse = param.cursor 0 (Nat.zero_le _) from rfl]
  constructor
  · rintro ⟨_, run⟩
    have ⟨form, _, opened, run⟩ := ends_bind.mp run
    have ⟨_, _, read, opened⟩ := ends_bind.mp opened
    obtain ⟨rfl, _, rfl⟩ := (loadUint_cursor (by decide)).mp (ends_mapErr.mp read)
    rw [if_pos extended] at opened
    obtain ⟨rfl, rfl⟩ := ends_pure.mp opened
    have ⟨_, _, read, run⟩ := ends_bind.mp run
    obtain ⟨rfl, _, rfl⟩ := loadU32_cursor.mp (ends_mapErr.mp read)
    have ⟨_, _, read, run⟩ := ends_bind.mp run
    obtain ⟨rfl, _, rfl⟩ := loadU32_cursor.mp (ends_mapErr.mp read)
    have ⟨_, _, read, run⟩ := ends_bind.mp run
    obtain ⟨rfl, _, rfl⟩ := (loadUint_cursor (by decide)).mp (ends_mapErr.mp read)
    have ⟨_, _, read, run⟩ := ends_bind.mp run
    obtain ⟨rfl, _, rfl⟩ := (loadUint_cursor (by decide)).mp (ends_mapErr.mp read)
    have ⟨_, _, guard, run⟩ := ends_bind.mp run
    obtain ⟨counts, rfl⟩ := ends_failIf.mp guard
    have ⟨list, _, read, run⟩ := ends_bind.mp run
    obtain ⟨rfl, rfl⟩ := ends_pure.mp run
    have ⟨room, set, held⟩ := loadList_extended.mp ⟨_, read⟩
    exact ⟨room, set, held, rfl, rfl, rfl, rfl, counts⟩
  · rintro ⟨room, set, held, opens, closes, total, main, counts⟩
    have ⟨s, read⟩ := loadList_extended (k := 104) (h := by omega).mpr ⟨room, set, held⟩
    have opened : loadExtended.Ends (param.cursor 0 (Nat.zero_le _)) true
        (param.cursor 8 (by omega)) :=
      ends_bind.mpr ⟨_, _, ends_mapErr.mpr
        ((loadUint_cursor (by decide)).mpr ⟨extended, by omega, rfl⟩), ends_pure.mpr ⟨rfl, rfl⟩⟩
    refine ⟨s, ends_bind.mpr ⟨true, _, opened, ?_⟩⟩
    refine ends_bind.mpr ⟨_, _, ends_mapErr.mpr (loadU32_cursor.mpr ⟨opens, by omega, rfl⟩), ?_⟩
    refine ends_bind.mpr ⟨_, _, ends_mapErr.mpr (loadU32_cursor.mpr ⟨closes, by omega, rfl⟩), ?_⟩
    refine ends_bind.mpr ⟨_, _, ends_mapErr.mpr
      ((loadUint_cursor (by decide)).mpr ⟨total, by omega, rfl⟩), ?_⟩
    refine ends_bind.mpr ⟨_, _, ends_mapErr.mpr
      ((loadUint_cursor (by decide)).mpr ⟨main, by omega, rfl⟩), ?_⟩
    refine ends_bind.mpr ⟨(), _, ends_failIf.mpr ⟨counts, rfl⟩, ?_⟩
    exact ends_bind.mpr ⟨header.list, s, read, ends_pure.mpr ⟨rfl, rfl⟩⟩

theorem counts_of_loadHeader (h : loadHeader.value param.parse = .ok header) :
    0 < header.main ∧ header.main ≤ header.total := by
  have ⟨_, run⟩ := value_eq_ok.mp h
  have ⟨_, _, _, run⟩ := ends_bind.mp run
  have ⟨_, _, _, run⟩ := ends_bind.mp run
  have ⟨_, _, _, run⟩ := ends_bind.mp run
  have ⟨_, _, _, run⟩ := ends_bind.mp run
  have ⟨_, _, _, run⟩ := ends_bind.mp run
  have ⟨_, _, guard, run⟩ := ends_bind.mp run
  have ⟨counts, _⟩ := ends_failIf.mp guard
  have ⟨_, _, _, run⟩ := ends_bind.mp run
  obtain ⟨rfl, _⟩ := ends_pure.mp run
  exact ⟨Nat.pos_of_ne_zero fun none => counts (.inl none),
    Nat.le_of_not_lt fun beyond => counts (.inr beyond)⟩

theorem uintAt_congr {data data' : Bytes} {start n : Nat}
    (same : ∀ i, start ≤ i → i < start + n → data.bitAt i = data'.bitAt i) :
    Slice.uintAt data start n = Slice.uintAt data' start n := by
  refine Nat.eq_of_testBit_eq fun k => ?_
  rw [Slice.uintAt_testBit, Slice.uintAt_testBit]
  by_cases inside : k < n
  · rw [same _ (by omega) (by omega)]
  · simp [inside]

-- Where the extended form declares the weight over every validator of every shard.
def declaresWeightAt (i : Nat) : Prop :=
  104 ≤ i ∧ i < 168

theorem loadHeader_congr {param' : Cell}
    (extended : Slice.uintAt param.data 0 8 = validatorsExtTag)
    (bits : param'.bits = param.bits) (refs : param'.refs = param.refs)
    (data : ∀ i, ¬declaresWeightAt i → param'.data.bitAt i = param.data.bitAt i)
    (h : loadHeader.value param.parse = .ok header) :
    loadHeader.value param'.parse = .ok header := by
  have field {start n : Nat} (apart : start + n ≤ 104) :
      Slice.uintAt param'.data start n = Slice.uintAt param.data start n :=
    uintAt_congr fun i _ _ => data i fun weight => absurd weight.left (by omega)
  have flag : param'.data.bitAt 168 = param.data.bitAt 168 :=
    data 168 fun weight => absurd weight.right (by omega)
  rw [loadHeader_extended ((field (by decide)).trans extended), bits, refs, flag,
    field (by decide), field (by decide), field (by decide), field (by decide)]
  exact (loadHeader_extended extended).mp h

theorem close_eq_ok {roll : Roll} {set : ValidatorSet} (h : close header roll = .ok set) :
    set.members = sortByKey roll.members ∧ set.totalWeight = roll.totalWeight ∧
      set.utimeSince = header.utimeSince ∧ set.utimeUntil = header.utimeUntil ∧
      set.total = header.total ∧ set.main = header.main := by
  rw [close] at h
  split at h
  case isTrue  => cases h
  case isFalse => cases h; exact ⟨rfl, rfl, rfl, rfl, rfl, rfl⟩

-- What a set states besides its members has no part in whether it closes.
theorem close_congr {header' : Header} {roll : Roll} {set : ValidatorSet}
    (main : header'.main = header.main) (h : close header roll = .ok set) :
    close header' roll = .ok { set with
      utimeSince := header'.utimeSince
      utimeUntil := header'.utimeUntil
      total      := header'.total } := by
  rw [close] at h ⊢
  split at h
  case isTrue => cases h
  case isFalse apart =>
    cases h
    rw [dif_neg apart, main]
    rfl

theorem push_eq_ok {roll roll' : Roll} {id : Hash} {validator : Validator}
    (h : roll.push id validator = .ok roll') :
    roll'.members = roll.members ++ [(id, validator)] := by
  rw [Roll.push] at h
  split at h
  case isTrue  => cases h; rfl
  case isFalse => cases h

def Header.listDict (header : Header) : Dict where
  root    := some header.list
  keyBits := 16

-- The validator that the list of a set holds at an index.
def enlisted (listDict : Dict) (index : Nat) : Except BlockError Validator := do
  match ← listDict.get (.be 2 index) with
  | .absent      => throw (.malformed "a validator set missing an entry the count promises")
  | .pruned      => throw .notCovered
  | .found entry =>
    let slice ← entry.slice
    readValidator.value slice

section Enrolment

variable [Sha256] {listDict : Dict}

def Validator.entry (validator : Validator) : Hash × Validator :=
  (shortId validator.publicKey, validator)

theorem enroll_eq (roll : Roll) (index : Nat) : enroll listDict roll index =
    enlisted listDict index >>= fun v => roll.push (shortId v.publicKey) v := by
  rw [enroll, enlisted, bind_assoc]
  congr
  funext found
  cases found
  case absent => rfl
  case pruned => rfl
  case found entry => simp only [bind_assoc]

-- The loop over the main validators reads the list at their indices, and nowhere else.
theorem foldlM_enroll_congr {listDict' : Dict} (roll : Roll) {indices : List Nat}
    (same : ∀ index ∈ indices, enlisted listDict index = enlisted listDict' index) :
    indices.foldlM (enroll listDict) roll = indices.foldlM (enroll listDict') roll := by
  induction indices generalizing roll
  case nil => rfl
  case cons index indices hi =>
    rw [List.foldlM_cons, List.foldlM_cons, enroll_eq, enroll_eq, same index (by simp)]
    congr
    funext roll'
    exact hi roll' fun i hm => same i (by simp [hm])

-- What the list holds at the indices from the first up to the bound.
def Lists (listDict : Dict) (main : Nat) (validators : List Validator) : Prop :=
  validators.length = main ∧ ∀ i, ∀ validator ∈ validators[i]?, enlisted listDict i = .ok validator

theorem foldlM_enroll {main : Nat} {roll : Roll}
    (h : (List.range main).foldlM (enroll listDict) Roll.empty = .ok roll) :
    ∃ validators, Lists listDict main validators ∧
      roll.members = validators.map Validator.entry := by
  induction main generalizing roll
  case zero =>
    cases h
    exact ⟨[], ⟨rfl, by simp⟩, rfl⟩
  case succ main hi =>
    rw [List.range_succ, List.foldlM_append, bind_eq_ok] at h
    have ⟨mid, earlier, last⟩ := h
    have ⟨validators, ⟨length, listed⟩, members⟩ := hi earlier
    rw [List.foldlM_cons, enroll_eq, bind_assoc] at last
    have ⟨validator, read, last⟩ := bind_eq_ok.mp last
    have ⟨_, pushed, last⟩ := bind_eq_ok.mp last
    cases last
    refine ⟨validators ++ [validator], ⟨by simp [length], fun i v hv => ?_⟩, ?_⟩
    · rcases Nat.lt_trichotomy i main with lt | rfl | gt
      · exact listed i v (by rwa [List.getElem?_append_left (by omega)] at hv)
      · obtain rfl : validator = v := by simpa [← length] using hv
        exact read
      · have past : (validators ++ [validator]).length ≤ i := by simp; omega
        simp [List.getElem?_eq_none past] at hv
    · rw [push_eq_ok pushed, members, List.map_append, List.map_singleton, Validator.entry]

theorem fromCell_eq : fromCell param = loadHeader.value param.parse >>= fun header =>
    (List.range header.main).foldlM (enroll header.listDict) Roll.empty >>= close header :=
  rfl

-- The set that a header and the validators of its list make.
structure Enlists (set : ValidatorSet) (header : Header) (validators : List Validator) : Prop where
  counts  : 0 < header.main ∧ header.main ≤ header.total
  lists   : Lists header.listDict header.main validators
  members : set.members.Perm (validators.map Validator.entry)
  sorted  : (set.members.map Prod.fst).Pairwise (· < ·)
  once    : (validators.map Validator.publicKey).Nodup
  weighed : set.totalWeight = (validators.map Validator.weight).sum
  fits    : (validators.map Validator.weight).sum < 2 ^ 64
  find    : ∀ id validator,
    set.find id = some validator ↔ validator ∈ validators ∧ shortId validator.publicKey = id

theorem enlists {roll : Roll} {set : ValidatorSet}
    (counts : 0 < header.main ∧ header.main ≤ header.total)
    (filled : (List.range header.main).foldlM (enroll header.listDict) Roll.empty = .ok roll)
    (closed : close header roll = .ok set) : ∃ validators, set.Enlists header validators := by
  have ⟨validators, lists, members⟩ := foldlM_enroll filled
  have ⟨kept, weight, _⟩ := close_eq_ok closed
  have perm : set.members.Perm (validators.map Validator.entry) := by
    rw [kept, ← members]
    exact sortByKey_perm _
  have weighed : set.totalWeight = (validators.map Validator.weight).sum := by
    rw [set.weighed, Members.weight, weight_perm perm]
    simp [Keyed.weight, Validator.entry, Function.comp_def]
  have ids : (validators.map fun v => shortId v.publicKey).Nodup := by
    have := (perm.map Prod.fst).nodup_iff.mp set.distinct
    rwa [List.map_map] at this
  refine ⟨validators, counts, lists, perm, set.sorted, ?_, weighed, weighed ▸ set.fits, ?_⟩
  · exact List.Nodup.of_map shortId (by rwa [List.map_map])
  · intro id validator
    rw [find_eq_some, perm.mem_iff, List.mem_map]
    constructor
    · rintro ⟨v, hv, same⟩
      cases same
      exact ⟨hv, rfl⟩
    · rintro ⟨hv, rfl⟩
      exact ⟨validator, hv, rfl⟩

theorem fromCell_members {set : ValidatorSet} (accepted : fromCell param = .ok set) :
    ∃ header validators, loadHeader.value param.parse = .ok header ∧ set.Enlists header validators ∧
      (∀ param' header', loadHeader.value param'.parse = .ok header' →
        header'.main = header.main →
        (∀ i < header.main, enlisted header'.listDict i = enlisted header.listDict i) →
        fromCell param' = .ok { set with
          utimeSince := header'.utimeSince
          utimeUntil := header'.utimeUntil
          total      := header'.total }) ∧
      (Slice.uintAt param.data 0 8 = validatorsExtTag → ∀ param' : Cell,
        param'.bits = param.bits → param'.refs = param.refs →
        (∀ i, ¬declaresWeightAt i → param'.data.bitAt i = param.data.bitAt i) →
        fromCell param' = .ok set) := by
  have ⟨header, loaded, accepted'⟩ := bind_eq_ok.mp (fromCell_eq ▸ accepted)
  have ⟨roll, filled, closed⟩ := bind_eq_ok.mp accepted'
  have ⟨validators, enlists⟩ := enlists (counts_of_loadHeader loaded) filled closed
  refine ⟨header, validators, loaded, enlists, fun param' header' loaded' main same => ?_,
    fun extended param' bits refs data => ?_⟩
  · have filled' : (List.range header'.main).foldlM (enroll header'.listDict) Roll.empty =
        .ok roll := by
      rw [main, ← filled]
      exact foldlM_enroll_congr _ fun i hm => same i (List.mem_range.mp hm)
    rw [fromCell_eq, loaded', ok_bind, filled', ok_bind]
    exact close_congr main closed
  · rw [fromCell_eq, loadHeader_congr extended bits refs data loaded, ok_bind, filled, ok_bind,
      closed]

end Enrolment

section TwoOfThree

def idOne : Nat :=
  0x53422fc6042577b828b6bf24a3c3fc2c2bfab5d3188db21589214944f0885bd7

def idFive : Nat :=
  0x01dcf095d794c25e11042f3f97fe0f5c93fc26a533b68b812dabf71d9c4f5797

attribute [local instance] Sha256.standard

def listCell (data : Bytes) (bits : Nat) (refs : List Cell) (cellType : CellType) : Cell :=
  ⟨data, bits, refs, cellType, ⟨0, .zero, 0, none⟩⟩

def validatorFive : Cell :=
  listCell (Bytes.be 23 0x14e3a049e2800000000000000000000000000000000000 ++
    Bytes.be 23 0x0000000000000000000000000000800000000000000160) 362 [] .ordinary

def validatorOne : Cell :=
  listCell (Bytes.be 23 0x14e3a049e2800000000000000000000000000000000000 ++
    Bytes.be 23 0x0000000000000000000000000000400000000000000060) 362 [] .ordinary

-- Three validators are declared. The one that is not main is withheld.
def validatorList : Cell :=
  listCell [0xce] 8 [listCell [0x20] 2 [validatorFive, validatorOne] .ordinary,
    listCell [0x01] 8 [] .prunedBranch] .ordinary

def twoOfThree (weight : Nat) : Cell :=
  listCell (Bytes.be 13 0x12000000010000000200030002 ++ Bytes.be 8 weight ++ [0xc0]) 169
    [validatorList] .ordinary

theorem fromCell_twoOfThree : ((fromCell (twoOfThree 9)).toOption.map members) =
    some [(.ofNat idFive, ⟨.ofNat 2, 5⟩), (.ofNat idOne, ⟨.ofNat 1, 1⟩)] := by
  decide +kernel

theorem fromCell_members_twoOfThree : ∃ set header validators,
    set.members = [(.ofNat idFive, ⟨.ofNat 2, 5⟩), (.ofNat idOne, ⟨.ofNat 1, 1⟩)] ∧
    set.Enlists header validators ∧ fromCell (twoOfThree 9) = .ok set ∧
    fromCell (twoOfThree 6) = .ok set := by
  have ⟨set, accepted, members⟩ := Option.map_eq_some_iff.mp fromCell_twoOfThree
  rw [toOption_eq_some] at accepted
  have ⟨header, validators, _, enlists, _, weight⟩ := fromCell_members accepted
  refine ⟨set, header, validators, members, enlists, accepted, ?_⟩
  refine weight (by decide +kernel) (twoOfThree 6) rfl rfl fun i apart => ?_
  have alike : ∀ i < 176, ¬(104 ≤ i ∧ i < 168) →
      (twoOfThree 6).data.bitAt i = (twoOfThree 9).data.bitAt i := by
    decide +kernel
  by_cases inside : i < 176
  · exact alike i inside apart
  · rw [Bytes.bitAt_of_length_le (Nat.le_of_not_lt inside),
      Bytes.bitAt_of_length_le (Nat.le_of_not_lt inside)]

end TwoOfThree

end ValidatorSet

end TonNet
