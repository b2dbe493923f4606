import TonNet.Proof.Chain

-- What the signatures on a message are worth.

namespace TonNet

open Fallible Keyed Wire

namespace ValidatorSet

variable (set : ValidatorSet)

theorem distinct : (set.members.map Prod.fst).Nodup :=
  set.sorted.imp fun h => h.ne

variable {set} in
theorem unique {m m' : Hash × Validator} (hm : m ∈ set.members) (hm' : m' ∈ set.members)
    (h : m.1 = m'.1) : m = m' :=
  List.inj_on_of_nodup_map set.distinct hm hm' h

theorem find_eq_some {id : Hash} {validator : Validator} :
    set.find id = some validator ↔ (id, validator) ∈ set.members := by
  unfold find
  cases search : binarySearch (set.members.map Prod.fst) id
  case error place =>
    have absent := (missing_of_search_error set.sorted search).not_mem
    refine ⟨nofun, fun mem => absurd (List.mem_map_of_mem mem) absent⟩
  case ok place =>
    have found := getElem?_of_search_ok search
    rw [List.getElem?_map, Option.map_eq_some_iff] at found
    have ⟨m, at_place, key⟩ := found
    have mem := List.mem_of_getElem? at_place
    simp only [at_place, Option.map_some, Option.some.injEq]
    constructor
    · rintro rfl
      rwa [← key]
    · intro mem'
      exact congrArg Prod.snd (unique mem mem' key)

theorem find_eq_none {id : Hash} : set.find id = none ↔ id ∉ set.members.map Prod.fst := by
  constructor
  · intro h mem
    have ⟨m, mem, key⟩ := List.mem_map.mp mem
    have found := set.find_eq_some.mpr (key ▸ mem : (id, m.2) ∈ set.members)
    exact Option.some_ne_none _ (found.symm.trans h)
  · intro h
    refine Option.eq_none_iff_forall_ne_some.mpr fun validator found => h ?_
    exact List.mem_map.mpr ⟨_, set.find_eq_some.mp found, rfl⟩

end ValidatorSet

section Count

-- A member that some entry names with a signature that verifies.
def backed [Ed25519] (message : Bytes) (entries : List Signature) (m : Hash × Validator) : Bool :=
  entries.any fun entry =>
    entry.nodeIdShort = m.1 ∧ Ed25519.verify m.2.publicKey message entry.signature

-- The number of entries that name a member.
def naming (set : ValidatorSet) (entries : List Signature) : Nat :=
  entries.countP (·.nodeIdShort ∈ set.members.map Prod.fst)

theorem naming_append {set : ValidatorSet} (seen entries : List Signature) :
    naming set (seen ++ entries) = naming set seen + naming set entries :=
  List.countP_append

variable [Ed25519] {set : ValidatorSet} {message : Bytes} {seen entries : List Signature} {entry : Signature}
  {attempts weight budget : Nat} {counted : List Hash} {validator : Validator} {m : Hash × Validator}

theorem backed_append :
    backed message (seen ++ entries) m = (backed message seen m || backed message entries m) :=
  List.any_append

theorem backed_singleton : backed message [entry] m = true ↔
    entry.nodeIdShort = m.1 ∧ Ed25519.verify m.2.publicKey message entry.signature = true := by
  simp [backed]

-- Where the loop stands after the entries it has `seen`, as long as it has not stopped.
structure Counted (set : ValidatorSet) (message : Bytes) (seen : List Signature) (attempts : Nat)
    (counted : List Hash) (weight : Nat) : Prop where
  sorted   : counted.Pairwise (· < ·)
  signers  : ∀ m ∈ set.members, m.1 ∈ counted ↔ backed message seen m = true
  weighed  : weight = Members.weight (set.members.filter (·.1 ∈ counted))
  spent    : attempts ≤ naming set seen

namespace Counted

theorem init : Counted set message [] 0 [] 0 where
  sorted   := .nil
  signers  := by simp [backed]
  weighed  := by simp [Members.weight]
  spent    := Nat.zero_le _

-- An entry that adds nobody, whether an attempt was made or not.
theorem skip (c : Counted set message seen attempts counted weight) (more : Nat)
    (h : ∀ m ∈ set.members, backed message [entry] m = true → m.1 ∈ counted)
    (hm : more ≤ naming set [entry]) :
    Counted set message (seen ++ [entry]) (attempts + more) counted weight where
  sorted       := c.sorted
  signers m hm := by
    rw [backed_append, Bool.or_eq_true, ← c.signers m hm]
    exact ⟨.inl, fun hb => hb.elim id (h m hm)⟩
  weighed      := c.weighed
  spent        := naming_append seen [entry] ▸ Nat.add_le_add c.spent hm

-- A member named for the first time by a signature that verifies.
theorem count (c : Counted set message seen attempts counted weight)
    (found : (entry.nodeIdShort, validator) ∈ set.members) {place : Nat}
    (new : Missing entry.nodeIdShort counted place)
    (valid : Ed25519.verify validator.publicKey message entry.signature = true)
    (hm : naming set [entry] = 1) :
    Counted set message (seen ++ [entry]) (attempts + 1)
      (counted.insertIdx place entry.nodeIdShort) (weight + validator.weight) where
  sorted       := new.sorted_insertIdx c.sorted
  signers m hm := by
    rw [new.mem_insertIdx, backed_append, Bool.or_eq_true, ← c.signers m hm, backed_singleton]
    constructor
    · rintro (key | old)
      · obtain rfl : m = (entry.nodeIdShort, validator) := ValidatorSet.unique hm found key
        exact .inr ⟨rfl, valid⟩
      · exact .inl old
    · rintro (old | ⟨key, _⟩)
      · exact .inr old
      · exact .inl key.symm
  weighed      := by
    rw [c.weighed, eq_comm]
    refine weight_filter_insert set.distinct found ?_ fun m _ => ?_
    · simpa using new.not_mem
    · simpa using new.mem_insertIdx
  spent        := by
    rw [naming_append, hm]
    exact Nat.add_le_add_right c.spent 1

theorem weight_lt (c : Counted set message seen attempts counted weight) : weight < 2 ^ 64 := by
  have total : Members.weight set.members < 2 ^ 64 := set.weighed ▸ set.fits
  rw [c.weighed]
  exact lt_of_le_of_lt weight_filter_le total

end Counted

-- What the loop returns: the weight of members that entries back. If no more entries name members
-- than there are attempts, it settles whether all the members that entries back carry the message.
structure Carried (set : ValidatorSet) (message : Bytes) (budget : Nat) (entries : List Signature)
    (weight : Nat) : Prop where
  signers : ∃ chosen : Members, chosen.Sublist set.members ∧
    (∀ m ∈ chosen, backed message entries m = true) ∧ weight = chosen.weight
  settles : naming set entries ≤ budget → (set.carries weight = true ↔
    set.carries (Members.weight (set.members.filter (backed message entries))) = true)

namespace Counted

theorem subset (c : Counted set message seen attempts counted weight) (entries : List Signature) :
    ∀ m ∈ set.members, decide (m.1 ∈ counted) = true → backed message (seen ++ entries) m = true := by
  intro m hm hc
  rw [backed_append, (c.signers m hm).mp (of_decide_eq_true hc), Bool.true_or]

theorem carried_signers (c : Counted set message seen attempts counted weight)
    (entries : List Signature) : ∃ chosen : Members, chosen.Sublist set.members ∧
      (∀ m ∈ chosen, backed message (seen ++ entries) m = true) ∧ weight = chosen.weight := by
  refine ⟨_, List.filter_sublist, fun m hm => ?_, c.weighed⟩
  have ⟨hm, hc⟩ := List.mem_filter.mp hm
  exact c.subset entries m hm hc

-- All entries were seen.
theorem finish (c : Counted set message seen attempts counted weight) :
    Carried set message budget seen weight where
  signers   := by simpa using c.carried_signers []
  settles _ := by
    have same : set.members.filter (·.1 ∈ counted) = set.members.filter (backed message seen) :=
      List.filter_congr fun m hm => Bool.eq_iff_iff.mpr <| by simp [c.signers m hm]
    rw [c.weighed, same]

-- The loop stops early because the threshold is passed.
theorem pass (c : Counted set message seen attempts counted weight)
    (h : set.carries weight = true) : Carried set message budget (seen ++ entries) weight where
  signers   := c.carried_signers entries
  settles _ := by
    have mono := weight_filter_mono (w := Validator.weight) (c.subset entries)
    have weighed := c.weighed
    simp only [ValidatorSet.carries, Members.weight, gt_iff_lt, decide_eq_true_eq] at h weighed ⊢
    omega

-- The loop stops early because the attempts are spent, which takes more entries than that.
theorem exhaust (c : Counted set message seen attempts counted weight)
    (h : attempts ≥ budget) (hm : naming set [entry] = 1) :
    Carried set message budget (seen ++ entry :: entries) weight where
  signers    := c.carried_signers (entry :: entries)
  settles hb := by
    have spent := c.spent
    rw [naming_append, ← List.singleton_append, naming_append, hm] at hb
    omega

end Counted

theorem carriedFrom_carried (c : Counted set message seen attempts counted weight)
    (entries : List Signature) :
    ∃ result, carriedFrom set message budget entries attempts counted weight = .ok result ∧
      Carried set message budget (seen ++ entries) result := by
  induction entries generalizing seen attempts counted weight
  case nil => exact ⟨weight, rfl, by simpa using c.finish⟩
  case cons entry entries hi =>
    have split : seen ++ entry :: entries = (seen ++ [entry]) ++ entries := by simp
    rw [carriedFrom]
    cases found : set.find entry.nodeIdShort
    case none =>
      have outside := set.find_eq_none.mp found
      refine split ▸ hi (c.skip 0 (fun m hm hb => ?_) (Nat.zero_le _))
      exact absurd ((backed_singleton.mp hb).left ▸ List.mem_map_of_mem hm) outside
    case some validator =>
      have mem := set.find_eq_some.mp found
      have named : naming set [entry] = 1 := by simp [naming, List.mem_map.mpr ⟨_, mem, rfl⟩]
      cases search : binarySearch counted entry.nodeIdShort
      case ok place =>
        refine split ▸ hi (c.skip 0 (fun m _ hb => ?_) (Nat.zero_le _))
        exact (backed_singleton.mp hb).left ▸ List.mem_of_getElem? (getElem?_of_search_ok search)
      case error place =>
        have new := missing_of_search_error c.sorted search
        dsimp only [note_bind]
        split_ifs with exhausted invalid passed
        · exact ⟨weight, rfl, c.exhaust exhausted named⟩
        · refine split ▸ hi (c.skip 1 (fun m hm hb => ?_) named.ge)
          have ⟨key, valid⟩ := backed_singleton.mp hb
          obtain rfl : m = (entry.nodeIdShort, validator) := ValidatorSet.unique hm mem key.symm
          simp [valid] at invalid
        all_goals
          have next := c.count mem new (by simpa using invalid) named
          rw [failIf_bind_of_not (not_le.mpr next.weight_lt)]
        · exact ⟨_, rfl, split ▸ next.pass passed⟩
        · exact split ▸ hi next

theorem carriedWeight_carried (set : ValidatorSet) (message : Bytes) (signatures : List Signature) :
    ∃ weight, carriedWeight set message signatures = .ok weight ∧
      Carried set message (set.len * 2) signatures weight :=
  carriedFrom_carried .init signatures

omit [Ed25519] in
theorem naming_le (h : ∀ m ∈ set.members, entries.countP (·.nodeIdShort = m.1) ≤ 2) :
    naming set entries ≤ set.len * 2 := by
  have bound := countP_mem_le (f := Signature.nodeIdShort) (n := 2) (set.members.map Prod.fst)
    fun k hk => by
      have ⟨m, hm, key⟩ := List.mem_map.mp hk
      exact key ▸ h m hm
  rwa [List.length_map, Nat.mul_comm] at bound

-- Entries in another order, and entries from signers outside the set.
theorem backed_rearranged (message : Bytes) {outsiders rearranged : List Signature}
    (outside : ∀ e ∈ outsiders, set.find e.nodeIdShort = none)
    (perm : rearranged.Perm (entries ++ outsiders)) (hm : m ∈ set.members) :
    backed message rearranged m = backed message entries m ∧
      rearranged.countP (·.nodeIdShort = m.1) = entries.countP (·.nodeIdShort = m.1) := by
  have other (e : Signature) (he : e ∈ outsiders) : e.nodeIdShort ≠ m.1 := fun key =>
    set.find_eq_none.mp (outside e he) (key ▸ List.mem_map_of_mem hm)
  constructor
  · have none : backed message outsiders m = false := by
      simp only [backed, List.any_eq_false, decide_eq_true_eq]
      exact fun e he h => other e he h.left
    rw [backed, perm.any_eq, ← backed, backed_append, none, Bool.or_false]
  · have none : outsiders.countP (·.nodeIdShort = m.1) = 0 := by
      simpa [List.countP_eq_zero] using other
    rw [perm.countP_eq, List.countP_append, none, Nat.add_zero]

theorem carriedWeight_settles (set : ValidatorSet) (message : Bytes) (signatures : List Signature) :
    ∃ weight, carriedWeight set message signatures = .ok weight ∧
      (set.carries weight = true → ∃ chosen : Members, chosen.Sublist set.members ∧
        (chosen.map Prod.fst).Nodup ∧
        (∀ m ∈ chosen, ∃ entry ∈ signatures, entry.nodeIdShort = m.1 ∧
          Ed25519.verify m.2.publicKey message entry.signature = true) ∧
        chosen.weight = weight) ∧
      ((∀ m ∈ set.members, signatures.countP (·.nodeIdShort = m.1) ≤ 2) →
        (set.carries weight = true ↔
          Members.weight (set.members.filter (backed message signatures)) * 3 >
            Members.weight set.members * 2) ∧
        ∀ outsiders rearranged, (∀ e ∈ outsiders, set.find e.nodeIdShort = none) →
          rearranged.Perm (signatures ++ outsiders) →
          ∃ weight', carriedWeight set message rearranged = .ok weight' ∧
            set.carries weight' = set.carries weight) := by
  have ⟨weight, run, carried⟩ := carriedWeight_carried set message signatures
  refine ⟨weight, run, fun _ => ?_, fun twice => ⟨?_, fun outsiders rearranged outside perm => ?_⟩⟩
  · have ⟨chosen, sub, signed, weighed⟩ := carried.signers
    refine ⟨chosen, sub, set.distinct.sublist (sub.map _), fun m hm => ?_, weighed.symm⟩
    simpa [backed] using signed m hm
  · rw [carried.settles (naming_le twice), ← set.weighed]
    exact decide_eq_true_iff
  · have ⟨weight', run', carried'⟩ := carriedWeight_carried set message rearranged
    have same m (hm : m ∈ set.members) := backed_rearranged message outside perm hm
    have twice' : ∀ m ∈ set.members, rearranged.countP (·.nodeIdShort = m.1) ≤ 2 :=
      fun m hm => (same m hm).right ▸ twice m hm
    have backers : set.members.filter (backed message rearranged) =
        set.members.filter (backed message signatures) :=
      List.filter_congr fun m hm => (same m hm).left
    refine ⟨weight', run', Bool.eq_iff_iff.mpr ?_⟩
    rw [carried.settles (naming_le twice), carried'.settles (naming_le twice'), backers]

end Count

section TwoSigners

-- A signature that repeats the key it is checked against.
local instance echoEd25519 : Ed25519 where
  verify publicKey _ signature := publicKey.bytes = signature

def twoSigners : ValidatorSet where
  utimeSince  := 0
  utimeUntil  := 1
  total       := 2
  main        := 2
  members     := [(.ofNat 1, ⟨.ofNat 11, 5⟩), (.ofNat 2, ⟨.ofNat 12, 1⟩)]
  totalWeight := 6
  sorted      := by decide +kernel
  weighed     := rfl
  fits        := by decide

-- The member that is named twice signs only once, and a stranger signs too.
def twoSignatures : List Signature := [
  ⟨.ofNat 1, []⟩, ⟨.ofNat 7, (Hash.ofNat 7).bytes⟩, ⟨.ofNat 1, (Hash.ofNat 11).bytes⟩
]

theorem carriedWeight_settles_twoSigners :
    carriedWeight twoSigners [] twoSignatures = .ok 5 ∧ twoSigners.carries 5 = true ∧
      ∃ weight, carriedWeight twoSigners [] twoSignatures.reverse = .ok weight ∧
        twoSigners.carries weight = true := by
  have ⟨weight, run, _, settles⟩ := carriedWeight_settles twoSigners [] twoSignatures
  have seen : carriedWeight twoSigners [] twoSignatures = .ok 5 := by decide +kernel
  obtain rfl : weight = 5 := Except.ok.inj (run.symm.trans seen)
  have passed : twoSigners.carries 5 = true := by decide
  have ⟨_, rearranged⟩ := settles (by decide +kernel)
  have ⟨weight, run', same⟩ := rearranged [] twoSignatures.reverse nofun
    (by simp)
  exact ⟨run, passed, weight, run', same.trans passed⟩

end TwoSigners

end TonNet
