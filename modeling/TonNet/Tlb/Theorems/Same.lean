import TonNet.Cell.Theorems.Dict
import TonNet.Tlb.Block
import TonNet.Tlb.Shard

-- Reading two blocks, or two states, that share their level-zero hash.

namespace TonNet

open Fallible Method Slice

variable [Sha256] {strings : List Bytes}

-- The first byte of an exotic cell names its kind and is small, so a constructor tag with a high bit
-- set opens only an ordinary cell.
theorem Cell.Sound.bitAt_of_exotic {c : Cell} (h : c.Sound) (he : c.isExotic = true) {i : Nat}
    (hi : i < 5) : c.data.bitAt i = false := by
  have opening {tag : UInt8} (ht : c.cellType.tag = some tag) : c.data.getD 0 0 = tag := by
    rw [List.getD_eq_getElem?_getD, ← List.head?_eq_getElem?, h.leading tag ht]
    rfl
  have small : ∀ tag ∈ [0x01, 0x02, 0x03, 0x04], ∀ i < 5,
      (tag : UInt8).toNat.testBit (7 - i % 8) = false := by decide +kernel
  rw [Bytes.bitAt, show i / 8 = 0 by omega]
  cases ht : c.cellType
  case ordinary => simp [Cell.isExotic, ht] at he
  all_goals
    rw [opening (by rw [ht]; rfl)]
    exact small _ (by simp) i hi

theorem Cell.Sound.ordinary_of_tag {c : Cell} {n k v : Nat} (h : c.Sound)
    (hv : (loadUint n).value c.parse = .ok v) (hn : n - 1 - k < 5) (hk : v.testBit k = true) :
    c.isExotic = false := by
  have ⟨_, run⟩ := value_eq_ok.mp hv
  have shown := loadUint_ends run
  rw [shown, uintAt_testBit, Bool.and_eq_true] at hk
  by_contra exotic
  have hidden := h.bitAt_of_exotic (by simpa using exotic) hn
  have bit := hk.right
  rw [show c.parse.bit = 0 from rfl, Nat.zero_add] at bit
  exact Bool.false_ne_true (hidden.symm.trans bit)

-- Cells that share their hash and can both be read.
structure Shown (strings : List Bytes) (c c' : Cell) : Prop extends Same strings c c' where
  ordinary  : c.isExotic = false
  ordinary' : c'.isExotic = false

theorem Cell.Sound.ordinary_of_tag32 {c : Cell} {k : Nat} {tag : UInt32} (h : c.Sound)
    (hv : loadU32.value c.parse = .ok tag) (hn : k < 32 ∧ 31 - k < 5)
    (hk : tag.toNat.testBit k = true) : c.isExotic = false := by
  have ⟨s, run⟩ := value_eq_ok.mp hv
  have ⟨v, _, read, run⟩ := ends_bind.mp run
  obtain ⟨rfl, _⟩ := ends_pure.mp run
  refine h.ordinary_of_tag (value_eq_ok.mpr ⟨_, read⟩) hn.right ?_
  have set : (v % 2 ^ 32).testBit k = true := hk
  rw [Nat.testBit_mod_two_pow, Bool.and_eq_true] at set
  exact set.right

theorem Shown.slices {c c' : Cell} (cf : CollisionFree strings) (s : Shown strings c c') :
    c.parse.Same strings c'.parse :=
  s.toSame.parse cf s.ordinary s.ordinary'

theorem Shown.reference {c c' r r' : Cell} {i : Nat} (cf : CollisionFree strings)
    (s : Shown strings c c') (hr : c.reference i = some r) (hr' : c'.reference i = some r') :
    Same strings r r' :=
  (s.slices cf).reference rfl hr hr'

theorem lift_same {α : Type} {V : α → α → Prop} {x : Load α}
    (h : Twin (Slice.Same strings) V x x) : Twin (Slice.Same strings) V (x : Decode α) x :=
  h.mapErr

omit [Sha256] in
theorem lift_agree {α β : Type} {V : α → β → Prop} {x : Except CellError α} {y : Except CellError β}
    (h : Agree V x y) : Agree V (x : Except BlockError α) (y : Except BlockError β) :=
  h.mapError

-- The constructor check that opens a block and a state. Only ordinary cells pass it.
theorem Same.tagged_agree {α β : Type} {V : α → β → Prop} {c c' : Cell} {tag : UInt32}
    {e e' : BlockError} {x : Except BlockError α} {y : Except BlockError β}
    (s : Same strings c c') (hk : ∃ k, (k < 32 ∧ 31 - k < 5) ∧ tag.toNat.testBit k = true)
    (h : Shown strings c c' → Agree V x y) :
    Agree V (do failIf ((← (loadU32.value c.parse : Except BlockError UInt32)) ≠ tag) e; x)
      (do failIf ((← (loadU32.value c'.parse : Except BlockError UInt32)) ≠ tag) e'; y) := by
  have ⟨k, hn, hk⟩ := hk
  intro a b ha hb
  simp only [bind_eq_ok, failIf_eq_ok, ne_eq, not_not] at ha hb
  obtain ⟨_, hc, _, rfl, ha⟩ := ha
  obtain ⟨_, hc', _, rfl, hb⟩ := hb
  have ordinary := s.wf.sound.ordinary_of_tag32 (mapError_eq_ok.mp hc) hn hk
  have ordinary' := s.wf'.sound.ordinary_of_tag32 (mapError_eq_ok.mp hc') hn hk
  exact h ⟨s, ordinary, ordinary'⟩ ha hb

theorem loadHash_same : Twin (Slice.Same strings) (· = ·) loadHash loadHash :=
  (loadBytes_same 32).same fun _ => .pure rfl

theorem Coins.load_same : Twin (Slice.Same strings) (· = ·) Coins.load Coins.load :=
  (lift_same (loadVarUint_same 16)).same fun _ => .pure rfl

theorem skip_same {α : Type} {V : α → α → Prop} {n : Nat} {x y : Decode α}
    (h : Twin (Slice.Same strings) V x y) :
    Twin (Slice.Same strings) V (do (skipBits n : Decode Unit); x)
      (do (skipBits n : Decode Unit); y) :=
  (lift_same (skipBits_same n)).bind fun _ _ _ => h

theorem readShardIdent_same :
    Twin (Slice.Same strings) (· = ·) readShardIdent readShardIdent := by
  refine (lift_same (loadUint_same 2)).same fun _ => Twin.failIf.bind fun _ _ _ => ?_
  refine (lift_same (loadUint_same 6)).same fun _ => Twin.failIf.bind fun _ _ _ => ?_
  refine (lift_same loadI32_same).same fun _ => (lift_same (loadUint_same 64)).same fun _ => ?_
  exact .pure rfl

theorem skipCurrency_same :
    Twin (Slice.Same strings) (fun _ _ => True) skipCurrency skipCurrency :=
  (lift_same (loadVarUint_same 16)).same fun _ =>
    (lift_same loadMaybeRef_same).bind fun _ _ _ => .pure trivial

namespace Block

theorem loadHeader_same : Twin (Slice.Same strings) (· = ·) loadHeader loadHeader := by
  refine (lift_same loadU32_same).same fun _ => Twin.failIf.bind fun _ _ _ => ?_
  refine skip_same <| skip_same <| (lift_same loadBit_same).same fun keyBlock => ?_
  refine skip_same <| skip_same <| (lift_same loadU32_same).same fun seqno => skip_same ?_
  refine readShardIdent_same.same fun ident => (lift_same loadU32_same).same fun genUtime => ?_
  refine skip_same <| (lift_same loadU32_same).same fun _ => (lift_same loadU32_same).same fun _ => ?_
  exact skip_same <| (lift_same loadU32_same).same fun _ => .pure rfl

theorem loadCustom_same : Twin (Slice.Same strings) (Same strings) loadCustom loadCustom := by
  refine (lift_same loadU32_same).same fun _ => Twin.failIf.bind fun _ _ _ => ?_
  refine (lift_same loadRef_same).bind fun _ _ _ => (lift_same loadRef_same).bind fun _ _ _ => ?_
  refine (lift_same loadRef_same).bind fun _ _ _ => skip_same ?_
  refine (lift_same loadMaybeRef_same).bind fun _ _ h => .okOr ?_
  rintro r r' rfl rfl
  cases h
  case some h => exact h

theorem loadConfig_same : Twin (Slice.Same strings) (Same strings) loadConfig loadConfig := by
  refine (lift_same (loadUint_same 16)).same fun _ => Twin.failIf.bind fun _ _ _ => ?_
  refine (lift_same loadBit_same).same fun _ => Twin.failIf.bind fun _ _ _ => ?_
  refine (lift_same loadMaybeRef_same).bind fun _ _ _ => ?_
  refine (lift_same loadMaybeRef_same).bind fun _ _ _ => ?_
  refine skipCurrency_same.bind fun _ _ _ => skipCurrency_same.bind fun _ _ _ => ?_
  exact (lift_same loadRef_same).bind fun _ _ _ => skip_same (lift_same loadRef_same)

theorem fromCell_agree {c c' : Cell} (s : Same strings c c') :
    Agree (fun b b' : Block => Shown strings b.cell b'.cell) (fromCell c) (fromCell c') :=
  s.tagged_agree ⟨28, by decide⟩ fun shown => .pure shown

variable {b b' : Block}

theorem header_agree (cf : CollisionFree strings) (s : Shown strings b.cell b'.cell) :
    Agree (· = ·) b.header b'.header := by
  refine (Agree.okOr fun _ _ => s.reference cf).bind fun info info' h => ?_
  refine Agree.failIf.bind fun _ _ ⟨ordinary, ordinary'⟩ => ?_
  have shown : Shown strings info info' := ⟨h, by simpa using ordinary, by simpa using ordinary'⟩
  exact loadHeader_same.value (shown.slices cf)

theorem config_agree (cf : CollisionFree strings) (s : Shown strings b.cell b'.cell) :
    Agree (Same strings) b.config b'.config := by
  refine (Agree.okOr fun _ _ => s.reference cf).bind fun extra extra' h => ?_
  refine Agree.failIf.bind fun _ _ ⟨ordinary, ordinary'⟩ => ?_
  have shown : Shown strings extra extra' := ⟨h, by simpa using ordinary, by simpa using ordinary'⟩
  refine (loadCustom_same.value (shown.slices cf)).bind fun custom custom' h => ?_
  refine Agree.failIf.bind fun _ _ ⟨ordinary, ordinary'⟩ => ?_
  have shown : Shown strings custom custom' := ⟨h, by simpa using ordinary, by simpa using ordinary'⟩
  exact loadConfig_same.value (shown.slices cf)

-- Neither update is a pruned branch, so both show the hashes they were made of.
theorem newStateHash_agree (cf : CollisionFree strings) (s : Shown strings b.cell b'.cell) :
    Agree (· = ·) b.newStateHash b'.newStateHash := by
  refine (Agree.okOr fun _ _ => s.reference cf).bind fun update update' h => ?_
  refine Agree.failIf.bind fun _ _ ⟨kind, kind'⟩ => ?_
  have m := h.shows cf (by simp [not_not.mp kind]) (by simp [not_not.mp kind'])
  rw [m.data]
  exact .rfl

end Block

theorem ShardDescr.load_same :
    Twin (Slice.Same strings) (· = ·) ShardDescr.load ShardDescr.load := by
  refine (lift_same (loadUint_same 4)).same fun _ => Twin.failIf.bind fun _ _ _ => ?_
  refine (lift_same loadU32_same).same fun seqNo => skip_same ?_
  exact (lift_same loadHash_same).same fun rootHash => .pure rfl

-- Two account records that name the same account cell.
theorem ShardAccountEntry.load_same :
    Twin (Slice.Same strings) (fun e e' => e.accountHash = e'.accountHash)
      ShardAccountEntry.load ShardAccountEntry.load := by
  refine skip_same <| Coins.load_same.same fun _ => ?_
  refine (lift_same loadMaybeRef_same).bind fun _ _ _ => (lift_same loadRef_same).bind fun _ _ h => ?_
  refine (lift_same loadHash_same).same fun _ => (lift_same (loadUint_same 64)).same fun _ => ?_
  exact .pure h.hash

-- A node below the trusted root: pruned on one side, where that read learns nothing, or shown on
-- both.
theorem Same.pruned_or_shown {α β : Type} {V : α → β → Prop} {c c' : Cell}
    {x : Except BlockError (Lookup α)} {y : Except BlockError (Lookup β)} (s : Same strings c c')
    (h : Shown strings c c' → Agree (Lookup.Agrees V) x y) :
    Agree (Lookup.Agrees V) (if c.isExotic then return .pruned else x)
      (if c'.isExotic then return .pruned else y) := by
  by_cases exotic : c.isExotic
  case pos =>
    rw [if_pos exotic]
    exact fun _ _ ha _ => pure_eq_ok.mp ha ▸ .left
  by_cases exotic' : c'.isExotic
  case pos =>
    rw [if_pos exotic']
    exact fun _ _ _ hb => pure_eq_ok.mp hb ▸ .right
  rw [if_neg exotic, if_neg exotic']
  exact h ⟨s, by simpa using exotic, by simpa using exotic'⟩

section Shards

variable (cf : CollisionFree strings)
include cf

theorem findShardFrom_agree (accountId : Hash) (passes depth : Nat) {node node' : Cell}
    (s : Same strings node node') :
    Agree (Lookup.Agrees (· = ·)) (findShardFrom accountId passes depth node)
      (findShardFrom accountId passes depth node') := by
  induction passes generalizing depth node node'
  case zero => exact .throw_left
  case succ passes hi =>
    refine s.pruned_or_shown fun shown => ?_
    refine (lift_agree (loadBit_same.call (shown.slices cf))).bind ?_
    rintro ⟨fork, slice⟩ ⟨_, slice'⟩ ⟨rfl, hs⟩
    refine .ite (fun _ => ?_) fun _ => ?_
    · exact (ShardDescr.load_same.value hs).same fun _ => .pure (.found rfl)
    · refine Agree.rfl.same fun byte => ?_
      exact (Agree.okOr fun _ _ => shown.reference cf).bind fun _ _ h => hi _ h

omit cf in
theorem McStateExtra.fromCell_agree {c c' : Cell} (s : Shown strings c c') :
    Agree (fun x x' : McStateExtra => Shown strings x.cell x'.cell) (fromCell c) (fromCell c') := by
  intro _ _ ha hb
  simp only [fromCell, bind_eq_ok, pure_eq_ok] at ha hb
  obtain ⟨_, _, _, _, rfl⟩ := ha
  obtain ⟨_, _, _, _, rfl⟩ := hb
  exact s

theorem McStateExtra.shardFor_agree {extra extra' : McStateExtra}
    (s : Shown strings extra.cell extra'.cell) (workchain : Int32) (accountId : Hash) :
    Agree (Lookup.Agrees (· = ·)) (extra.shardFor workchain accountId)
      (extra'.shardFor workchain accountId) := by
  have shards : Twin (Slice.Same strings) (Option.Rel (Same strings)) loadShards loadShards :=
    skip_same (lift_same loadMaybeRef_same)
  refine (shards.value (s.slices cf)).bind ?_
  rintro _ _ (h | _)
  case none => exact .pure .absent
  refine (lift_agree (Dict.fromRoot_agree (.some h) _)).bind fun _ _ h => ?_
  refine (lift_agree (Dict.get_agree cf h _)).bind fun _ _ found => ?_
  apply found.agree
  case hr =>
    refine fun _ _ h => (lift_agree h.slice).bind fun _ _ h => ?_
    exact (lift_agree (loadRef_same.value h)).bind fun _ _ h => findShardFrom_agree cf _ _ _ h
  all_goals exact ⟨rfl, rfl⟩

theorem ShardState.account_agree {state state' : ShardState}
    (s : Shown strings state.cell state'.cell) (accountId : Hash) :
    Agree (Lookup.Agrees fun e e' => e.accountHash = e'.accountHash) (state.account accountId)
      (state'.account accountId) := by
  refine (Agree.okOr fun _ _ => s.reference cf).bind fun accounts accounts' h => ?_
  refine h.pruned_or_shown fun shown => ?_
  refine (lift_agree (loadMaybeRef_same.value (shown.slices cf))).bind ?_
  rintro _ _ (h | _)
  case none => exact .pure .absent
  refine (lift_agree (Dict.fromRoot_agree (.some h) _)).bind fun _ _ h => ?_
  refine (lift_agree (Dict.get_agree cf h _)).bind fun _ _ found => ?_
  apply found.agree
  case hr =>
    refine fun _ _ h => (lift_agree h.slice).bind fun _ _ h => ?_
    exact (ShardAccountEntry.load_same.value h).bind fun _ _ h => .pure (.found h)
  all_goals exact ⟨rfl, rfl⟩

theorem ShardState.masterchainExtra_agree {state state' : ShardState}
    (s : Shown strings state.cell state'.cell) :
    Agree (Lookup.Agrees fun x x' => Shown strings x.cell x'.cell) state.masterchainExtra
      state'.masterchainExtra := by
  have flag : Twin (Slice.Same strings) (· = ·) skipToCustom skipToCustom := by
    refine skip_same <| (lift_same (loadUint_same 2)).same fun _ => ?_
    exact Twin.failIf.bind fun _ _ _ => skip_same <| skip_same <| lift_same loadBit_same
  refine (flag.value (s.slices cf)).same fun _ => .ite (fun _ => .pure .absent) fun _ => ?_
  refine (Agree.okOr fun _ _ => s.reference cf).bind fun cell cell' h => ?_
  refine h.pruned_or_shown fun shown => ?_
  exact (McStateExtra.fromCell_agree shown).bind fun _ _ h => .pure (.found h)

end Shards

theorem ShardState.fromCell_agree {c c' : Cell} (s : Same strings c c') :
    Agree (fun b b' : ShardState => Shown strings b.cell b'.cell) (fromCell c) (fromCell c') :=
  s.tagged_agree ⟨31, by decide⟩ fun shown => .pure shown

end TonNet
