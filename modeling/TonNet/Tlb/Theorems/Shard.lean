import TonNet.Cell.Theorems.Cut
import TonNet.Tlb.Shard

-- The shard that covers an account: the one leaf whose path is a beginning of the account's id.

namespace TonNet

open Fallible Method

namespace ShardTree

-- A node says in its first bit whether it splits.
def IsFork (node : Cell) : Prop :=
  node.isExotic = false ∧ 0 < node.bits ∧ node.data.bitAt 0 = true

def IsLeaf (node : Cell) : Prop :=
  node.isExotic = false ∧ 0 < node.bits ∧ node.data.bitAt 0 = false

-- The nodes a path from a node leads to, through forks only.
inductive Leads : Cell → List Bool → Cell → Prop
  | here {node : Cell} : Leads node [] node
  | down {node half bottom : Cell} {bit : Bool} {path : List Bool} (fork : IsFork node)
    (held : node.reference bit.toNat = some half) (rest : Leads half path bottom) :
    Leads node (bit :: path) bottom

-- The descriptor behind the first bit of a leaf.
def leafDescr (leaf : Cell) : Except BlockError ShardDescr :=
  (do let _ ← Slice.loadBit; ShardDescr.load : Decode ShardDescr).value leaf.parse

variable {node leaf leaf' : Cell} {path path' bits : List Bool}

theorem IsLeaf.not_fork (h : IsLeaf node) : ¬IsFork node :=
  fun fork => Bool.false_ne_true (h.right.right.symm.trans fork.right.right)

-- No two leaves cover one id.
theorem Leads.unique (h : Leads node path leaf) (h' : Leads node path' leaf') (l : IsLeaf leaf)
    (l' : IsLeaf leaf') (covers : path <+: bits) (covers' : path' <+: bits) :
    path = path' ∧ leaf = leaf' := by
  induction h generalizing path' bits
  case here =>
    cases h'
    case here => exact ⟨rfl, rfl⟩
    case down fork _ _ => exact absurd fork l.not_fork
  case down bit path fork held rest hi =>
    cases h'
    case here => exact absurd fork l'.not_fork
    case down bit' path' _ held' rest' =>
      have ⟨tail, split⟩ := covers
      have ⟨tail', split'⟩ := covers'
      rw [← split, List.cons_append, List.cons_append, List.cons.injEq] at split'
      obtain ⟨rfl, split'⟩ := split'
      rw [held, Option.some_inj] at held'
      have ⟨same, sameLeaf⟩ := hi (held' ▸ rest') l ⟨tail, rfl⟩ ⟨tail', split'⟩
      exact ⟨congrArg _ same, sameLeaf⟩

end ShardTree

open ShardTree

variable {accountId : Hash} {passes depth : Nat} {node : Cell}

def Hash.toBits (h : Hash) : List Bool :=
  h.bytes.toBits

theorem loadBit_first (h : 0 < node.bits) :
    ∃ slice, Slice.loadBit.Ends node.parse (node.data.bitAt 0) slice := by
  have fits : 1 ≤ node.parse.remainingBits := h
  refine ⟨node.parse.past 1 fits, ends_bind.mpr ⟨0, _, Slice.advance_ends.mpr ⟨fits, rfl, rfl⟩, ?_⟩⟩
  exact ends_bind.mpr ⟨_, _, ends_get.mpr ⟨rfl, rfl⟩, ends_pure.mpr ⟨rfl, rfl⟩⟩

theorem findShardFrom_leaf (leaf : IsLeaf node) :
    findShardFrom accountId (passes + 1) depth node = (leafDescr node).map .found := by
  have ⟨ordinary, nonempty, clear⟩ := leaf
  have ⟨slice, read⟩ := loadBit_first nonempty
  have here : leafDescr node = ShardDescr.load.value slice :=
    value_bind_of_ends (ends_mapErr.mpr read)
  rw [findShardFrom, if_neg (by simp [ordinary]), call_eq_ok.mpr read, here, clear]
  show (ShardDescr.load.value slice >>= fun descr => pure (Lookup.found descr)) = _
  cases ShardDescr.load.value slice <;> rfl

theorem findShardFrom_fork (fork : IsFork node) (within : depth < 256) :
    findShardFrom accountId (passes + 1) depth node = (do
      let half ← okOr (node.reference (accountId.bytes.bitAt depth).toNat)
        (.malformed "shard tree fork without both halves")
      findShardFrom accountId passes (depth + 1) half) := by
  have ⟨ordinary, nonempty, set⟩ := fork
  have ⟨slice, read⟩ := loadBit_first nonempty
  have byte : accountId.bytes[depth / 8]? = .some (accountId.bytes.getD (depth / 8) 0) := by
    have short : depth / 8 < accountId.bytes.length := by
      rw [accountId.length_eq]
      omega
    rw [List.getD_eq_getElem?_getD, List.getElem?_eq_getElem short, Option.getD_some]
  rw [findShardFrom, if_neg (by simp [ordinary]), call_eq_ok.mpr read, set, byte]
  rfl

theorem Hash.drop_toBits (h : Hash) (within : depth < 256) :
    h.toBits.drop depth = h.bytes.bitAt depth :: h.toBits.drop (depth + 1) := by
  have short : depth < h.toBits.length := by
    rw [Hash.toBits, Bytes.toBits_length, h.length_eq]
    omega
  rw [List.drop_eq_getElem_cons short]
  simp [Hash.toBits, Bytes.toBits]

-- Where a walk that does not fail ends, and what it answers there.
theorem findShardFrom_eq_ok {answer : Lookup ShardDescr} (within : depth + passes ≤ 256)
    (h : findShardFrom accountId passes depth node = .ok answer) :
    ∃ path bottom, path <+: accountId.toBits.drop depth ∧ Leads node path bottom ∧
      (bottom.isExotic = true ∧ answer = .pruned ∨
        IsLeaf bottom ∧ ∃ descr, leafDescr bottom = .ok descr ∧ answer = .found descr) := by
  induction passes generalizing depth node
  case zero => cases h
  case succ passes hi =>
    cases exotic : node.isExotic
    case true =>
      rw [findShardFrom, if_pos exotic] at h
      exact ⟨[], node, ⟨_, rfl⟩, .here, .inl ⟨exotic, (pure_eq_ok.mp h).symm⟩⟩
    case false =>
      have nonempty : 0 < node.bits := by
        rw [findShardFrom, if_neg (by simp [exotic])] at h
        have ⟨(_, _), read, _⟩ := bind_eq_ok.mp h
        have ⟨_, _, moved, _⟩ := ends_bind.mp (call_eq_ok.mp (mapError_eq_ok.mp read))
        have ⟨fits, _, _⟩ := Slice.advance_ends.mp moved
        exact fits
      cases bit : node.data.bitAt 0
      case false =>
        have leaf : IsLeaf node := ⟨exotic, nonempty, bit⟩
        rw [findShardFrom_leaf leaf] at h
        have ⟨descr, read, found⟩ := map_eq_ok.mp h
        exact ⟨[], node, ⟨_, rfl⟩, .here, .inr ⟨leaf, descr, read, found.symm⟩⟩
      case true =>
        have fork : IsFork node := ⟨exotic, nonempty, bit⟩
        rw [findShardFrom_fork fork (by omega), okOr_bind_eq_ok] at h
        have ⟨half, held, h⟩ := h
        have ⟨path, bottom, ⟨tail, split⟩, leads, ends⟩ := hi (by omega) h
        refine ⟨accountId.bytes.bitAt depth :: path, bottom, ⟨tail, ?_⟩, .down fork held leads, ends⟩
        rw [Hash.drop_toBits _ (by omega), ← split, List.cons_append]

theorem findShardFrom_leads {leaf : Cell} {path : List Bool} (within : depth + passes ≤ 256)
    (short : path.length < passes) (covers : path <+: accountId.toBits.drop depth)
    (leads : Leads node path leaf) (isLeaf : IsLeaf leaf) :
    findShardFrom accountId passes depth node = (leafDescr leaf).map .found := by
  obtain ⟨passes, rfl⟩ := Nat.exists_eq_add_one_of_ne_zero (Nat.ne_zero_of_lt short)
  induction leads generalizing depth passes
  case here => exact findShardFrom_leaf isLeaf
  case down bit path fork held rest hi =>
    rw [Hash.drop_toBits _ (by omega)] at covers
    have ⟨tail, split⟩ := covers
    rw [List.cons_append, List.cons.injEq] at split
    rw [findShardFrom_fork fork (by omega), ← split.left, held]
    rw [List.length_cons] at short
    obtain ⟨passes, rfl⟩ := Nat.exists_eq_add_one_of_ne_zero (n := passes) (by omega)
    exact hi ⟨tail, split.right⟩ isLeaf passes (by omega) (by omega)

section Copies

open Slice

variable {R : Cell → Cell → Prop} {X : BlockError → Prop}

theorem lift_lockstep {α β : Type} {V : α → β → Prop} {x : Load α} {y : Load β}
    (h : Lockstep (fun _ => False) (Parallel R) V x y) :
    Lockstep X (Parallel R) V (x : Decode α) (y : Decode β) :=
  h.mapErr nofun

theorem lift_echoes {α β : Type} {V : α → β → Prop} {x : Except CellError α}
    {y : Except CellError β} (h : Echoes (fun _ => False) V x y) :
    Echoes X V (x : Except BlockError α) (y : Except BlockError β) :=
  h.mapError nofun

theorem ShardDescr.load_lockstep :
    Lockstep X (Parallel R) (· = ·) ShardDescr.load ShardDescr.load := by
  refine (lift_lockstep (loadUint_lockstep 4)).same fun tag => ?_
  refine (Lockstep.failIf Iff.rfl _).bind fun _ _ _ => ?_
  refine (lift_lockstep loadU32_lockstep).same fun seqNo => ?_
  refine (lift_lockstep (skipBits_lockstep _)).bind fun _ _ _ => ?_
  refine (lift_lockstep ?_).same fun rootHash => .pure rfl
  exact (loadBytes_lockstep 32).same fun _ => .pure rfl

theorem findShardFrom_echo (copies : Cell.Copies R) (passes depth : Nat) {node node' : Cell}
    (h : R node node') : Lookup.Echo X (· = ·) (findShardFrom accountId passes depth node)
      (findShardFrom accountId passes depth node') := by
  induction passes generalizing depth node node'
  case zero => exact .inr (.throw _)
  case succ passes hi =>
    rw [findShardFrom, findShardFrom]
    cases exotic : node.isExotic
    case true => exact .inl (if_pos rfl)
    case false =>
      have kept := (copies h).resolve_left (by simp [exotic])
      rw [if_neg (by simp), if_neg (by simp [← kept.isExotic, exotic])]
      refine .bind (lift_echoes (loadBit_lockstep kept.parse)) ?_
      rintro ⟨fork, slice⟩ ⟨_, slice'⟩ ⟨rfl, hs⟩
      refine .ite (fun _ => ?_) fun _ => ?_
      · refine .bind (ShardDescr.load_lockstep.value hs) fun descr _ e => e ▸ .found rfl
      · refine .bind .rfl fun byte _ e => e ▸ ?_
        exact .bind (.okOr (kept.reference _) _) fun _ _ h => hi _ h

theorem McStateExtra.shardFor_echo (copies : Cell.Copies R) {extra extra' : McStateExtra}
    (kept : extra.cell.Kept R extra'.cell) (workchain : Int32) :
    Lookup.Echo X (· = ·) (extra.shardFor workchain accountId)
      (extra'.shardFor workchain accountId) := by
  have shards : Lockstep X (Parallel R) (Option.Rel R) loadShards loadShards :=
    (lift_lockstep (skipBits_lockstep _)).bind fun _ _ _ => lift_lockstep loadMaybeRef_lockstep
  refine .bind (shards.value kept.parse) ?_
  rintro _ _ (h | _)
  case none => exact .absent
  case some root root' =>
    have dict : Echoes X (fun d d' : Dict => Option.Rel R d.root d'.root ∧ d.keyBits = d'.keyBits)
        (Dict.fromRoot (some root) workchainKeyBits : Except BlockError Dict)
        (Dict.fromRoot (some root') workchainKeyBits : Except BlockError Dict) := by
      refine lift_echoes ((Echoes.failIf Iff.rfl _).bind fun _ _ _ => .pure ⟨.some h, rfl⟩)
    refine .bind dict fun shards shards' ⟨roots, widths⟩ => ?_
    refine ((Dict.get_echo copies roots widths _).mapError (X := fun _ => False) nofun).chain rfl rfl rfl ?_
    intro entry entry' kept
    refine .bind (lift_echoes kept.slice) fun slice slice' hs => ?_
    exact .bind (lift_echoes (loadRef_lockstep.value hs)) fun _ _ h => findShardFrom_echo copies _ _ h

theorem ShardState.masterchainExtra_echo {state state' : ShardState} (copies : Cell.Copies R)
    (kept : state.cell.Kept R state'.cell) :
    Lookup.Echo X (fun extra extra' => extra.cell.Kept R extra'.cell) state.masterchainExtra
      state'.masterchainExtra := by
  have flag : Lockstep X (Parallel R) (· = ·) skipToCustom skipToCustom := by
    refine (lift_lockstep (skipBits_lockstep _)).bind fun _ _ _ => ?_
    refine (lift_lockstep (loadUint_lockstep 2)).same fun _ => ?_
    refine (Lockstep.failIf Iff.rfl _).bind fun _ _ _ => ?_
    refine (lift_lockstep (skipBits_lockstep _)).bind fun _ _ _ => ?_
    refine (lift_lockstep (skipBits_lockstep _)).bind fun _ _ _ => ?_
    exact lift_lockstep loadBit_lockstep
  refine .bind (flag.value kept.parse) fun custom _ e => e ▸ .ite (fun _ => .absent) fun _ => ?_
  refine .bind (.okOr (kept.reference _) _) fun cell cell' h => ?_
  cases exotic : cell.isExotic
  case true => exact .inl (if_pos rfl)
  case false =>
    have kept := (copies h).resolve_left (by simp [exotic])
    rw [if_neg (by simp), if_neg (by simp [← kept.isExotic, exotic])]
    refine .bind (W := fun x x' => x.cell.Kept R x'.cell) ?_ fun _ _ h => .found h
    refine .bind (lift_echoes ((loadUint_lockstep 16).value kept.parse)) fun tag _ e => e ▸ ?_
    exact (Echoes.failIf Iff.rfl _).bind fun _ _ _ => .pure kept

end Copies

-- What a masterchain state records for an account.
def recordedShard (cell : Cell) (workchain : Int32) (accountId : Hash) :
    Except BlockError (Lookup ShardDescr) := do
  let state ← ShardState.fromCell cell
  match ← state.masterchainExtra with
  | .absent      => return .absent
  | .pruned      => return .pruned
  | .found extra => extra.shardFor workchain accountId

-- A pruned branch opens with a clear bit, so it does not pass for a state.
theorem fromCell_pruned {c : Cell} (tag : c.data.head? = some 0x01) (state : ShardState) :
    ShardState.fromCell c ≠ .ok state := by
  intro h
  have ⟨number, loaded, rest⟩ := bind_eq_ok.mp h
  have ⟨right, _⟩ := failIf_bind_eq_ok.mp rest
  have ⟨_, run⟩ := value_eq_ok.mp (mapError_eq_ok.mp loaded)
  have ⟨value, _, read, run⟩ := ends_bind.mp run
  obtain ⟨rfl, _⟩ := ends_pure.mp run
  have top : (value % 2 ^ 32).testBit 31 = true := by
    have same : value % 2 ^ 32 = shardStateTag.toNat := congrArg UInt32.toNat (not_not.mp right)
    rw [same]
    decide
  rw [Nat.testBit_mod_two_pow, Slice.loadUint_ends read, Slice.uintAt_testBit] at top
  have clear : c.data.bitAt 0 = false := by
    rw [Bytes.bitAt, List.getD_eq_getElem?_getD, ← List.head?_eq_getElem?, tag]
    decide
  rw [Bool.and_eq_true, Bool.and_eq_true] at top
  exact Bool.false_ne_true (clear.symm.trans top.right.right)

theorem recordedShard_of_cut {c full : Cell} (cut : c.Cut full) {workchain : Int32}
    {descr : ShardDescr} (h : recordedShard c workchain accountId = .ok (.found descr)) :
    recordedShard full workchain accountId = .ok (.found descr) := by
  cases cut
  case pruned tag =>
    have ⟨state, opened, _⟩ := bind_eq_ok.mp h
    exact absurd opened (fromCell_pruned tag state)
  case kept cellType bits data refs =>
    have kept : c.Kept Cell.Cut full := ⟨cellType, bits, data, refs⟩
    have echo : Lookup.Echo (fun _ => False) (· = ·) (recordedShard c workchain accountId)
        (recordedShard full workchain accountId) := by
      refine .bind (W := fun s s' => s.cell.Kept Cell.Cut s'.cell) ?_ fun state state' h => ?_
      · refine .bind (lift_echoes (Slice.loadU32_lockstep.value kept.parse)) fun tag _ e => e ▸ ?_
        exact (Echoes.failIf Iff.rfl _).bind fun _ _ _ => .pure kept
      · refine (ShardState.masterchainExtra_echo Cell.cut_copies h).chain rfl rfl rfl ?_
        exact fun _ _ h => McStateExtra.shardFor_echo Cell.cut_copies h _
    have ⟨answer, ok, same⟩ := (echo.resolve_left (by simp [h])).of_ok h
    cases same
    case found related => exact related ▸ ok

theorem findShard_covers (root : Cell) (accountId : Hash) :
    (∀ descr, findShard root accountId = .ok (.found descr) →
      ∃ path leaf, path <+: accountId.toBits ∧ Leads root path leaf ∧ IsLeaf leaf ∧
        leafDescr leaf = .ok descr ∧
        ∀ path' leaf', path' <+: accountId.toBits → Leads root path' leaf' → IsLeaf leaf' →
          path' = path ∧ leaf' = leaf) ∧
    (∀ path leaf, path <+: accountId.toBits → Leads root path leaf → IsLeaf leaf →
      path.length ≤ maxSplitDepth →
        findShard root accountId = (leafDescr leaf).map .found) ∧
    (findShard root accountId = .ok .pruned →
      ∃ path node, path <+: accountId.toBits ∧ Leads root path node ∧ node.isExotic = true) ∧
    ∀ (state copy copy' : Cell) (workchain : Int32) descr descr', copy.Cut state → copy'.Cut state →
      recordedShard copy workchain accountId = .ok (.found descr) →
      recordedShard copy' workchain accountId = .ok (.found descr') → descr = descr' := by
  have within : 0 + (maxSplitDepth + 1) ≤ 256 := by decide
  refine ⟨fun descr h => ?_, fun path leaf covers leads isLeaf short => ?_, fun h => ?_, ?_⟩
  · have ⟨path, leaf, covers, leads, ends⟩ := findShardFrom_eq_ok within h
    obtain ⟨_, pruned⟩ | ⟨isLeaf, _, read, found⟩ := ends
    · cases pruned
    · cases found
      refine ⟨path, leaf, covers, leads, isLeaf, read, fun path' leaf' covers' leads' isLeaf' => ?_⟩
      exact leads'.unique leads isLeaf' isLeaf covers' covers
  · exact findShardFrom_leads within (Nat.lt_succ_of_le short) covers leads isLeaf
  · have ⟨path, node, covers, leads, ends⟩ := findShardFrom_eq_ok within h
    obtain ⟨exotic, _⟩ | ⟨_, _, _, found⟩ := ends
    · exact ⟨path, node, covers, leads, exotic⟩
    · cases found
  · intro state copy copy' workchain descr descr' cut cut' h h'
    have same := (recordedShard_of_cut cut h).symm.trans (recordedShard_of_cut cut' h')
    cases same
    rfl

section TwoHalves

def cellOf (data : Bytes) (bits : Nat) (refs : List Cell) (cellType : CellType) : Cell :=
  ⟨data, bits, refs, cellType, ⟨0, .zero, 0, none⟩⟩

-- The half with a clear first bit is a shard at height seven, the other half is withheld.
def shardLeaf : Cell :=
  cellOf (.be 57 0x500000003800000000000000000000000000000000000000000000000000000000000000000000000000000000000000000000000000055e6c) 453 [] .ordinary

def shardFork : Cell :=
  cellOf [0xc0] 1 [shardLeaf, cellOf [0x01] 8 [] .prunedBranch] .ordinary

theorem findShard_shardFork :
    findShard shardFork .zero = .ok (.found ⟨7, .ofNat 0xabcd⟩) := by
  decide +kernel

theorem findShard_covers_shardFork : ∃ path leaf, path <+: Hash.zero.toBits ∧
    Leads shardFork path leaf ∧ IsLeaf leaf ∧ leafDescr leaf = .ok ⟨7, .ofNat 0xabcd⟩ := by
  have ⟨path, leaf, covers, leads, isLeaf, read, _⟩ :=
    (findShard_covers shardFork .zero).left _ findShard_shardFork
  exact ⟨path, leaf, covers, leads, isLeaf, read⟩

end TwoHalves

end TonNet
