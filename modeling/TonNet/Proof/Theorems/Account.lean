import TonNet.Cell.Theorems.Produced
import TonNet.Proof.Theorems.Covered

-- Two reads of one account under one trusted block return the same account.

namespace TonNet

open Fallible

section

variable [Sha256]

def AccountRead.strings (read : AccountRead) : List Bytes :=
  bagStrings read.shardProof ++ bagStrings read.proof ++ bagStrings read.state

variable {strings : List Bytes}

theorem verifyShardBlock_agree (cf : CollisionFree strings) {proof proof' : Bytes}
    (hs : bagStrings proof ⊆ strings) (hs' : bagStrings proof' ⊆ strings) (trusted : Hash)
    (workchain : Int32) (accountId : Hash) :
    Agree (· = ·) (verifyShardBlock proof trusted workchain accountId)
      (verifyShardBlock proof' trusted workchain accountId) := by
  refine (lift_agree (parseBoc_agree hs hs')).bind fun _ _ ⟨p, p'⟩ => ?_
  refine (verifyBlockState_agree cf p p').same fun stateHash => ?_
  refine (verifyShardState_agree p p').bind fun _ _ s => ?_
  refine (ShardState.masterchainExtra_agree cf s).bind ?_
  rintro _ _ (_ | _ | _ | s)
  case left => exact .throw_left
  case right => exact .throw_right
  case absent => exact .throw_left
  refine (McStateExtra.shardFor_agree cf s workchain accountId).bind ?_
  rintro _ _ (_ | _ | _ | rfl)
  case left => exact .throw_left
  case right => exact .throw_right
  case absent => exact .throw_left
  case found => exact .rfl

structure Bound (strings : List Bytes) (entry : ShardAccountEntry) (root : Cell) : Prop where
  wf   : root.WellFormed
  sub  : root.hashed ⊆ strings
  mask : root.levelMask = 0
  hash : root.hash = entry.accountHash

theorem bindAccount_bound {state : Bytes} {entry : ShardAccountEntry} {account : Account}
    (hs : bagStrings state ⊆ strings) (h : bindAccount state entry = .ok account) :
    ∃ root, Bound strings entry root ∧ Account.fromCell root = .ok account := by
  simp only [bindAccount, bind_eq_ok, failIf_eq_ok, okOr_eq_ok, not_or, not_not, ne_eq] at h
  obtain ⟨_, _, roots, parsed, root, first, _, ⟨_, mask⟩, _, hash, read⟩ := h
  have p := parsed_of_parseBoc (mapError_eq_ok.mp parsed) hs
  have mem := List.mem_of_head? first
  exact ⟨root, ⟨p.wf root mem, p.sub root mem, mask, hash⟩, read⟩

-- Nothing is pruned anywhere below a root whose mask is empty, so its hash is its identity.
theorem Bound.unique (cf : CollisionFree strings) {entry entry' : ShardAccountEntry}
    {root root' : Cell} (h : Bound strings entry root) (h' : Bound strings entry' root')
    (he : entry.accountHash = entry'.accountHash) : root = root' := by
  apply Cell.eq_of_reprHash_eq cf h.wf h'.wf h.sub h'.sub
  have own {root : Cell} (hm : root.levelMask = 0) : root.reprHash = root.hash := by
    rw [Cell.reprHash, Cell.hash, Cell.level, hm]
    rfl
  rw [own h.mask, own h'.mask, h.hash, h'.hash, he]

theorem bindAccount_agree (cf : CollisionFree strings) {state state' : Bytes}
    (hs : bagStrings state ⊆ strings) (hs' : bagStrings state' ⊆ strings)
    {entry entry' : ShardAccountEntry} (he : entry.accountHash = entry'.accountHash) :
    Agree (· = ·) (bindAccount state entry) (bindAccount state' entry') := by
  intro _ _ h h'
  have ⟨root, bound, read⟩ := bindAccount_bound hs h
  have ⟨root', bound', read'⟩ := bindAccount_bound hs' h'
  rw [bound.unique cf bound' he] at read
  exact Except.ok.inj (read.symm.trans read')

theorem accountBlock_agree (cf : CollisionFree strings) {read read' : AccountRead}
    (hs : read.strings ⊆ strings) (hs' : read'.strings ⊆ strings)
    (ht : read.trustedBlockHash = read'.trustedBlockHash) (hw : read.workchain = read'.workchain)
    (ha : read.accountId = read'.accountId) :
    Agree (· = ·) (accountBlock read) (accountBlock read') := by
  rw [accountBlock, accountBlock, ht, hw, ha]
  refine .ite (fun _ => .rfl) fun _ => verifyShardBlock_agree cf ?_ ?_ _ _ _
  · exact fun _ h => hs (by simp [AccountRead.strings, h])
  · exact fun _ h => hs' (by simp [AccountRead.strings, h])

theorem verifyAccount_agree (cf : CollisionFree strings) {read read' : AccountRead}
    (hs : read.strings ⊆ strings) (hs' : read'.strings ⊆ strings)
    (ht : read.trustedBlockHash = read'.trustedBlockHash) (hw : read.workchain = read'.workchain)
    (ha : read.accountId = read'.accountId) :
    Agree (· = ·) (verifyAccount read) (verifyAccount read') := by
  have part {read : AccountRead} (hs : read.strings ⊆ strings) :
      bagStrings read.proof ⊆ strings ∧ bagStrings read.state ⊆ strings :=
    ⟨fun _ h => hs (by simp [AccountRead.strings, h]), fun _ h => hs (by simp [AccountRead.strings, h])⟩
  refine (accountBlock_agree cf hs hs' ht hw ha).same fun blockHash => ?_
  refine (lift_agree (parseBoc_agree (part hs).left (part hs').left)).bind fun _ _ ⟨p, p'⟩ => ?_
  refine (verifyBlockState_agree cf p p').same fun stateHash => ?_
  refine (verifyShardState_agree p p').bind fun _ _ s => ?_
  rw [ha]
  refine (ShardState.account_agree cf s read'.accountId).bind ?_
  rintro _ _ (_ | _ | _ | he)
  case left => exact .throw_left
  case right => exact .throw_right
  case absent =>
    have answer {state : Bytes} {account : Account} (h : (if state.isEmpty then
        return Account.nonexistent else throw .notBound : Except BlockError Account) = .ok account) :
        Account.nonexistent = account := by
      split at h
      case isTrue => exact pure_eq_ok.mp h
      case isFalse => exact absurd h throw_ne_ok
    exact fun _ _ h h' => (answer h).symm.trans (answer h')
  case found => exact bindAccount_agree cf (part hs).right (part hs').right he

theorem verifyAccount_unique {read read' : AccountRead} {account account' : Account}
    (cf : CollisionFree (read.strings ++ read'.strings))
    (trusted : read.trustedBlockHash = read'.trustedBlockHash)
    (workchain : read.workchain = read'.workchain) (accountId : read.accountId = read'.accountId)
    (h : verifyAccount read = .ok account) (h' : verifyAccount read' = .ok account') :
    account = account' ∧ (account.status = .nonexistent ↔ account'.status = .nonexistent) := by
  have same : account = account' :=
    verifyAccount_agree cf (List.subset_append_left ..) (List.subset_append_right ..) trusted
      workchain accountId h h'
  exact ⟨same, same ▸ Iff.rfl⟩

end

section Withheld

def prunedProofBag : Bytes :=
  .be 44 0xb5ee9c7201020c0200015000060946035ae5d8b4b8f1411a3b64290af451c2fe20dce8a5a712aff3597b7c32 ++
  .be 44 0x65f1e064000501230a11ef55aa000504022a8a0496a296d224f285c67bee93c30f8a309157f0daa35dc5b87e ++
  .be 44 0x410b78630a09cfc782dba62479b8ffffa13db23bf9208173f5a3f6dbb3e0b294417699e3d7c059f600000003 ++
  .be 44 0x04034848010282dba62479b8ffffa13db23bf9208173f5a3f6dbb3e0b294417699e3d7c059f6000300000002 ++
  .be 44 0xcd09460382dba62479b8ffffa13db23bf9208173f5a3f6dbb3e0b294417699e3d7c059f600030722089023af ++
  .be 44 0xe20b082101c0092155d000000000000000000000000000000000000000000000000000000000000000000000 ++
  .be 44 0x000000000000001e0a28480101ff4eea194ed740de90efb766cdd162bc632a1a91fc088361022c4d5fef76bc ++
  .be 41 0x4e00002848010157c2a1a13baa2762109ed68be0c396f2303ce17e3dde7917d0e74b4072b1dbc70000

def fullerProofBag : Bytes :=
  .be 44 0xb5ee9c7201020c0200012d00060946035ae5d8b4b8f1411a3b64290af451c2fe20dce8a5a712aff3597b7c32 ++
  .be 44 0x65f1e064000501230a11ef55aa000504022a8a0496a296d224f285c67bee93c30f8a309157f0daa35dc5b87e ++
  .be 44 0x410b78630a09cfc782dba62479b8ffffa13db23bf9208173f5a3f6dbb3e0b294417699e3d7c059f600000003 ++
  .be 44 0x04034848010282dba62479b8ffffa13db23bf9208173f5a3f6dbb3e0b294417699e3d7c059f6000300000002 ++
  .be 44 0xcd09460382dba62479b8ffffa13db23bf9208173f5a3f6dbb3e0b294417699e3d7c059f600030722089023af ++
  .be 44 0xe20b082101c0092155d000000000000000000000000000000000000000000000000000000000000000000000 ++
  .be 44 0x000000000000001e0a28480101ff4eea194ed740de90efb766cdd162bc632a1a91fc088361022c4d5fef76bc ++
  .be 6 0x4e00000002ab

def stateBag : Bytes :=
  .be 44 0xb5ee9c72010101010033000061c0000000000000000000000000000000000000000000000000000000000000 ++
  .be 18 0x0000000000000000000000000000001c4144

attribute [local instance] Sha256.standard

def prunedRead : AccountRead where
  trustedBlockHash := .ofNat 0x5ae5d8b4b8f1411a3b64290af451c2fe20dce8a5a712aff3597b7c3265f1e064
  workchain        := masterchain
  accountId        := .zero
  shardProof       := []
  proof            := prunedProofBag
  state            := stateBag

def fullerRead : AccountRead :=
  { prunedRead with proof := fullerProofBag }

-- The two proofs withhold different cells of one state.
theorem verifyAccount_unique_withheld :
    ∃ account, verifyAccount prunedRead = .ok account ∧ verifyAccount fullerRead = .ok account ∧
      account.status = .uninit ∧ prunedRead.proof ≠ fullerRead.proof := by
  have seen : ((verifyAccount prunedRead).toOption.bind fun account =>
      (verifyAccount fullerRead).toOption.map fun _ => account.status matches .uninit) = some true := by
    decide +kernel
  simp only [Option.bind_eq_some_iff, Option.map_eq_some_iff, toOption_eq_some] at seen
  have ⟨account, h, account', h', status⟩ := seen
  have cf : CollisionFree (prunedRead.strings ++ fullerRead.strings) :=
    collisionFree_of_distinct (by decide +kernel)
  have ⟨same, _⟩ := verifyAccount_unique cf rfl rfl rfl h h'
  refine ⟨account, h, same ▸ h', ?_, by decide +kernel⟩
  split at status
  case h_1 uninit => exact uninit
  case h_2 => exact absurd status Bool.false_ne_true

end Withheld

end TonNet
