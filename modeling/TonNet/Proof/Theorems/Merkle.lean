import TonNet.Cell.Theorems.Produced
import TonNet.Cell.Theorems.StandIn
import TonNet.Proof.Merkle

-- What a Merkle proof shows of the tree it stands for, and that a proof made here is accepted here.

namespace TonNet

open Fallible Method

section

variable [Sha256]

-- A cell that answers for another at `level`, where the other hides nothing.
structure Shadow (strings : List Bytes) (c t : Cell) (level : Nat) : Prop where
  wf     : c.WellFormed
  wf'    : t.WellFormed
  sub    : c.hashed ⊆ strings
  sub'   : t.hashed ⊆ strings
  hash   : c.hashAt level = t.hashAt level
  whole  : appliedMask t.levelMask level = t.levelMask

namespace Shadow

variable {strings : List Bytes} {c t c' t' : Cell} {level : Nat} {path : List Nat}

theorem shows (s : Shadow strings c t level) (cf : CollisionFree strings)
    (np : c.cellType ≠ .prunedBranch) : c.Matches t level :=
  Cell.matches_of_hashAt_eq cf s.wf s.wf' s.sub s.sub' (fun ht => absurd ht np) (fun _ => s.whole)
    s.hash

-- One step down: a Merkle cell moves what is shown one level up.
theorem refs (s : Shadow strings c t level) (cf : CollisionFree strings)
    (np : c.cellType ≠ .prunedBranch) :
    List.Forall₂ (fun r r' => Shadow strings r r' (level + c.cellType.childLevelShift) ∧
      r.depthAt (level + c.cellType.childLevelShift) =
        r'.depthAt (level + c.cellType.childLevelShift)) c.refs t.refs := by
  have m := s.shows cf np
  refine m.refs.imp_mem fun r hr r' hr' ⟨hash, depth⟩ => ⟨?_, depth⟩
  constructor
  case wf => exact s.wf.refs r hr
  case wf' => exact s.wf'.refs r' hr'
  case sub => exact fun _ hb => s.sub (Cell.hashed_subset_of_mem hr hb)
  case sub' => exact fun _ hb => s.sub' (Cell.hashed_subset_of_mem hr' hb)
  case hash => exact hash
  case whole =>
    have := s.wf'.appliedMask_ref hr' (s.whole.trans (appliedMask_of_three_le le_rfl).symm)
    rwa [appliedMask_of_three_le (Nat.le_add_right ..), ← m.cellType] at this

theorem at_path (s : Shadow strings c t level) (cf : CollisionFree strings)
    (hp : c.at? path = some c') :
    ∃ t', t.at? path = some t' ∧ Shadow strings c' t' (level + c.merklesOn path) ∧
      (path ≠ [] → c'.depthAt (level + c.merklesOn path) = t'.depthAt (level + c.merklesOn path)) := by
  induction path generalizing c t level
  case nil =>
    obtain rfl := Option.some_inj.mp hp
    exact ⟨t, rfl, s, fun ne => absurd rfl ne⟩
  case cons i path hi =>
    obtain ⟨r, hr, hp⟩ := Option.bind_eq_some_iff.mp hp
    have np := s.wf.sound.not_pruned_of_reference hr
    obtain ⟨r', hr', s', depth⟩ := (s.refs cf np).exists_right hr
    obtain ⟨t', ht', s'', deeper⟩ := hi s' hp
    have merkles : level + c.merklesOn (i :: path) =
        level + c.cellType.childLevelShift + r.merklesOn path := by
      rw [Cell.merklesOn, hr, Option.elim_some, Nat.add_assoc]
    refine ⟨t', Option.bind_eq_some_iff.mpr ⟨r', hr', ht'⟩, merkles ▸ s'', fun _ => ?_⟩
    rw [merkles]
    cases path
    case nil =>
      obtain rfl := Option.some_inj.mp hp
      obtain rfl := Option.some_inj.mp ht'
      exact depth
    case cons => exact deeper (List.cons_ne_nil _ _)

-- A path of the tree leaves the proof only through a pruned branch.
theorem path_or_pruned (s : Shadow strings c t level) (cf : CollisionFree strings)
    (hp : t.at? path = some t') :
    (∃ c', c.at? path = some c') ∨
      ∃ front b, front <+: path ∧ c.at? front = some b ∧ b.cellType = .prunedBranch := by
  induction path generalizing c t level
  case nil => exact .inl ⟨c, rfl⟩
  case cons i path hi =>
    have ⟨r', hr', hp⟩ := Option.bind_eq_some_iff.mp hp
    by_cases np : c.cellType = .prunedBranch
    case pos => exact .inr ⟨[], c, List.nil_prefix, rfl, np⟩
    case neg =>
      have ⟨r, hr, s', _⟩ := (s.refs cf np).exists_left hr'
      cases hi s' hp
      case inl found =>
        have ⟨c', hc'⟩ := found
        exact .inl ⟨c', Option.bind_eq_some_iff.mpr ⟨r, hr, hc'⟩⟩
      case inr found =>
        have ⟨front, b, hf, hb, kind⟩ := found
        refine .inr ⟨i :: front, b, (List.prefix_cons_inj i).mpr hf, ?_, kind⟩
        exact Option.bind_eq_some_iff.mpr ⟨r, hr, hb⟩

end Shadow

theorem shows_tree_of_hash_eq {tree c : Cell} (h : tree.WellFormed) (hz : tree.levelMask = 0)
    (hc : Produced c) (cf : CollisionFree (c.hashed ++ tree.hashed)) (heq : c.hash = tree.hash) :
    (∀ path d, c.at? path = some d → ∃ t, tree.at? path = some t ∧
      (d.cellType ≠ .prunedBranch → d.cellType = t.cellType ∧ d.bits = t.bits ∧ d.data = t.data ∧
        d.refs.length = t.refs.length) ∧
      (d.cellType = .prunedBranch → c.merklesOn path = 0 →
        d.hash = t.hash ∧ (path ≠ [] → d.depth = t.depth))) ∧
    (∀ path t, tree.at? path = some t → (∃ d, c.at? path = some d) ∨
      ∃ front b, front <+: path ∧ c.at? front = some b ∧ b.cellType = .prunedBranch) ∧
    ∀ proof content, Produced proof → verifyMerkleProof proof tree.hash = .ok content →
      Produced content ∧ content.hash = tree.hash := by
  have s : Shadow (c.hashed ++ tree.hashed) c tree 0 :=
    ⟨hc.wellFormed, h, List.subset_append_left .., List.subset_append_right .., heq, by simp [hz]⟩
  refine ⟨fun path d hd => ?_, fun path t ht => s.path_or_pruned cf ht, fun proof content hp hv => ?_⟩
  · have ⟨t, ht, s', depth⟩ := s.at_path cf hd
    refine ⟨t, ht, fun np => ?_, fun _ hm => ?_⟩
    · have m := s'.shows cf np
      exact ⟨m.cellType, m.bits, m.data, m.refs.length_eq⟩
    · have hash := s'.hash
      rw [hm] at hash depth
      exact ⟨hash, depth⟩
  · have ⟨_, _, first, hash, _⟩ := verifyMerkleProof_eq_ok.mp hv
    exact ⟨.reference hp (List.mem_of_getElem? first), hash⟩

-- A proof made over an ordinary tree is accepted for that tree and opens to it.
theorem createProof_verifies {content : Cell} (h : content.WellFormed)
    (ho : content.cellType = .ordinary) :
    ∃ proof, createProof content = .ok proof ∧
      verifyMerkleProof proof content.hash = .ok content ∧ virtualize proof = .ok content := by
  have single : CellType.merkleProof.expectedRefs = some [content].length := rfl
  have ⟨proof, hp, _, _, identity, shape⟩ := coveringCell_ok rfl rfl single
    (by simp [Cell.isExotic, ho]) (by simpa using h)
  have data : proof.data = [0x03] ++ (content.hash.bytes ++ depthBytes content.depth) := by
    rw [shape, coveringBody, List.flatMap_singleton, List.flatMap_singleton, List.append_assoc]
  have hash : (proof.data.drop 1).take 32 = content.hash.bytes := by
    rw [data]
    exact List.take_left' content.hash.length_eq
  have depth : (proof.data.drop 33).take 2 = depthBytes content.depth := by
    rw [data, ← List.append_assoc, List.drop_left' (by simp [Hash.length_eq]),
      List.take_of_length_le (depthBytes_length _).le]
  have kind : proof.cellType = .merkleProof := by rw [shape]
  have first : proof.reference 0 = some content := by
    rw [shape]
    rfl
  refine ⟨proof, hp, ?_, ?_⟩
  · exact verifyMerkleProof_eq_ok.mpr ⟨kind, hash, first, rfl, depthOf?_eq_some.mpr depth⟩
  · exact virtualize_eq_ok.mpr ⟨kind, first, hash, depthOf?_eq_some.mpr depth⟩

open UsageTree in
theorem prune_retains_kept {root target : Cell} {marks : List Cell} (h : root.WellFormed)
    (hm : ∀ m ∈ marks, m.WellFormed) (ht : target.WellFormed)
    (cf : CollisionFree ((root :: target :: marks).flatMap Cell.hashed)) :
    ((∀ path c, root.KeptAt (· ∈ root :: marks) path c → c.cellType = .ordinary) →
      ∃ p proof, (marking root marks).prune = .ok p ∧ Skeleton (· ∈ root :: marks) root p ∧
        p.hash = root.hash ∧ p.depth = root.depth ∧ (marking root marks).prove = .ok proof ∧
        verifyMerkleProof proof root.hash = .ok p ∧ virtualize proof = .ok p) ∧
    (((marking root marks).markPath target).1 = true ↔ target ∈ root.subcells) ∧
    (((marking root marks).markPath target).1 = true → ∃ path,
      root.KeptAt (fun c => ((marking root marks).markPath target).2.touched c = true) path
        target) := by
  have inside {c : Cell} (hc : c ∈ root :: target :: marks) :
      c.hashed ⊆ (root :: target :: marks).flatMap Cell.hashed :=
    fun _ hb => List.mem_flatMap.mpr ⟨c, hc, hb⟩
  have below {c : Cell} (hc : c ∈ root.subcells) :
      c.hashed ⊆ (root :: target :: marks).flatMap Cell.hashed :=
    List.Subset.trans (Cell.hashed_subset_of_mem_subcells hc) (inside List.mem_cons_self)
  have marked : ∀ c ∈ root.subcells, c.reprHash ∈ (marking root marks).used ↔ c ∈ root :: marks := by
    intro c hc
    rw [mem_used_marking]
    refine ⟨fun ⟨m, hm', heq⟩ => ?_, fun hc => ⟨c, hc, rfl⟩⟩
    have wf : m.WellFormed := (List.mem_cons.mp hm').elim (· ▸ h) (hm m)
    have here : m ∈ root :: target :: marks := by
      simp only [List.mem_cons] at hm' ⊢
      exact hm'.imp_right .inr
    exact Cell.eq_of_reprHash_eq cf wf (h.subcells c hc) (inside here) (below hc) heq ▸ hm'
  have root_eq : (marking root marks).root = root := root_foldl_mark ..
  have traced := markPathTo_traced target.reprHash root (marking root marks).used
  have found : ((marking root marks).markPath target).1 = true ↔
      ∃ d ∈ root.subcells, d.reprHash = target.reprHash := by
    rw [markPath, root_eq]
    simpa using traced.found
  have same {d : Cell} (hd : d ∈ root.subcells) (heq : d.reprHash = target.reprHash) : d = target :=
    Cell.eq_of_reprHash_eq cf (h.subcells d hd) ht (below hd) (inside (by simp)) heq
  refine ⟨fun ordinary => ?_, ?_, ?_⟩
  · have here : root.reprHash ∈ (marking root marks).used :=
      (marked root root.self_mem_subcells).mpr List.mem_cons_self
    have keepable : Keepable (marking root marks).used root :=
      keepable_of_keptAt fun path d hd => ordinary path d (hd.imp fun c hc => (marked c hc).mp)
    have ⟨p, hp, wf, pruning, alike⟩ := pruneCell_ok h keepable
    have skeleton := (pruning.skeleton here).congr marked
    have ⟨_, at_root, kind, _⟩ := skeleton.kept [] root ⟨List.mem_cons_self, rfl⟩
    obtain rfl := Option.some_inj.mp at_root
    have hash : p.hash = root.hash := (alike.hash 0 le_rfl).symm
    have ⟨proof, create, verified, opened⟩ := createProof_verifies wf kind
    have prune : (marking root marks).prune = .ok p := by
      rw [UsageTree.prune, root_eq]
      exact hp
    refine ⟨p, proof, prune, skeleton, hash, (alike.depth 0 le_rfl).symm, ?_, hash ▸ verified, opened⟩
    rw [prove, prune]
    exact create
  · exact found.trans ⟨fun ⟨d, hd, heq⟩ => same hd heq ▸ hd, fun hd => ⟨target, hd, rfl⟩⟩
  · intro hfound
    have run : (markPathTo target.reprHash root (marking root marks).used).1 = true := by
      rw [markPath, root_eq] at hfound
      exact hfound
    have ⟨i, c, path, d, hc, way, heq⟩ := traced.way run
    obtain rfl := List.mem_singleton.mp (List.mem_of_getElem? hc)
    have hd := Cell.mem_subcells_iff_at?.mpr ⟨path, way.at?⟩
    obtain rfl := same hd heq
    refine ⟨path, way.imp fun x _ hx => ?_⟩
    rw [touched, markPath, root_eq]
    exact decide_eq_true hx

end

section ShallowProof

-- A proof whose content is one branch with the hash of the empty cell and a depth of five. Nothing
-- ties the depth it claims to the tree the hash names.
def shallowProofBag : Bytes :=
  .be 44 0xb5ee9c7201010201004c0009460396a296d224f285c67bee93c30f8a309157f0daa35dc5b87e410b78630a09 ++
  .be 43 0xcfc70005012848010196a296d224f285c67bee93c30f8a309157f0daa35dc5b87e410b78630a09cfc70005

attribute [local instance] Sha256.standard

theorem pruned_root_depth_differs :
    ∃ tree proof c, Builder.new.build = .ok tree ∧ soleRoot shallowProofBag = some proof ∧
      verifyMerkleProof proof tree.hash = .ok c ∧ tree.WellFormed ∧ tree.levelMask = 0 ∧
      Produced c ∧ CollisionFree (c.hashed ++ tree.hashed) ∧ c.hash = tree.hash ∧
      c.at? [] = some c ∧ tree.at? [] = some tree ∧ c.cellType = .prunedBranch ∧
      c.merklesOn [] = 0 ∧ c.depth ≠ tree.depth := by
  have seen : (Builder.new.build.toOption.bind fun tree => (soleRoot shallowProofBag).bind fun proof =>
      (verifyMerkleProof proof tree.hash).toOption.map fun c =>
        (tree.levelMask, decide (CollisionFree (c.hashed ++ tree.hashed)), c.cellType, c.depth,
          tree.depth)) = some (0, true, .prunedBranch, 5, 0) := by
    decide +kernel
  simp only [Option.bind_eq_some_iff, Option.map_eq_some_iff, toOption_eq_some, Prod.mk.injEq,
    decide_eq_true_eq] at seen
  have ⟨tree, built, proof, parsed, c, verified, mask, cf, kind, depth, depth'⟩ := seen
  have ⟨_, _, first, hash, _⟩ := verifyMerkleProof_eq_ok.mp verified
  have wf : Produced tree := .built (by simp) built
  have produced : Produced c := .reference (soleRoot_produced parsed) (List.mem_of_getElem? first)
  refine ⟨tree, proof, c, built, parsed, verified, wf.wellFormed, mask, produced, cf, hash, rfl, rfl,
    kind, rfl, ?_⟩
  rw [depth, depth']
  decide

end ShallowProof

section PrunedLeaf

-- The proof of a cell over one leaf that withholds the leaf.
def leafProofBag : Bytes :=
  .be 44 0xb5ee9c7201010301005000094603ce045fb3dbdb99b6a57929ffe26235b7a7945046dc4dc596db945922f27b ++
  .be 44 0x7aae0001012102ab022848010196a296d224f285c67bee93c30f8a309157f0daa35dc5b87e410b78630a09cf ++
  .be 3 0xc70000

attribute [local instance] Sha256.standard

theorem shows_tree_of_hash_eq_leafTree :
    ∃ tree proof c, soleRoot leafTreeBag = some tree ∧ soleRoot leafProofBag = some proof ∧
      verifyMerkleProof proof tree.hash = .ok c ∧
      ∃ d t, c.at? [0] = some d ∧ d.cellType = .prunedBranch ∧ tree.at? [0] = some t ∧
        d.hash = t.hash ∧ d.depth = t.depth := by
  have seen : ((soleRoot leafTreeBag).bind fun tree => (soleRoot leafProofBag).bind fun proof =>
      (verifyMerkleProof proof tree.hash).toOption.bind fun c => (c.at? [0]).map fun d =>
        (tree.levelMask, decide (CollisionFree (c.hashed ++ tree.hashed)), d.cellType,
          c.merklesOn [0])) = some (0, true, .prunedBranch, 0) := by
    decide +kernel
  simp only [Option.bind_eq_some_iff, Option.map_eq_some_iff, toOption_eq_some, Prod.mk.injEq,
    decide_eq_true_eq] at seen
  have ⟨tree, parsed, proof, parsed', c, verified, d, inside, mask, cf, kind, merkles⟩ := seen
  have ⟨_, _, first, hash, _⟩ := verifyMerkleProof_eq_ok.mp verified
  have produced : Produced c := .reference (soleRoot_produced parsed') (List.mem_of_getElem? first)
  have ⟨shows, _⟩ := shows_tree_of_hash_eq (soleRoot_wellFormed parsed) mask produced cf hash
  have ⟨t, ht, _, branch⟩ := shows [0] d inside
  have ⟨hash, depth⟩ := branch kind merkles
  exact ⟨tree, proof, c, parsed, parsed', verified, d, t, inside, kind, ht, hash, depth nofun⟩

end PrunedLeaf

section Fork

-- A cell over two leaves, of which the first gets marked.
def forkBag : Bytes :=
  .be 21 0xb5ee9c7201010301000a000202ab02010002cd0000

attribute [local instance] Sha256.standard

open UsageTree in
theorem prune_retains_kept_fork :
    ∃ root leaf, soleRoot forkBag = some root ∧ root.reference 0 = some leaf ∧
      ∃ p proof, (marking root [leaf]).prune = .ok p ∧ Skeleton (· ∈ [root, leaf]) root p ∧
        p.hash = root.hash ∧ p.depth = root.depth ∧ (marking root [leaf]).prove = .ok proof ∧
        verifyMerkleProof proof root.hash = .ok p ∧ virtualize proof = .ok p := by
  have seen : ((soleRoot forkBag).bind fun root => (root.reference 0).map fun leaf =>
      (decide (CollisionFree ([root, leaf, leaf].flatMap Cell.hashed)),
        root.subcells.all (·.cellType = .ordinary))) = some (true, true) := by
    decide +kernel
  simp only [Option.bind_eq_some_iff, Option.map_eq_some_iff, Prod.mk.injEq, decide_eq_true_eq,
    List.all_eq_true] at seen
  have ⟨root, parsed, leaf, first, cf, ordinary⟩ := seen
  have wf := soleRoot_wellFormed parsed
  have leafWf := wf.refs leaf (List.mem_of_getElem? first)
  have ⟨pruned, _⟩ := prune_retains_kept wf (by simpa using leafWf) leafWf cf
  exact ⟨root, leaf, parsed, first, pruned fun path c hc =>
    ordinary c (Cell.mem_subcells_iff_at?.mpr ⟨path, hc.at?⟩)⟩

end Fork

end TonNet
