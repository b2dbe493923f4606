import TonNet.Cell.Theorems.Same
import TonNet.Cell.Tracing
import TonNet.Proof.Theorems.Merkle

-- Reading a tree through a proof of it: a proof made of what was read gives every reading back, and
-- no proof that is accepted gives another answer than the tree.

namespace TonNet

open Fallible Method

namespace UsageTree

variable {α : Type} {root : Cell} {tree : UsageTree}

-- What a tree of a session keeps on every action: it stays over its root, which is marked.
structure Over (root : Cell) (tree : UsageTree) : Prop where
  root_eq : tree.root = root
  marked  : root.reprHash ∈ tree.used

-- What one tree has over another that came before it.
structure Grows (before after : UsageTree) : Prop where
  root : after.root = before.root
  used : before.used ⊆ after.used

namespace Grows

variable {before middle after : UsageTree}

theorem refl (tree : UsageTree) : Grows tree tree :=
  ⟨rfl, Finset.Subset.refl _⟩

theorem trans (h : Grows before middle) (h' : Grows middle after) : Grows before after :=
  ⟨h'.root.trans h.root, h.used.trans h'.used⟩

theorem stays (h : Grows before after) (o : Over root before) : Over root after :=
  ⟨h.root.trans o.root_eq, h.used o.marked⟩

theorem mark (tree : UsageTree) (cell : Cell) : Grows tree (tree.mark cell) :=
  ⟨rfl, Finset.subset_insert ..⟩

theorem note (tree : UsageTree) (cell : Cell) : Grows tree (tree.note cell).2 := by
  rw [UsageTree.note]
  split
  · exact mark tree cell
  · exact refl tree

theorem markPath (tree : UsageTree) (cell : Cell) : Grows tree (tree.markPath cell).2 :=
  ⟨rfl, (markPathTo_traced cell.reprHash tree.root tree.used).grows⟩

theorem combine {other : UsageTree} (h : before.combine other = .ok after) : Grows before after := by
  obtain ⟨_, rfl⟩ : _ ∧ _ := by
    simpa only [UsageTree.combine, failIf_bind_eq_ok, pure_eq_ok] using h
  exact ⟨rfl, Finset.subset_union_left⟩

end Grows

theorem note_tracing (tree : UsageTree) (cell : Cell) : (tree.note cell).2.tracing = tree.tracing := by
  rw [note]
  split <;> rfl

-- A recorded reading answers as the same reading does unrecorded, and marks what it opens while
-- tracing is on.
theorem readFrom_spec (reading : Reading Cell.Face α) (opened : List Cell) (tree : UsageTree) :
    (readFrom reading opened tree).1 = (Cell.view.run tree.root reading opened).1 ∧
    Grows tree (readFrom reading opened tree).2 ∧
    (readFrom reading opened tree).2.tracing = tree.tracing ∧
    (tree.tracing = true → (∀ c ∈ opened, c.reprHash ∈ tree.used) →
      ∀ c ∈ (Cell.view.run tree.root reading opened).2,
        c.reprHash ∈ (readFrom reading opened tree).2.used) := by
  induction reading generalizing opened tree
  case answer => exact ⟨rfl, .refl tree, rfl, fun _ marked => marked⟩
  case look place next hi =>
    rw [readFrom, View.run]
    cases Cell.view.find tree.root opened place
    case none => exact hi none opened tree
    case some cell =>
      have grows := Grows.note tree cell
      obtain ⟨answer, grown, kept, marked⟩ := hi (some cell.face) (opened ++ [cell]) (tree.note cell).2
      rw [grows.root] at answer marked
      refine ⟨answer, grows.trans grown, kept.trans (note_tracing tree cell), fun on before => ?_⟩
      refine marked ((note_tracing tree cell).trans on) fun c hc => ?_
      rcases List.mem_append.mp hc with hc | hc
      · exact grows.used (before c hc)
      · obtain rfl := List.mem_singleton.mp hc
        simp [note, on, mark]

-- What a session has established of its tree and of the readings it noted.
structure Holds (root : Cell) (record : Record α) : Prop where
  stays  : Over root record.tree
  answer : ∀ entry ∈ record.noted, entry.2 = (root.read entry.1).1
  marked : ∀ entry ∈ record.noted, ∀ c ∈ (root.read entry.1).2, c.reprHash ∈ record.tree.used

theorem Holds.grow {record : Record α} {after : UsageTree} (h : Holds root record)
    (grows : Grows record.tree after) : Holds root { record with tree := after } where
  stays  := grows.stays h.stays
  answer := h.answer
  marked := fun entry mem c hc => grows.used (h.marked entry mem c hc)

theorem act_holds {record : Record α} (h : Holds root record) (action : Action α) :
    Holds root (act record action) := by
  cases action
  case read reading =>
    obtain ⟨answer, grows, _, marks⟩ := readFrom_spec reading [] record.tree
    have grown := h.grow grows
    change Holds root ⟨(record.tree.read reading).2, if record.tree.tracing then
      record.noted ++ [(reading, (record.tree.read reading).1)] else record.noted⟩
    by_cases on : record.tree.tracing = true
    case neg =>
      rw [if_neg on]
      exact grown
    case pos =>
      rw [if_pos on]
      rw [h.stays.root_eq] at answer marks
      refine ⟨grown.stays, fun entry mem => ?_, fun entry mem => ?_⟩
      · rcases List.mem_append.mp mem with mem | mem
        · exact grown.answer entry mem
        · obtain rfl := List.mem_singleton.mp mem
          exact answer
      · rcases List.mem_append.mp mem with mem | mem
        · exact grown.marked entry mem
        · obtain rfl := List.mem_singleton.mp mem
          exact marks on (by simp)
  case readQuietly reading =>
    obtain ⟨_, grows, _⟩ := readFrom_spec reading [] (record.tree.setTracing false)
    exact h.grow ⟨grows.root, grows.used⟩
  case setTracing on => exact h.grow ⟨rfl, Finset.Subset.refl _⟩
  case mark cell => exact h.grow (.mark record.tree cell)
  case markPath cell => exact h.grow (.markPath record.tree cell)
  case combine other =>
    rw [act]
    cases combined : record.tree.combine other
    case error => exact h
    case ok after => exact h.grow (.combine combined)

theorem readFrom_quiet (reading : Reading Cell.Face α) (opened : List Cell) (off : tree.tracing = false) :
    (readFrom reading opened tree).2 = tree := by
  induction reading generalizing opened
  case answer => rfl
  case look place next hi =>
    rw [readFrom]
    cases Cell.view.find tree.root opened place
    case none => exact hi none opened
    case some cell =>
      have same : tree.note cell = (cell.parse, tree) := by simp [note, off]
      dsimp only
      rw [same]
      exact hi _ _

theorem act_quiet (record : Record α) {action : Action α} (quiet : action.isQuiet = true) :
    act record action = record := by
  cases action
  case readQuietly reading =>
    have same : (record.tree.withoutTracing (·.read reading)).2 =
        (readFrom reading [] (record.tree.setTracing false)).2.setTracing record.tree.tracing := rfl
    rw [act, same, readFrom_quiet reading [] rfl]
    rfl
  all_goals cases quiet

theorem foldl_act_loud (record : Record α) (actions : List (Action α)) :
    (actions.filter fun action => !action.isQuiet).foldl act record = actions.foldl act record := by
  induction actions generalizing record
  case nil => rfl
  case cons action actions hi =>
    cases quiet : action.isQuiet
    case false =>
      rw [List.filter_cons_of_pos (by simp [quiet])]
      exact hi _
    case true =>
      rw [List.filter_cons_of_neg (by simp [quiet]), List.foldl_cons, act_quiet record quiet]
      exact hi record

theorem session_holds (root : Cell) (actions : List (Action α)) : Holds root (session root actions) := by
  have start : Holds (α := α) root ⟨new root, []⟩ :=
    ⟨⟨rfl, Finset.mem_singleton_self _⟩, by simp, by simp⟩
  rw [session]
  generalize (⟨new root, []⟩ : Record α) = record at start
  induction actions generalizing record
  case nil => exact start
  case cons action actions hi => exact hi _ (act_holds start action)

end UsageTree

section

variable {keep : Finset Hash} {c p root : Cell} {α : Type}

-- Two cells below which a reading sees the same.
structure Cell.ReadAlike (reading : Reading Cell.Face α) (c d : Cell) : Prop where
  answer : (c.read reading).1 = (d.read reading).1
  faces  : (c.read reading).2.map Cell.face = (d.read reading).2.map Cell.face

theorem Cell.readAlike_of_tracks {Readable Readable' : Cell → Prop} {R : Cell → Cell → Prop} {d : Cell}
    (tracks : View.Tracks view view Readable Readable' R) (related : R c d)
    (reading : Reading Face α) (readable : ∀ e ∈ (c.read reading).2, Readable e)
    (readable' : ∀ e ∈ (d.read reading).2, Readable' e) : ReadAlike reading c d := by
  obtain ⟨same, opened⟩ := tracks.run related reading .nil readable readable'
  refine ⟨same, ?_⟩
  rw [← List.forall₂_eq_eq_eq, List.forall₂_map_left_iff, List.forall₂_map_right_iff]
  refine opened.imp_mem fun e he e' he' rel => ?_
  exact (tracks rel (readable e he) (readable' e' he')).left

theorem Pruning.refs (pruning : Pruning keep c p) (marked : c.reprHash ∈ keep) :
    List.Forall₂ (Pruning keep) c.refs p.refs := by
  cases pruning
  case cut out _ _ _ _ _ => exact absurd marked out
  case kept length_eq refs =>
    refine List.forall₂_iff_get.mpr ⟨length_eq.symm, fun i lt lt' => ?_⟩
    exact refs i _ _ (List.getElem?_eq_getElem lt) (List.getElem?_eq_getElem lt')

theorem Pruning.over_of_refs (pruning : Pruning keep c p) (marked : c.reprHash ∈ keep)
    (below : ∀ r ∈ c.refs, ∀ q ∈ p.refs, Pruning keep r q → r.Alike q 0) :
    c.cellType = .ordinary ∧ c.Over p 0 := by
  have refs := (pruning.refs marked).imp_mem below
  cases pruning
  case cut out _ _ _ _ _ => exact absurd marked out
  case kept kind kind_eq bits data _ _ =>
    refine ⟨kind, kind.trans kind_eq.symm, bits.symm, data.symm, ?_⟩
    rw [kind]
    exact refs

variable [Sha256]

theorem Cell.face_eq {d : Cell} (h : c.WellFormed) (h' : d.WellFormed) (kind : c.cellType = .ordinary)
    (shape : c.Over d 0) : c.face = d.face := by
  have alike := shape.alike h h' (by simp [kind])
  have refs := shape.refs
  rw [kind] at refs
  have shown : (c.refs.map fun r => (r.hash, r.depth)) = d.refs.map fun r => (r.hash, r.depth) := by
    rw [← List.forall₂_eq_eq_eq, List.forall₂_map_left_iff, List.forall₂_map_right_iff]
    exact refs.imp fun _ _ a => Prod.ext (a.hash 0 le_rfl) (a.depth 0 le_rfl)
  have hash : c.hash = d.hash := alike.hash 0 le_rfl
  have depth : c.depth = d.depth := alike.depth 0 le_rfl
  simp only [face, shape.cellType, shape.bits, shape.data, hash, depth, shown]

namespace Pruning

theorem alike (h : c.WellFormed) (h' : p.WellFormed) (pruning : Pruning keep c p) : c.Alike p 0 := by
  induction c generalizing p
  case node c hi =>
    by_cases marked : c.reprHash ∈ keep
    case pos =>
      obtain ⟨kind, shape⟩ := pruning.over_of_refs marked fun r hr q hq =>
        hi r hr (h.refs r hr) (h'.refs q hq)
      exact shape.alike h h' (by simp [kind])
    case neg =>
      cases pruning
      case kept inside _ _ _ _ _ _ => exact absurd inside marked
      case cut hash depth =>
        refine ⟨by simp, fun l hl => ?_, fun l hl => ?_⟩
        · exact Nat.le_zero.mp hl ▸ hash.symm
        · exact Nat.le_zero.mp hl ▸ depth.symm

theorem shape (h : c.WellFormed) (h' : p.WellFormed) (pruning : Pruning keep c p)
    (marked : c.reprHash ∈ keep) : c.cellType = .ordinary ∧ c.Over p 0 :=
  pruning.over_of_refs marked fun r hr q hq => alike (h.refs r hr) (h'.refs q hq)

-- A marked cell and what it is pruned to show the same, and their children are pruned likewise.
theorem tracks : View.Tracks Cell.view Cell.view (·.reprHash ∈ keep) (fun _ => True)
    (fun c p => c.WellFormed ∧ p.WellFormed ∧ Pruning keep c p) := by
  rintro c p ⟨h, h', pruning⟩ marked _
  obtain ⟨kind, shape⟩ := pruning.shape h h' marked
  refine ⟨Cell.face_eq h h' kind shape, fun index => ?_⟩
  refine ((pruning.refs marked).imp_mem fun r hr q hq child => ?_).rel_getElem? index
  exact ⟨h.refs r hr, h'.refs q hq, child⟩

end Pruning

namespace UsageTree

-- Whatever was done with a tree before, a proof of it opens to a copy on which every reading that was
-- noted answers as it did on the tree, and opens no branch.
theorem session_replays (wf : root.WellFormed) (actions : List (Action α)) :
    session root (actions.filter fun action => !action.isQuiet) = session root actions ∧
    ((∃ proof, (session root actions).tree.prove = .ok proof) ↔
      ∀ path c, root.KeptAt (fun c => (session root actions).tree.touched c = true) path c →
        c.cellType = .ordinary) ∧
    ∀ proof, (session root actions).tree.prove = .ok proof → ∃ content,
      verifyMerkleProof proof root.hash = .ok content ∧ virtualize proof = .ok content ∧
      Skeleton (fun c => (session root actions).tree.touched c = true) root content ∧
      ∀ reading answer, (reading, answer) ∈ (session root actions).noted →
        (root.read reading).1 = answer ∧ Cell.ReadAlike reading root content ∧
        ∀ c ∈ (content.read reading).2, c.cellType = .ordinary := by
  refine ⟨foldl_act_loud _ actions, ?_⟩
  have holds := session_holds root actions
  generalize session root actions = record at holds ⊢
  have touched (c : Cell) : record.tree.touched c = true ↔ c.reprHash ∈ record.tree.used := by
    simp [UsageTree.touched]
  simp only [touched]
  have made (keepable : Keepable record.tree.used root) : ∃ p proof, p.WellFormed ∧
      Pruning record.tree.used root p ∧ record.tree.prove = .ok proof ∧
      verifyMerkleProof proof root.hash = .ok p ∧ virtualize proof = .ok p := by
    obtain ⟨p, hp, wf', pruning, alike⟩ := pruneCell_ok wf keepable
    obtain ⟨kind, shape⟩ := pruning.shape wf wf' holds.stays.marked
    obtain ⟨proof, create, verified, opened⟩ := createProof_verifies wf' (shape.cellType.symm.trans kind)
    have hash : p.hash = root.hash := (alike.hash 0 le_rfl).symm
    refine ⟨p, proof, wf', pruning, ?_, hash ▸ verified, opened⟩
    rw [prove, prune, holds.stays.root_eq, hp]
    exact create
  have kept {proof : Cell} (proved : record.tree.prove = .ok proof) :
      Keepable record.tree.used root := by
    obtain ⟨p, pruned, _⟩ := bind_eq_ok.mp proved
    rw [prune, holds.stays.root_eq] at pruned
    exact keepable_of_pruneCell pruned
  refine ⟨⟨?_, fun ordinary => ?_⟩, fun proof proved => ?_⟩
  · rintro ⟨proof, proved⟩ path c hc
    obtain ⟨p, _, wf', pruning, _⟩ := made (kept proved)
    obtain ⟨q, _, pruning⟩ := pruning.kept_at hc
    cases pruning
    case cut out _ _ _ _ _ => exact absurd hc.last_marked out
    case kept kind _ _ _ _ _ => exact kind
  · obtain ⟨_, proof, _, _, proved, _⟩ := made (keepable_of_keptAt ordinary)
    exact ⟨proof, proved⟩
  · obtain ⟨p, proof', wf', pruning, proved', verified, opened⟩ := made (kept proved)
    obtain rfl := Except.ok.inj (proved.symm.trans proved')
    refine ⟨p, verified, opened, pruning.skeleton holds.stays.marked, fun reading answer noted => ?_⟩
    have marked := holds.marked _ noted
    have pruned : root.WellFormed ∧ p.WellFormed ∧ Pruning record.tree.used root p := ⟨wf, wf', pruning⟩
    refine ⟨(holds.answer _ noted).symm, ?_, fun q hq => ?_⟩
    · exact Cell.readAlike_of_tracks Pruning.tracks pruned reading marked fun _ _ => trivial
    · obtain ⟨_, opened⟩ := Pruning.tracks.run pruned reading .nil marked fun _ _ => trivial
      obtain ⟨c, hc, h, h', pruning⟩ := opened.exists_mem hq
      obtain ⟨kind, shape⟩ := pruning.shape h h' (marked c hc)
      exact shape.cellType.symm.trans kind

end UsageTree

theorem Cell.Matches.face_eq {d : Cell} (m : c.Matches d 0) (h : c.WellFormed) (h' : d.WellFormed)
    (kind : c.cellType = .ordinary) : c.face = d.face := by
  have flat : 0 + c.cellType.childLevelShift = 0 := by rw [kind]; rfl
  have answers := m.refs
  refine Cell.face_eq h h' kind ⟨m.cellType, m.bits, m.data, ?_⟩
  rw [flat] at answers ⊢
  refine answers.imp fun r r' same => ⟨by simp, fun l hl => ?_, fun l hl => ?_⟩
  · exact Nat.le_zero.mp hl ▸ same.left
  · exact Nat.le_zero.mp hl ▸ same.right

variable {strings : List Bytes}

theorem Same.tracks (cf : CollisionFree strings) : View.Tracks Cell.view Cell.view
    (·.cellType = .ordinary) (·.cellType = .ordinary) (Same strings) := by
  intro c c' same kind kind'
  have shown := same.shows cf (by simp [kind]) (by simp [kind'])
  exact ⟨shown.face_eq same.wf same.wf' kind, (same.refs cf kind kind').rel_getElem?⟩

-- A tree that hides nothing is read wherever the proof of it is.
theorem Shadow.tracks (cf : CollisionFree strings) : View.Tracks Cell.view Cell.view
    (·.cellType = .ordinary) (fun _ => True) (Shadow strings · · 0) := by
  intro c t shadow kind _
  have np : c.cellType ≠ .prunedBranch := by simp [kind]
  refine ⟨(shadow.shows cf np).face_eq shadow.wf shadow.wf' kind, ?_⟩
  have refs := shadow.refs cf np
  rw [kind] at refs
  exact (refs.imp fun _ _ below => below.left).rel_getElem?

-- A proof that is accepted for a hash cannot make a reading answer otherwise than the tree with that
-- hash, or than another proof of it, unless the reading runs into something that is no ordinary cell.
theorem accepted_reading {expected : Hash} {proof content : Cell} (produced : Produced proof)
    (accepted : verifyMerkleProof proof expected = .ok content) (reading : Reading Cell.Face α)
    (shown : ∀ c ∈ (content.read reading).2, c.cellType = .ordinary) :
    (∀ tree : Cell, tree.WellFormed → tree.levelMask = 0 → tree.hash = expected →
      CollisionFree (content.hashed ++ tree.hashed) → Cell.ReadAlike reading content tree) ∧
    ∀ proof' content' : Cell, Produced proof' → verifyMerkleProof proof' expected = .ok content' →
      CollisionFree (content.hashed ++ content'.hashed) →
      (∀ c ∈ (content'.read reading).2, c.cellType = .ordinary) →
      Cell.ReadAlike reading content content' := by
  have opens {proof content : Cell} (produced : Produced proof)
      (accepted : verifyMerkleProof proof expected = .ok content) :
      content.WellFormed ∧ content.hash = expected := by
    obtain ⟨_, _, first, hash, _⟩ := verifyMerkleProof_eq_ok.mp accepted
    exact ⟨produced.wellFormed.refs content (List.mem_of_getElem? first), hash⟩
  obtain ⟨wf, hash⟩ := opens produced accepted
  refine ⟨fun tree whole zero named cf => ?_, fun proof' content' produced' accepted' cf shown' => ?_⟩
  · have shadow : Shadow (content.hashed ++ tree.hashed) content tree 0 :=
      ⟨wf, whole, List.subset_append_left .., List.subset_append_right .., hash.trans named.symm,
        by simp [zero]⟩
    exact Cell.readAlike_of_tracks (Shadow.tracks cf) shadow reading shown fun _ _ => trivial
  · obtain ⟨wf', hash'⟩ := opens produced' accepted'
    have same : Same (content.hashed ++ content'.hashed) content content' :=
      ⟨wf, wf', List.subset_append_left .., List.subset_append_right .., hash.trans hash'.symm⟩
    exact Cell.readAlike_of_tracks (Same.tracks cf) same reading shown shown'

end

section Fork

attribute [local instance] Sha256.standard

-- Opens the root and the first leaf under it, and answers with how many bits the leaf holds.
def readFirstLeaf : Reading Cell.Face (Option Nat) :=
  .look .root fun _ => .look (.child 0 0) fun leaf => .answer (leaf.map (·.bits))

open UsageTree in
theorem session_replays_fork :
    ∃ root proof content, soleRoot forkBag = some root ∧
      (session root [.read readFirstLeaf]).tree.prove = .ok proof ∧
      verifyMerkleProof proof root.hash = .ok content ∧
      (content.read readFirstLeaf).1 = some 0 := by
  have seen : ((soleRoot forkBag).map fun root =>
      (root.subcells.all (·.cellType = .ordinary), ((new root).read readFirstLeaf).1)) =
        some (true, some 0) := by
    decide +kernel
  simp only [Option.map_eq_some_iff, Prod.mk.injEq, List.all_eq_true, decide_eq_true_eq] at seen
  obtain ⟨root, parsed, ordinary, answer⟩ := seen
  obtain ⟨_, provable, replays⟩ := session_replays (soleRoot_wellFormed parsed) [.read readFirstLeaf]
  obtain ⟨proof, proved⟩ := provable.mpr fun path c hc =>
    ordinary c (Cell.mem_subcells_iff_at?.mpr ⟨path, hc.at?⟩)
  obtain ⟨content, verified, _, _, replayed⟩ := replays proof proved
  have noted : (readFirstLeaf, ((new root).read readFirstLeaf).1) ∈
      (session root [.read readFirstLeaf]).noted := List.mem_singleton_self _
  obtain ⟨same, alike, _⟩ := replayed _ _ noted
  exact ⟨root, proof, content, parsed, proved, verified, alike.answer.symm.trans (same.trans answer)⟩

-- The proof leaves the second leaf out.
open UsageTree in
theorem accepted_reading_fork :
    ∃ root leaf pruned proof content, soleRoot forkBag = some root ∧ root.reference 0 = some leaf ∧
      (marking root [leaf]).prune = .ok pruned ∧ createProof pruned = .ok proof ∧
      verifyMerkleProof proof root.hash = .ok content ∧ Cell.ReadAlike readFirstLeaf content root := by
  have seen : ((soleRoot forkBag).bind fun root => (root.reference 0).bind fun leaf =>
      (marking root [leaf]).prune.toOption.bind fun pruned =>
        (createProof pruned).toOption.bind fun proof =>
          (verifyMerkleProof proof root.hash).toOption.map fun content =>
            (decide (CollisionFree (content.hashed ++ root.hashed)),
              (content.read readFirstLeaf).2.all (·.cellType = .ordinary), root.levelMask)) =
                some (true, true, 0) := by
    decide +kernel
  simp only [Option.bind_eq_some_iff, Option.map_eq_some_iff, toOption_eq_some, Prod.mk.injEq,
    decide_eq_true_eq, List.all_eq_true] at seen
  obtain ⟨root, parsed, leaf, first, pruned, prune, proof, create, content, verified, cf, shown, zero⟩ :=
    seen
  have produced : Produced proof := .proof (.pruned (soleRoot_produced parsed) prune) create
  obtain ⟨tree, _⟩ := accepted_reading produced verified readFirstLeaf shown
  exact ⟨root, leaf, pruned, proof, content, parsed, first, prune, create, verified,
    tree root (soleRoot_wellFormed parsed) zero rfl cf⟩

end Fork

end TonNet
