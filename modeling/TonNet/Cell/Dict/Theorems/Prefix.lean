import TonNet.Cell.Dict.Prefix
import TonNet.Cell.Dict.Theorems.Read
import TonNet.Cell.Theorems.Failures

-- A prefix-code dictionary is the radix tree of a prefix-free map, with a bit past each label that
-- tells a fork from a leaf.

namespace TonNet

open Fallible Method

-- The bit past the label is a summary that says whether the node is a fork.
def Shape.pfx : Shape Bool where
  readExtra      := Slice.loadBit
  writeExtra bit := Builder.storeBit bit
  checkFork      := return ()
  forkExtra _ _ _ := return true

theorem Shape.pfx_lawful : Shape.pfx.Lawful fun bit => some [bit] where
  writes  := fun h => by cases h; exact Builder.storeBit_writes _
  refuses := nofun
  reads   := fun h => by cases h; exact Slice.loadBit_reads _
  checks  := fun {_ _ s} _ _ => ⟨s, rfl⟩

theorem readLabelVec_reads {label : List Bool} {max : Nat} (le : label.length ≤ max)
    (bound : max < 2 ^ 16) : Slice.Reads (readLabelVec max) (labelBits label max) [] label := by
  have spelled (run : List Bool) :
      Slice.Reads ((List.replicate run.length Slice.loadBit).mapM id) run [] run := by
    induction run
    case nil => exact .pure []
    case cons bit run hi =>
      have more : Slice.Reads (do
          let run ← (List.replicate run.length Slice.loadBit).mapM id
          return bit :: run) (run ++ []) ([] ++ []) (bit :: run) := hi.bind (.pure _)
      rw [List.append_nil] at more
      rw [List.length_cons, List.replicate_succ, List.mapM_cons]
      exact (Slice.loadBit_reads bit).bind more
  refine (readRun_reads le bound).bind ?_
  unfold labelBody labelRun
  cases form : labelForm label max
  case short => exact spelled label
  case long => exact spelled label
  case repeated =>
    have same := eq_replicate_of_repeated le bound form
    dsimp only
    rw [← same]
    exact .pure label

namespace PfxDict

variable {c c' : Cell} {label rest key bits : List Bool} {n consumed passes : Nat} {bit : Bool}

-- A node with a marker past its label, as the two ways to read a label show it.
structure Marked (c : Cell) (label : List Bool) (n : Nat) (bit : Bool) (rest : List Bool) : Prop where
  ordinary : c.isExotic = false
  label_le : label.length ≤ n
  opens    : ∀ read ∈ [readLabel n, readLabelVec n], ∃ s s', read.call c.parse = .ok (label, s) ∧
    Slice.loadBit.call s = .ok (bit, s') ∧ s'.ahead = rest

theorem Marked.of_node (h : Node c label n (bit :: rest)) : Marked c label n bit rest where
  ordinary := h.ordinary
  label_le := h.label_le
  opens    := by
    intro read mem
    have reads : Slice.Reads read (labelBits label n) [] label := by
      obtain rfl | rfl : read = readLabel n ∨ read = readLabelVec n := by simpa using mem
      · exact readLabel_reads h.label_le (lt_of_le_maxBits h.max_le) (le_trans h.label_le h.max_le)
      · exact readLabelVec_reads h.label_le (lt_of_le_maxBits h.max_le)
    have ⟨s, run, ahead, refs⟩ := reads c.parse (bit :: rest) c.refs (by rw [Cell.parse_ahead, h.bits])
      (by simp)
    have ⟨s', run', ahead', _⟩ := Slice.loadBit_reads bit s rest c.refs ahead refs
    exact ⟨s, s', call_eq_ok.mpr run, call_eq_ok.mpr run', ahead'⟩

variable [Sha256] {t : Radix (Shape.Entry Bool)} {value : Builder}

-- Every leaf of the tree is marked as one.
def Leafy (t : Radix (Shape.Entry Bool)) : Prop :=
  ∀ key entry, t.find key = some entry → entry.extra = false

omit [Sha256] in
theorem Leafy.below {child : Bool → Radix (Shape.Entry Bool)} (leafy : Leafy (.fork label child))
    (b : Bool) : Leafy (child b) :=
  fun key entry found => leafy (label ++ b :: key) entry (by simpa using found)

theorem marked_leaf {entry : Shape.Entry Bool} (leafy : Leafy (.leaf label entry)) (bound : n ≤ maxBits)
    (h : Shape.pfx.encode (.leaf label entry) n = .ok c) :
    Marked c label n false entry.value.toBits ∧ ∀ s : Slice, s.ahead = entry.value.toBits →
      DictEntry.value ⟨c, c.bits - s.remainingBits⟩ = .ok entry.value := by
  have extra := leafy label entry (by simp [Radix.find])
  obtain ⟨le, _, coded, makes⟩ := (Shape.leaf_eq_ok Shape.pfx_lawful.toSpelled bound).mp h
  cases coded
  rw [extra] at makes
  obtain ⟨_, content, refs⟩ := makes.cell
  refine ⟨.of_node (makes.node le bound), fun s ahead => ?_⟩
  exact DictEntry.value_of_content (by rw [content, ← List.append_assoc]) refs ahead

theorem marked_fork {cells : Bool → Cell} (f : Shape.Forked Shape.pfx c label n cells) :
    Marked c label n true [] := by
  have ⟨le, e, _, extra, coded, makes⟩ := (Shape.fork_eq_ok Shape.pfx_lawful.toSpelled f.bound).mp f.built
  cases coded
  cases extra
  exact .of_node (makes.node le f.bound)

-- The label of a node that is not looked at any further.
theorem marked_of_encode (leafy : Leafy t) (within : t.Within n) (bound : n ≤ maxBits)
    (h : Shape.pfx.encode t n = .ok c) : ∃ bit rest, Marked c t.label n bit rest := by
  cases t
  case leaf label entry => exact ⟨_, _, (marked_leaf leafy bound h).left⟩
  case fork label child =>
    have ⟨cells, _, f⟩ := Shape.forked_of_encode within bound h
    exact ⟨_, _, marked_fork f⟩

section Lookup

-- What a descent for `key` finds: the key of the tree that it begins with.
def Leads (t : Radix (Shape.Entry Bool)) (key : List Bool) (consumed : Nat) : Option PfxMatch → Prop
  | none       => ∀ k entry, t.find k = some entry → ¬k <+: key
  | some found => ∃ k entry, t.find k = some entry ∧ k <+: key ∧ found.matched = consumed + k.length ∧
    found.entry.value = .ok entry.value

omit [Sha256] in
theorem lookupPrefixFrom_misses (marked : Marked c label n bit rest)
    (misses : (diverges label (bits.drop consumed)).isSome ∨ (bits.drop consumed).length < label.length) :
    lookupPrefixFrom bits (passes + 1) c n consumed = .ok none := by
  have ⟨s, _, read, _, _⟩ := marked.opens (readLabel n) (by simp)
  rw [lookupPrefixFrom, failIf_bind_of_not (by simp [marked.ordinary]), read, ok_bind]
  exact if_pos misses

omit [Sha256] in
theorem lookupPrefixFrom_leaf (passes : Nat) {tail : List Bool} (marked : Marked c label n false rest)
    (along : bits.drop consumed = label ++ tail) : ∃ s : Slice, s.ahead = rest ∧
      lookupPrefixFrom bits (passes + 1) c n consumed =
        .ok (some ⟨consumed + label.length, c, c.bits - s.remainingBits⟩) := by
  have ⟨s, s', read, mark, ahead⟩ := marked.opens (readLabel n) (by simp)
  have stays : ¬((diverges label (bits.drop consumed)).isSome ∨
      (bits.drop consumed).length < label.length) := by simp [along]
  refine ⟨s', ahead, ?_⟩
  rw [lookupPrefixFrom, failIf_bind_of_not (by simp [marked.ordinary]), read, ok_bind]
  simp only [if_neg stays, mark, ok_bind]
  rfl

theorem lookupPrefixFrom_fork (passes : Nat) {cells : Bool → Cell} {tail : List Bool}
    (f : Shape.Forked Shape.pfx c label n cells) (along : bits.drop consumed = label ++ tail) :
    lookupPrefixFrom bits (passes + 1) c n consumed =
      if consumed + label.length = bits.length then .ok none
      else lookupPrefixFrom bits passes (cells (bits.getD (consumed + label.length) false))
        (n - label.length - 1) (consumed + label.length + 1) := by
  have marked := marked_fork f
  have ⟨s, s', read, mark, ahead⟩ := marked.opens (readLabel n) (by simp)
  have stays : ¬((diverges label (bits.drop consumed)).isSome ∨
      (bits.drop consumed).length < label.length) := by simp [along]
  have room : n - label.length ≠ 0 := Nat.sub_ne_zero_of_lt f.lt
  rw [lookupPrefixFrom, failIf_bind_of_not (by simp [marked.ordinary]), read, ok_bind]
  simp only [if_neg stays, mark, ok_bind, f.reference Shape.pfx_lawful.toSpelled]
  rw [if_neg (by simp), failIf_bind_of_not room]
  rfl

theorem lookupPrefixFrom_leads (leafy : Leafy t) (within : t.Within n) (bound : n ≤ maxBits)
    (h : Shape.pfx.encode t n = .ok c) (ahead : bits.drop consumed = key)
    (length : bits.length = consumed + key.length) (enough : n < passes) :
    ∃ found, lookupPrefixFrom bits passes c n consumed = .ok found ∧ Leads t key consumed found := by
  refine Radix.descent (motive := fun t key => ∀ n c consumed passes, Leafy t → t.Within n →
    n ≤ maxBits → Shape.pfx.encode t n = .ok c → bits.drop consumed = key →
    bits.length = consumed + key.length → n < passes →
    ∃ found, lookupPrefixFrom bits passes c n consumed = .ok found ∧ Leads t key consumed found)
    ?_ ?_ ?_ ?_ ?_ ?_ n c consumed passes leafy within bound h ahead length enough
  all_goals clear leafy within bound h ahead length enough
  · intro t shared b labelRest keyRest label_eq n c consumed passes leafy within bound h ahead length
      enough
    obtain ⟨passes, rfl⟩ := Nat.exists_eq_add_one_of_ne_zero (Nat.ne_zero_of_lt enough)
    obtain ⟨bit, rest, marked⟩ := marked_of_encode leafy within bound h
    refine ⟨none, lookupPrefixFrom_misses marked (by simp [ahead, label_eq]), fun k entry found front => ?_⟩
    have same := Radix.apart_of_leaves label_eq k entry found (.inl front)
    rw [same, Radix.find_eq_none_of_leaves label_eq] at found
    cases found
  · intro t key b labelRest label_eq n c consumed passes leafy within bound h ahead length enough
    obtain ⟨passes, rfl⟩ := Nat.exists_eq_add_one_of_ne_zero (Nat.ne_zero_of_lt enough)
    obtain ⟨bit, rest, marked⟩ := marked_of_encode leafy within bound h
    refine ⟨none, lookupPrefixFrom_misses marked (by simp [ahead, label_eq]), fun k entry found front => ?_⟩
    have := (Radix.isPrefix_of_find found).length_le.trans front.length_le
    simp only [label_eq, List.length_append, List.length_cons] at this
    omega
  · intro key entry n c consumed passes leafy within bound h ahead length enough
    obtain ⟨passes, rfl⟩ := Nat.exists_eq_add_one_of_ne_zero (Nat.ne_zero_of_lt enough)
    obtain ⟨marked, value⟩ := marked_leaf leafy bound h
    obtain ⟨s, left, run⟩ := lookupPrefixFrom_leaf passes marked (ahead.trans (List.append_nil _).symm)
    exact ⟨_, run, key, entry, by simp [Radix.find], List.prefix_rfl, rfl, value s left⟩
  · intro label entry b rest n c consumed passes leafy within bound h ahead length enough
    obtain ⟨passes, rfl⟩ := Nat.exists_eq_add_one_of_ne_zero (Nat.ne_zero_of_lt enough)
    obtain ⟨marked, value⟩ := marked_leaf leafy bound h
    obtain ⟨s, left, run⟩ := lookupPrefixFrom_leaf passes marked ahead
    exact ⟨_, run, label, entry, by simp [Radix.find], ⟨_, rfl⟩, rfl, value s left⟩
  · intro label child n c consumed passes leafy within bound h ahead length enough
    obtain ⟨passes, rfl⟩ := Nat.exists_eq_add_one_of_ne_zero (Nat.ne_zero_of_lt enough)
    obtain ⟨cells, each, f⟩ := Shape.forked_of_encode within bound h
    have run := lookupPrefixFrom_fork passes f (ahead.trans (List.append_nil _).symm)
    rw [if_pos length.symm] at run
    refine ⟨none, run, fun k entry found front => ?_⟩
    obtain ⟨b, rest, rfl, _⟩ := Radix.find_fork_eq_some.mp found
    have := front.length_le
    simp at this
  · intro label child b rest hi n c consumed passes leafy within bound h ahead length enough
    obtain ⟨passes, rfl⟩ := Nat.exists_eq_add_one_of_ne_zero (Nat.ne_zero_of_lt enough)
    obtain ⟨cells, each, f⟩ := Shape.forked_of_encode within bound h
    have lt := f.lt
    obtain ⟨found, run, leads⟩ := hi (n - label.length - 1) (cells b) (consumed + label.length + 1) passes
      (leafy.below b) (within.right b) (by omega) (each b) (drop_of_drop ahead)
      (by simp at length; omega) (by omega)
    have more : consumed + label.length ≠ bits.length := by simp at length; omega
    refine ⟨found, ?_, ?_⟩
    · rw [lookupPrefixFrom_fork passes f ahead, if_neg more, getD_of_drop ahead, run]
    · cases found
      case none =>
        intro k entry found front
        obtain ⟨b', rest', rfl, below⟩ := Radix.find_fork_eq_some.mp found
        simp only [List.prefix_append_right_inj, List.cons_prefix_cons] at front
        obtain ⟨rfl, front⟩ := front
        exact leads rest' entry below front
      case some found =>
        obtain ⟨k, entry, here, front, matched, value⟩ := leads
        refine ⟨label ++ b :: k, entry, by simpa using here, ?_, ?_, value⟩
        · simpa only [List.prefix_append_right_inj, List.cons_prefix_cons, true_and] using front
        · simp only [matched, List.length_append, List.length_cons]
          omega

-- A lookup is the same descent, for the whole of the key.
def whole (found : Option PfxMatch) (length : Nat) : Option DictEntry :=
  found.bind fun found => if found.matched = length then some found.entry else none

omit [Sha256] in
theorem getFrom_of_lookupPrefixFrom {found : Option PfxMatch}
    (h : lookupPrefixFrom bits passes c n consumed = .ok found) :
    getFrom bits passes c n consumed = .ok (Shape.answer (whole found bits.length)) := by
  induction passes generalizing c n consumed
  case zero => cases h
  case succ passes hi =>
    rw [lookupPrefixFrom, failIf_bind_eq_ok] at h
    obtain ⟨ordinary, h⟩ := h
    have ⟨⟨label, s⟩, read, h⟩ := bind_eq_ok.mp h
    rw [getFrom, if_neg ordinary, read, ok_bind]
    dsimp only at h ⊢
    split at h
    case isTrue misses =>
      cases h
      exact if_pos misses
    case isFalse stays =>
      rw [if_neg stays]
      have ⟨⟨isFork, s'⟩, mark, h⟩ := bind_eq_ok.mp h
      rw [mark, ok_bind]
      dsimp only at h ⊢
      split at h
      case isTrue leaf =>
        cases h
        rw [if_pos leaf, whole, Option.bind_some]
        split <;> rfl
      case isFalse fork =>
        rw [if_neg fork]
        have ⟨room, h⟩ := failIf_bind_eq_ok.mp h
        rw [failIf_bind_of_not room]
        split at h
        case isTrue spent =>
          cases h
          exact if_pos spent
        case isFalse more =>
          have ⟨child, branch, h⟩ := bind_eq_ok.mp h
          rw [if_neg more, branch, ok_bind]
          exact hi h

omit [Sha256] in
theorem Leads.whole {found : Option PfxMatch} (leads : Leads t key consumed found) :
    Option.Rel (fun (entry : Shape.Entry Bool) shown => shown.value = .ok entry.value) (t.find key)
      (whole found (consumed + key.length)) := by
  cases here : t.find key
  case none =>
    cases found
    case none => exact .none
    case some found =>
      have ⟨k, entry, there, front, matched, _⟩ := leads
      have other : found.matched ≠ consumed + key.length := by
        intro same
        rw [front.eq_of_length (by omega), here] at there
        cases there
      rw [PfxDict.whole, Option.bind_some, if_neg other]
      exact .none
  case some entry =>
    cases found
    case none => exact absurd List.prefix_rfl (leads key entry here)
    case some found =>
      have ⟨k, entry', there, front, matched, value⟩ := leads
      obtain rfl := Radix.apart_of_find here k entry' there (.inl front)
      cases here.symm.trans there
      rw [PfxDict.whole, Option.bind_some, if_pos matched]
      exact .some value

end Lookup

section Insert

theorem leafCell_eq (label : List Bool) (n : Nat) (value : Builder) :
    leafCell label n value = Shape.pfx.leaf label ⟨false, value⟩ n :=
  rfl

theorem split_eq (node : Cell) (n : Nat) (label : List Bool) (i : Nat) (key : List Bool) (value : Builder) :
    split node n label i key value = Shape.pfx.split node label i n key ⟨false, value⟩ :=
  rfl

-- What is refused because no key may be the beginning of another.
def Collision (e : CellError) : Prop :=
  e = .malformed "a prefix-code key is a prefix of a stored key" ∨
  e = .malformed "a stored prefix-code key is a prefix of this key"

instance (e : CellError) : Decidable (Collision e) :=
  inferInstanceAs (Decidable (_ ∨ _))

omit [Sha256] in
theorem not_collision {e : CellError} (h : Unbuilt e) : ¬Collision e := by
  rintro (rfl | rfl)
  · exact absurd h (by decide)
  · exact absurd h (by decide)

theorem leafCell_fails (label : List Bool) (n : Nat) (value : Builder) :
    Fails Unbuilt (leafCell label n value) :=
  written_throws (.bind (Builder.storeLabel_throws _ _) fun _ => .bind (Builder.storeBit_throws _) fun _ =>
    Builder.storeBuilder_throws _)

theorem forkCell_fails (label : List Bool) (n : Nat) (left right : Cell) :
    Fails Unbuilt (forkCell label n left right) :=
  written_throws (.bind (Builder.storeLabel_throws _ _) fun _ => .bind (Builder.storeBit_throws _) fun _ =>
    .bind (Builder.storeRef_throws _) fun _ => Builder.storeRef_throws _)

theorem split_fails (node : Cell) (n : Nat) (label : List Bool) (i : Nat) (key : List Bool)
    (value : Builder) : Fails Unbuilt (split node n label i key value) := by
  refine .bind (Throws.call ?kept _) fun _ _ => .bind (build_throws _) fun _ _ =>
    .bind (leafCell_fails _ _ _) fun _ _ => forkCell_fails _ _ _ _
  case kept =>
    exact .bind (Builder.storeLabel_throws _ _) fun _ => .bind (.ofExcept ((skipLabel_throws n).call _)) fun _ =>
      Builder.storeSlice_throws _

theorem rebuildFork_fails (label : List Bool) (n : Nat) {node : Cell} {branch : Nat} {sibling : Cell}
    (there : node.reference (1 - branch) = some sibling) (child : Cell) :
    Fails Unbuilt (rebuildFork label n node branch child) := by
  rw [rebuildFork, there]
  exact forkCell_fails _ _ _ _

theorem rebuildFork_eq (label : List Bool) (n : Nat) (node : Cell) (branch : Nat) (child : Cell) :
    rebuildFork label n node branch child = Shape.Step.rebuild Shape.pfx ⟨node, label, n, branch⟩ child :=
  rfl

section Node

variable {cells : Bool → Cell}

omit [Sha256] in
theorem Marked.readLabelVec (marked : Marked c label n bit rest) : ∃ s s',
    (readLabelVec n).call c.parse = .ok (label, s) ∧ Slice.loadBit.call s = .ok (bit, s') := by
  have ⟨s, s', read, mark, _⟩ := marked.opens (TonNet.readLabelVec n) (by simp)
  exact ⟨s, s', read, mark⟩

theorem insert_marked (marked : Marked c label n bit rest) :
    insert value (passes + 1) c n key =
      match diverges label key with
      | some i => split c n label i key value
      | none   => (do
        failIf (key.length < label.length) (.malformed "a prefix-code key is a prefix of a stored key")
        if !bit then
          if (key.drop label.length).isEmpty then leafCell label n value
          else throw (.malformed "a stored prefix-code key is a prefix of this key")
        else
          failIf (key.drop label.length).isEmpty
            (.malformed "a prefix-code key is a prefix of a stored key")
          failIf (n - label.length = 0) noBitsLeft
          let branch := ((key.drop label.length).getD 0 false).toNat
          let child ← okOr (c.reference branch) noBranch
          let child ← insert value passes child (n - label.length - 1) ((key.drop label.length).drop 1)
          rebuildFork label n c branch child) := by
  have ⟨s, s', read, mark⟩ := marked.readLabelVec
  rw [insert, failIf_bind_of_not (by simp [marked.ordinary]), read, ok_bind]
  dsimp only
  cases diverges label key
  case some i => rfl
  case none => simp only [mark, ok_bind]

theorem insert_leaves {shared labelRest keyRest : List Bool} {b : Bool}
    (marked : Marked c (shared ++ b :: labelRest) n bit rest) :
    insert value (passes + 1) c n (shared ++ (!b) :: keyRest) =
      split c n (shared ++ b :: labelRest) shared.length (shared ++ (!b) :: keyRest) value := by
  rw [insert_marked marked, diverges_parts]

theorem insert_goes (f : Shape.Forked Shape.pfx c label n cells) (b : Bool) (rest : List Bool) :
    insert value (passes + 1) c n (label ++ b :: rest) =
      insert value passes (cells b) (n - label.length - 1) rest >>= rebuildFork label n c b.toNat := by
  have room : n - label.length ≠ 0 := Nat.sub_ne_zero_of_lt f.lt
  have branch := f.reference Shape.pfx_lawful.toSpelled b
  rw [insert_marked (marked_fork f), diverges_append]
  dsimp only
  rw [failIf_bind_of_not (by simp)]
  simp [failIf, room, branch, okOr]

end Node

-- A key that is apart from those of the tree is put into it, or there is no room for it.
theorem insert_eq_ok (leafy : Leafy t) (within : t.Within n) (apart : t.Apart key) (bound : n ≤ maxBits)
    (h : Shape.pfx.encode t n = .ok c) (enough : n < passes) :
    (∀ c', insert value passes c n key = .ok c' ↔
      Shape.pfx.encode (t.insert key ⟨false, value⟩) n = .ok c') ∧
    Fails Unbuilt (insert value passes c n key) := by
  refine Radix.walk (motive := fun t key => ∀ n c passes, Leafy t → t.Within n → n ≤ maxBits →
    Shape.pfx.encode t n = .ok c → n < passes →
    (∀ c', insert value passes c n key = .ok c' ↔
      Shape.pfx.encode (t.insert key ⟨false, value⟩) n = .ok c') ∧
    Fails Unbuilt (insert value passes c n key))
    ?_ ?_ ?_ apart n c passes leafy within bound h enough
  all_goals clear leafy within apart bound h enough
  · intro t shared b labelRest keyRest label_eq n c passes leafy within bound h enough
    obtain ⟨passes, rfl⟩ := Nat.exists_eq_add_one_of_ne_zero (Nat.ne_zero_of_lt enough)
    obtain ⟨bit, rest, marked⟩ := marked_of_encode leafy within bound h
    rw [insert_leaves (label_eq ▸ marked)]
    refine ⟨fun c' => ?_, split_fails _ _ _ _ _ _⟩
    rw [split_eq, ← label_eq, Shape.split_eq_ok Shape.pfx_lawful.pens within bound h label_eq,
      Radix.insert_of_leaves label_eq]
  · intro key entry n c passes leafy within bound h enough
    obtain ⟨passes, rfl⟩ := Nat.exists_eq_add_one_of_ne_zero (Nat.ne_zero_of_lt enough)
    obtain ⟨marked, _⟩ := marked_leaf leafy bound h
    have here : insert value (passes + 1) c n key = leafCell key n value := by
      rw [insert_marked marked, diverges_self]
      simp [failIf]
    rw [here, Radix.insert_leaf, leafCell_eq]
    exact ⟨fun c' => Iff.rfl, leafCell_fails key n value⟩
  · intro label child b rest _ hi n c passes leafy within bound h enough
    obtain ⟨passes, rfl⟩ := Nat.exists_eq_add_one_of_ne_zero (Nat.ne_zero_of_lt enough)
    obtain ⟨cells, each, f⟩ := Shape.forked_of_encode within bound h
    have lt := f.lt
    obtain ⟨below, fails⟩ := hi (n - label.length - 1) (cells b) passes (leafy.below b) (within.right b)
      (by omega) (each b) (by omega)
    have sibling : c.reference (1 - b.toNat) = some (cells !b) := by
      rw [← f.reference Shape.pfx_lawful.toSpelled (!b)]
      cases b <;> rfl
    rw [insert_goes f]
    refine ⟨fun c' => ?_, fails.bind fun child _ => rebuildFork_fails label n sibling child⟩
    rw [bind_eq_ok, Radix.insert_fork, Shape.encode_update each]
    simp only [below, rebuildFork_eq, (f.passable Shape.pfx_lawful).rebuild]

-- Any other key collides.
theorem insert_collides (leafy : Leafy t) (within : t.Within n) (close : ¬t.Apart key)
    (bound : n ≤ maxBits) (h : Shape.pfx.encode t n = .ok c) (enough : n < passes) :
    ∃ e, Collision e ∧ insert value passes c n key = .error e := by
  refine Radix.clash (motive := fun t key => ∀ n c passes, Leafy t → t.Within n → n ≤ maxBits →
    Shape.pfx.encode t n = .ok c → n < passes →
    ∃ e, Collision e ∧ insert value passes c n key = .error e)
    ?_ ?_ ?_ ?_ close n c passes leafy within bound h enough
  all_goals clear leafy within close bound h enough
  · intro t key b labelRest label_eq n c passes leafy within bound h enough
    obtain ⟨passes, rfl⟩ := Nat.exists_eq_add_one_of_ne_zero (Nat.ne_zero_of_lt enough)
    obtain ⟨bit, rest, marked⟩ := marked_of_encode leafy within bound h
    refine ⟨_, .inl rfl, ?_⟩
    rw [insert_marked marked, label_eq, append_diverges]
    simp [failIf]
    rfl
  · intro label entry b rest n c passes leafy within bound h enough
    obtain ⟨passes, rfl⟩ := Nat.exists_eq_add_one_of_ne_zero (Nat.ne_zero_of_lt enough)
    obtain ⟨marked, _⟩ := marked_leaf leafy bound h
    refine ⟨_, .inr rfl, ?_⟩
    rw [insert_marked marked, diverges_append]
    simp [failIf]
    rfl
  · intro label child n c passes leafy within bound h enough
    obtain ⟨passes, rfl⟩ := Nat.exists_eq_add_one_of_ne_zero (Nat.ne_zero_of_lt enough)
    obtain ⟨cells, each, f⟩ := Shape.forked_of_encode within bound h
    refine ⟨_, .inl rfl, ?_⟩
    rw [insert_marked (marked_fork f), diverges_self]
    simp [failIf]
    rfl
  · intro label child b rest _ hi n c passes leafy within bound h enough
    obtain ⟨passes, rfl⟩ := Nat.exists_eq_add_one_of_ne_zero (Nat.ne_zero_of_lt enough)
    obtain ⟨cells, each, f⟩ := Shape.forked_of_encode within bound h
    have lt := f.lt
    obtain ⟨e, collision, failed⟩ := hi (n - label.length - 1) (cells b) passes (leafy.below b)
      (within.right b) (by omega) (each b) (by omega)
    refine ⟨e, collision, ?_⟩
    rw [insert_goes f, failed]
    rfl

end Insert

section Remove

variable {cells : Bool → Cell}

-- What a fork does with what is left of one of its branches.
def mend (label : List Bool) (n : Nat) (c : Cell) (branch : Nat) : Removal → Except CellError Removal
  | .notFound      => return .notFound
  | .gone          => do
    let cell ← collapse c n label (1 - branch)
    return .rebuilt cell
  | .rebuilt child => do
    let cell ← rebuildFork label n c branch child
    return .rebuilt cell

theorem removeFrom_marked (marked : Marked c label n bit rest) :
    removeFrom (passes + 1) c n key =
      if (diverges label key).isSome ∨ key.length < label.length then return .notFound
      else if !bit then
        if (key.drop label.length).isEmpty then return .gone else return .notFound
      else (do
        failIf (n - label.length = 0) noBitsLeft
        if (key.drop label.length).isEmpty then return .notFound
        else
          let branch := ((key.drop label.length).getD 0 false).toNat
          let child ← okOr (c.reference branch) noBranch
          removeFrom passes child (n - label.length - 1) ((key.drop label.length).drop 1) >>=
            mend label n c branch) := by
  have ⟨s, s', read, mark⟩ := marked.readLabelVec
  rw [removeFrom, failIf_bind_of_not (by simp [marked.ordinary]), read, ok_bind]
  dsimp only
  rw [mark, ok_bind]
  rfl

theorem removeFrom_goes (f : Shape.Forked Shape.pfx c label n cells) (b : Bool) (rest : List Bool) :
    removeFrom (passes + 1) c n (label ++ b :: rest) =
      removeFrom passes (cells b) (n - label.length - 1) rest >>= mend label n c b.toNat := by
  have room : n - label.length ≠ 0 := Nat.sub_ne_zero_of_lt f.lt
  have branch := f.reference Shape.pfx_lawful.toSpelled b
  rw [removeFrom_marked (marked_fork f), if_neg (by simp)]
  simp [failIf, room, branch, okOr]

-- The surviving branch is merged as in a dictionary of fixed width.
theorem collapse_eq_ok (f : Shape.Forked Shape.pfx c label n cells) {b : Bool}
    (within : t.Within (n - label.length - 1))
    (h : Shape.pfx.encode t (n - label.length - 1) = .ok (cells !b)) :
    collapse c n label (1 - b.toNat) = .ok c' ↔
      Shape.pfx.encode (t.relabel (label ++ (!b) :: t.label)) n = .ok c' := by
  have lt := f.lt
  have bound := f.bound
  have shorter := within.label_le
  have ⟨rest, node⟩ := Shape.node_of_encode Shape.pfx_lawful.pens (by omega) h
  have ⟨s, read, ahead, refs⟩ := node.readLabel
  have sibling : c.reference (1 - b.toNat) = some (cells !b) := by
    rw [← f.reference Shape.pfx_lawful.toSpelled (!b)]
    cases b <;> rfl
  have le : (label ++ (!b) :: t.label).length ≤ n := by
    simp only [List.length_append, List.length_cons]
    omega
  have writes := (storeLabel_writes le (lt_of_le_maxBits bound)).seq
    (ahead ▸ refs ▸ Builder.storeSlice_writes s)
  have other : decide (1 - b.toNat = 1) = !b := by cases b <;> rfl
  have room : n - label.length ≠ 0 := Nat.sub_ne_zero_of_lt lt
  rw [Shape.encode_relabel Shape.pfx_lawful.pens within (by omega) bound h node (by simp; omega),
    and_iff_right le, ← List.nil_append (cells !b).refs, ← writes.build, collapse, sibling]
  simp only [okOr, pure_bind]
  rw [failIf_bind_of_not (by simp [node.ordinary]), failIf_bind_of_not room, read, ok_bind, other]
  simp only [List.append_assoc, List.singleton_append]

theorem removeFrom_absent (leafy : Leafy t) (within : t.Within n) (bound : n ≤ maxBits)
    (h : Shape.pfx.encode t n = .ok c) (enough : n < passes) (absent : t.find key = none) :
    removeFrom passes c n key = .ok .notFound := by
  refine Radix.descent (motive := fun t key => ∀ n c passes, Leafy t → t.Within n → n ≤ maxBits →
    Shape.pfx.encode t n = .ok c → n < passes → t.find key = none →
    removeFrom passes c n key = .ok .notFound)
    ?_ ?_ ?_ ?_ ?_ ?_ n c passes leafy within bound h enough absent
  all_goals clear leafy within bound h enough absent
  · intro t shared b labelRest keyRest label_eq n c passes leafy within bound h enough _
    obtain ⟨passes, rfl⟩ := Nat.exists_eq_add_one_of_ne_zero (Nat.ne_zero_of_lt enough)
    obtain ⟨bit, rest, marked⟩ := marked_of_encode leafy within bound h
    rw [removeFrom_marked marked, if_pos (by simp [label_eq])]
    rfl
  · intro t key b labelRest label_eq n c passes leafy within bound h enough _
    obtain ⟨passes, rfl⟩ := Nat.exists_eq_add_one_of_ne_zero (Nat.ne_zero_of_lt enough)
    obtain ⟨bit, rest, marked⟩ := marked_of_encode leafy within bound h
    rw [removeFrom_marked marked, if_pos (by simp [label_eq])]
    rfl
  · intro key entry n c passes _ _ _ _ _ absent
    simp [Radix.find] at absent
  · intro label entry b rest n c passes leafy within bound h enough _
    obtain ⟨passes, rfl⟩ := Nat.exists_eq_add_one_of_ne_zero (Nat.ne_zero_of_lt enough)
    obtain ⟨marked, _⟩ := marked_leaf leafy bound h
    rw [removeFrom_marked marked, if_neg (by simp)]
    simp
  · intro label child n c passes leafy within bound h enough _
    obtain ⟨passes, rfl⟩ := Nat.exists_eq_add_one_of_ne_zero (Nat.ne_zero_of_lt enough)
    obtain ⟨cells, each, f⟩ := Shape.forked_of_encode within bound h
    have room : n - label.length ≠ 0 := Nat.sub_ne_zero_of_lt f.lt
    rw [removeFrom_marked (marked_fork f), if_neg (by simp)]
    simp [failIf, room]
  · intro label child b rest hi n c passes leafy within bound h enough absent
    obtain ⟨passes, rfl⟩ := Nat.exists_eq_add_one_of_ne_zero (Nat.ne_zero_of_lt enough)
    obtain ⟨cells, each, f⟩ := Shape.forked_of_encode within bound h
    have lt := f.lt
    have below := hi (n - label.length - 1) (cells b) passes (leafy.below b) (within.right b) (by omega)
      (each b) (by omega) (by simpa using absent)
    rw [removeFrom_goes f, below]
    rfl

theorem removeFrom_eq_ok (leafy : Leafy t) (within : t.Within n) (bound : n ≤ maxBits)
    (h : Shape.pfx.encode t n = .ok c) (enough : n < passes) {entry : Shape.Entry Bool}
    (found : t.find key = some entry) {r : Removal} :
    removeFrom passes c n key = .ok r ↔
      match t.erase key with
      | none    => .gone = r
      | some t' => ∃ c', Shape.pfx.encode t' n = .ok c' ∧ .rebuilt c' = r := by
  refine Radix.walk (motive := fun t key => ∀ n c passes r, Leafy t → t.Within n → n ≤ maxBits →
    Shape.pfx.encode t n = .ok c → n < passes → t.find key = some entry →
    (removeFrom passes c n key = .ok r ↔
      match t.erase key with
      | none    => .gone = r
      | some t' => ∃ c', Shape.pfx.encode t' n = .ok c' ∧ .rebuilt c' = r))
    ?_ ?_ ?_ (Radix.apart_of_find found) n c passes r leafy within bound h enough found
  all_goals clear leafy within bound h enough found
  · intro t shared b labelRest keyRest label_eq n c passes r _ _ _ _ _ found
    rw [Radix.find_eq_none_of_leaves label_eq] at found
    cases found
  · intro key entry n c passes r leafy within bound h enough _
    obtain ⟨passes, rfl⟩ := Nat.exists_eq_add_one_of_ne_zero (Nat.ne_zero_of_lt enough)
    obtain ⟨marked, _⟩ := marked_leaf leafy bound h
    rw [removeFrom_marked marked, if_neg (by simp)]
    simp [Radix.erase]
  · intro label child b rest _ hi n c passes r leafy within bound h enough found
    obtain ⟨passes, rfl⟩ := Nat.exists_eq_add_one_of_ne_zero (Nat.ne_zero_of_lt enough)
    obtain ⟨cells, each, f⟩ := Shape.forked_of_encode within bound h
    have lt := f.lt
    have below (r : Removal) := hi (n - label.length - 1) (cells b) passes r (leafy.below b)
      (within.right b) (by omega) (each b) (by omega) (by simpa using found)
    rw [removeFrom_goes f, bind_eq_ok, Radix.erase_fork]
    simp only [below]
    cases (child b).erase rest
    case none =>
      simp only [exists_eq_left', mend, bind_eq_ok, collapse_eq_ok f (within.right !b) (each !b), pure_eq_ok]
    case some t' =>
      simp only [Shape.encode_update each, ← (f.passable Shape.pfx_lawful).rebuild, ← rebuildFork_eq]
      constructor
      · rintro ⟨_, ⟨child, encoded, rfl⟩, mended⟩
        obtain ⟨cell, built, same⟩ := bind_eq_ok.mp mended
        exact ⟨cell, ⟨child, encoded, built⟩, pure_eq_ok.mp same⟩
      · rintro ⟨cell, ⟨child, encoded, built⟩, same⟩
        exact ⟨_, ⟨child, encoded, rfl⟩, bind_eq_ok.mpr ⟨cell, built, pure_eq_ok.mpr same⟩⟩

end Remove

end PfxDict

end TonNet
