import TonNet.Cell.Dict.Theorems.Plain
import TonNet.Cell.Dict.Theorems.Prefix

-- A prefix-code dictionary is a canonical form of the prefix-free map it holds.

namespace TonNet

open Fallible Method

namespace PfxDictIter

open Shape

abbrev Item := Bytes × Nat × DictEntry

-- What the walk makes of one entry.
def look : Pending → Except CellError (Item ⊕ Pending × Pending)
  | (node, front, remaining) => do
    failIf node.isExotic .pruned
    let (label, slice) ← (readLabel remaining).call node.parse
    let (isFork, slice) ← Slice.loadBit.call slice
    let key ← front.extend label
    if !isFork then return .inl (pack key, key.length, ⟨node, node.bits - slice.remainingBits⟩)
    else
      failIf (remaining - label.length = 0) PfxDict.noBitsLeft
      let entries ← branches node key (remaining - label.length - 1)
      return .inr entries

theorem stepFrom_cons (passes : Nat) (entry : Pending) (rest : List Pending) :
    ∃ after, (stepFrom (passes + 1)).outcome (entry :: rest) =
      Unfold.goesOn (stepFrom passes) rest after (look entry) := by
  obtain ⟨node, front, remaining⟩ := entry
  rw [stepFrom, look]
  simp only [outcome_bind, outcome_get, outcome_set, outcome_ofExcept]
  by_cases exotic : node.isExotic
  case pos =>
    simp only [failIf, if_pos exotic]
    exact ⟨_, rfl⟩
  case neg =>
    simp only [failIf, if_neg exotic, outcome_pure, pure_bind]
    cases (readLabel remaining).call node.parse
    case error => exact ⟨_, rfl⟩
    case ok read =>
      obtain ⟨label, slice⟩ := read
      simp only [ok_bind]
      cases Slice.loadBit.call slice
      case error => exact ⟨_, rfl⟩
      case ok mark =>
        obtain ⟨isFork, slice⟩ := mark
        simp only [ok_bind]
        cases front.extend label
        case error => exact ⟨_, rfl⟩
        case ok key =>
          simp only [ok_bind]
          cases isFork
          case false => exact ⟨rest, rfl⟩
          case true =>
            obtain ⟨after, pushed⟩ := outcome_branches node key (remaining - label.length - 1) rest
            by_cases spent : remaining - label.length = 0
            case pos =>
              simp only [if_pos spent]
              exact ⟨rest, rfl⟩
            case neg =>
              simp only [if_neg spent, Bool.not_true, Bool.false_eq_true, if_false, outcome_bind, pushed,
                pure_bind]
              cases branches node key (remaining - label.length - 1) <;> exact ⟨after, rfl⟩

theorem look_walks : Unfold.Walks look stepFrom :=
  .of_cons (fun _ => rfl) stepFrom_cons

theorem look_fork {entry left right : Pending} (h : look entry = .ok (.inr (left, right))) :
    left.2.2 < entry.2.2 ∧ left.1.subcells.length + right.1.subcells.length < entry.1.subcells.length := by
  obtain ⟨node, front, n⟩ := entry
  rw [look, failIf_bind_eq_ok] at h
  obtain ⟨_, h⟩ := h
  have ⟨⟨label, s⟩, _, h⟩ := bind_eq_ok.mp h
  have ⟨⟨isFork, s'⟩, _, h⟩ := bind_eq_ok.mp h
  have ⟨key, _, h⟩ := bind_eq_ok.mp h
  cases isFork
  case false => cases h
  case true =>
    have ⟨room, h⟩ := failIf_bind_eq_ok.mp h
    have ⟨entries, below, h⟩ := bind_eq_ok.mp h
    obtain ⟨cells, branch, rfl⟩ := (branches_eq_ok (room_of_branches below)).mp below
    cases h
    refine ⟨?_, subcells_length_lt (branch false) (branch true)⟩
    dsimp only
    omega

theorem look_falls : Unfold.Falls look (fun (_, _, n) => n) fun (c, _, _) => c.subcells.length where
  lower _ _ _ h := (look_fork h).left
  smaller _ _ _ h := (look_fork h).right
  pos entry := List.length_pos_of_mem entry.1.self_mem_subcells

theorem step_called (stack : List Pending) :
    Unfold.Called look (fun (c, _, _) => c.subcells.length) stack (step.outcome stack) := by
  rw [step, outcome_bind, outcome_get]
  refine look_walks.called look_falls (fun entry h => ?_) (Nat.succ_pos _)
  rw [Option.mem_def.mp h]
  exact Nat.lt_succ_self _

theorem collect_done (passes : Nat) (stack : List Pending) : collect passes ⟨stack, true⟩ = [] := by
  cases passes <;> rfl

theorem collect_eq (passes : Nat) (stack : List Pending) :
    collect passes ⟨stack, false⟩ = Unfold.collect step passes stack := by
  induction passes generalizing stack
  case zero => rfl
  case succ passes hi =>
    rw [collect, Unfold.collect, next, if_neg (by simp)]
    cases step.outcome stack
    case mk result after =>
      rcases result with e | _ | item
      case error => exact congrArg _ (collect_done passes after)
      case ok.none => rfl
      case ok.some => exact congrArg _ (hi after)

theorem runs_items (dict : PfxDict) : Unfold.Runs look dict.iter.stack dict.iter.items := by
  have same : dict.iter.items = Unfold.collect step _ dict.iter.stack := collect_eq _ _
  rw [same]
  exact Unfold.runs_collect step_called (by simp)

-- What the walk yields for an entry of the tree.
structure Yields (front : Label) (entry : List Bool × Entry Bool) (item : Item) : Prop where
  key   : item.1 = pack (front ++ entry.1)
  width : item.2.1 = (front ++ entry.1).length
  value : item.2.2.value = .ok entry.2.value

theorem leaves_of_encode [Sha256] {t : Radix (Entry Bool)} {c : Cell} {n : Nat} {front : Label}
    (leafy : PfxDict.Leafy t) (within : t.Within n) (bound : n ≤ maxBits)
    (h : Shape.pfx.encode t n = .ok c) (room : front.length + n ≤ maxBits) :
    ∃ shown, Unfold.Leaves look (c, front, n) shown ∧
      List.Forall₂ (Yields front) t.entries shown := by
  induction t generalizing c n front
  case leaf label entry =>
    obtain ⟨marked, value⟩ := PfxDict.marked_leaf leafy bound h
    obtain ⟨s, s', read, mark, ahead⟩ := marked.opens (readLabel n) (by simp)
    have le := marked.label_le
    have extended : front.extend label = .ok (front ++ label) := extend_eq_ok (by simp; omega)
    have seen : look (c, front, n) =
        .ok (.inl (pack (front ++ label), (front ++ label).length, ⟨c, c.bits - s'.remainingBits⟩)) := by
      rw [look, failIf_bind_of_not (by simp [marked.ordinary]), read, ok_bind]
      simp only [mark, ok_bind, extended]
      rfl
    exact ⟨_, .item seen, .cons ⟨rfl, rfl, value s' ahead⟩ .nil⟩
  case fork label child hi =>
    obtain ⟨cells, each, f⟩ := forked_of_encode within bound h
    have lt := f.lt
    have marked := PfxDict.marked_fork f
    obtain ⟨s, s', read, mark, ahead⟩ := marked.opens (readLabel n) (by simp)
    have extended : front.extend label = .ok (front ++ label) := extend_eq_ok (by simp; omega)
    have below : branches c (front ++ label) (n - label.length - 1) = .ok _ :=
      (branches_eq_ok (by simp; omega)).mpr ⟨cells, f.reference pfx_lawful.toSpelled, rfl⟩
    have seen : look (c, front, n) = .ok (.inr
        ((cells false, front ++ label ++ [false], n - label.length - 1),
          (cells true, front ++ label ++ [true], n - label.length - 1))) := by
      rw [look, failIf_bind_of_not (by simp [marked.ordinary]), read, ok_bind]
      simp only [mark, ok_bind, extended]
      rw [if_neg (by simp), failIf_bind_of_not (Nat.sub_ne_zero_of_lt lt), below]
      rfl
    have hi (b : Bool) : ∃ shown,
        Unfold.Leaves look (cells b, front ++ label ++ [b], n - label.length - 1) shown ∧
          List.Forall₂ (Yields (front ++ label ++ [b])) (child b).entries shown :=
      hi b (leafy.below b) (within.right b) (by omega) (each b) (by simp; omega)
    choose shown leaves yields using hi
    refine ⟨_, .fork seen (leaves false) (leaves true), ?_⟩
    have lifted (b : Bool) : List.Forall₂ (Yields front)
        ((child b).entries.map fun entry => (label ++ b :: entry.1, entry.2)) (shown b) := by
      rw [List.forall₂_map_left_iff]
      refine (yields b).imp fun entry item h => ⟨?_, ?_, h.value⟩
      · simpa using h.key
      · simpa using h.width
    simp only [Radix.entries, List.flatMap_cons, List.flatMap_nil, List.append_nil]
    exact List.rel_append (lifted false) (lifted true)

end PfxDictIter

namespace PfxDict

open Shape

variable [Sha256] {dict dict' : PfxDict} {m : List Bool → Option Builder} {bits : List Bool} {n : Nat}
  {root root' : Option Cell} {key : Bytes} {keyLen : Nat} {value : Builder}

-- The root of a prefix-free map.
def Roots (root : Option Cell) (n : Nat) (m : List Bool → Option Builder) : Prop :=
  match root with
  | none      => ∀ key, m key = none
  | some root => ∃ t : Radix (Entry Bool), t.Within n ∧ (∀ key, t.find key = (m key).map (Entry.mk false)) ∧
    Shape.pfx.encode t n = .ok root

omit [Sha256] in
theorem leafy_of_find {t : Radix (Entry Bool)} (found : ∀ key, t.find key = (m key).map (Entry.mk false)) :
    Leafy t := by
  intro key entry here
  have ⟨_, _, same⟩ := Option.map_eq_some_iff.mp ((found key).symm.trans here)
  exact same ▸ rfl

theorem roots_iff {t : Radix (Entry Bool)} (within : t.Within n)
    (found : ∀ key, t.find key = (m key).map (Entry.mk false)) :
    Roots root n m ↔ ∃ c, Shape.pfx.encode t n = .ok c ∧ some c = root := by
  constructor
  · intro h
    cases root
    case none =>
      have ⟨key, v, here⟩ := t.exists_find
      rw [found key, h key] at here
      cases here
    case some c =>
      have ⟨t', _, found', built⟩ := h
      obtain rfl : t = t' := Radix.ext_find fun key => (found key).trans (found' key).symm
      exact ⟨c, built, rfl⟩
  · rintro ⟨c, built, rfl⟩
    exact ⟨t, within, found, built⟩

theorem Roots.unique (h : Roots root n m) (h' : Roots root' n m) : root = root' := by
  cases root
  case none =>
    cases root'
    case none => rfl
    case some c =>
      obtain ⟨t, within, found, _⟩ := h'
      have ⟨_, _, same⟩ := (roots_iff within found).mp h
      cases same
  case some c =>
    obtain ⟨t, within, found, built⟩ := h
    obtain ⟨_, built', rfl⟩ := (roots_iff within found).mp h'
    exact congrArg some (Except.ok.inj (built.symm.trans built'))

-- Some other key of the map is a beginning of `bits`, or goes on from it.
def Collides (m : List Bool → Option Builder) (bits : List Bool) : Prop :=
  ∃ k value, m k = some value ∧ k ≠ bits ∧ (k <+: bits ∨ bits <+: k)

omit [Sha256] in
theorem apart_iff {t : Radix (Entry Bool)} (found : ∀ key, t.find key = (m key).map (Entry.mk false)) :
    t.Apart bits ↔ ¬Collides m bits := by
  constructor
  · rintro apart ⟨k, value, here, other, along⟩
    exact other (apart k ⟨false, value⟩ (by rw [found, here]; rfl) along)
  · intro free k entry here along
    by_contra other
    have ⟨value, there, _⟩ := Option.map_eq_some_iff.mp ((found k).symm.trans here)
    exact free ⟨k, value, there, other, along⟩

-- The new root with a value stored.
def stored (root : Option Cell) (n : Nat) (bits : List Bool) (value : Builder) : Except CellError Cell :=
  match root with
  | none      => leafCell bits n value
  | some root => insert value (n + 1) root n bits

omit [Sha256] in
theorem map_update (bits : List Bool) (x : Option Builder) (key : List Bool) :
    (Function.update m bits x key).map (Entry.mk false) =
      if key = bits then x.map (Entry.mk false) else (m key).map (Entry.mk false) := by
  rw [Function.update_apply]
  split <;> rfl

theorem stored_eq_ok (h : Roots root n m) (bound : n ≤ maxBits) (le : bits.length ≤ n)
    (free : ¬Collides m bits) : (∃ c, stored root n bits value = .ok c ∧ some c = root') ↔
      Roots root' n (Function.update m bits (some value)) := by
  cases root
  case none =>
    refine (roots_iff (t := .leaf bits ⟨false, value⟩) le fun key => ?_).symm
    rw [map_update, h key, Radix.find]
    split <;> rfl
  case some root =>
    obtain ⟨t, within, found, built⟩ := h
    have apart := (apart_iff found).mpr free
    obtain ⟨spec, _⟩ : (∀ c', insert value (n + 1) root n bits = .ok c' ↔ _) ∧ _ :=
      insert_eq_ok (leafy_of_find found) within apart bound built (Nat.lt_succ_self n)
    have inserted (key : List Bool) : (t.insert bits ⟨false, value⟩).find key =
        (Function.update m bits (some value) key).map (Entry.mk false) := by
      rw [map_update, Radix.find_insert apart, found]
      rfl
    rw [roots_iff (within.insert apart le) inserted]
    exact exists_congr fun c => and_congr_left fun _ => spec c

theorem stored_fails (h : Roots root n m) (bound : n ≤ maxBits) (free : ¬Collides m bits) :
    Fails Unbuilt (stored root n bits value) := by
  cases root
  case none => exact leafCell_fails _ _ _
  case some root =>
    obtain ⟨t, within, found, built⟩ := h
    have apart := (apart_iff found).mpr free
    exact (insert_eq_ok (leafy_of_find found) within apart bound built (Nat.lt_succ_self n)).right

theorem stored_collides (h : Roots root n m) (bound : n ≤ maxBits) (collides : Collides m bits) :
    ∃ e, Collision e ∧ stored root n bits value = .error e := by
  cases root
  case none =>
    have ⟨k, _, here, _⟩ := collides
    rw [h k] at here
    cases here
  case some root =>
    obtain ⟨t, within, found, built⟩ := h
    exact insert_collides (leafy_of_find found) within (fun apart => (apart_iff found).mp apart collides)
      bound built (Nat.lt_succ_self n)

-- What is left of a root without a key, and whether it was there.
def removed (root : Option Cell) (n : Nat) (bits : List Bool) : Except CellError (Bool × Option Cell) :=
  match root with
  | none      => return (false, none)
  | some root => do
    match ← removeFrom (n + 1) root n bits with
    | .notFound     => return (false, some root)
    | .gone         => return (true, none)
    | .rebuilt cell => return (true, some cell)

theorem removed_absent (h : Roots root n m) (bound : n ≤ maxBits) (absent : m bits = none) :
    removed root n bits = .ok (false, root) := by
  cases root
  case none => rfl
  case some root =>
    obtain ⟨t, within, found, built⟩ := h
    have gone := removeFrom_absent (leafy_of_find found) within bound built (Nat.lt_succ_self n)
      ((found bits).trans (by rw [absent]; rfl))
    rw [removed, gone]
    rfl

theorem removed_eq_ok (h : Roots root n m) (bound : n ≤ maxBits) (present : m bits = some value)
    {r : Bool × Option Cell} :
    removed root n bits = .ok r ↔ r.1 = true ∧ Roots r.2 n (Function.update m bits none) := by
  cases root
  case none =>
    rw [h bits] at present
    cases present
  case some root =>
    obtain ⟨t, within, found, built⟩ := h
    have here : t.find bits = some ⟨false, value⟩ := by rw [found, present]; rfl
    have apart := Radix.apart_of_find here
    have spec {left : Removal} : removeFrom (n + 1) root n bits = .ok left ↔ _ :=
      removeFrom_eq_ok (leafy_of_find found) within bound built (Nat.lt_succ_self n) here
    have erased (key : List Bool) : (t.erase bits).bind (·.find key) =
        (Function.update m bits none key).map (Entry.mk false) := by
      rw [Radix.find_erase apart here, map_update, found]
      rfl
    obtain ⟨gone, left⟩ := r
    rw [removed, bind_eq_ok]
    simp only [spec]
    cases e : t.erase bits
    case none =>
      rw [e] at erased
      have empty : Roots none n (Function.update m bits none) := fun key =>
        Option.map_eq_none_iff.mp (erased key).symm
      constructor
      · rintro ⟨_, rfl, same⟩
        cases same
        exact ⟨rfl, empty⟩
      · rintro ⟨rfl, roots⟩
        cases roots.unique empty
        exact ⟨_, rfl, rfl⟩
    case some t' =>
      rw [e] at erased
      have within' := within.erase apart here e
      simp only [roots_iff within' erased]
      constructor
      · rintro ⟨_, ⟨c, encoded, rfl⟩, same⟩
        cases same
        exact ⟨rfl, c, encoded, rfl⟩
      · rintro ⟨rfl, c, encoded, rfl⟩
        exact ⟨_, ⟨c, encoded, rfl⟩, rfl⟩

omit [Sha256] in
theorem pfxKeyOf_eq_ok {max : Nat} : pfxKeyOf key keyLen max = .ok bits ↔
    keyLen ≤ max ∧ (keyLen + 7) / 8 ≤ key.length ∧ firstBits key keyLen = bits := by
  rw [pfxKeyOf, failIf_bind_eq_ok, failIf_bind_eq_ok, not_lt, not_lt, pure_eq_ok]
  rfl

theorem set_eq_commit : set key keyLen value = Method.commit fun dict => do
    let bits ← pfxKeyOf key keyLen dict.keyBits
    let root ← stored dict.root dict.keyBits bits value
    return ((), { dict with root := some root }) := by
  refine Method.ext fun dict => ?_
  simp only [outcome_commit, set, outcome_bind, outcome_get, outcome_ofExcept]
  cases pfxKeyOf key keyLen dict.keyBits
  case error => rfl
  case ok bits =>
    obtain ⟨root, keyBits, le⟩ := dict
    cases root
    case none =>
      simp only [ok_bind, stored]
      cases leafCell bits keyBits value <;> rfl
    case some root =>
      simp only [ok_bind, stored]
      cases insert value (keyBits + 1) root keyBits bits <;> rfl

theorem remove_eq_commit : remove key keyLen = Method.commit fun dict => do
    let bits ← pfxKeyOf key keyLen dict.keyBits
    let (found, root) ← removed dict.root dict.keyBits bits
    return (found, { dict with root }) := by
  refine Method.ext fun dict => ?_
  simp only [outcome_commit, remove, outcome_bind, outcome_get, outcome_ofExcept]
  cases pfxKeyOf key keyLen dict.keyBits
  case error => rfl
  case ok bits =>
    obtain ⟨root, keyBits, le⟩ := dict
    cases root
    case none => rfl
    case some root =>
      simp only [ok_bind, removed, outcome_bind, outcome_ofExcept]
      generalize removeFrom (keyBits + 1) root keyBits bits = left
      cases left
      case error => rfl
      case ok left => cases left <;> rfl

-- A dictionary that holds a map.
def Holds (dict : PfxDict) (m : List Bool → Option Builder) : Prop :=
  Roots dict.root dict.keyBits m

-- The key that can be taken from bytes.
structure Named (dict : PfxDict) (key : Bytes) (keyLen : Nat) : Prop where
  fits : keyLen ≤ dict.keyBits
  long : (keyLen + 7) / 8 ≤ key.length

omit [Sha256] in
theorem named_of_ends {α : Type} {g : PfxDict → List Bool → Except CellError (α × PfxDict)} {a : α}
    (ends : (Method.commit fun dict => do
      let bits ← pfxKeyOf key keyLen dict.keyBits
      g dict bits).Ends dict a dict') :
    dict.Named key keyLen ∧ g dict (firstBits key keyLen) = .ok (a, dict') := by
  rw [ends_commit, bind_eq_ok] at ends
  obtain ⟨_, named, run⟩ := ends
  obtain ⟨fits, long, rfl⟩ := pfxKeyOf_eq_ok.mp named
  exact ⟨⟨fits, long⟩, run⟩

theorem set_ends (h : dict.Holds m) (ends : (set key keyLen value).Ends dict () dict') :
    dict'.keyBits = dict.keyBits ∧ dict'.Holds (Function.update m (firstBits key keyLen) (some value)) := by
  rw [set_eq_commit] at ends
  have ⟨named, run⟩ := named_of_ends ends
  have ⟨root, built, same⟩ := bind_eq_ok.mp run
  cases same
  have free : ¬Collides m (firstBits key keyLen) := fun collides => by
    obtain ⟨_, _, failed⟩ : ∃ e, _ ∧ stored _ _ _ value = .error e :=
      stored_collides h dict.keyBits_le collides
    rw [failed] at built
    cases built
  exact ⟨rfl, (stored_eq_ok h dict.keyBits_le (by simpa using named.fits) free).mp ⟨root, built, rfl⟩⟩

theorem remove_ends (h : dict.Holds m) {found : Bool} (ends : (remove key keyLen).Ends dict found dict') :
    found = (m (firstBits key keyLen)).isSome ∧ dict'.keyBits = dict.keyBits ∧
      dict'.Holds (Function.update m (firstBits key keyLen) none) := by
  rw [remove_eq_commit] at ends
  have ⟨named, run⟩ := named_of_ends ends
  have ⟨⟨_, root⟩, left, same⟩ := bind_eq_ok.mp run
  cases same
  cases present : m (firstBits key keyLen)
  case none =>
    cases left.symm.trans (removed_absent h dict.keyBits_le present)
    refine ⟨rfl, rfl, ?_⟩
    rw [← present, Function.update_eq_self]
    exact h
  case some value =>
    have ⟨gone, roots⟩ := (removed_eq_ok h dict.keyBits_le present).mp left
    exact ⟨gone, rfl, roots⟩

-- A value is refused as a collision where there is one, and for no other reason.
theorem set_collides (h : dict.Holds m) (named : dict.Named key keyLen) :
    (∃ e, Collision e ∧ (set key keyLen value).outcome dict = (.error e, dict)) ↔
      Collides m (firstBits key keyLen) := by
  have bits := pfxKeyOf_eq_ok.mpr ⟨named.fits, named.long, rfl⟩
  rw [set_eq_commit]
  simp only [outcome_commit, bits, ok_bind]
  constructor
  · rintro ⟨e, collision, failed⟩
    by_contra free
    have fails : Fails Unbuilt (stored _ _ _ value) :=
      stored_fails h dict.keyBits_le free
    cases run : stored dict.root dict.keyBits (firstBits key keyLen) value
    case ok => simp [run] at failed
    case error e' =>
      rw [run] at failed
      cases failed
      exact not_collision (fails e run) collision
  · intro collides
    obtain ⟨e, collision, failed⟩ : ∃ e, _ ∧ stored _ _ _ value = .error e :=
      stored_collides h dict.keyBits_le collides
    exact ⟨e, collision, by rw [failed]; rfl⟩

-- What can be seen of a map that a dictionary holds: an exact key, the one key that begins a query, and
-- all entries in order.
structure Shows (dict : PfxDict) (m : List Bool → Option Builder) : Prop where
  free         : ∀ k k' value value', m k = some value → m k' = some value' → k <+: k' → k = k'
  get          : ∀ key keyLen, dict.Named key keyLen → ∃ found,
    dict.get key keyLen = .ok (answer found) ∧
    Option.Rel (fun value shown => shown.value = .ok value) (m (firstBits key keyLen)) found
  lookupPrefix : ∀ key keyLen, dict.Named key keyLen → ∃ found, dict.lookupPrefix key keyLen = .ok found ∧
    match found with
    | none       => ∀ k, m k ≠ none → ¬k <+: firstBits key keyLen
    | some found => ∃ k value, m k = some value ∧ k <+: firstBits key keyLen ∧ found.matched = k.length ∧
      found.entry.value = .ok value
  items        : ∃ (entries : List (List Bool × Builder)) (shown : List PfxDictIter.Item),
    (entries.map Prod.fst).Pairwise (· < ·) ∧ (∀ key value, (key, value) ∈ entries ↔ m key = some value) ∧
    dict.iter.items = shown.map .ok ∧
    List.Forall₂ (fun entry item => item.1 = pack entry.1 ∧ item.2.1 = entry.1.length ∧
      item.2.2.value = .ok entry.2) entries shown

section Shows

variable {t : Radix (Entry Bool)} {c : Cell}

omit [Sha256] in
theorem free_of_find (found : ∀ key, t.find key = (m key).map (Entry.mk false)) {k k' : List Bool}
    {v v' : Builder} (here : m k = some v) (here' : m k' = some v') (front : k <+: k') : k = k' := by
  have stored : t.find k = some ⟨false, v⟩ := by rw [found, here]; rfl
  have stored' : t.find k' = some ⟨false, v'⟩ := by rw [found, here']; rfl
  exact Radix.apart_of_find stored' k _ stored (.inl front)

omit [Sha256] in
theorem Shows.empty (none : ∀ key, m key = none) {le : n ≤ maxBits} : Shows ⟨.none, n, le⟩ m where
  free k _ _ _ here := by
    rw [none k] at here
    cases here
  get key keyLen named := by
    refine ⟨.none, ?_, none _ ▸ .none⟩
    rw [PfxDict.get, pfxKeyOf_eq_ok.mpr ⟨named.fits, named.long, rfl⟩]
    rfl
  lookupPrefix key keyLen named := by
    refine ⟨.none, ?_, fun k here => absurd (none k) here⟩
    rw [PfxDict.lookupPrefix, pfxKeyOf_eq_ok.mpr ⟨named.fits, named.long, rfl⟩]
    rfl
  items := ⟨[], [], .nil, fun key value => by simp [none key], rfl, .nil⟩

-- A descent for a key, in the cells of the tree.
theorem lookups (within : t.Within n) (found : ∀ key, t.find key = (m key).map (Entry.mk false))
    (built : Shape.pfx.encode t n = .ok c) {le : n ≤ maxBits} {dict : PfxDict} (same : ⟨some c, n, le⟩ = dict)
    (named : dict.Named key keyLen) : ∃ r, dict.lookupPrefix key keyLen = .ok r ∧
      dict.get key keyLen = .ok (answer (whole r keyLen)) ∧ Leads t (firstBits key keyLen) 0 r := by
  subst same
  have bits := pfxKeyOf_eq_ok.mpr ⟨named.fits, named.long, rfl⟩
  obtain ⟨r, run, leads⟩ : ∃ r, lookupPrefixFrom (firstBits key keyLen) (n + 1) c n 0 = .ok r ∧ _ :=
    lookupPrefixFrom_leads (leafy_of_find found) within le built List.drop_zero (by simp)
      (Nat.lt_succ_self _)
  have got := getFrom_of_lookupPrefixFrom run
  rw [firstBits_length] at got
  refine ⟨r, ?_, ?_, leads⟩
  · rw [lookupPrefix, bits]
    exact run
  · rw [get, bits]
    exact got

theorem Shows.tree (within : t.Within n) (found : ∀ key, t.find key = (m key).map (Entry.mk false))
    (built : Shape.pfx.encode t n = .ok c) {le : n ≤ maxBits} : Shows ⟨some c, n, le⟩ m where
  free _ _ _ _ here here' front := free_of_find found here here' front
  get key keyLen named := by
    have ⟨r, _, got, leads⟩ := lookups within found built rfl named
    have whole := leads.whole
    rw [firstBits_length, Nat.zero_add, found] at whole
    refine ⟨_, got, ?_⟩
    generalize PfxDict.whole r keyLen = shown at whole ⊢
    cases here : m (firstBits key keyLen)
    case none =>
      rw [here] at whole
      cases whole
      exact .none
    case some value =>
      rw [here] at whole
      cases whole
      case some value => exact .some value
  lookupPrefix key keyLen named := by
    have ⟨r, run, _, leads⟩ := lookups within found built rfl named
    refine ⟨r, run, ?_⟩
    cases r
    case none =>
      intro k here
      have ⟨value, here⟩ := Option.ne_none_iff_exists'.mp here
      exact leads k ⟨false, value⟩ (by rw [found, here]; rfl)
    case some r =>
      have ⟨k, entry, here, front, matched, value⟩ := leads
      obtain ⟨v, stored, rfl⟩ := Option.map_eq_some_iff.mp ((found k).symm.trans here)
      exact ⟨k, v, stored, front, by rw [matched, Nat.zero_add], value⟩
  items := by
    obtain ⟨shown, leaves, yields⟩ : ∃ shown, Unfold.Leaves PfxDictIter.look (c, [], n) shown ∧ _ :=
      PfxDictIter.leaves_of_encode (leafy_of_find found) within le built (by simpa using le)
    have runs := leaves.runs .done
    rw [List.append_nil] at runs
    refine ⟨t.entries.map fun (key, entry) => (key, entry.value), shown, ?_, fun key value => ?_,
      (PfxDictIter.runs_items _).unique runs, ?_⟩
    · rw [List.map_map]
      exact t.entries_sorted
    · simp only [List.mem_map, Prod.mk.injEq, Prod.exists, Radix.mem_entries, found,
        Option.map_eq_some_iff]
      constructor
      · rintro ⟨_, _, ⟨value, here, rfl⟩, rfl, rfl⟩
        exact here
      · exact fun here => ⟨key, _, ⟨value, here, rfl⟩, rfl, rfl⟩
    · rw [List.forall₂_map_left_iff]
      exact yields.imp fun entry item h => ⟨h.key, h.width, h.value⟩

theorem Holds.shows (h : dict.Holds m) : dict.Shows m := by
  obtain ⟨root, keyBits, le⟩ := dict
  cases root
  case none => exact .empty h
  case some c =>
    obtain ⟨t, within, found, built⟩ := h
    exact .tree within found built

end Shows

-- A change of a dictionary, and of a map.
inductive Change
  | set (key : Bytes) (keyLen : Nat) (value : Builder)
  | remove (key : Bytes) (keyLen : Nat)

def Change.run : Change → Method PfxDict CellError Unit
  | set key keyLen value => PfxDict.set key keyLen value
  | remove key keyLen    => do let _ ← PfxDict.remove key keyLen

def Change.on (m : List Bool → Option Builder) : Change → List Bool → Option Builder
  | set key keyLen value => Function.update m (firstBits key keyLen) (some value)
  | remove key keyLen    => Function.update m (firstBits key keyLen) none

theorem Change.ends (h : dict.Holds m) (change : Change) (ends : change.run.Ends dict () dict') :
    dict'.keyBits = dict.keyBits ∧ dict'.Holds (change.on m) := by
  cases change
  case set key keyLen value => exact set_ends h ends
  case remove key keyLen =>
    have ⟨found, _, removed, same⟩ := ends_bind.mp ends
    obtain ⟨_, rfl⟩ := ends_pure.mp same
    exact (remove_ends h removed).right

theorem changes_end (h : dict.Holds m) {changes : List Change}
    (ends : (changes.forM Change.run).Ends dict () dict') :
    dict'.keyBits = dict.keyBits ∧ dict'.Holds (changes.foldl Change.on m) := by
  induction changes generalizing dict m
  case nil =>
    obtain ⟨_, rfl⟩ := ends_pure.mp ends
    exact ⟨rfl, h⟩
  case cons change changes hi =>
    have ⟨_, between, first, rest⟩ := ends_bind.mp ends
    have ⟨width, held⟩ := change.ends h first
    have ⟨width', held'⟩ := hi held rest
    exact ⟨width'.trans width, held'⟩

-- A dictionary that was empty and then changed any number of times, and the map it should hold.
def Reaches (keyBits : Nat) (dict : PfxDict) (m : List Bool → Option Builder) : Prop :=
  ∃ (start : PfxDict) (changes : List Change), new keyBits = .ok start ∧
    (changes.forM Change.run).Ends start () dict ∧ changes.foldl Change.on (fun _ => none) = m

theorem Reaches.holds {keyBits : Nat} (h : Reaches keyBits dict m) :
    dict.keyBits = keyBits ∧ dict.Holds m := by
  obtain ⟨start, changes, opened, ends, rfl⟩ := h
  have ⟨width, empty⟩ : start.keyBits = keyBits ∧ start.Holds fun _ => none := by
    rw [new, fromRoot] at opened
    split at opened
    case isTrue => cases opened; exact ⟨rfl, fun _ => rfl⟩
    case isFalse => cases opened
  have ⟨width', held⟩ := changes_end empty ends
  exact ⟨width'.trans width, held⟩

-- Setting and removing keep a dictionary the canonical form of the prefix-free map it holds.
theorem reached_canonical {keyBits : Nat} (h : Reaches keyBits dict m) :
    dict.Shows m ∧
    (∀ key keyLen value, dict.Named key keyLen →
      ((∃ e, Collision e ∧ (set key keyLen value).outcome dict = (.error e, dict)) ↔
        Collides m (firstBits key keyLen))) ∧
    (∀ key keyLen value e dict', (set key keyLen value).outcome dict = (.error e, dict') → dict' = dict) ∧
    (∀ key keyLen value dict', (set key keyLen value).Ends dict () dict' →
      dict'.Shows (Function.update m (firstBits key keyLen) (some value))) ∧
    (∀ key keyLen found dict', (remove key keyLen).Ends dict found dict' →
      found = (m (firstBits key keyLen)).isSome ∧
      dict'.Shows (Function.update m (firstBits key keyLen) none)) ∧
    ∀ other, Reaches keyBits other m → other.root = dict.root := by
  have ⟨width, held⟩ := h.holds
  refine ⟨held.shows, fun _ _ _ named => set_collides held named, ?_, ?_, ?_, ?_⟩
  · intro key keyLen value e dict' failed
    rw [set_eq_commit] at failed
    exact commit_fails failed
  · exact fun _ _ _ _ ends => (set_ends held ends).right.shows
  · intro key keyLen found dict' ends
    have ⟨present, _, held⟩ := remove_ends held ends
    exact ⟨present, held.shows⟩
  · intro other reached
    have ⟨width', held'⟩ := reached.holds
    rw [Holds, width'] at held'
    rw [Holds, width] at held
    exact held'.unique held

end PfxDict

section Routes

attribute [local instance] Sha256.standard

-- Two routes of two bits each, in a dictionary of keys up to eight bits.
def routes (first second : Builder) : List PfxDict.Change :=
  [.set [0b10000000] 2 first, .set [0b11000000] 2 second]

def routesRun : Option (Nat × Bool) := do
  let (_, first) ← ((Builder.storeUint 0xaa 8).call .new).toOption
  let (_, second) ← ((Builder.storeUint 0xbb 8).call .new).toOption
  let start ← (PfxDict.new 8).toOption
  let (_, both) ← (((routes first second).forM PfxDict.Change.run).call start).toOption
  return (both.keyBits, both.root.isSome)

-- A third one that goes on from the first is refused.
theorem PfxDict.reached_canonical_routes : ∃ dict m, PfxDict.Reaches 8 dict m ∧
    PfxDict.Collides m (firstBits [0b10100000] 3) ∧
    ∃ e, PfxDict.Collision e ∧ (PfxDict.set [0b10100000] 3 .new).outcome dict = (.error e, dict) := by
  have run : routesRun = some (8, true) := by decide +kernel
  simp only [routesRun, Option.bind_eq_bind, Option.bind_eq_some_iff, toOption_eq_some,
    Option.pure_def, Option.some_inj, Prod.mk.injEq, Prod.exists] at run
  obtain ⟨_, first, _, _, second, _, start, opened, _, both, run, width, _⟩ := run
  have reached : PfxDict.Reaches 8 both ((routes first second).foldl PfxDict.Change.on fun _ => none) :=
    ⟨start, routes first second, opened, call_eq_ok.mp run, rfl⟩
  have collides : PfxDict.Collides ((routes first second).foldl PfxDict.Change.on fun _ => none)
      (firstBits [0b10100000] 3) :=
    ⟨firstBits [0b10000000] 2, first, rfl, by decide, .inl (by decide)⟩
  have ⟨_, refuses, _⟩ := PfxDict.reached_canonical reached
  exact ⟨both, _, reached, collides, (refuses _ _ _ ⟨by omega, by decide⟩).mpr collides⟩

end Routes

end TonNet
