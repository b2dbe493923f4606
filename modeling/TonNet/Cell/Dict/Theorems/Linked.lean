import TonNet.Cell.Dict.Theorems.Aug

-- Summaries that store references. They share the references of a node with the value of a leaf and
-- with the branches of a fork, which are found by their position from the front.

namespace TonNet

open Fallible Method Keyed Builder

-- A summary is written as some bits and references, the same wherever there is room for it, and is read
-- back as it was. What `code` has nothing for is never written.
structure Augmentation.Carries [Sha256] {ε : Type} (aug : Augmentation ε)
    (code : ε → Option (List Bool × List Cell)) : Prop where
  writes  : ∀ {e bits refs}, code e = some (bits, refs) → Writes (aug.write e) bits refs ()
  refuses : ∀ {e b b'}, code e = none → ¬(aug.write e).Ends b () b'
  reads   : ∀ {e bits refs}, code e = some (bits, refs) → Slice.Reads aug.read bits refs e

namespace Augmentation

variable {ε : Type}

-- The summary of a tree.
def total (aug : Augmentation ε) : Radix (Shape.Entry ε) → Except CellError ε
  | .leaf _ entry => return entry.extra
  | .fork _ child => do
    let left ← aug.total (child false)
    let right ← aug.total (child true)
    aug.combine left right

section Conditions

variable (aug : Augmentation ε) (code : ε → Option (List Bool × List Cell))

-- The summary of a tree is written without a reference.
def Bare (t : Radix (Shape.Entry ε)) : Prop :=
  ∃ e bits, aug.total t = .ok e ∧ code e = some (bits, [])

-- The forks on the way to a key have such summaries.
def Passes : Radix (Shape.Entry ε) → List Bool → Prop
  | .leaf _ _, _           => True
  | .fork label child, key => ∀ b rest, key = label ++ b :: rest →
    aug.Bare code (.fork label child) ∧ Passes (child b) rest

-- What is read off a cell is what a tree holds.
def Tells (c : Cell) (n : Nat) (t : Radix (Shape.Entry ε)) : Prop :=
  ∃ shown, aug.shape.Shows c n shown ∧ t.Match Shape.Stored shown

variable [Sha256]

-- No summary in the tree is written with a reference. Where the one of a fork is, it does no harm only
-- if the cells that it puts where the branches are looked for can themselves be read as the branches.
inductive Unlinked : Radix (Shape.Entry ε) → Nat → Prop
  | leaf {label : List Bool} {entry : Shape.Entry ε} {n : Nat} (bare : aug.Bare code (.leaf label entry)) :
    Unlinked (.leaf label entry) n
  | fork {label : List Bool} {child : Bool → Radix (Shape.Entry ε)} {n : Nat}
    (bare : aug.Bare code (.fork label child)) (each : ∀ b, Unlinked (child b) (n - label.length - 1)) :
    Unlinked (.fork label child) n
  | feigned {label : List Bool} {child : Bool → Radix (Shape.Entry ε)} {n : Nat} {e : ε} {bits : List Bool}
    {refs : List Cell} {cells : Bool → Cell} (carried : aug.total (.fork label child) = .ok e)
    (coded : code e = some (bits, refs)) (linked : refs ≠ [])
    (each : ∀ b, aug.shape.encode (child b) (n - label.length - 1) = .ok (cells b))
    (found : ∀ b : Bool, ∃ c, (refs ++ [cells false, cells true])[b.toNat]? = some c ∧
      aug.Tells c (n - label.length - 1) (child b)) :
    Unlinked (.fork label child) n

end Conditions

theorem tells_fork {aug : Augmentation ε} {c : Cell} {n : Nat} {label rest : List Bool}
    {child : Bool → Radix (Shape.Entry ε)} (lt : label.length < n) (node : Node c label n rest) :
    aug.Tells c n (.fork label child) ↔
      ∀ b : Bool, ∃ cell, c.refs[b.toNat]? = some cell ∧ aug.Tells cell (n - label.length - 1) (child b) := by
  constructor
  · rintro ⟨_, shows, stored⟩ b
    obtain _ | stored := stored
    cases shows
    case fork branch _ opens below => exact ⟨_, branch b, _, below b, stored b⟩
  · intro each
    choose found there shown shows stored using each
    obtain ⟨s, read, _⟩ := node.readLabel
    exact ⟨_, .fork ⟨node.ordinary, read⟩ lt there shows, .fork stored⟩

namespace Carries

variable [Sha256] {aug : Augmentation ε} {code : ε → Option (List Bool × List Cell)} {c : Cell} {n : Nat}
  {label key : List Bool} {entry : Shape.Entry ε} {child : Bool → Radix (Shape.Entry ε)}
  {cells : Bool → Cell} {t : Radix (Shape.Entry ε)} {e : ε} {bits : List Bool} {refs : List Cell}
  (carries : aug.Carries code)

include carries

theorem pens : aug.shape.Pens code where
  writes  := carries.writes
  refuses := carries.refuses

theorem extraOf {rest : List Bool} {others : List Cell} (node : Node c label n (bits ++ rest))
    (coded : code e = some (bits, refs)) (held : c.refs = refs ++ others) : extraOf aug.read c n = .ok e := by
  obtain ⟨s, skips, ahead, there⟩ := node.skipLabel
  obtain ⟨_, run, _⟩ := carries.reads coded s rest others ahead (there.trans held)
  rw [TonNet.extraOf, failIf_bind_of_not (by simp [node.ordinary])]
  exact value_of_ends (ends_bind.mpr ⟨(), s, skips, run⟩)

-- What the cell of a fork is made of, and its summary, which is the one of what is below it.
theorem fork_parts (bound : n ≤ maxBits) (total : ∀ b, aug.shape.encode (child b) (n - label.length - 1) =
      .ok (cells b) → TonNet.extraOf aug.read (cells b) (n - label.length - 1) = aug.total (child b))
    (each : ∀ b, aug.shape.encode (child b) (n - label.length - 1) = .ok (cells b))
    (built : aug.shape.fork label (cells false) (cells true) n (n - label.length - 1) = .ok c) :
    label.length ≤ n ∧ ∃ e bits refs, aug.total (.fork label child) = .ok e ∧ code e = some (bits, refs) ∧
      Makes (labelBits label n ++ bits) (refs ++ [cells false, cells true]) c := by
  obtain ⟨le, e, bits, refs, extra, coded, makes⟩ := (Shape.fork_iff carries.pens bound).mp built
  refine ⟨le, e, bits, refs, ?_, coded, makes⟩
  rw [Augmentation.total, ← total false (each false), ← total true (each true), ← extra]
  rfl

theorem total_of_encode (bound : n ≤ maxBits) (h : aug.shape.encode t n = .ok c) :
    TonNet.extraOf aug.read c n = aug.total t := by
  induction t generalizing n c
  case leaf label entry =>
    obtain ⟨le, bits, refs, coded, makes⟩ := (Shape.leaf_iff carries.pens bound).mp h
    exact carries.extraOf (makes.node le bound) coded makes.cell.right.right
  case fork label child hi =>
    obtain ⟨cells, each, built⟩ := Shape.encode_fork_eq_ok.mp h
    obtain ⟨le, e, bits, refs, carried, coded, makes⟩ :=
      carries.fork_parts bound (fun b => hi b (by omega)) each built
    have node : Node c label n (bits ++ []) := by simpa using makes.node le bound
    rw [carried]
    exact carries.extraOf node coded makes.cell.right.right

theorem forked (bound : n ≤ maxBits)
    (each : ∀ b, aug.shape.encode (child b) (n - label.length - 1) = .ok (cells b))
    (built : aug.shape.fork label (cells false) (cells true) n (n - label.length - 1) = .ok c) :
    label.length ≤ n ∧ ∃ e bits refs, aug.total (.fork label child) = .ok e ∧ code e = some (bits, refs) ∧
      Makes (labelBits label n ++ bits) (refs ++ [cells false, cells true]) c :=
  carries.fork_parts bound (fun _ => carries.total_of_encode (by omega)) each built

theorem leads (bound : n ≤ maxBits) (passes : aug.Passes code t key) : aug.shape.Leads t n key := by
  induction t generalizing n key
  case leaf => trivial
  case fork label child hi =>
    intro b rest same
    obtain ⟨⟨e, bits, carried, coded⟩, below⟩ := passes b rest same
    refine ⟨fun c cells each f => ?_, hi b (by omega) below⟩
    obtain ⟨le, e', bits', refs, carried', coded', makes⟩ := carries.forked bound each f.built
    obtain rfl := Except.ok.inj (carried.symm.trans carried')
    obtain ⟨rfl, rfl⟩ := Shape.code_unique coded coded'
    have node := makes.node le bound
    obtain ⟨s, read, ahead, _⟩ := node.readLabel
    obtain ⟨s', carried, spent, _⟩ := carries.reads coded s [] s.refsAhead (by simpa using ahead) rfl
    have empty : s'.remainingBits = 0 := by rw [← Slice.ahead_length, spent]; rfl
    have check : aug.shape.checkFork.Ends s () s' := ends_bind.mpr ⟨e, s', carried,
      ends_bind.mpr ⟨s', s', ends_get.mpr ⟨rfl, rfl⟩, ends_failIf.mpr ⟨by simp [empty], rfl⟩⟩⟩
    refine ⟨node.ordinary, ⟨s, s', read, check⟩, fun b => ?_⟩
    rw [Cell.reference, makes.cell.right.right]
    cases b <;> rfl

-- The references of the summary are the first of the value that is read.
theorem tells_leaf (spent : label.length = n) (bound : n ≤ maxBits)
    (h : aug.shape.leaf label entry n = .ok c) :
    aug.Tells c n (.leaf label entry) ↔ aug.Bare code (.leaf label entry) := by
  obtain ⟨le, bits, refs, coded, makes⟩ := (Shape.leaf_iff carries.pens bound).mp h
  obtain ⟨ordinary, content, held⟩ := makes.cell
  obtain ⟨s, read, ahead, there⟩ := (makes.node le bound).readLabel
  obtain ⟨s', carried, past, _⟩ := carries.reads coded s entry.value.toBits entry.value.refs ahead
    (there.trans held)
  constructor
  · rintro ⟨_, shows, stored⟩
    obtain ⟨stored⟩ := stored
    cases shows
    case leaf shown carried' _ opens =>
      have few : c.refs.length ≤ maxRefs := by
        obtain ⟨b, _, same, _⟩ := makes
        rw [held, ← same]
        exact b.refs_le
      obtain ⟨b, same, whole⟩ := Builder.exists_of_bits entry.value.toBits c.refs
        (by rw [toBits_length]; exact entry.value.bits_le) few
      obtain ⟨_, rfl⟩ := Prod.mk.inj (Except.ok.inj (opens.read.symm.trans read))
      obtain ⟨rfl, rfl⟩ := Prod.mk.inj (Except.ok.inj (carried'.symm.trans (call_eq_ok.mpr carried)))
      have value : DictEntry.value ⟨c, _⟩ = .ok b :=
        DictEntry.value_of_content (by rw [content, same, List.append_assoc]) whole.symm (past.trans same.symm)
      have refs_eq := congrArg Builder.refs (Except.ok.inj (value.symm.trans stored.value))
      rw [whole, held, List.append_left_eq_self] at refs_eq
      exact ⟨_, bits, rfl, refs_eq ▸ coded⟩
  · rintro ⟨_, bits', ⟨⟩, coded'⟩
    obtain ⟨rfl, rfl⟩ := Shape.code_unique coded coded'
    have value := DictEntry.value_of_content (by rw [content, List.append_assoc]) held past
    exact ⟨_, .leaf ⟨ordinary, read⟩ spent (call_eq_ok.mpr carried), .leaf ⟨rfl, value⟩⟩

theorem tells_iff (fits : t.Fits n) (bound : n ≤ maxBits) (h : aug.shape.encode t n = .ok c) :
    aug.Tells c n t ↔ aug.Unlinked code t n := by
  induction t generalizing n c
  case leaf label entry =>
    rw [carries.tells_leaf fits bound h]
    constructor
    · exact .leaf
    · rintro ⟨bare⟩
      exact bare
  case fork label child hi =>
    obtain ⟨lt, fit⟩ := fits
    obtain ⟨cells, each, built⟩ := Shape.encode_fork_eq_ok.mp h
    obtain ⟨le, e, bits, refs, carried, coded, makes⟩ := carries.forked bound each built
    rw [tells_fork lt (makes.node le bound), makes.cell.right.right]
    constructor
    · intro found
      by_cases bare : refs = []
      case pos =>
        subst bare
        refine .fork ⟨e, bits, carried, coded⟩ fun b => (hi b (fit b) (by omega) (each b)).mp ?_
        obtain ⟨cell, there, tells⟩ := found b
        cases b <;> cases there <;> exact tells
      case neg => exact .feigned carried coded bare each found
    · rintro (_ | ⟨⟨e', bits', carried', coded'⟩, below⟩ | ⟨carried', coded', _, each', found⟩)
      · obtain rfl := Except.ok.inj (carried.symm.trans carried')
        obtain ⟨rfl, rfl⟩ := Shape.code_unique coded coded'
        intro b
        refine ⟨cells b, by cases b <;> rfl, (hi b (fit b) (by omega) (each b)).mpr (below b)⟩
      · obtain rfl := Except.ok.inj (carried.symm.trans carried')
        obtain ⟨rfl, rfl⟩ := Shape.code_unique coded coded'
        obtain rfl := funext fun b => Except.ok.inj ((each b).symm.trans (each' b))
        exact found

end Carries

end Augmentation

def AugEntry.ofShown {ε : Type} (shown : ε × DictEntry) : AugEntry ε :=
  ⟨shown.1, shown.2⟩

namespace AugDict

variable [Sha256] {ε : Type} {aug : Augmentation ε} {code : ε → Option (List Bool × List Cell)} {keyBits : Nat}
  {dict dict' : AugDict ε} {m : List Bool → Option (Shape.Entry ε)}

-- A dictionary and the map it was built from, by changes that found their way.
inductive Built (aug : Augmentation ε) (code : ε → Option (List Bool × List Cell)) (keyBits : Nat) :
    AugDict ε → (List Bool → Option (Shape.Entry ε)) → Prop
  | new {dict : AugDict ε} (opened : AugDict.new aug keyBits = .ok dict) : Built aug code keyBits dict fun _ => none
  | fromItems {dict : AugDict ε} {items : List (Bytes × ε × Builder)}
    (made : AugDict.fromItems aug keyBits items = .ok dict) : Built aug code keyBits dict (given items keyBits)
  | set {dict dict' : AugDict ε} {m : List Bool → Option (Shape.Entry ε)} {key : Bytes} {extra : ε}
    {value : Builder} (built : Built aug code keyBits dict m)
    (passes : ∀ t, (∀ key, t.find key = m key) → aug.Passes code t (firstBits key keyBits))
    (run : (AugDict.set key extra value).Ends dict () dict') :
    Built aug code keyBits dict' (Function.update m (firstBits key keyBits) (some ⟨extra, value⟩))

-- What a lookup shows of an entry that was stored: its summary, and a cursor over its value.
structure Finds (entry : Shape.Entry ε) (shown : AugEntry ε) : Prop where
  extra : shown.extra = entry.extra
  value : shown.entry.value = .ok entry.value

-- A dictionary that can be read as the map it was built from.
structure Answers (dict : AugDict ε) (m : List Bool → Option (Shape.Entry ε)) : Prop where
  get  : ∀ key : Bytes, (dict.keyBits + 7) / 8 ≤ key.length → ∃ found,
    dict.get key = .ok (Shape.answer found) ∧ Option.Rel Finds (m (firstBits key dict.keyBits)) found
  iter : ∃ (entries : List (List Bool × Shape.Entry ε)) (shown : List (Bytes × AugEntry ε)),
    (entries.map Prod.fst).Pairwise (· < ·) ∧ (∀ key entry, (key, entry) ∈ entries ↔ m key = some entry) ∧
    dict.items = shown.map .ok ∧
    List.Forall₂ (fun entry item => item.1 = pack entry.1 ∧ Finds entry.2 item.2) entries shown

theorem Built.of (carries : aug.Carries code) (h : Built aug code keyBits dict m) : Of aug keyBits m dict := by
  induction h
  case new opened =>
    obtain ⟨_, rfl⟩ := fromRoot_eq_ok.mp opened
    exact ⟨rfl, rfl, fun _ => rfl⟩
  case fromItems made =>
    obtain ⟨_, rfl, rfl, held⟩ := fromItems_eq_ok.mp made
    exact ⟨rfl, rfl, held⟩
  case set dict _ _ key extra value _ passes run hi =>
    obtain ⟨rfl, rfl, held⟩ := hi
    have change : (Change.set key extra value).run.Ends dict () _ := run
    rw [Change.run_eq_commit, ends_commit, bind_eq_ok] at change
    obtain ⟨_, _, change⟩ := change
    obtain ⟨_, made, same⟩ := bind_eq_ok.mp change
    cases same
    obtain ⟨c, built, rfl⟩ := map_eq_ok.mp made
    exact ⟨rfl, rfl, (Shape.setRoot_iff carries.pens held (firstBits_length ..) dict.keyBits_le
      fun t found => carries.leads dict.keyBits_le (passes t found)).mp ⟨c, built, rfl⟩⟩

section Reads

omit [Sha256]

variable {c : Cell} {t : Radix (Shape.Entry ε)} {shown : Radix (ε × DictEntry)}

theorem get_of_shows (root : dict.root = some c) (shows : dict.aug.shape.Shows c dict.keyBits shown) {key : Bytes}
    (long : (dict.keyBits + 7) / 8 ≤ key.length) : dict.get key = .ok (Shape.answer
      ((shown.find (firstBits key dict.keyBits)).map .ofShown)) := by
  have run : lookup dict.aug.read (firstBits key dict.keyBits) dict.root dict.keyBits = .ok _ :=
    root ▸ shows.lookup (firstBits_length ..)
  rw [AugDict.get, keyOf_eq_ok.mpr ⟨long, rfl⟩, ok_bind, run, ok_bind]
  cases shown.find (firstBits key dict.keyBits) <;> rfl

theorem rel_finds_iff {entry : Option (Shape.Entry ε)} {found : Option (ε × DictEntry)} :
    Option.Rel Finds entry (found.map .ofShown) ↔ Option.Rel Shape.Stored entry found := by
  cases entry <;> cases found <;> constructor <;> rintro ⟨⟩
  case none.none.mp => exact .none
  case none.none.mpr => exact .none
  case some.some.mp finds => exact .some ⟨finds.extra, finds.value⟩
  case some.some.mpr stored => exact .some ⟨stored.extra, stored.value⟩

theorem answers_iff_tells (root : dict.root = some c) (fits : t.Fits dict.keyBits)
    (found : ∀ key, t.find key = m key) : dict.Answers m ↔ dict.aug.Tells c dict.keyBits t := by
  constructor
  · intro answers
    obtain ⟨_, listed, _, _, same, _⟩ := answers.iter
    have ok (e : CellError) : .error e ∉ (DictIter.new (some c) dict.keyBits).items dict.aug.shape := by
      intro failed
      have mem : .error e ∈ dict.items := List.mem_map.mpr ⟨_, root ▸ failed, rfl⟩
      simp [same] at mem
    obtain ⟨shown, shows⟩ := DictIter.shows_of_items ok
    refine ⟨shown, shows, Radix.match_of_find fun key => ?_⟩
    by_cases width : key.length = dict.keyBits
    case pos =>
      have long : (dict.keyBits + 7) / 8 ≤ (pack key).length := by simp [width]
      obtain ⟨found', got, stored⟩ := answers.get (pack key) long
      rw [get_of_shows root shows long] at got
      rw [← Shape.answer_inj (Except.ok.inj got), rel_finds_iff, ← width, firstBits_pack, ← found] at stored
      exact stored
    case neg =>
      have absent : t.find key = none := Option.eq_none_iff_forall_ne_some.mpr fun v here =>
        width (Radix.fits_iff.mp fits key v here)
      have absent' : shown.find key = none := Option.eq_none_iff_forall_ne_some.mpr fun v here =>
        width (Radix.fits_iff.mp shows.fits key v here)
      rw [absent, absent']
      exact .none
  · rintro ⟨shown, shows, stored⟩
    refine ⟨fun key long => ⟨_, get_of_shows root shows long, ?_⟩, t.entries,
      (Shape.Yield [] shown).map fun item => (item.1, .ofShown item.2), t.entries_sorted,
      fun key entry => by rw [Radix.mem_entries, found], ?_, ?_⟩
    · rw [rel_finds_iff, ← found]
      exact stored.find _
    · have walked : dict.iter.items dict.aug.shape = _ :=
        root ▸ DictIter.items_of_shows shows dict.keyBits_le
      rw [AugDict.items, walked, List.map_map, List.map_map]
      rfl
    · rw [List.forall₂_map_right_iff, Shape.Yield, List.forall₂_map_right_iff]
      exact stored.entries.imp fun entry item h => ⟨by rw [h.left]; rfl, h.right.extra, h.right.value⟩

end Reads

theorem answers_iff_unlinked (carries : aug.Carries code) (built : Built aug code keyBits dict m) :
    dict.Answers m ↔ ∀ t, (∀ key, t.find key = m key) → aug.Unlinked code t keyBits := by
  obtain ⟨rfl, rfl, held⟩ := built.of carries
  obtain ⟨aug, _ | c, n, bound⟩ := dict
  case none =>
    have held : ∀ key, m key = none := held
    refine iff_of_true ⟨fun key long => ⟨none, ?_, by rw [held]; exact .none⟩, [], [], .nil, ?_, rfl, .nil⟩ ?_
    · rw [AugDict.get, keyOf_eq_ok.mpr ⟨long, rfl⟩]
      rfl
    · simp [held]
    · intro t found
      obtain ⟨key, v, here⟩ := t.exists_find
      simp [found, held] at here
  case some =>
    obtain ⟨t, fits, found, encoded⟩ := held
    rw [answers_iff_tells rfl fits found, carries.tells_iff fits bound encoded]
    refine ⟨fun unlinked t' found' => ?_, fun all => all t found⟩
    rwa [Radix.ext_find fun key => (found' key).trans (found key).symm]

end AugDict

section Balances

-- An amount, and maybe a reference to what else there is.
structure Balance where
  amount : UInt32
  others : Bool
deriving DecidableEq

def balances (others : Cell) : Augmentation Balance where
  read               := do
    let amount ← Slice.loadU32
    if ← Slice.loadBit then
      let _ ← Slice.loadRef
      return ⟨amount, true⟩
    else return ⟨amount, false⟩
  combine left right := return ⟨left.amount + right.amount, left.others || right.others⟩
  write balance      := do
    Builder.storeUint balance.amount.toNat 32
    Builder.storeBit balance.others
    onlyIf balance.others (Builder.storeRef others)

def Balance.code (others : Cell) (balance : Balance) : Option (List Bool × List Cell) :=
  some (uintBits balance.amount.toNat 32 ++ [balance.others], if balance.others then [others] else [])

theorem balances_carries [Sha256] (others : Cell) :
    (balances others).Carries (Balance.code others) where
  writes  := by
    rintro ⟨amount, flag⟩ _ _ ⟨⟩
    have first : Writes (storeUint amount.toNat 32) (uintBits amount.toNat 32) [] () := countSum_codec.writes rfl
    have last : Writes (onlyIf (flag = true) (storeRef others)) [] (if flag then [others] else []) () := by
      cases flag
      case false => exact .pure ()
      case true => exact storeRef_writes others
    have whole := first.seq ((storeBit_writes flag).seq last)
    rw [List.append_nil, List.nil_append, List.nil_append] at whole
    exact whole
  refuses := nofun
  reads   := by
    rintro ⟨amount, flag⟩ _ _ ⟨⟩
    have first : Slice.Reads Slice.loadU32 (uintBits amount.toNat 32) [] amount := countSum_codec.reads rfl
    cases flag
    case false =>
      exact first.bind ((Slice.loadBit_reads false).bind (.pure _))
    case true =>
      exact first.bind ((Slice.loadBit_reads true).bind ((Slice.loadRef_reads others).bind (.pure _)))

attribute [local instance] Sha256.standard

def twoBalances : List (Bytes × Balance × Builder) :=
  [([0], ⟨1, true⟩, .new), ([0x80], ⟨2, true⟩, .new)]

def balancesRun : Option (Except CellError Bool) := do
  let others ← Builder.new.build.toOption
  let dict ← (AugDict.fromItems (balances others) 1 twoBalances).toOption
  return (dict.get [0]).map fun _ => true

-- The first branch is looked for where the summary of the fork has its reference.
theorem balances_lose : ∃ others dict, others.WellFormed ∧
    (balances others).Carries (Balance.code others) ∧
    AugDict.fromItems (balances others) 1 twoBalances = .ok dict ∧
    dict.get [0] = .error (.notEnoughBits 1 0) := by
  have run : balancesRun = some (.error (.notEnoughBits 1 0)) := by decide +kernel
  simp only [balancesRun, Option.bind_eq_bind, Option.bind_eq_some_iff, toOption_eq_some, Option.pure_def,
    Option.some_inj] at run
  obtain ⟨others, empty, dict, built, fails⟩ := run
  have wf : others.WellFormed := by
    obtain ⟨c, same, wf, _⟩ := Builder.new.build_ok (List.forall_mem_nil _)
    exact Except.ok.inj (same.symm.trans empty) ▸ wf
  refine ⟨others, dict, wf, balances_carries others, built, ?_⟩
  cases got : dict.get [0]
  case error e =>
    rw [got] at fails
    exact congrArg _ (Except.error.inj fails)
  case ok =>
    rw [got] at fails
    cases fails

-- Balances without anything else.
def plainBalances (amount amount' : UInt32) : List (Bytes × Balance × Builder) :=
  [([0], ⟨amount, false⟩, .new), ([0x80], ⟨amount', false⟩, .new)]

def plainTree (amount amount' : UInt32) : Radix (Shape.Entry Balance) :=
  .fork [] fun b => .leaf [] ⟨⟨if b then amount' else amount, false⟩, .new⟩

theorem find_plainTree (amount amount' : UInt32) (key : List Bool) :
    (plainTree amount amount').find key = AugDict.given (plainBalances amount amount') 1 key := by
  have bits : AugDict.given (plainBalances amount amount') 1 = last
    [([false], ⟨⟨amount, false⟩, .new⟩), ([true], ⟨⟨amount', false⟩, .new⟩)] := rfl
  rw [bits]
  rcases key with _ | ⟨_ | _, _ | _⟩ <;> simp [plainTree, Radix.find, last]

theorem plainTree_unlinked (others : Cell) (amount amount' : UInt32) :
    (balances others).Unlinked (Balance.code others) (plainTree amount amount') 1 :=
  .fork ⟨_, _, rfl, rfl⟩ fun _ => .leaf ⟨_, _, rfl, rfl⟩

def plainRun : Option Bool := do
  let others ← Builder.new.build.toOption
  let dict ← (AugDict.fromItems (balances others) 1 (plainBalances 1 2)).toOption
  let _ ← ((AugDict.set [0x80] ⟨3, false⟩ .new).call dict).toOption
  return true

theorem answers_iff_unlinked_plain : ∃ others dict dict',
    AugDict.fromItems (balances others) 1 (plainBalances 1 2) = .ok dict ∧
    (AugDict.set [0x80] ⟨3, false⟩ .new).Ends dict () dict' ∧
    dict'.Answers (AugDict.given (plainBalances 1 3) 1) := by
  have run : plainRun = some true := by decide +kernel
  simp only [plainRun, Option.bind_eq_bind, Option.bind_eq_some_iff, toOption_eq_some, Option.pure_def,
    and_true, Prod.exists] at run
  obtain ⟨others, _, dict, made, _, dict', changed⟩ := run
  have changed : (AugDict.set [0x80] ⟨3, false⟩ .new).Ends dict () dict' := call_eq_ok.mp changed
  have unique {amount amount' : UInt32} {t : Radix (Shape.Entry Balance)}
      (found : ∀ key, t.find key = AugDict.given (plainBalances amount amount') 1 key) :
      t = plainTree amount amount' :=
    Radix.ext_find fun key => (found key).trans (find_plainTree ..).symm
  have given : Function.update (AugDict.given (plainBalances 1 2) 1) (firstBits [0x80] 1)
      (some ⟨⟨3, false⟩, .new⟩) = AugDict.given (plainBalances 1 3) 1 := by
    have bits : firstBits [0x80] 1 = [true] := by decide
    funext key
    rw [bits, Function.update_apply, ← find_plainTree, ← find_plainTree]
    rcases key with _ | ⟨_ | _, _ | _⟩ <;> simp [plainTree, Radix.find]
  have built : AugDict.Built (balances others) (Balance.code others) 1 dict' _ :=
    .set (.fromItems made) (fun t found => unique found ▸ fun _ _ _ => ⟨⟨_, _, rfl, rfl⟩, trivial⟩) changed
  refine ⟨others, dict, dict', made, changed, ?_⟩
  rw [← given, AugDict.answers_iff_unlinked (balances_carries others) built, given]
  exact fun t found => unique found ▸ plainTree_unlinked others 1 3

end Balances

end TonNet
