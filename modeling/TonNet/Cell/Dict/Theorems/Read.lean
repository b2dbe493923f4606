import TonNet.Lib.Unfold
import TonNet.Cell.Dict.Theorems.Map

-- Reading a dictionary off whatever cells there are: what a walk yields, and what a lookup finds.

namespace TonNet

open Fallible Method

section Keys

variable {bits : List Bool}

-- The bits set so far.
theorem pack_bits (count : Nat) (le : count ≤ bits.length) :
    let packed : Bytes := (List.range count).foldl (fun out index =>
      if bits.getD index false then
        out.modify (index / 8) (· ||| UInt8.ofNat (1 <<< (7 - index % 8)))
      else out) (List.replicate ((bits.length + 7) / 8) 0)
    packed.length = (bits.length + 7) / 8 ∧
      ∀ i, packed.bitAt i = (decide (i < count) && bits.getD i false) := by
  induction count
  case zero =>
    refine ⟨by simp, fun i => ?_⟩
    simp only [List.range_zero, List.foldl_nil, Bytes.bitAt, List.getD_eq_getElem?_getD,
      List.getElem?_replicate]
    split <;> simp
  case succ count hi =>
    obtain ⟨length, set⟩ := hi (by omega)
    rw [List.range_succ, List.foldl_append, List.foldl_cons, List.foldl_nil]
    cases bit : bits.getD count false
    case false =>
      refine ⟨length, fun i => (set i).trans ?_⟩
      by_cases same : i = count
      case pos => simp only [same, bit, Bool.and_false]
      case neg => simp only [show i < count + 1 ↔ i < count by omega]
    case true =>
      simp only [if_true, List.length_modify]
      refine ⟨length, fun i => ?_⟩
      rw [Bytes.bitAt_modify (by omega), set]
      by_cases same : i = count
      case pos =>
        subst same
        simp only [bit, decide_true, Bool.true_or, Nat.lt_succ_self, Bool.and_self]
      case neg => simp only [same, decide_false, Bool.false_or, show i < count + 1 ↔ i < count by omega]

@[simp]
theorem pack_length (bits : List Bool) : (pack bits).length = (bits.length + 7) / 8 :=
  (pack_bits bits.length le_rfl).left

@[simp]
theorem firstBits_pack (bits : List Bool) : firstBits (pack bits) bits.length = bits := by
  refine List.ext_getElem (by simp) fun i hi hi' => ?_
  have bit : (pack bits).bitAt i = _ := (pack_bits bits.length le_rfl).right i
  simp only [firstBits, List.getElem_map, List.getElem_range, bit]
  simp [hi']

theorem pack_inj {bits' : List Bool} (length : bits.length = bits'.length) (h : pack bits = pack bits') :
    bits = bits' := by
  rw [← firstBits_pack bits, h, length, firstBits_pack]

end Keys

section Values

variable {c : Cell} {s : Slice} {b : Builder}

-- What a cursor over a found entry goes through.
def DictEntry.value (entry : DictEntry) : Except CellError Builder := do
  (← entry.slice).toBuilder

theorem DictEntry.value_of_content {front : List Bool} (content : c.toBits = front ++ b.toBits)
    (refs : c.refs = b.refs) (ahead : s.ahead = b.toBits) :
    DictEntry.value ⟨c, c.bits - s.remainingBits⟩ = .ok b := by
  have offset : c.bits - s.remainingBits = front.length := by
    have total := congrArg List.length content
    rw [Cell.toBits, List.length_map, List.length_range, List.length_append] at total
    rw [← Slice.ahead_length, ahead, total, Nat.add_sub_cancel]
  obtain ⟨s', skipped, ahead', refs'⟩ := Slice.skipBits_reads front c.parse b.toBits c.refs
    (by rw [Cell.parse_ahead, content]) (by simp)
  rw [DictEntry.value, DictEntry.slice, offset, call_eq_ok.mpr skipped]
  exact toBuilder_eq_ok.mpr ⟨ahead'.symm, by rw [refs', refs]⟩

end Values

section Label

variable {max : Nat} {s s' : Slice} {label : Label}

theorem unaryLength_le {room len k : Nat} (h : (unaryLength room len).Ends s k s') :
    k ≤ len + room := by
  induction room generalizing len s
  case zero =>
    unfold unaryLength at h
    obtain ⟨bit, _, _, h⟩ := ends_bind.mp h
    cases bit
    case false => exact (ends_pure.mp h).left ▸ le_rfl
    case true => exact absurd h ends_throw
  case succ room hi =>
    unfold unaryLength at h
    obtain ⟨bit, _, _, h⟩ := ends_bind.mp h
    cases bit
    case false => exact (ends_pure.mp h).left ▸ Nat.le_add_right ..
    case true =>
      have := hi h
      omega

def Run.len : Run → Nat
  | spelled len    => len
  | repeated _ len => len

theorem readRun_le {run : Run} (h : (readRun max).Ends s run s') : run.len ≤ max := by
  unfold readRun at h
  have ⟨first, _, _, h⟩ := ends_bind.mp h
  cases first
  case false =>
    have ⟨len, _, unary, h⟩ := ends_bind.mp h
    have le := unaryLength_le unary
    rw [← (ends_pure.mp h).left]
    simpa [Run.len] using le
  case true =>
    have ⟨second, _, _, h⟩ := ends_bind.mp h
    cases second
    case false =>
      have ⟨len, _, _, h⟩ := ends_bind.mp h
      have ⟨_, _, fits, h⟩ := ends_bind.mp h
      rw [← (ends_pure.mp h).left]
      exact not_lt.mp (ends_failIf.mp fits).left
    case true =>
      have ⟨value, _, _, h⟩ := ends_bind.mp h
      have ⟨len, _, _, h⟩ := ends_bind.mp h
      have ⟨_, _, fits, h⟩ := ends_bind.mp h
      rw [← (ends_pure.mp h).left]
      exact not_lt.mp (ends_failIf.mp fits).left

theorem push_eq_ok {label' : Label} {bit : Bool} :
    label.push bit = .ok label' ↔ label.length < maxBits ∧ label ++ [bit] = label' := by
  rw [Label.push, failIf_bind_eq_ok, not_le, pure_eq_ok]

theorem extend_append {run key : Label} (h : label.extend run = .ok key) : key = label ++ run := by
  induction run generalizing label
  case nil => rw [List.append_nil, pure_eq_ok.mp h]
  case cons bit run hi =>
    rw [Label.extend, List.foldlM_cons, bind_eq_ok] at h
    obtain ⟨_, pushed, h⟩ := h
    obtain ⟨_, rfl⟩ := push_eq_ok.mp pushed
    rw [hi h, List.append_assoc, List.singleton_append]

theorem writeBits_length {next : Load Bool} {count : Nat}
    (h : (writeBits next count).Ends s label s') : label.length = count := by
  have grows (l : List Nat) (start : Label) (s : Slice)
      (h : (l.foldlM (fun (label : Label) _ => do Method.ofExcept (label.push (← next))) start).Ends s
        label s') : label.length = start.length + l.length := by
    induction l generalizing start s
    case nil => exact (ends_pure.mp h).left ▸ rfl
    case cons i l hi =>
      rw [List.foldlM_cons] at h
      have ⟨longer, _, one, rest⟩ := ends_bind.mp h
      have ⟨bit, _, _, pushed⟩ := ends_bind.mp one
      obtain ⟨_, rfl⟩ := push_eq_ok.mp (ends_ofExcept.mp pushed).left
      have := hi _ _ rest
      simp only [List.length_append, List.length_cons, List.length_nil] at this ⊢
      omega
  simpa using grows (List.range count) [] s h

theorem readLabel_le (h : (readLabel max).call s = .ok (label, s')) : label.length ≤ max := by
  have ⟨run, _, read, h⟩ := ends_bind.mp (call_eq_ok.mp h)
  have le := readRun_le read
  cases run
  case spelled len => exact writeBits_length h ▸ le
  case repeated value len => exact writeBits_length h ▸ le

end Label

namespace Shape

variable {ε : Type} {shape : Shape ε} {c left right : Cell} {n : Nat} {front : Label}

abbrev Item (ε : Type) := Bytes × ε × DictEntry

-- The entries for the two branches of a fork, the left one first.
def branches (node : Cell) (key : Label) (below : Nat) : Except CellError (Pending × Pending) := do
  let right ← okOr (node.reference 1) noBranch
  let rightKey ← key.push true
  let left ← okOr (node.reference 0) noBranch
  let leftKey ← key.push false
  return ((left, leftKey, below), (right, rightKey, below))

theorem outcome_branches (node : Cell) (key : Label) (below : Nat) (rest : List Pending) :
    ∃ after, ([1, 0].forM fun branch => do
      let child ← okOr (node.reference branch) noBranch
      let key ← Method.ofExcept (key.push (branch = 1))
      modify ((child, key, below) :: ·) : Method (List Pending) CellError Unit).outcome rest =
        match branches node key below with
        | .error e          => (.error e, after)
        | .ok (left, right) => (.ok (), left :: right :: rest) := by
  simp only [List.forM, decide_true, zero_ne_one, decide_false, branches]
  cases node.reference 1
  case none => exact ⟨_, rfl⟩
  case some right =>
    cases key.push true
    case error => exact ⟨_, rfl⟩
    case ok rightKey =>
      cases node.reference 0
      case none => exact ⟨_, rfl⟩
      case some left =>
        cases key.push false
        case error => exact ⟨_, rfl⟩
        case ok leftKey => exact ⟨rest, rfl⟩

theorem branches_eq_ok {key : Label} {below : Nat} (room : key.length < maxBits)
    {entries : Pending × Pending} : branches c key below = .ok entries ↔ ∃ cells : Bool → Cell,
      (∀ b, c.reference b.toNat = some (cells b)) ∧
      ((cells false, key ++ [false], below), (cells true, key ++ [true], below)) = entries := by
  have pushed (b : Bool) : key.push b = .ok (key ++ [b]) := push_eq_ok.mpr ⟨room, rfl⟩
  simp only [branches, bind_eq_ok, okOr_eq_ok, pushed, pure_eq_ok, Except.ok.injEq]
  constructor
  · rintro ⟨right, hr, _, rfl, left, hl, _, rfl, same⟩
    refine ⟨fun b => if b then right else left, fun b => ?_, same⟩
    cases b
    case false => exact hl
    case true => exact hr
  · rintro ⟨cells, branch, same⟩
    exact ⟨_, branch true, _, rfl, _, branch false, _, rfl, same⟩

theorem room_of_branches {key : Label} {below : Nat} {entries : Pending × Pending}
    (h : branches c key below = .ok entries) : key.length < maxBits := by
  have ⟨_, _, h⟩ := bind_eq_ok.mp h
  have ⟨_, pushed, _⟩ := bind_eq_ok.mp h
  exact (push_eq_ok.mp pushed).left

-- What the walk makes of one entry.
def look (shape : Shape ε) : Pending → Except CellError (Item ε ⊕ Pending × Pending)
  | (node, front, remaining) => do
    failIf node.isExotic .pruned
    let (label, slice) ← (readLabel remaining).call node.parse
    let key ← front.extend label
    if label.length = remaining then
      let (extra, slice) ← shape.readExtra.call slice
      return .inl (packEntry node key extra slice)
    else
      let entries ← branches node key (remaining - label.length - 1)
      return .inr entries

theorem walkFrom_cons (passes : Nat) (entry : Pending) (rest : List Pending) :
    ∃ after, (shape.walkFrom (passes + 1)).outcome (entry :: rest) =
      Unfold.goesOn (shape.walkFrom passes) rest after (shape.look entry) := by
  obtain ⟨node, front, remaining⟩ := entry
  rw [walkFrom, look]
  simp only [outcome_bind, outcome_get, outcome_set, outcome_ofExcept]
  by_cases exotic : node.isExotic
  case pos =>
    simp only [failIf, if_pos exotic]
    exact ⟨_, rfl⟩
  case neg =>
    simp only [failIf, if_neg exotic, outcome_pure, pure_bind]
    cases (readLabel remaining).call node.parse
    case error => exact ⟨_, rfl⟩
    case ok read =>
      obtain ⟨label, slice⟩ := read
      simp only [ok_bind]
      cases front.extend label
      case error => exact ⟨_, rfl⟩
      case ok key =>
        simp only [ok_bind]
        by_cases spent : label.length = remaining
        case pos =>
          simp only [if_pos spent, outcome_bind, outcome_ofExcept]
          cases shape.readExtra.call slice <;> exact ⟨rest, rfl⟩
        case neg =>
          obtain ⟨after, pushed⟩ := outcome_branches node key (remaining - label.length - 1) rest
          simp only [if_neg spent, outcome_bind, pushed]
          cases branches node key (remaining - label.length - 1) <;> exact ⟨after, rfl⟩

theorem look_walks : Unfold.Walks shape.look shape.walkFrom :=
  .of_cons (fun _ => rfl) shape.walkFrom_cons

-- A node whose label can be read.
structure Opens (c : Cell) (n : Nat) (label : Label) (s : Slice) : Prop where
  ordinary : c.isExotic = false
  read     : (readLabel n).call c.parse = .ok (label, s)

-- What there is to see in a node that the walk gets through.
inductive Seen (shape : Shape ε) (c : Cell) (front : Label) (n : Nat) : Item ε ⊕ Pending × Pending → Prop
  | leaf {label : Label} {s s' : Slice} {extra : ε} (opens : Opens c n label s)
    (spent : label.length = n) (carried : shape.readExtra.call s = .ok (extra, s')) :
    Seen shape c front n (.inl (packEntry c (front ++ label) extra s'))
  | fork {label : Label} {s : Slice} {cells : Bool → Cell} (opens : Opens c n label s)
    (more : label.length < n) (branch : ∀ b, c.reference b.toNat = some (cells b)) :
    Seen shape c front n (.inr
      ((cells false, front ++ label ++ [false], n - label.length - 1),
        (cells true, front ++ label ++ [true], n - label.length - 1)))

theorem look_seen {seen : Item ε ⊕ Pending × Pending} (h : shape.look (c, front, n) = .ok seen) :
    Seen shape c front n seen := by
  rw [look, failIf_bind_eq_ok] at h
  obtain ⟨ordinary, h⟩ := h
  have ⟨⟨label, s⟩, read, h⟩ := bind_eq_ok.mp h
  have ⟨key, extended, h⟩ := bind_eq_ok.mp h
  obtain rfl := extend_append extended
  have opens : Opens c n label s := ⟨by simpa using ordinary, read⟩
  dsimp only at h
  split at h
  case isTrue spent =>
    have ⟨⟨extra, s'⟩, carried, h⟩ := bind_eq_ok.mp h
    rw [← pure_eq_ok.mp h]
    exact .leaf opens spent carried
  case isFalse more =>
    have ⟨entries, below, h⟩ := bind_eq_ok.mp h
    obtain ⟨cells, branch, rfl⟩ := (branches_eq_ok (room_of_branches below)).mp below
    rw [← pure_eq_ok.mp h]
    exact .fork opens (lt_of_le_of_ne (readLabel_le read) more) branch

theorem Seen.look {seen : Item ε ⊕ Pending × Pending} (h : Seen shape c front n seen)
    (room : front.length + n ≤ maxBits) : shape.look (c, front, n) = .ok seen := by
  cases h
  case leaf label s s' extra opens spent carried =>
    have extended : front.extend label = .ok (front ++ label) := extend_eq_ok (by simp; omega)
    rw [Shape.look, failIf_bind_of_not (by simp [opens.ordinary]), opens.read, ok_bind]
    simp only [extended, ok_bind, if_pos spent, carried]
    rfl
  case fork label s cells opens more branch =>
    have extended : front.extend label = .ok (front ++ label) := extend_eq_ok (by simp; omega)
    have pushed : branches c (front ++ label) (n - label.length - 1) = .ok _ :=
      (branches_eq_ok (by simp; omega)).mpr ⟨cells, branch, rfl⟩
    rw [Shape.look, failIf_bind_of_not (by simp [opens.ordinary]), opens.read, ok_bind]
    simp only [extended, ok_bind, if_neg more.ne, pushed]
    rfl

theorem subcells_length_lt (hl : c.reference 0 = some left) (hr : c.reference 1 = some right) :
    left.subcells.length + right.subcells.length < c.subcells.length := by
  obtain ⟨rest, refs⟩ : ∃ rest, c.refs = left :: right :: rest := by
    rw [Cell.reference] at hl hr
    rcases refs : c.refs with _ | ⟨l, _ | ⟨r, rest⟩⟩
    case nil => simp [refs] at hl
    case cons.nil => simp [refs] at hr
    case cons.cons =>
      rw [refs] at hl hr
      cases hl
      cases hr
      exact ⟨rest, rfl⟩
  rw [c.subcells_eq, refs, List.length_cons, List.flatMap_cons, List.flatMap_cons, List.length_append,
    List.length_append]
  omega

-- The keys below an entry.
def Pending.Under : Pending → List Bool → Prop
  | (_, front, n), key => front <+: key ∧ key.length = front.length + n

theorem look_guides :
    Unfold.Guides shape.look Pending.Under fun (item : Item ε) key => item.1 = pack key where
  item {entry i} h := by
    cases look_seen h
    case leaf label _ _ _ _ spent _ =>
      exact ⟨entry.2.1 ++ label, ⟨⟨label, rfl⟩, by simp [spent]⟩, rfl⟩
  left {entry left right k} h under := by
    cases look_seen h
    case fork label _ _ _ more _ =>
      obtain ⟨⟨rest, rfl⟩, length⟩ := under
      refine ⟨⟨label ++ [false] ++ rest, by simp⟩, ?_⟩
      simp at length ⊢
      omega
  right {entry left right k} h under := by
    cases look_seen h
    case fork label _ _ _ more _ =>
      obtain ⟨⟨rest, rfl⟩, length⟩ := under
      refine ⟨⟨label ++ [true] ++ rest, by simp⟩, ?_⟩
      simp at length ⊢
      omega
  apart {entry left right k k'} h under under' := by
    cases look_seen h
    case fork label _ _ _ _ _ =>
      obtain ⟨⟨rest, rfl⟩, _⟩ := under
      obtain ⟨⟨rest', rfl⟩, _⟩ := under'
      rw [List.append_assoc, List.append_assoc _ [true]]
      exact List.append_left_lt (List.Lex.rel (by decide))

theorem look_falls : Unfold.Falls shape.look (fun (_, _, n) => n) fun (c, _, _) => c.subcells.length where
  lower entry left right h := by
    cases look_seen h
    case fork label _ _ _ more _ =>
      dsimp only
      omega
  smaller entry left right h := by
    cases look_seen h
    case fork label _ _ _ _ branch =>
      exact subcells_length_lt (branch false) (branch true)
  pos entry := List.length_pos_of_mem entry.1.self_mem_subcells

theorem walkStep_called (stack : List Pending) :
    Unfold.Called shape.look (fun (c, _, _) => c.subcells.length) stack (shape.walkStep.outcome stack) := by
  rw [walkStep, outcome_bind, outcome_get]
  refine look_walks.called look_falls (fun entry h => ?_) (Nat.succ_pos _)
  rw [Option.mem_def.mp h]
  exact Nat.lt_succ_self _

-- The tree that a node shows, whatever it was made by.
inductive Shows (shape : Shape ε) : Cell → Nat → Radix (ε × DictEntry) → Prop
  | leaf {c : Cell} {n : Nat} {label : Label} {s s' : Slice} {extra : ε} (opens : Opens c n label s)
    (spent : label.length = n) (carried : shape.readExtra.call s = .ok (extra, s')) :
    Shows shape c n (.leaf label (extra, ⟨c, c.bits - s'.remainingBits⟩))
  | fork {c : Cell} {n : Nat} {label : Label} {s : Slice} {cells : Bool → Cell}
    {child : Bool → Radix (ε × DictEntry)} (opens : Opens c n label s) (more : label.length < n)
    (branch : ∀ b, c.reference b.toNat = some (cells b))
    (below : ∀ b, Shows shape (cells b) (n - label.length - 1) (child b)) :
    Shows shape c n (.fork label child)

variable {t : Radix (ε × DictEntry)}

theorem Shows.fits (h : Shows shape c n t) : t.Fits n := by
  induction h
  case leaf spent _ => exact spent
  case fork more _ _ hi => exact ⟨more, hi⟩

-- The entries of a tree under the bits that lead to it, as the walk yields them.
def Yield (front : Label) (t : Radix (ε × DictEntry)) : List (Item ε) :=
  t.entries.map fun (key, value) => (pack (front ++ key), value)

theorem yield_fork {label : Label} {child : Bool → Radix (ε × DictEntry)} :
    Yield front (.fork label child) =
      Yield (front ++ label ++ [false]) (child false) ++ Yield (front ++ label ++ [true]) (child true) := by
  simp [Yield, Radix.entries, Function.comp_def]

theorem Shows.leaves (h : Shows shape c n t) (room : front.length + n ≤ maxBits) :
    Unfold.Leaves shape.look (c, front, n) (Yield front t) := by
  induction h generalizing front
  case leaf opens spent carried => exact .item (Seen.look (.leaf opens spent carried) room)
  case fork opens more branch _ hi =>
    rw [yield_fork]
    refine .fork (Seen.look (.fork opens more branch) room) (hi false ?_) (hi true ?_)
    all_goals
      simp
      omega

theorem leaves_shows {entry : Pending} {l : List (Item ε)} (h : Unfold.Leaves shape.look entry l) :
    ∃ t, Shows shape entry.1 entry.2.2 t ∧ l = Yield entry.2.1 t := by
  induction h
  case item h =>
    cases look_seen h
    case leaf opens spent carried => exact ⟨_, .leaf opens spent carried, rfl⟩
  case fork h _ _ hl hr =>
    cases look_seen h
    case fork opens more branch _ _ =>
      obtain ⟨tl, shown, rfl⟩ := hl
      obtain ⟨tr, shown', rfl⟩ := hr
      refine ⟨.fork _ fun b => if b then tr else tl, .fork opens more branch fun b => ?_, ?_⟩
      case refine_2 => rw [yield_fork]; rfl
      cases b
      case false => exact shown
      case true => exact shown'

-- What a lookup answers where nothing was left out.
def answer {α : Type} (found : Option α) : Lookup α :=
  found.elim .absent .found

theorem answer_eq_found {α : Type} {found : Option α} {value : α} :
    answer found = .found value ↔ found = some value := by
  cases found <;> simp [answer]

theorem answer_inj {α : Type} {found found' : Option α} (same : answer found = answer found') : found = found' := by
  cases found <;> cases found' <;> cases same <;> rfl

theorem answer_eq_absent {α : Type} {found : Option α} : answer found = .absent ↔ found = none := by
  cases found <;> simp [answer]

theorem Shows.opens (h : Shows shape c n t) : ∃ s, Opens c n t.label s := by
  cases h
  case leaf s _ _ _ _ opens => exact ⟨s, opens⟩
  case fork s _ _ _ _ _ opens => exact ⟨s, opens⟩

theorem Shows.lookupFrom {bits key : List Bool} {consumed passes : Nat} (h : Shows shape c key.length t)
    (ahead : bits.drop consumed = key) (enough : key.length < passes) :
    lookupFrom shape.readExtra bits passes c key.length consumed = .ok (answer (t.find key)) := by
  -- The walk splits as the lookup does: the key leaves the label, ends with it, or goes on past it.
  refine Radix.walk (motive := fun t key => ∀ c consumed passes, Shows shape c key.length t →
    bits.drop consumed = key → key.length < passes →
    TonNet.lookupFrom shape.readExtra bits passes c key.length consumed = .ok (answer (t.find key)))
    ?_ ?_ ?_ h.fits.apart c consumed passes h ahead enough
  · intro t shared b labelRest keyRest label c consumed passes h ahead enough
    obtain ⟨passes, rfl⟩ := Nat.exists_eq_add_one_of_ne_zero (Nat.ne_zero_of_lt enough)
    have ⟨s, opens⟩ := h.opens
    rw [TonNet.lookupFrom, if_neg (by simp [opens.ordinary]), opens.read, ok_bind]
    simp only [ahead, diverges_eq_diverge, label, Radix.diverge_append, Option.isSome_some, if_true,
      Radix.find_eq_none_of_leaves label]
    rfl
  · intro key value c consumed passes h ahead enough
    obtain ⟨passes, rfl⟩ := Nat.exists_eq_add_one_of_ne_zero (Nat.ne_zero_of_lt enough)
    cases h
    case leaf s s' extra carried spent opens =>
      rw [TonNet.lookupFrom, if_neg (by simp [opens.ordinary]), opens.read, ok_bind]
      simp only [ahead, diverges_eq_diverge, (Radix.diverge_eq_none le_rfl).mpr (List.prefix_refl key),
        Nat.sub_self, if_true, carried, Radix.find]
      rfl
  · intro label child b rest _ hi c consumed passes h ahead enough
    obtain ⟨passes, rfl⟩ := Nat.exists_eq_add_one_of_ne_zero (Nat.ne_zero_of_lt enough)
    cases h
    case fork s cells branch _ opens below =>
      have width : (label ++ b :: rest).length - label.length - 1 = rest.length := by simp
      have next : (label ++ b :: rest).length - label.length ≠ 0 := by simp
      have stays : Radix.diverge label (label ++ b :: rest) = none :=
        (Radix.diverge_eq_none (by simp)).mpr ⟨_, rfl⟩
      have tail : bits.drop (consumed + label.length + 1) = rest := drop_of_drop ahead
      have left : rest.length < passes := by
        rw [List.length_append, List.length_cons] at enough
        omega
      rw [TonNet.lookupFrom, if_neg (by simp [opens.ordinary]), opens.read, ok_bind]
      simp only [ahead, diverges_eq_diverge, stays, getD_of_drop ahead, branch, if_neg next, width,
        Radix.find_fork_append]
      exact hi (cells b) _ passes (width ▸ below b) tail left

theorem Shows.lookup (h : Shows shape c n t) {bits : List Bool} (length : bits.length = n) :
    lookup shape.readExtra bits (some c) n = .ok (answer (t.find bits)) := by
  subst length
  exact h.lookupFrom List.drop_zero (Nat.lt_succ_self _)

section Written

variable [Sha256] {code : ε → Option (List Bool)} {entry : Entry ε}

-- What a lookup shows of an entry that was stored.
structure Stored (entry : Entry ε) (shown : ε × DictEntry) : Prop where
  extra : shown.1 = entry.extra
  value : shown.2.value = .ok entry.value

theorem encode_shows (law : shape.Lawful code) {t : Radix (Entry ε)} (fits : t.Fits n)
    (bound : n ≤ maxBits) (h : shape.encode t n = .ok c) :
    ∃ t', Shows shape c n t' ∧ t.Match Stored t' := by
  induction t generalizing c n
  case leaf label entry =>
    have ⟨le, bits, coded, makes⟩ := (leaf_eq_ok law.toSpelled bound).mp h
    have ⟨ordinary, content, refs⟩ := makes.cell
    have ⟨s, read, ahead, _⟩ := (makes.node le bound).readLabel
    have ⟨s', carried, ahead', _⟩ := law.reads coded s entry.value.toBits s.refsAhead ahead rfl
    have value := DictEntry.value_of_content (by rw [content, List.append_assoc]) refs ahead'
    exact ⟨_, .leaf ⟨ordinary, read⟩ fits (call_eq_ok.mpr carried), .leaf ⟨rfl, value⟩⟩
  case fork label child hi =>
    have ⟨lt, fit⟩ := fits
    have ⟨cells, each, h⟩ := encode_fork_eq_ok.mp h
    have forked : Forked shape c label n cells := ⟨lt, bound, h⟩
    have ⟨_, _, _, node⟩ := forked.node law.toSpelled
    have ⟨s, read, _, _⟩ := node.readLabel
    choose child' shown stored using fun b => hi b (fit b) (by omega) (each b)
    exact ⟨_, .fork ⟨node.ordinary, read⟩ lt (forked.reference law.toSpelled) shown, .fork stored⟩

end Written

end Shape

namespace DictIter

variable {ε : Type} {shape : Shape ε} {stack : List Shape.Pending}

theorem collect_done (passes : Nat) : collect shape passes ⟨stack, true⟩ = [] := by
  cases passes <;> rfl

theorem collect_eq (passes : Nat) :
    collect shape passes ⟨stack, false⟩ = Unfold.collect shape.walkStep passes stack := by
  induction passes generalizing stack
  case zero => rfl
  case succ passes hi =>
    rw [collect, Unfold.collect, next, if_neg (by simp)]
    cases shape.walkStep.outcome stack
    case mk result after =>
      rcases result with e | _ | item
      case error => exact congrArg _ (collect_done passes)
      case ok.none => rfl
      case ok.some => exact congrArg _ hi

theorem runs_items (root : Option Cell) (n : Nat) :
    Unfold.Runs shape.look (new root n).stack ((new root n).items shape) := by
  have same : (new root n).items shape = Unfold.collect shape.walkStep _ (new root n).stack := collect_eq _
  rw [same]
  exact Unfold.runs_collect Shape.walkStep_called (by simp)

theorem items_of_shows {c : Cell} {n : Nat} {t : Radix (ε × DictEntry)} (h : Shape.Shows shape c n t)
    (bound : n ≤ maxBits) : (new (some c) n).items shape = (Shape.Yield [] t).map .ok := by
  have leaves : Unfold.Leaves shape.look (c, [], n) _ := h.leaves (by simpa using bound)
  have runs := leaves.runs .done
  rw [List.append_nil] at runs
  exact (runs_items (some c) n).unique runs

theorem shows_of_items {c : Cell} {n : Nat} (ok : ∀ e, .error e ∉ (new (some c) n).items shape) :
    ∃ t, Shape.Shows shape c n t := by
  have ⟨parts, all, _⟩ := (runs_items (some c) n).leaves ok
  obtain _ | ⟨leaves, _⟩ := all
  have ⟨t, shown, _⟩ := Shape.leaves_shows leaves
  exact ⟨t, shown⟩

-- Whatever the cells are, the keys come in order.
theorem items_ascend (root : Option Cell) (n : Nat) : ∃ keys,
    List.Forall₂ (fun (item : Shape.Item ε) key => item.1 = pack key)
      (((new root n).items shape).filterMap Except.toOption) keys ∧
    keys.Pairwise (· < ·) ∧ ∀ key ∈ keys, key.length = n := by
  have ordered : (new root n).stack.Pairwise fun entry entry' =>
      ∀ k k', entry.Under k → entry'.Under k' → k < k' := by
    cases root
    case none => exact .nil
    case some c => exact List.pairwise_singleton ..
  have runs : Unfold.Runs shape.look _ _ := runs_items root n
  have ⟨keys, named, ascending, covered⟩ := runs.ascends Shape.look_guides ordered
  refine ⟨keys, named, ascending, fun key mem => ?_⟩
  have ⟨entry, mem, _, length⟩ := covered key mem
  cases root
  case none => cases mem
  case some c =>
    cases List.mem_singleton.mp mem
    simpa using length

end DictIter

namespace Shape

variable {ε : Type} [Sha256] {shape : Shape ε} {code : ε → Option (List Bool)} {root : Option Cell} {n : Nat}
  {m : List Bool → Option (Entry ε)}

-- Reading a dictionary gives back what it holds: the walk all of it in order, a lookup the one entry.
theorem Holds.items (law : shape.Lawful code) (bound : n ≤ maxBits) (h : shape.Holds root n m) :
    ∃ (entries : List (List Bool × Entry ε)) (shown : List (Item ε)),
      (entries.map Prod.fst).Pairwise (· < ·) ∧
      (∀ key entry, (key, entry) ∈ entries ↔ m key = some entry) ∧
      (DictIter.new root n).items shape = shown.map .ok ∧
      List.Forall₂ (fun entry item => item.1 = pack entry.1 ∧ Stored entry.2 item.2) entries shown := by
  cases root
  case none => exact ⟨[], [], .nil, fun key entry => by simp [h key], rfl, .nil⟩
  case some c =>
    obtain ⟨t, fits, found, built⟩ := h
    have ⟨t', shown, stored⟩ := encode_shows law fits bound built
    refine ⟨t.entries, Yield [] t', t.entries_sorted, fun key entry => ?_,
      DictIter.items_of_shows shown bound, ?_⟩
    · rw [Radix.mem_entries, found]
    · rw [Yield, List.forall₂_map_right_iff]
      exact stored.entries.imp fun entry item h => ⟨by rw [h.left]; rfl, h.right⟩

theorem Holds.lookup (law : shape.Lawful code) (bound : n ≤ maxBits) (h : shape.Holds root n m)
    {bits : List Bool} (length : bits.length = n) : ∃ found,
      lookup shape.readExtra bits root n = .ok (answer found) ∧ Option.Rel Stored (m bits) found := by
  cases root
  case none => exact ⟨none, rfl, h bits ▸ .none⟩
  case some c =>
    obtain ⟨t, fits, found, built⟩ := h
    have ⟨t', shown, stored⟩ := encode_shows law fits bound built
    exact ⟨t'.find bits, shown.lookup length, found bits ▸ stored.find bits⟩

end Shape

end TonNet
