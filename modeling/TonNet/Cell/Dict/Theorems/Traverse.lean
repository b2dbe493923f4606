import TonNet.Cell.Dict.Traverse
import TonNet.Cell.Dict.Theorems.Aug

-- A steered walk of an augmented dictionary is a pass over the list of its nodes in pre-order.

namespace TonNet

open Fallible Method

variable {ε σ : Type}

-- What a walk meets at a place: a node to offer, or a failure.
abbrev Event (ε : Type) := List Bool × Except CellError (AugNode ε)

-- A place that is strictly below another one.
def Below (place other : List Bool) : Prop :=
  other <+: place ∧ other ≠ place

instance (place other : List Bool) : Decidable (Below place other) :=
  inferInstanceAs (Decidable (_ ∧ _))

-- Offers the nodes one after another, those below a node that was answered with a skip left out, up
-- to the first stop or failure.
def steer (visit : AugNode ε → StateM σ Traverse) : List (List Bool) → List (Event ε) → Method σ CellError Unit
  | _, []                            => return ()
  | skipped, (place, event) :: rest =>
    if ∃ other ∈ skipped, Below place other then steer visit skipped rest
    else do
      let node ← Method.ofExcept event
      match ← visit node with
      | .stop      => return ()
      | .skip      => steer visit (place :: skipped) rest
      | .continues => steer visit skipped rest

section Steer

variable {visit : AugNode ε → StateM σ Traverse} {skipped skipped' : List (List Bool)}
  {events rest : List (Event ε)}

theorem steer_congr (same : ∀ event ∈ events, (∃ other ∈ skipped, Below event.1 other) ↔
    ∃ other ∈ skipped', Below event.1 other) : steer visit skipped events = steer visit skipped' events := by
  induction events generalizing skipped skipped'
  case nil => rfl
  case cons event rest hi =>
    have ⟨here, others⟩ := List.forall_mem_cons.mp same
    have next : steer visit (event.1 :: skipped) rest = steer visit (event.1 :: skipped') rest :=
      hi fun later mem => by simp [others later mem]
    simp only [steer, here, hi others, next]

-- What is below a skipped place is passed over.
theorem steer_skipped (covered : ∀ event ∈ events, ∃ other ∈ skipped, Below event.1 other) :
    steer visit skipped (events ++ rest) = steer visit skipped rest := by
  induction events
  case nil => rfl
  case cons event events hi =>
    have ⟨here, others⟩ := List.forall_mem_cons.mp covered
    rw [List.cons_append, steer, if_pos here, hi others]

variable {front here : List Bool}

-- Nothing at or below a place is left out.
def Free (skipped : List (List Bool)) (front : List Bool) : Prop :=
  ∀ other ∈ skipped, ∀ place, front <+: place → ¬Below place other

theorem Free.mono (free : Free skipped front) (le : front <+: here) : Free skipped here :=
  fun other mem place under => free other mem place (le.trans under)

theorem Free.not_below (free : Free skipped front) (le : front <+: here) :
    ¬∃ other ∈ skipped, Below here other :=
  fun ⟨other, mem, below⟩ => free other mem here le below

-- None of the events is at or below a place.
def Past (events : List (Event ε)) (front : List Bool) : Prop :=
  ∀ event ∈ events, ¬front <+: event.1

theorem Past.mono (past : Past events front) (le : front <+: here) : Past events here :=
  fun event mem under => past event mem (le.trans under)

theorem Past.forget (past : Past events front) (le : front <+: here) :
    steer visit (here :: skipped) events = steer visit skipped events := by
  refine steer_congr fun event mem => ?_
  have other : ¬Below event.1 here := fun below => past event mem (le.trans below.left)
  simp [other]

end Steer

namespace Shape

variable (shape : Shape ε)

-- What there is at a node: its place, what it offers, and whether it is a fork with so many bits of
-- the key left below.
def offer (node : Cell) (remaining : Nat) (front : List Bool) :
    Except CellError (List Bool × AugNode ε × Option Nat) := do
  failIf node.isExotic .pruned
  let (label, slice) ← (readLabel remaining).call node.parse
  let (extra, slice) ← shape.readExtra.call slice
  let here := front ++ label
  if label.length = remaining then
    return (here, .leaf (pack here) extra ⟨node, node.bits - slice.remainingBits⟩, none)
  else return (here, .fork here extra, some (remaining - label.length - 1))

-- What is below the left branch of a fork, then what is below its right one.
def branchEvents (events : Cell → List Bool → List (Event ε)) (node : Cell) (here : List Bool) :
    List (Event ε) :=
  match node.reference 0, node.reference 1 with
  | some left, some right => events left (here ++ [false]) ++ events right (here ++ [true])
  | _, _                  => [(here ++ [false], .error noBranch)]

def preorder : Nat → Cell → Nat → List Bool → List (Event ε)
  | 0, _, _, front                     => [(front, .error noBranch)]
  | passes + 1, node, remaining, front =>
    match shape.offer node remaining front with
    | .error e                        => [(front, .error e)]
    | .ok (here, offered, none)       => [(here, .ok offered)]
    | .ok (here, offered, some below) =>
      (here, .ok offered) :: branchEvents (fun child => preorder passes child below) node here

variable {shape} {visit : AugNode ε → StateM σ Traverse} {skipped : List (List Bool)} {c : Cell} {n : Nat}
  {front here : List Bool} {offered : AugNode ε} {forked : Option Nat} {rest : List (Event ε)} {passes : Nat}

def walkBranches (walk : Cell → List Bool → Method σ CellError Bool) (node : Cell) (here : List Bool) :
    Method σ CellError Bool := do
  let left ← okOr (node.reference 0) noBranch
  let right ← okOr (node.reference 1) noBranch
  if ← walk left (here ++ [false]) then return true
  else walk right (here ++ [true])

-- What becomes of the walk of a fork by what the visitor answers.
def answered (walk : Method σ CellError Bool) : Traverse → Method σ CellError Bool
  | .stop      => return true
  | .skip      => return false
  | .continues => walk

theorem traverseNode_eq (passes : Nat) (c : Cell) (n : Nat) (front : List Bool) :
    shape.traverseNode visit (passes + 1) c n front = (do
      let (here, offered, forked) ← Method.ofExcept (shape.offer c n front)
      match forked with
      | none       =>
        let answer ← visit offered
        return answer = .stop
      | some below =>
        let answer ← visit offered
        answered (walkBranches (fun child => shape.traverseNode visit passes child below) c here) answer) := by
  refine Method.ext fun s => ?_
  by_cases exotic : c.isExotic
  case pos =>
    rw [traverseNode, offer]
    simp only [exotic]
    rfl
  case neg =>
    rw [traverseNode, offer, failIf_bind_of_not exotic,
      outcome_bind_of_ends (a := ()) (ends_failIf.mpr ⟨exotic, rfl⟩)]
    cases (readLabel n).call c.parse
    case error => rfl
    case ok opened =>
      rw [ok_bind, outcome_bind_of_ends (ends_ofExcept.mpr ⟨rfl, rfl⟩)]
      by_cases spent : opened.1.length = n
      case pos =>
        simp only [if_pos spent]
        cases shape.readExtra.call opened.2 <;> rfl
      case neg =>
        simp only [if_neg spent]
        cases shape.readExtra.call opened.2 <;> rfl

-- What the node that is offered holds.
inductive Offers (shape : Shape ε) (c : Cell) (n : Nat) (front : List Bool) :
    List Bool × AugNode ε × Option Nat → Prop
  | leaf {label : Label} {s s' : Slice} {extra : ε} (opens : Opens c n label s) (spent : label.length = n)
    (carried : shape.readExtra.call s = .ok (extra, s')) :
    Offers shape c n front (front ++ label,
      .leaf (pack (front ++ label)) extra ⟨c, c.bits - s'.remainingBits⟩, none)
  | fork {label : Label} {s s' : Slice} {extra : ε} (opens : Opens c n label s) (more : label.length < n)
    (carried : shape.readExtra.call s = .ok (extra, s')) :
    Offers shape c n front (front ++ label, .fork (front ++ label) extra, some (n - label.length - 1))

theorem offers_of_offer {seen : List Bool × AugNode ε × Option Nat} (h : shape.offer c n front = .ok seen) :
    Offers shape c n front seen := by
  rw [offer, failIf_bind_eq_ok, bind_eq_ok] at h
  obtain ⟨ordinary, ⟨label, s⟩, read, h⟩ := h
  obtain ⟨⟨extra, s'⟩, carried, h⟩ := bind_eq_ok.mp h
  have opens : Opens c n label s := ⟨by simpa using ordinary, read⟩
  dsimp only at h
  split at h
  case isTrue spent =>
    cases h
    exact .leaf opens spent carried
  case isFalse more =>
    cases h
    exact .fork opens (lt_of_le_of_ne (readLabel_le read) more) carried

theorem front_of_offer (h : shape.offer c n front = .ok (here, offered, forked)) : front <+: here := by
  obtain ⟨_, _, _⟩ | ⟨_, _, _⟩ := offers_of_offer h
  · exact List.prefix_append ..
  · exact List.prefix_append ..

theorem mem_branchEvents {events : Cell → List Bool → List (Event ε)} {event : Event ε}
    (mem : event ∈ branchEvents events c here) :
    (∃ child b, event ∈ events child (here ++ [b])) ∨ event.1 = here ++ [false] := by
  unfold branchEvents at mem
  split at mem
  case h_1 left right _ _ =>
    obtain mem | mem := List.mem_append.mp mem
    · exact .inl ⟨left, false, mem⟩
    · exact .inl ⟨right, true, mem⟩
  case h_2 => exact .inr (congrArg Prod.fst (List.mem_singleton.mp mem))

theorem preorder_under {event : Event ε} (mem : event ∈ shape.preorder passes c n front) :
    front <+: event.1 := by
  induction passes generalizing c n front
  case zero =>
    rw [preorder, List.mem_singleton] at mem
    exact mem ▸ List.prefix_rfl
  case succ passes hi =>
    rw [preorder] at mem
    split at mem
    case h_1 =>
      rw [List.mem_singleton] at mem
      exact mem ▸ List.prefix_rfl
    case h_2 found =>
      rw [List.mem_singleton] at mem
      exact mem ▸ front_of_offer found
    case h_3 found =>
      have le := front_of_offer found
      obtain rfl | mem := List.mem_cons.mp mem
      · exact le
      · obtain ⟨child, b, mem⟩ | same := mem_branchEvents mem
        · exact le.trans ((List.prefix_append ..).trans (hi mem))
        · exact same ▸ le.trans (List.prefix_append ..)

-- What is below a fork is strictly below its place.
theorem below_of_branch {below : Nat} {event : Event ε}
    (mem : event ∈ branchEvents (fun child => shape.preorder passes child below) c here) :
    Below event.1 here := by
  have strict (b : Bool) (under : here ++ [b] <+: event.1) : Below event.1 here := by
    refine ⟨(List.prefix_append ..).trans under, fun same => ?_⟩
    have := under.length_le
    rw [← same, List.length_append, List.length_singleton] at this
    omega
  obtain ⟨child, b, mem⟩ | same := mem_branchEvents mem
  · exact strict b (preorder_under mem)
  · exact strict false (same ▸ List.prefix_rfl)

theorem past_preorder (here : List Bool) :
    Past (shape.preorder passes c n (here ++ [true])) (here ++ [false]) := by
  intro event mem left
  have right := preorder_under mem
  have same := List.prefix_of_prefix_length_le left right (by simp)
  simp at same

-- The walk below a place, and then the pass over what comes after it.
def Continues (visit : AugNode ε → StateM σ Traverse) (events : List (Event ε)) (walk : Method σ CellError Bool)
    (front : List Bool) : Prop :=
  ∀ skipped rest, Free skipped front → Past rest front →
    steer visit skipped (events ++ rest) = (do if ← walk then return () else steer visit skipped rest)

theorem continues_branches {events : Cell → List Bool → List (Event ε)}
    {walk : Cell → List Bool → Method σ CellError Bool} (c : Cell) (here : List Bool)
    (each : ∀ child b, Continues visit (events child (here ++ [b])) (walk child (here ++ [b])) (here ++ [b]))
    (apart : ∀ child, Past (events child (here ++ [true])) (here ++ [false])) :
    Continues visit (branchEvents events c here) (walkBranches walk c here) here := by
  intro skipped rest free past
  have free' (b : Bool) := free.mono (List.prefix_append here [b])
  have past' (b : Bool) := past.mono (List.prefix_append here [b])
  rw [branchEvents, walkBranches]
  cases c.reference 0
  case none =>
    dsimp only
    rw [List.singleton_append, steer, if_neg (free.not_below (List.prefix_append ..))]
    rfl
  case some left =>
    cases c.reference 1
    case none =>
      dsimp only
      rw [List.singleton_append, steer, if_neg (free.not_below (List.prefix_append ..))]
      rfl
    case some right =>
      have later : Past (events right (here ++ [true]) ++ rest) (here ++ [false]) := by
        intro event mem
        obtain mem | mem := List.mem_append.mp mem
        · exact apart right event mem
        · exact past' false event mem
      dsimp only
      rw [List.append_assoc, each left false skipped _ (free' false) later,
        each right true skipped rest (free' true) (past' true)]
      simp only [okOr, pure_bind, bind_assoc]
      refine congrArg (walk left (here ++ [false]) >>= ·) (funext fun stopped => ?_)
      cases stopped <;> rfl

theorem continues_preorder : Continues visit (shape.preorder passes c n front)
    (shape.traverseNode visit passes c n front) front := by
  induction passes generalizing c n front
  case zero =>
    intro skipped rest free past
    rw [preorder, List.singleton_append, steer, if_neg (free.not_below List.prefix_rfl)]
    rfl
  case succ passes hi =>
    intro skipped rest free past
    rw [preorder, traverseNode_eq]
    cases found : shape.offer c n front
    case error e =>
      dsimp only
      rw [List.singleton_append, steer, if_neg (free.not_below List.prefix_rfl)]
      rfl
    case ok seen =>
      obtain ⟨here, offered, forked⟩ := seen
      have le := front_of_offer found
      refine Method.ext fun s => ?_
      obtain ⟨answer, s', asked⟩ : ∃ answer s',
          (liftM (visit offered) : Method σ CellError Traverse).Ends s answer s' := ⟨_, _, rfl⟩
      cases forked
      case none =>
        have run : (do
            let (_, offered, _) ← Method.ofExcept (.ok (here, offered, (none : Option Nat)))
            let answer ← visit offered
            return decide (answer = .stop) : Method σ CellError Bool).Ends s (decide (answer = .stop)) s' :=
          ends_bind.mpr ⟨_, _, ends_ofExcept.mpr ⟨rfl, rfl⟩, ends_bind.mpr ⟨_, _, asked, rfl⟩⟩
        dsimp only
        rw [List.singleton_append, steer, if_neg (free.not_below le),
          outcome_bind_of_ends (ends_ofExcept.mpr ⟨rfl, rfl⟩), outcome_bind_of_ends asked]
        refine Eq.trans ?_ (outcome_bind_of_ends run).symm
        cases answer
        case continues => rfl
        case skip => exact congrArg (outcome · s') (past.forget le)
        case stop => rfl
      case some below =>
        have branches : Continues visit
            (branchEvents (fun child => shape.preorder passes child below) c here)
            (walkBranches (fun child => shape.traverseNode visit passes child below) c here) here :=
          continues_branches c here (fun _ _ => hi) fun _ => past_preorder here
        have run (walk : Method σ CellError Bool) : ((do
            let (_, offered, _) ← Method.ofExcept (.ok (here, offered, some below))
            let answer ← visit offered
            answered walk answer : Method σ CellError Bool) >>= fun stopped =>
              if stopped then return () else steer visit skipped rest).outcome s =
            (answered walk answer >>= fun stopped =>
              if stopped then return () else steer visit skipped rest).outcome s' := by
          rw [bind_assoc, outcome_bind_of_ends (ends_ofExcept.mpr ⟨rfl, rfl⟩), bind_assoc,
            outcome_bind_of_ends asked]
        dsimp only
        rw [List.cons_append, steer, if_neg (free.not_below le),
          outcome_bind_of_ends (ends_ofExcept.mpr ⟨rfl, rfl⟩), outcome_bind_of_ends asked]
        refine Eq.trans ?_ (run (walkBranches (fun child => shape.traverseNode visit passes child below) c here)).symm
        cases answer
        case continues => exact congrArg (outcome · s') (branches skipped rest (free.mono le) (past.mono le))
        case skip =>
          have covered (event : Event ε) (mem : event ∈ branchEvents (fun child => shape.preorder passes child below) c here) :
              ∃ other ∈ here :: skipped, Below event.1 other := ⟨here, by simp, below_of_branch mem⟩
          exact congrArg (outcome · s') ((steer_skipped covered).trans (past.forget le))
        case stop => rfl


end Shape

-- The entry of a leaf.
def AugNode.asLeaf : AugNode ε → Option (Shape.Item ε)
  | leaf key extra entry => some (key, extra, entry)
  | fork _ _             => none

-- The place and the summary of a fork.
def AugNode.asFork : AugNode ε → Option (List Bool × ε)
  | leaf _ _ _       => none
  | fork front extra => some (front, extra)

namespace Shape

variable {shape : Shape ε} {c : Cell} {n : Nat} {front : List Bool} {passes : Nat}

-- A tree that can be read all the way: the three walks see the same.
structure Walks (shape : Shape ε) (passes : Nat) (c : Cell) (n : Nat) (front : List Bool)
    (nodes : List (AugNode ε)) : Prop where
  offers : (shape.preorder passes c n front).map Prod.snd = nodes.map .ok
  leaves : ∃ t, Shows shape c n t ∧ nodes.filterMap AugNode.asLeaf = Yield front t
  forks  : ∀ out, (shape.collectForks passes c n front).Ends out () (out ++ nodes.filterMap AugNode.asFork)

theorem collectForks_leaf {label : Label} {s : Slice} (opens : Opens c n label s) (spent : label.length = n)
    (out : List (List Bool × ε)) : (shape.collectForks (passes + 1) c n front).Ends out () out := by
  rw [collectForks, if_neg (by simp [opens.ordinary]), opens.read,
    ends_bind_of_ends (ends_ofExcept.mpr ⟨rfl, rfl⟩)]
  dsimp only
  rw [onlyIf, if_neg (by omega)]
  rfl

theorem collectForks_fork {label : Label} {s s' : Slice} {extra : ε} {cells : Bool → Cell}
    (opens : Opens c n label s) (more : label.length < n)
    (carried : shape.readExtra.call s = .ok (extra, s')) (branch : ∀ b, c.reference b.toNat = some (cells b))
    {out left right : List (List Bool × ε)}
    (hl : (shape.collectForks passes (cells false) (n - label.length - 1) (front ++ label ++ [false])).Ends
      (out ++ [(front ++ label, extra)]) () left)
    (hr : (shape.collectForks passes (cells true) (n - label.length - 1) (front ++ label ++ [true])).Ends
      left () right) : (shape.collectForks (passes + 1) c n front).Ends out () right := by
  have zero : c.reference 0 = some (cells false) := branch false
  have one : c.reference 1 = some (cells true) := branch true
  rw [collectForks, if_neg (by simp [opens.ordinary]), opens.read,
    ends_bind_of_ends (ends_ofExcept.mpr ⟨rfl, rfl⟩)]
  dsimp only
  rw [onlyIf, if_pos more, carried, ends_bind_of_ends (ends_ofExcept.mpr ⟨rfl, rfl⟩)]
  exact ends_bind.mpr ⟨(), _, rfl, ends_bind.mpr ⟨_, _, ends_okOr.mpr ⟨zero, rfl⟩,
    ends_bind.mpr ⟨_, _, ends_okOr.mpr ⟨one, rfl⟩, ends_bind.mpr ⟨_, _, hl, hr⟩⟩⟩⟩

theorem branches_of_ok {events : Cell → List Bool → List (Event ε)} {here : List Bool}
    (ok : ∀ event ∈ branchEvents events c here, ∃ node, event.2 = .ok node) :
    ∃ cells : Bool → Cell, (∀ b, c.reference b.toNat = some (cells b)) ∧
      branchEvents events c here = events (cells false) (here ++ [false]) ++ events (cells true) (here ++ [true]) := by
  unfold branchEvents at ok ⊢
  split at ok
  case h_1 left right hl hr =>
    refine ⟨fun b => if b then right else left, ?_, rfl⟩
    rintro (_ | _)
    · exact hl
    · exact hr
  case h_2 => simp at ok

theorem walks_of_ok (ok : ∀ event ∈ shape.preorder passes c n front, ∃ node, event.2 = .ok node) :
    ∃ nodes, Walks shape passes c n front nodes := by
  induction passes generalizing c n front
  case zero => simp [preorder] at ok
  case succ passes hi =>
    cases found : shape.offer c n front
    case error => simp [preorder, found] at ok
    case ok seen =>
      have offers := offers_of_offer found
      cases offers
      case leaf label s s' extra opens spent carried =>
        refine ⟨[_], by rw [preorder, found]; rfl, ⟨_, .leaf opens spent carried, rfl⟩, fun out => ?_⟩
        exact (List.append_nil out).symm ▸ collectForks_leaf opens spent out
      case fork label s s' extra opens more carried =>
        rw [preorder, found] at ok
        have ⟨_, below⟩ := List.forall_mem_cons.mp ok
        obtain ⟨cells, branch, events⟩ := branches_of_ok below
        rw [events] at below
        have ⟨hl, hr⟩ := List.forall_mem_append.mp below
        have ⟨left, l⟩ := hi hl
        have ⟨right, r⟩ := hi hr
        have ⟨tl, showsLeft, yieldsLeft⟩ := l.leaves
        have ⟨tr, showsRight, yieldsRight⟩ := r.leaves
        refine ⟨.fork (front ++ label) extra :: (left ++ right), ?_, ?_, fun out => ?_⟩
        · rw [preorder, found]
          simp only [events, List.map_cons, List.map_append, l.offers, r.offers]
        · refine ⟨.fork label fun b => if b then tr else tl, .fork opens more branch ?_, ?_⟩
          · rintro (_ | _)
            · exact showsLeft
            · exact showsRight
          · rw [yield_fork, List.filterMap_cons_none rfl, List.filterMap_append, yieldsLeft, yieldsRight]
            rfl
        · have found : out ++ (AugNode.fork (front ++ label) extra :: (left ++ right)).filterMap AugNode.asFork =
              out ++ [(front ++ label, extra)] ++ left.filterMap AugNode.asFork ++
                right.filterMap AugNode.asFork := by
            simp [AugNode.asFork]
          rw [found]
          exact collectForks_fork opens more carried branch (l.forks _) (r.forks _)

end Shape

-- Offers all of the nodes, whatever the visitor answers.
def offerAll (visit : AugNode ε → StateM σ Traverse) : List (AugNode ε) → Method σ CellError Unit
  | []            => return ()
  | node :: nodes => do
    let _ ← visit node
    offerAll visit nodes

theorem steer_of_continues {visit : AugNode ε → StateM σ Traverse}
    (continues : ∀ node s, ((visit node).run s).1 = .continues) {events : List (Event ε)}
    {nodes : List (AugNode ε)} (offers : events.map Prod.snd = nodes.map .ok) :
    steer visit [] events = offerAll visit nodes := by
  induction events generalizing nodes
  case nil =>
    obtain rfl := List.map_eq_nil_iff.mp offers.symm
    rfl
  case cons event events hi =>
    obtain ⟨node, nodes, rfl, here, rest⟩ := List.map_eq_cons_iff.mp offers.symm
    refine Method.ext fun s => ?_
    have asked : (liftM (visit node) : Method σ CellError Traverse).Ends s .continues ((visit node).run s).2 :=
      continues node s ▸ rfl
    rw [steer, if_neg (by simp), ← here, outcome_bind_of_ends (ends_ofExcept.mpr ⟨rfl, rfl⟩),
      outcome_bind_of_ends asked]
    dsimp only
    rw [hi rest.symm]
    rw [offerAll, outcome_bind_of_ends asked]

namespace AugDict

variable (dict : AugDict ε)

-- The nodes of the dictionary in pre-order, with whatever cannot be read in its place.
def preorder : List (Event ε) :=
  dict.root.elim [] fun root => dict.aug.shape.preorder (dict.keyBits + 1) root dict.keyBits []

-- An augmented dictionary tree with no exotic node: each node of it reads as an entry or a fork of one.
def Legible : Prop :=
  ∀ event ∈ dict.preorder, ∃ node, event.2 = .ok node

theorem traverseExtra_eq (visit : AugNode ε → StateM σ Traverse) :
    dict.traverseExtra visit = steer visit [] dict.preorder := by
  rw [traverseExtra, preorder]
  cases dict.root
  case none => rfl
  case some root =>
    have free : Free [] [] := fun _ mem => nomatch mem
    have past : Past ([] : List (Event ε)) [] := fun _ mem => nomatch mem
    have walked : Shape.Continues visit (dict.aug.shape.preorder (dict.keyBits + 1) root dict.keyBits [])
        (dict.aug.shape.traverseNode visit (dict.keyBits + 1) root dict.keyBits []) [] :=
      Shape.continues_preorder
    have run := walked [] [] free past
    rw [List.append_nil] at run
    refine (Eq.trans run ?_).symm
    refine bind_congr fun stopped => ?_
    cases stopped <;> rfl

-- The walk that a visitor steers is a pass over the nodes in pre-order. In a tree that is legible, a
-- visitor that never skips and never stops is offered the forks that are collected and the entries of
-- the iterator.
theorem traverse_steers :
    (∀ (σ : Type) (visit : AugNode ε → StateM σ Traverse),
      dict.traverseExtra visit = steer visit [] dict.preorder) ∧
    (dict.Legible → ∃ nodes : List (AugNode ε),
      dict.preorder.map Prod.snd = nodes.map .ok ∧
      (∀ (σ : Type) (visit : AugNode ε → StateM σ Traverse),
        (∀ node s, ((visit node).run s).1 = .continues) → dict.traverseExtra visit = offerAll visit nodes) ∧
      dict.forkExtras = .ok (nodes.filterMap AugNode.asFork) ∧
      dict.items = (nodes.filterMap AugNode.asLeaf).map fun (key, extra, entry) => .ok (key, ⟨extra, entry⟩)) := by
  refine ⟨fun _ visit => dict.traverseExtra_eq visit, fun legible => ?_⟩
  obtain ⟨nodes, offers, forks, leaves⟩ : ∃ nodes : List (AugNode ε),
      dict.preorder.map Prod.snd = nodes.map .ok ∧
      dict.forkExtras = .ok (nodes.filterMap AugNode.asFork) ∧
      dict.iter.items dict.aug.shape = (nodes.filterMap AugNode.asLeaf).map .ok := by
    obtain ⟨aug, _ | root, n, bound⟩ := dict
    case none => exact ⟨[], rfl, rfl, rfl⟩
    case some =>
      have ⟨nodes, walks⟩ := Shape.walks_of_ok legible
      have ⟨t, shows, yields⟩ := walks.leaves
      refine ⟨nodes, walks.offers, ?_, ?_⟩
      · rw [forkExtras, call_eq_ok.mpr (walks.forks [])]
        rfl
      · rw [yields]
        exact DictIter.items_of_shows shows bound
  refine ⟨nodes, offers, fun _ visit continues => ?_, forks, ?_⟩
  · rw [dict.traverseExtra_eq, steer_of_continues continues offers]
  · rw [items, leaves, List.map_map]
    rfl

end AugDict

section Walked

attribute [local instance] Sha256.standard

-- Two keys of four bits under one fork, and whether its nodes can be read.
def walkedRun : Option (List Bool × Option (List (List Bool × UInt32))) := do
  let (_, value) ← ((Builder.storeUint 0xaa 8).call .new).toOption
  let dict ← (AugDict.fromItems countSum 4 [([0x10], 1, value), ([0x80], 2, value)]).toOption
  return (dict.preorder.map fun event => event.2.isOk, dict.forkExtras.toOption)

theorem AugDict.traverse_steers_fork : ∃ (dict : AugDict UInt32) (nodes : List (AugNode UInt32)),
    dict.preorder.map Prod.snd = nodes.map .ok ∧ nodes.length = 3 ∧
    nodes.filterMap AugNode.asFork = [([], 3)] ∧
    ∀ (σ : Type) (visit : AugNode UInt32 → StateM σ Traverse),
      (∀ node s, ((visit node).run s).1 = .continues) → dict.traverseExtra visit = offerAll visit nodes := by
  have run : walkedRun = some ([true, true, true], some [([], 3)]) := by decide +kernel
  simp only [walkedRun, Option.bind_eq_bind, Option.bind_eq_some_iff, Option.pure_def, Option.some_inj,
    Prod.mk.injEq, toOption_eq_some, Prod.exists] at run
  obtain ⟨_, value, _, dict, _, readable, forks⟩ := run
  have legible : dict.Legible := by
    intro event mem
    have here := List.mem_map_of_mem (f := fun event => event.2.isOk) mem
    rw [readable] at here
    cases found : event.2 <;> simp_all [Except.isOk, Except.toBool]
  have ⟨nodes, offers, walks, collected, _⟩ := dict.traverse_steers.2 legible
  refine ⟨dict, nodes, offers, ?_, ?_, walks⟩
  · have counted := congrArg List.length offers
    have three := congrArg List.length readable
    simp only [List.length_map, List.length_cons, List.length_nil] at counted three
    omega
  · rw [forks] at collected
    exact (Except.ok.inj collected).symm

end Walked

end TonNet
