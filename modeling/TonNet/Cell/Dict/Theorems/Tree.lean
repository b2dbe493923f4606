import TonNet.Cell.Dict.Theorems.Label

-- A dictionary is a radix tree written as cells.

namespace TonNet

open Fallible Method Builder Slice

variable {ε : Type}

-- A summary is written as some bits and references, the same wherever there is room for it. What `code`
-- has nothing for is never written.
structure Shape.Pens (shape : Shape ε) (code : ε → Option (List Bool × List Cell)) : Prop where
  writes  : ∀ {e bits refs}, code e = some (bits, refs) → Writes (shape.writeExtra e) bits refs ()
  refuses : ∀ {e b b'}, code e = none → ¬(shape.writeExtra e).Ends b () b'

-- A summary is written as bits only.
structure Shape.Spelled (shape : Shape ε) (code : ε → Option (List Bool)) : Prop where
  writes  : ∀ {e bits}, code e = some bits → Writes (shape.writeExtra e) bits [] ()
  refuses : ∀ {e b b'}, code e = none → ¬(shape.writeExtra e).Ends b () b'

theorem Shape.Spelled.pens {shape : Shape ε} {code : ε → Option (List Bool)} (law : shape.Spelled code) :
    shape.Pens fun e => (code e).map (·, []) where
  writes coded  := by
    obtain ⟨_, spelled, same⟩ := Option.map_eq_some_iff.mp coded
    cases same
    exact law.writes spelled
  refuses coded := law.refuses (Option.map_eq_none_iff.mp coded)

-- And it is read back as it was.
structure Shape.Lawful (shape : Shape ε) (code : ε → Option (List Bool)) : Prop
    extends Spelled shape code where
  reads   : ∀ {e bits}, code e = some bits → Reads shape.readExtra bits [] e
  checks  : ∀ {e bits s}, code e = some bits → s.ahead = bits → ∃ s', shape.checkFork.Ends s () s'

section Nodes

variable [Sha256] {c c' : Cell} {x : Store Unit} {label rest : List Bool} {max : Nat}

theorem build_eq_ok : (do let (_, b) ← x.call .new; b.build) = .ok c ↔
    ∃ b, x.Ends .new () b ∧ b.build = .ok c := by
  rw [bind_eq_ok]
  constructor
  · rintro ⟨⟨_, b⟩, run, built⟩
    exact ⟨b, call_eq_ok.mp run, built⟩
  · rintro ⟨b, run, built⟩
    exact ⟨((), b), call_eq_ok.mpr run, built⟩

-- A node starts with its label.
structure Node (c : Cell) (label : List Bool) (max : Nat) (rest : List Bool) : Prop where
  ordinary : c.isExotic = false
  label_le : label.length ≤ max
  max_le   : max ≤ maxBits
  bits     : c.toBits = labelBits label max ++ rest

omit [Sha256] in
theorem Node.readLabel (h : Node c label max rest) :
    ∃ s, (readLabel max).call c.parse = .ok (label, s) ∧ s.ahead = rest ∧ s.refsAhead = c.refs := by
  have ⟨s, run, hs⟩ := readLabel_reads h.label_le (lt_of_le_maxBits h.max_le)
    (le_trans h.label_le h.max_le) c.parse rest c.refs (by rw [Cell.parse_ahead, h.bits]) (by simp)
  exact ⟨s, call_eq_ok.mpr run, hs⟩

omit [Sha256] in
theorem Node.skipLabel (h : Node c label max rest) :
    ∃ s, (skipLabel max).Ends c.parse () s ∧ s.ahead = rest ∧ s.refsAhead = c.refs :=
  skipLabel_reads h.label_le (lt_of_le_maxBits h.max_le) c.parse rest c.refs
    (by rw [Cell.parse_ahead, h.bits]) (by simp)

theorem Makes.node {refs : List Cell} (h : Makes (labelBits label max ++ rest) refs c)
    (label_le : label.length ≤ max) (max_le : max ≤ maxBits) : Node c label max rest := by
  have ⟨ordinary, bits, _⟩ := h.cell
  exact ⟨ordinary, label_le, max_le, bits⟩

end Nodes

namespace Shape

variable [Sha256] {shape : Shape ε} {code : ε → Option (List Bool × List Cell)} {c c' : Cell}
  {label : List Bool} {max n : Nat} {entry : Entry ε}

omit [Sha256] in
theorem code_unique {e : ε} {bits bits' : List Bool} {refs refs' : List Cell}
    (h : code e = some (bits, refs)) (h' : code e = some (bits', refs')) : bits = bits' ∧ refs = refs' :=
  Prod.mk.inj (Option.some_inj.mp (h.symm.trans h'))

theorem leaf_iff (law : shape.Pens code) (bound : max ≤ maxBits) :
    shape.leaf label entry max = .ok c ↔ label.length ≤ max ∧ ∃ bits refs, code entry.extra = some (bits, refs) ∧
      Makes (labelBits label max ++ (bits ++ entry.value.toBits)) (refs ++ entry.value.refs) c := by
  have writes {bits : List Bool} {refs : List Cell} (le : label.length ≤ max)
      (coded : code entry.extra = some (bits, refs)) :=
    (storeLabel_writes le (lt_of_le_maxBits bound)).seq
      ((law.writes coded).seq (storeBuilder_writes entry.value))
  constructor
  · intro h
    have ⟨b, run, built⟩ := build_eq_ok.mp h
    have ⟨_, _, first, more⟩ := ends_bind.mp run
    have ⟨_, _, second, _⟩ := ends_bind.mp more
    have le : label.length ≤ max := by
      by_contra gt
      exact not_storeLabel_ends (not_le.mp gt) bound first
    refine ⟨le, ?_⟩
    cases coded : code entry.extra
    case none => exact absurd second (law.refuses coded)
    case some summary => exact ⟨summary.1, summary.2, rfl, (writes le coded).build.mp h⟩
  · rintro ⟨le, bits, refs, coded, makes⟩
    exact (writes le coded).build.mpr makes

theorem fork_iff (law : shape.Pens code) {left right : Cell} {below : Nat} (bound : max ≤ maxBits) :
    shape.fork label left right max below = .ok c ↔ label.length ≤ max ∧ ∃ e bits refs,
      shape.forkExtra left right below = .ok e ∧ code e = some (bits, refs) ∧
      Makes (labelBits label max ++ bits) (refs ++ [left, right]) c := by
  have writes {e : ε} {bits : List Bool} {refs : List Cell} (le : label.length ≤ max)
      (extra : shape.forkExtra left right below = .ok e) (coded : code e = some (bits, refs)) :
      Writes (do
        storeLabel label max
        let extra ← Method.ofExcept (shape.forkExtra left right below)
        shape.writeExtra extra
        storeRef left
        storeRef right) (labelBits label max ++ ([] ++ (bits ++ ([] ++ []))))
        ([] ++ ([] ++ (refs ++ ([left] ++ [right])))) () :=
    (storeLabel_writes le (lt_of_le_maxBits bound)).seq ((Writes.ofExcept extra).bind
      ((law.writes coded).seq ((storeRef_writes left).seq (storeRef_writes right))))
  constructor
  · intro h
    have ⟨b, run, built⟩ := build_eq_ok.mp h
    have ⟨_, _, first, more⟩ := ends_bind.mp run
    have ⟨e, _, second, more⟩ := ends_bind.mp more
    have ⟨_, _, third, _⟩ := ends_bind.mp more
    have le : label.length ≤ max := by
      by_contra gt
      exact not_storeLabel_ends (not_le.mp gt) bound first
    have extra := (ends_ofExcept.mp second).left
    refine ⟨le, e, ?_⟩
    cases coded : code e
    case none => exact absurd third (law.refuses coded)
    case some summary =>
      have makes := (writes le extra coded).build.mp h
      simp only [List.nil_append, List.append_nil, List.singleton_append] at makes
      exact ⟨summary.1, summary.2, extra, rfl, makes⟩
  · rintro ⟨le, e, bits, refs, extra, coded, makes⟩
    refine (writes le extra coded).build.mpr ?_
    simpa only [List.nil_append, List.append_nil, List.singleton_append] using makes

section Spelled

variable {code : ε → Option (List Bool)}

theorem leaf_eq_ok (law : shape.Spelled code) (bound : max ≤ maxBits) :
    shape.leaf label entry max = .ok c ↔ label.length ≤ max ∧ ∃ bits, code entry.extra = some bits ∧
      Makes (labelBits label max ++ (bits ++ entry.value.toBits)) entry.value.refs c := by
  simp only [leaf_iff law.pens bound, Option.map_eq_some_iff, Prod.mk.injEq]
  refine and_congr_right fun _ => ⟨?_, fun ⟨bits, coded, makes⟩ => ⟨bits, [], ⟨bits, coded, rfl, rfl⟩, makes⟩⟩
  rintro ⟨bits, _, ⟨_, coded, rfl, rfl⟩, makes⟩
  exact ⟨_, coded, makes⟩

theorem fork_eq_ok (law : shape.Spelled code) {left right : Cell} {below : Nat}
    (bound : max ≤ maxBits) :
    shape.fork label left right max below = .ok c ↔ label.length ≤ max ∧ ∃ e bits,
      shape.forkExtra left right below = .ok e ∧ code e = some bits ∧
      Makes (labelBits label max ++ bits) [left, right] c := by
  simp only [fork_iff law.pens bound, Option.map_eq_some_iff, Prod.mk.injEq]
  refine and_congr_right fun _ => ⟨?_, fun ⟨e, bits, extra, coded, makes⟩ =>
    ⟨e, bits, [], extra, ⟨bits, coded, rfl, rfl⟩, makes⟩⟩
  rintro ⟨e, bits, _, extra, ⟨_, coded, rfl, rfl⟩, makes⟩
  exact ⟨e, _, extra, coded, makes⟩

end Spelled

variable (shape) in
-- The tree as cells, from the leaves up.
def encode : Radix (Entry ε) → Nat → Except CellError Cell
  | .leaf label entry, n => shape.leaf label entry n
  | .fork label child, n => do
    let below := n - label.length - 1
    let left ← encode (child false) below
    let right ← encode (child true) below
    shape.fork label left right n below

theorem encode_fork_eq_ok {child : Bool → Radix (Entry ε)} :
    shape.encode (.fork label child) n = .ok c ↔ ∃ cells : Bool → Cell,
      (∀ b, shape.encode (child b) (n - label.length - 1) = .ok (cells b)) ∧
      shape.fork label (cells false) (cells true) n (n - label.length - 1) = .ok c := by
  simp only [encode, bind_eq_ok]
  constructor
  · rintro ⟨left, hl, right, hr, h⟩
    exact ⟨fun b => if b then right else left, fun b => by cases b <;> simpa, h⟩
  · rintro ⟨cells, each, h⟩
    exact ⟨_, each false, _, each true, h⟩

-- The content of a node behind its label.
theorem node_of_encode (law : shape.Pens code) {t : Radix (Entry ε)} (bound : n ≤ maxBits)
    (h : shape.encode t n = .ok c) : ∃ rest, Node c t.label n rest := by
  cases t
  case leaf label entry =>
    have ⟨le, bits, _, _, makes⟩ := (leaf_iff law bound).mp h
    exact ⟨_, makes.node le bound⟩
  case fork label child =>
    have ⟨cells, _, h⟩ := encode_fork_eq_ok.mp h
    have ⟨le, _, bits, _, _, _, makes⟩ := (fork_iff law bound).mp h
    exact ⟨_, makes.node le bound⟩

-- A node with its label exchanged: what is behind the label stays as it is.
theorem encode_relabel (law : shape.Pens code) {t : Radix (Entry ε)} {m : Nat} {rest : List Bool}
    (within : t.Within n) (bound : n ≤ maxBits) (bound' : m ≤ maxBits) (h : shape.encode t n = .ok c)
    (node : Node c t.label n rest) (width : m + t.label.length = n + label.length) :
    shape.encode (t.relabel label) m = .ok c' ↔
      label.length ≤ m ∧ Makes (labelBits label m ++ rest) c.refs c' := by
  cases t
  case leaf label' entry =>
    obtain ⟨_, bits, refs, coded, makes⟩ := (leaf_iff law bound).mp h
    obtain ⟨_, same, held⟩ := makes.cell
    obtain rfl : bits ++ entry.value.toBits = rest :=
      List.append_cancel_left (same.symm.trans node.bits)
    rw [held]
    refine (leaf_iff law bound').trans (and_congr_right fun _ => ?_)
    constructor
    · rintro ⟨bits', refs', coded', makes'⟩
      obtain ⟨rfl, rfl⟩ := code_unique coded coded'
      exact makes'
    · exact fun makes' => ⟨bits, refs, coded, makes'⟩
  case fork label' child =>
    obtain ⟨cells, each, h⟩ := encode_fork_eq_ok.mp h
    obtain ⟨_, e, bits, refs, extra, coded, makes⟩ := (fork_iff law bound).mp h
    obtain ⟨_, same, held⟩ := makes.cell
    obtain rfl : bits = rest := List.append_cancel_left (same.symm.trans node.bits)
    have lt := within.left
    have below : m - label.length - 1 = n - label'.length - 1 := by
      have : m + label'.length = n + label.length := width
      omega
    rw [Radix.relabel, encode_fork_eq_ok, below, held]
    constructor
    · rintro ⟨cells', each', h'⟩
      obtain rfl : cells = cells' :=
        funext fun b => Except.ok.inj ((each b).symm.trans (each' b))
      obtain ⟨le, e', bits', refs', extra', coded', makes'⟩ := (fork_iff law bound').mp h'
      obtain rfl := Except.ok.inj (extra.symm.trans extra')
      obtain ⟨rfl, rfl⟩ := code_unique coded coded'
      exact ⟨le, makes'⟩
    · rintro ⟨le, makes'⟩
      exact ⟨cells, each, (fork_iff law bound').mpr ⟨le, e, bits, refs, extra, coded, makes'⟩⟩

end Shape

end TonNet
