import TonNet.Cell.Dict.Theorems.Bulk

-- What a dictionary holds: the map of the one tree its root is the cells of.

namespace TonNet

open Fallible Method Keyed

def firstBits (key : Bytes) (n : Nat) : List Bool :=
  (List.range n).map key.bitAt

@[simp]
theorem firstBits_length (key : Bytes) (n : Nat) : (firstBits key n).length = n := by
  simp [firstBits]

theorem keyOf_eq_ok {key : Bytes} {n : Nat} {bits : List Bool} :
    keyOf key n = .ok bits ↔ (n + 7) / 8 ≤ key.length ∧ firstBits key n = bits := by
  rw [keyOf, failIf_bind_eq_ok, not_lt, pure_eq_ok]
  rfl

namespace Shape

variable {ε : Type} [Sha256] {shape : Shape ε} {code : ε → Option (List Bool)}
  {root root' : Option Cell} {n : Nat} {m : List Bool → Option (Entry ε)} {bits : List Bool}
  {entry : Entry ε}

def Holds (shape : Shape ε) (root : Option Cell) (n : Nat) (m : List Bool → Option (Entry ε)) : Prop :=
  match root with
  | none      => ∀ key, m key = none
  | some root => ∃ t : Radix (Entry ε), t.Fits n ∧ (∀ key, t.find key = m key) ∧
    shape.encode t n = .ok root

theorem holds_iff {t : Radix (Entry ε)} (fits : t.Fits n) (found : ∀ key, t.find key = m key) :
    shape.Holds root n m ↔ ∃ c, shape.encode t n = .ok c ∧ some c = root := by
  constructor
  · intro h
    cases root
    case none =>
      have ⟨key, v, here⟩ := t.exists_find
      exact absurd ((h key).symm.trans ((found key).symm.trans here)) (by simp)
    case some c =>
      have ⟨t', _, found', built⟩ := h
      obtain rfl : t = t' := Radix.ext_find fun key => (found key).trans (found' key).symm
      exact ⟨c, built, rfl⟩
  · rintro ⟨c, built, rfl⟩
    exact ⟨t, fits, found, built⟩

theorem Holds.width (h : shape.Holds root n m) (found : m bits = some entry) : bits.length = n := by
  cases root
  case none => simp [h bits] at found
  case some c =>
    have ⟨t, fits, same, _⟩ := h
    exact Radix.fits_iff.mp fits bits entry ((same bits).trans found)

-- One root for each map.
theorem Holds.unique (h : shape.Holds root n m) (h' : shape.Holds root' n m) : root = root' := by
  cases root
  case none =>
    cases root'
    case none => rfl
    case some c =>
      obtain ⟨t, fits, found, _⟩ := h'
      have ⟨_, _, same⟩ := (holds_iff fits found).mp h
      cases same
  case some c =>
    obtain ⟨t, fits, found, built⟩ := h
    obtain ⟨_, built', rfl⟩ := (holds_iff fits found).mp h'
    exact congrArg some (Except.ok.inj (built.symm.trans built'))

theorem setRoot_iff {code : ε → Option (List Bool × List Cell)} (law : shape.Pens code)
    (h : shape.Holds root n m) (length : bits.length = n) (bound : n ≤ maxBits)
    (leads : ∀ t, (∀ key, t.find key = m key) → shape.Leads t n bits) : (∃ c, shape.setRoot root n bits entry = .ok c ∧ some c = root') ↔
      shape.Holds root' n (Function.update m bits (some entry)) := by
  cases root
  case none =>
    refine (holds_iff (t := .leaf bits entry) length fun key => ?_).symm
    by_cases same : key = bits
    case pos => simp [same, Radix.find]
    case neg => simp [same, Radix.find, h key]
  case some root =>
    obtain ⟨t, fits, found, built⟩ := h
    subst length
    have inserted (key : List Bool) : (t.insert bits entry).find key =
        Function.update m bits (some entry) key := by
      rw [Radix.find_insert fits.apart, Function.update_apply, found]
    have placed {c : Cell} : (shape.descend bits root bits.length >>= shape.place bits entry) = .ok c ↔
        ∃ c', shape.encode (t.insert bits entry) bits.length = .ok c' ∧ shape.rebuild [] c' = .ok c :=
      place_eq_ok law entry (leads t found) fits.within fits.apart rfl bound built List.drop_zero (Nat.lt_succ_self _)
    rw [holds_iff fits.insert inserted]
    refine exists_congr fun c => and_congr_left fun _ => Iff.trans (Iff.of_eq rfl) (placed.trans ?_)
    simp [rebuild, pure_eq_ok]

theorem setRoot_eq_ok (law : shape.Lawful code) (h : shape.Holds root n m) (length : bits.length = n)
    (bound : n ≤ maxBits) : (∃ c, shape.setRoot root n bits entry = .ok c ∧ some c = root') ↔
      shape.Holds root' n (Function.update m bits (some entry)) :=
  setRoot_iff law.pens h length bound fun t _ => law.leads t n bits

theorem removeRoot_of_absent (law : shape.Lawful code) (h : shape.Holds root n m)
    (length : bits.length = n) (bound : n ≤ maxBits) (absent : m bits = none) :
    shape.removeRoot root n bits = .ok none := by
  cases root
  case none => rfl
  case some root =>
    obtain ⟨t, fits, found, built⟩ := h
    subst length
    have stays : (shape.descend bits root bits.length >>= shape.displace) = .ok none :=
      displace_of_absent law fits.within fits.apart rfl bound built List.drop_zero (Nat.lt_succ_self _)
        ((found bits).trans absent)
    exact Eq.trans rfl stays

theorem removeRoot_eq_ok (law : shape.Lawful code) (h : shape.Holds root n m)
    (length : bits.length = n) (bound : n ≤ maxBits) (present : m bits = some entry)
    {r : Option (Option Cell)} :
    shape.removeRoot root n bits = .ok r ↔
      ∃ root', shape.Holds root' n (Function.update m bits none) ∧ some root' = r := by
  cases root
  case none => simp [h bits] at present
  case some root =>
    obtain ⟨t, fits, found, built⟩ := h
    subst length
    have here := (found bits).trans present
    have erased (key : List Bool) :
        (t.erase bits).bind (·.find key) = Function.update m bits none key := by
      rw [Radix.find_erase fits.apart here, Function.update_apply, found]
    have gone : (shape.descend bits root bits.length >>= shape.displace) = .ok r ↔ _ :=
      displace_eq_ok law fits.within fits.apart rfl bound built List.drop_zero (Nat.lt_succ_self _) here
    refine Iff.trans (Iff.of_eq rfl) (gone.trans ?_)
    cases e : t.erase bits
    case none =>
      rw [e] at erased
      constructor
      · intro done
        exact ⟨none, fun key => (erased key).symm, Except.ok.inj done⟩
      · rintro ⟨root', held, rfl⟩
        have empty : shape.Holds none bits.length (Function.update m bits none) := fun key =>
          (erased key).symm
        rw [held.unique empty]
        rfl
    case some t' =>
      rw [e] at erased
      have fits' := fits.erase fits.apart here e
      simp only [holds_iff fits' erased, rebuild, List.foldlM_nil, pure_eq_ok]
      exact ⟨fun ⟨c, encoded, _, same, e⟩ => ⟨_, ⟨c, encoded, rfl⟩, same ▸ e⟩,
        fun ⟨_, ⟨c, encoded, same⟩, e⟩ => ⟨c, encoded, c, rfl, same ▸ e⟩⟩

section Build

variable {items : List (Bytes × Entry ε)}

-- The map that items give: of those under one key the last one counts.
def given (items : List (Bytes × Entry ε)) (n : Nat) : List Bool → Option (Entry ε) :=
  last (items.map fun (key, entry) => (firstBits key n, entry))

omit [Sha256] in
theorem keyed_eq_ok {keyed : List (List Bool × Entry ε)} :
    (items.mapM fun (key, entry) => do
      let bits ← keyOf key n
      return (bits, entry)) = .ok keyed ↔
    (∀ item ∈ items, (n + 7) / 8 ≤ item.1.length) ∧
      (items.map fun (key, entry) => (firstBits key n, entry)) = keyed := by
  refine mapM_eq_ok_map fun item pair => ?_
  simp only [bind_eq_ok, keyOf_eq_ok, pure_eq_ok]
  constructor
  · rintro ⟨_, ⟨long, rfl⟩, same⟩
    exact ⟨long, same⟩
  · rintro ⟨long, same⟩
    exact ⟨_, ⟨long, rfl⟩, same⟩

omit [Sha256] in
theorem sorted_insertionSort {keyed : List (List Bool × Entry ε)}
    (width : ∀ item ∈ keyed, item.1.length = n) :
    Sorted (keyed.insertionSort fun left right => left.1 ≤ right.1) [] n where
  ascends := by
    have : Std.Total fun left right : List Bool × Entry ε => left.1 ≤ right.1 :=
      ⟨fun left right => le_total left.1 right.1⟩
    have : IsTrans (List Bool × Entry ε) fun left right => left.1 ≤ right.1 :=
      ⟨fun _ _ _ => le_trans⟩
    exact List.pairwise_insertionSort _ keyed
  under   := fun _ _ => List.nil_prefix
  width   := fun item mem => by
    rw [width item ((List.mem_insertionSort _).mp mem), List.length_nil, Nat.zero_add]

theorem buildSorted_eq_ok {keyed : List (List Bool × Entry ε)}
    (width : ∀ item ∈ keyed, item.1.length = n) :
    (if keyed.isEmpty then pure none
    else do
      let root ← shape.buildRun (n + 1)
        (keyed.insertionSort fun left right => left.1 ≤ right.1) 0 n
      return some root) = .ok root ↔ shape.Holds root n (last keyed) := by
  by_cases empty : keyed = []
  case pos =>
    subst empty
    have held : shape.Holds none n (last ([] : List (List Bool × Entry ε))) := fun _ => rfl
    refine pure_eq_ok.trans ⟨?_, held.unique⟩
    rintro rfl
    exact held
  case neg =>
    have filled : (keyed.insertionSort fun left right => left.1 ≤ right.1) ≠ [] := by
      rwa [← List.length_pos_iff, List.length_insertionSort, List.length_pos_iff]
    obtain ⟨t, fits, found, built⟩ : ∃ t : Radix (Entry ε), t.Fits n ∧ _ ∧ shape.buildRun (n + 1) _ 0 n = _ :=
      buildRun_eq (sorted_insertionSort width) filled (Nat.lt_succ_self n)
    simp only [last_insertionSort fun _ _ same => same.le, List.nil_append] at found
    rw [if_neg (by simpa using empty), holds_iff fits found, built, bind_eq_ok]
    simp only [pure_eq_ok]

theorem buildAll_eq_ok : shape.buildAll n items = .ok root ↔
    n ≤ maxBits ∧ (∀ item ∈ items, (n + 7) / 8 ≤ item.1.length) ∧
      shape.Holds root n (given items n) := by
  have width (item : List Bool × Entry ε) (mem : item ∈ items.map fun (key, entry) => (firstBits key n, entry)) :
      item.1.length = n := by
    obtain ⟨_, _, rfl⟩ := List.mem_map.mp mem
    exact firstBits_length ..
  rw [buildAll, checkKeyBits, failIf_bind_eq_ok, not_lt, bind_eq_ok, given, ← buildSorted_eq_ok width]
  simp only [keyed_eq_ok]
  exact and_congr_right fun _ => ⟨fun ⟨_, ⟨long, same⟩, h⟩ => ⟨long, same ▸ h⟩,
    fun ⟨long, h⟩ => ⟨_, ⟨long, rfl⟩, h⟩⟩

end Build

end Shape

end TonNet
