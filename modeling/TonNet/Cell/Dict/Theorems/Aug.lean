import TonNet.Cell.Dict.Aug
import TonNet.Cell.Dict.Theorems.Change
import TonNet.Cell.Dict.Theorems.Read

-- An augmented dictionary is a canonical form of the map it holds, as a plain one is.

namespace TonNet

open Fallible Method Keyed

variable {ε : Type} {aug : Augmentation ε} {code : ε → Option (List Bool)}

-- A summary is written as bits only, the same wherever there is room for it, and is read back as it
-- was, with the cursor left right behind it. What `code` has no bits for is never written.
structure Augmentation.Codec (aug : Augmentation ε) (code : ε → Option (List Bool)) : Prop where
  writes  : ∀ {e bits}, code e = some bits → Builder.Writes (aug.write e) bits [] ()
  refuses : ∀ {e b b'}, code e = none → ¬(aug.write e).Ends b () b'
  reads   : ∀ {e bits}, code e = some bits → Slice.Reads aug.read bits [] e

theorem Augmentation.Codec.lawful (codec : aug.Codec code) : aug.shape.Lawful code where
  writes  := codec.writes
  refuses := codec.refuses
  reads   := codec.reads
  checks  := by
    intro e bits s coded ahead
    have ⟨s', read, spent, _⟩ := codec.reads coded s [] s.refsAhead (by simpa using ahead) rfl
    have empty : s'.remainingBits = 0 := by rw [← Slice.ahead_length, spent]; rfl
    exact ⟨s', ends_bind.mpr ⟨e, s', read,
      ends_bind.mpr ⟨s', s', ends_get.mpr ⟨rfl, rfl⟩, ends_failIf.mpr ⟨by simp [empty], rfl⟩⟩⟩⟩

-- A summary that counts what is below a node.
def countSum : Augmentation UInt32 where
  read               := Slice.loadU32
  combine left right := return left + right
  write extra        := Builder.storeUint extra.toNat 32

theorem countSum_codec : countSum.Codec fun extra => some (Builder.uintBits extra.toNat 32) where
  writes {e _} coded := by
    cases coded
    exact Builder.storeUint_writes (by decide) e.toNat_lt
  refuses            := nofun
  reads {e _} coded  := by
    cases coded
    have loaded := Slice.loadUint_reads (n := 32) (by decide) e.toNat_lt
    have last : Slice.Reads (return UInt32.ofNat e.toNat) [] [] e := by
      rw [UInt32.ofNat_toNat]
      exact .pure e
    exact List.append_nil (Builder.uintBits e.toNat 32) ▸ loaded.bind last

namespace Shape

variable [Sha256] {shape : Shape ε} {t : Radix (Entry ε)} {c : Cell} {n passes : Nat}
  {m : List Bool → Option (Entry ε)} {root : Option Cell}

-- Every fork of a built tree is the one it is rebuilt to.
theorem validateNode_of_encode (law : shape.Spelled code) (fits : t.Fits n) (bound : n ≤ maxBits)
    (h : shape.encode t n = .ok c) (enough : n < passes) : shape.validateNode passes c n = .ok () := by
  induction t generalizing n c passes
  case leaf label entry =>
    obtain ⟨passes, rfl⟩ := Nat.exists_eq_add_one_of_ne_zero (Nat.ne_zero_of_lt enough)
    have ⟨_, node⟩ := node_of_encode law.pens bound h
    have ⟨s, read, _, _⟩ := node.readLabel
    rw [validateNode, if_neg (by simp [node.ordinary]), read, ok_bind]
    exact if_pos fits
  case fork label child hi =>
    obtain ⟨passes, rfl⟩ := Nat.exists_eq_add_one_of_ne_zero (Nat.ne_zero_of_lt enough)
    have ⟨cells, each, f⟩ := forked_of_encode fits.within bound h
    have ⟨_, _, _, node⟩ := f.node law
    have ⟨s, read, _, _⟩ := node.readLabel
    have lt := f.lt
    have ordinary (b : Bool) : (cells b).isExotic = false :=
      have ⟨_, node⟩ := node_of_encode law.pens (by omega) (each b)
      node.ordinary
    have below (b : Bool) : shape.validateNode passes (cells b) (n - label.length - 1) = .ok () :=
      hi b (fits.right b) (by omega) (each b) (by omega)
    have left : c.reference 0 = some (cells false) := f.reference law false
    have right : c.reference 1 = some (cells true) := f.reference law true
    rw [validateNode, if_neg (by simp [node.ordinary]), read, ok_bind]
    dsimp only
    rw [if_neg (ne_of_lt f.lt), left, right]
    simp only [okOr, pure_bind, onlyIf, ordinary, Bool.not_false, and_self, if_true, f.built, ok_bind]
    rw [failIf_bind_of_not (not_not.mpr rfl), below false, ok_bind, below true]

theorem Holds.validates (law : shape.Spelled code) (held : shape.Holds root n m) (bound : n ≤ maxBits) :
    shape.validateTree root n = .ok () := by
  cases root
  case none => rfl
  case some c =>
    have ⟨t, fits, _, encoded⟩ := held
    exact validateNode_of_encode law fits bound encoded (Nat.lt_succ_self n)

end Shape

namespace AugDict

variable {keyBits : Nat} {dict dict' : AugDict ε}

theorem fromRoot_eq_ok {root : Option Cell} : fromRoot aug root keyBits = .ok dict ↔
    ∃ h : keyBits ≤ maxBits, ⟨aug, root, keyBits, h⟩ = dict := by
  unfold fromRoot
  split
  case isTrue h => simp [h]
  case isFalse h => simp [h]

variable [Sha256] {m : List Bool → Option (Shape.Entry ε)} {items : List (Bytes × ε × Builder)}

def Holds (dict : AugDict ε) (m : List Bool → Option (Shape.Entry ε)) : Prop :=
  dict.aug.shape.Holds dict.root dict.keyBits m

-- The dictionary of a map, if there are cells for it.
structure Of (aug : Augmentation ε) (keyBits : Nat) (m : List Bool → Option (Shape.Entry ε))
    (dict : AugDict ε) : Prop where
  aug_eq  : dict.aug = aug
  bits_eq : dict.keyBits = keyBits
  holds   : dict.Holds m

theorem Of.unique (h : Of aug keyBits m dict) (h' : Of aug keyBits m dict') : dict = dict' := by
  obtain ⟨rfl, rfl, held⟩ := h
  obtain ⟨same, width, held'⟩ := h'
  obtain ⟨_, root, n, _⟩ := dict
  obtain ⟨_, root', _, _⟩ := dict'
  cases same
  cases width
  obtain rfl : root = root' := held.unique held'
  rfl

-- The map that items give.
def given (items : List (Bytes × ε × Builder)) (keyBits : Nat) : List Bool → Option (Shape.Entry ε) :=
  last (items.map fun (key, extra, value) => (firstBits key keyBits, ⟨extra, value⟩))

theorem fromItems_eq_ok : fromItems aug keyBits items = .ok dict ↔
    (∀ item ∈ items, (keyBits + 7) / 8 ≤ item.1.length) ∧ Of aug keyBits (given items keyBits) dict := by
  have same : Shape.given (items.map fun (key, extra, value) => (key, Shape.Entry.mk extra value)) keyBits =
      given items keyBits := by
    rw [Shape.given, List.map_map]
    rfl
  rw [fromItems, bind_eq_ok]
  simp only [Shape.buildAll_eq_ok, same, fromRoot_eq_ok, List.forall_mem_map]
  constructor
  · rintro ⟨root, ⟨_, long, held⟩, _, rfl⟩
    exact ⟨long, rfl, rfl, held⟩
  · rintro ⟨long, rfl, rfl, held⟩
    exact ⟨dict.root, ⟨dict.keyBits_le, long, held⟩, dict.keyBits_le, rfl⟩

inductive Change (ε : Type)
  | set (key : Bytes) (extra : ε) (value : Builder)
  | remove (key : Bytes)

namespace Change

def key : Change ε → Bytes
  | set key _ _ => key
  | remove key  => key

def run : Change ε → Method (AugDict ε) CellError Unit
  | set key extra value => AugDict.set key extra value
  | remove key          => do let _ ← AugDict.remove key

-- The change of the tree.
def within (keyBits : Nat) : Change ε → Shape.Change ε
  | set key extra value => .set (firstBits key keyBits) ⟨extra, value⟩
  | remove key          => .remove (firstBits key keyBits)

omit [Sha256] in
theorem within_bits (change : Change ε) : (change.within keyBits).bits = firstBits change.key keyBits := by
  cases change <;> rfl

-- The new root is put in place once it is there.
theorem run_eq_commit (change : Change ε) : change.run = Method.commit fun dict => do
    let _ ← keyOf change.key dict.keyBits
    let root ← (change.within dict.keyBits).made dict.aug.shape dict.keyBits dict.root
    return ((), { dict with root }) := by
  refine Method.ext fun dict => ?_
  rw [outcome_commit]
  cases change
  case set key extra value =>
    simp only [run, AugDict.set, outcome_bind, outcome_get, outcome_ofExcept, Change.key]
    cases named : keyOf key dict.keyBits
    case error => rfl
    case ok bits =>
      obtain ⟨_, rfl⟩ := keyOf_eq_ok.mp named
      simp only [ok_bind, within, Shape.Change.made]
      cases dict.aug.shape.setRoot dict.root dict.keyBits (firstBits key dict.keyBits) ⟨extra, value⟩ <;> rfl
  case remove key =>
    simp only [run, AugDict.remove, outcome_bind, outcome_get, outcome_ofExcept, Change.key]
    cases named : keyOf key dict.keyBits
    case error => rfl
    case ok bits =>
      obtain ⟨_, rfl⟩ := keyOf_eq_ok.mp named
      simp only [ok_bind, within, Shape.Change.made]
      rcases dict.aug.shape.removeRoot dict.root dict.keyBits (firstBits key dict.keyBits) with _ | _ | _ <;>
        rfl

theorem ends_run (codec : aug.Codec code) (of : Of aug keyBits m dict) {change : Change ε} :
    change.run.Ends dict () dict' ↔ (keyBits + 7) / 8 ≤ change.key.length ∧
      Of aug keyBits ((change.within keyBits).on m) dict' := by
  obtain ⟨rfl, rfl, held⟩ := of
  have length : (change.within dict.keyBits).bits.length = dict.keyBits := by
    rw [within_bits, firstBits_length]
  rw [run_eq_commit, ends_commit, bind_eq_ok]
  simp only [keyOf_eq_ok, bind_eq_ok, Shape.Change.made_eq_ok codec.lawful held dict.keyBits_le _ length,
    pure_eq_ok, Prod.mk.injEq, true_and]
  constructor
  · rintro ⟨_, ⟨long, _⟩, root, held', rfl⟩
    exact ⟨long, rfl, rfl, held'⟩
  · rintro ⟨long, same, width, held'⟩
    obtain ⟨aug, root, n, bound⟩ := dict
    obtain ⟨_, root', _, _⟩ := dict'
    cases same
    cases width
    exact ⟨_, ⟨long, rfl⟩, root', held', rfl⟩

theorem run_fails {change : Change ε} {e : CellError} (failed : change.run.outcome dict = (.error e, dict')) :
    dict' = dict := by
  rw [run_eq_commit] at failed
  exact commit_fails failed

end Change

end AugDict

end TonNet
