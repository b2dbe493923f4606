import TonNet.Lib.Sha2
import Mathlib.Order.Basic

namespace TonNet

-- `[u8; 32]`, the width of every hash, account id, block id half and public key.
@[ext]
structure Hash where
  bytes     : Bytes
  length_eq : bytes.length = 32
deriving DecidableEq

namespace Hash

def zero : Hash :=
  ⟨List.replicate 32 0, by simp⟩

-- The hash whose bytes write a number.
def ofNat (n : Nat) : Hash :=
  ⟨Bytes.be 32 n, Bytes.be_length ..⟩

def ofBytes? (data : Bytes) : Option Hash :=
  if h : data.length = 32 then some ⟨data, h⟩ else none

theorem ofBytes?_eq_some {data : Bytes} {h : Hash} : ofBytes? data = some h ↔ data = h.bytes := by
  unfold ofBytes?
  split
  case isTrue => simp [Hash.ext_iff]
  case isFalse hl =>
    constructor
    · simp
    · rintro rfl
      exact absurd h.length_eq hl

@[simp]
theorem ofBytes?_bytes (h : Hash) : ofBytes? h.bytes = some h :=
  ofBytes?_eq_some.mpr rfl

-- Arrays of one length are ordered by their first difference, as the numbers they write are.
instance : LinearOrder Hash where
  le a b := Bytes.ofBe a.bytes ≤ Bytes.ofBe b.bytes
  lt a b := Bytes.ofBe a.bytes < Bytes.ofBe b.bytes
  le_refl _ := le_rfl
  le_trans _ _ _ := le_trans
  lt_iff_le_not_ge _ _ := lt_iff_le_not_ge
  le_total _ _ := le_total ..
  le_antisymm a b h h' := by
    have same : Bytes.ofBe a.bytes = Bytes.ofBe b.bytes := le_antisymm h h'
    apply Hash.ext
    rw [← Bytes.be_ofBe a.bytes, ← Bytes.be_ofBe b.bytes, a.length_eq, b.length_eq, same]
  toDecidableEq := inferInstance
  toDecidableLE _ _ := Nat.decLe ..
  toDecidableLT _ _ := Nat.decLt ..

end Hash

-- The hash function is not part of the program. Everything is stated for an arbitrary one.
class Sha256 where
  digest : Bytes → Hash

-- The one it is run with.
@[reducible]
def Sha256.standard : Sha256 :=
  ⟨fun s => .ofNat (Sha2.digest s)⟩

variable [Sha256]

-- What "SHA-256 is injective" can mean for a function onto 32 bytes: no two different strings of
-- those that were actually hashed share a digest.
def CollisionFree (strings : List Bytes) : Prop :=
  ∀ s ∈ strings, ∀ t ∈ strings, Sha256.digest s = Sha256.digest t → s = t

instance (strings : List Bytes) : Decidable (CollisionFree strings) :=
  inferInstanceAs (Decidable (∀ s ∈ strings, ∀ t ∈ strings, _ → _))

theorem CollisionFree.subset {strings more : List Bytes} (h : CollisionFree more)
    (hs : strings ⊆ more) : CollisionFree strings :=
  fun s hs' t ht' => h s (hs hs') t (hs ht')

omit [Sha256] in
theorem collisionFree_of_distinct {strings : List Bytes} (h : Sha2.distinct [] strings = true) :
    @CollisionFree .standard strings := by
  intro s hs t ht same
  have apart := Sha2.injOn_of_distinct h (by simp) (by simp)
  refine apart (by simpa using hs) (by simpa using ht) ?_
  have bytes := congrArg (Bytes.ofBe ∘ Hash.bytes) same
  simpa only [Function.comp_apply, Sha256.digest, Hash.ofNat, Bytes.ofBe_be] using bytes

end TonNet
