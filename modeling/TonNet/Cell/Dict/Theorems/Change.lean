import TonNet.Cell.Dict.Theorems.Map

-- A change of a dictionary is made exactly where the map it leads to can be built.

namespace TonNet

open Fallible

namespace Shape

variable {ε : Type} [Sha256] {shape : Shape ε} {code : ε → Option (List Bool)}
  {root root' : Option Cell} {n : Nat} {m : List Bool → Option (Entry ε)}

inductive Change (ε : Type)
  | set (bits : List Bool) (entry : Entry ε)
  | remove (bits : List Bool)

namespace Change

def bits : Change ε → List Bool
  | set bits _  => bits
  | remove bits => bits

def on (m : List Bool → Option (Entry ε)) : Change ε → List Bool → Option (Entry ε)
  | set bits entry => Function.update m bits (some entry)
  | remove bits    => Function.update m bits none

-- The new root, which is put in place once it is there.
def made (shape : Shape ε) (n : Nat) (root : Option Cell) : Change ε → Except CellError (Option Cell)
  | set bits entry => some <$> shape.setRoot root n bits entry
  | remove bits    => (·.getD root) <$> shape.removeRoot root n bits

theorem made_eq_ok (law : shape.Lawful code) (held : shape.Holds root n m) (bound : n ≤ maxBits)
    (change : Change ε) (length : change.bits.length = n) :
    change.made shape n root = .ok root' ↔ shape.Holds root' n (change.on m) := by
  cases change
  case set bits entry =>
    rw [made, map_eq_ok]
    exact setRoot_eq_ok law held length bound
  case remove bits =>
    have length : bits.length = n := length
    rw [made, map_eq_ok]
    cases present : m bits
    case none =>
      have same : on m (remove bits) = m := by rw [on, ← present, Function.update_eq_self]
      rw [removeRoot_of_absent law held length bound present, same]
      refine ⟨?_, fun held' => ⟨none, rfl, held.unique held'⟩⟩
      rintro ⟨_, ⟨⟩, rfl⟩
      exact held
    case some entry =>
      have spec {r : Option (Option Cell)} := removeRoot_eq_ok law held length bound present (r := r)
      simp only [spec]
      constructor
      · rintro ⟨_, ⟨root', held', rfl⟩, rfl⟩
        exact held'
      · exact fun held' => ⟨some root', ⟨root', held', rfl⟩, rfl⟩

end Change

end Shape

end TonNet
