import TonNet.Lib.Bytes

-- A stream cipher: a keystream and how far it has been used.

namespace Bytes

-- The bytes under the keystream from `pos` on.
def masked (stream : Nat → UInt8) : (pos : Nat) → Bytes → Bytes
  | _, []            => []
  | pos, byte :: data => (byte ^^^ stream pos) :: masked stream (pos + 1) data

variable {stream : Nat → UInt8}

@[simp]
theorem masked_length (pos : Nat) (data : Bytes) : (masked stream pos data).length = data.length := by
  induction data generalizing pos
  case nil => rfl
  case cons hi => simp [masked, hi]

theorem masked_append (pos : Nat) (data rest : Bytes) :
    masked stream pos (data ++ rest) = masked stream pos data ++ masked stream (pos + data.length) rest := by
  induction data generalizing pos
  case nil => rfl
  case cons byte data hi =>
    rw [List.cons_append, masked, hi, masked, List.cons_append, List.length_cons, Nat.add_assoc,
      Nat.add_comm 1]

-- The same stretch of the keystream takes itself off again.
theorem masked_masked (pos : Nat) (data : Bytes) :
    masked stream pos (masked stream pos data) = data := by
  induction data generalizing pos
  case nil => rfl
  case cons hi => rw [masked, masked, hi, UInt8.xor_assoc, UInt8.xor_self, UInt8.xor_zero]

end Bytes

-- A cipher that is used from both ends in step.
structure Cipher where
  stream : Nat → UInt8
  pos    : Nat

namespace Cipher

def applied (c : Cipher) (data : Bytes) : Bytes :=
  data.masked c.stream c.pos

def past (c : Cipher) (n : Nat) : Cipher :=
  { c with pos := c.pos + n }

variable {c : Cipher}

@[simp]
theorem applied_length (data : Bytes) : (c.applied data).length = data.length :=
  Bytes.masked_length ..

theorem applied_append (data rest : Bytes) :
    c.applied (data ++ rest) = c.applied data ++ (c.past data.length).applied rest :=
  Bytes.masked_append ..

@[simp]
theorem applied_applied (data : Bytes) : c.applied (c.applied data) = data :=
  Bytes.masked_masked ..

theorem past_past (m n : Nat) : (c.past m).past n = c.past (m + n) := by
  rw [past, past, past, Nat.add_assoc]

end Cipher
