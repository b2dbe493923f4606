import TonNet.Lib.Bytes

-- SHA-256, over numbers that hold the words of a block or of a state, the first word on top.

namespace Sha2

-- A proof runs it by unfolding, and an argument that is not a numeral yet would be computed again at
-- every use.
def eager {α : Type} (n : Nat) (f : Nat → α) : α :=
  match n with
  | 0     => f 0
  | n + 1 => f n.succ

theorem eager_eq {α : Type} (n : Nat) (f : Nat → α) : eager n f = f n := by
  cases n <;> rfl

-- The functions of `Nat` are called by name, which spares their instances.
def low (x : Nat) : Nat :=
  x.mod 0x100000000

-- A word in front of itself: a shift of it is a rotation.
def doubled (x : Nat) : Nat :=
  (low x).mul 0x100000001

def constants : List Nat := [
  0x428a2f98, 0x71374491, 0xb5c0fbcf, 0xe9b5dba5, 0x3956c25b, 0x59f111f1, 0x923f82a4, 0xab1c5ed5,
  0xd807aa98, 0x12835b01, 0x243185be, 0x550c7dc3, 0x72be5d74, 0x80deb1fe, 0x9bdc06a7, 0xc19bf174,
  0xe49b69c1, 0xefbe4786, 0x0fc19dc6, 0x240ca1cc, 0x2de92c6f, 0x4a7484aa, 0x5cb0a9dc, 0x76f988da,
  0x983e5152, 0xa831c66d, 0xb00327c8, 0xbf597fc7, 0xc6e00bf3, 0xd5a79147, 0x06ca6351, 0x14292967,
  0x27b70a85, 0x2e1b2138, 0x4d2c6dfc, 0x53380d13, 0x650a7354, 0x766a0abb, 0x81c2c92e, 0x92722c85,
  0xa2bfe8a1, 0xa81a664b, 0xc24b8b70, 0xc76c51a3, 0xd192e819, 0xd6990624, 0xf40e3585, 0x106aa070,
  0x19a4c116, 0x1e376c08, 0x2748774c, 0x34b0bcb5, 0x391c0cb3, 0x4ed8aa4a, 0x5b9cca4f, 0x682e6ff3,
  0x748f82ee, 0x78a5636f, 0x84c87814, 0x8cc70208, 0x90befffa, 0xa4506ceb, 0xbef9a3f7, 0xc67178f2
]

def initial : Nat :=
  0x6a09e667bb67ae853c6ef372a54ff53a510e527f9b05688c1f83d9ab5be0cd19

-- The sixteen words behind the first of these. Of a word that is added only the low 32 bits count, and
-- what stands above them is cut off from the sum.
def schedule (words : Nat) : Nat :=
  eager (low (words.shiftRight 448)) fun x => eager (low (words.shiftRight 32)) fun y =>
    let s0 := ((doubled x).shiftRight 7).xor ((doubled x).shiftRight 18) |>.xor (x.shiftRight 3)
    let s1 := ((doubled y).shiftRight 17).xor ((doubled y).shiftRight 19) |>.xor (y.shiftRight 10)
    let next := ((words.shiftRight 480).add s0).add ((words.shiftRight 192).add s1)
    ((words.shiftLeft 32).mod (2 ^ 512)).add (low next)

def rotations (x i j k : Nat) : Nat :=
  eager (doubled x) fun x => ((x.shiftRight i).xor (x.shiftRight j)).xor (x.shiftRight k)

def choice (x y z : Nat) : Nat :=
  (x.land y).xor ((x.xor 0xffffffff).land z)

def majority (x y z : Nat) : Nat :=
  ((x.land y).xor (x.land z)).xor (y.land z)

def round (state constant w : Nat) : Nat :=
  eager (state.shiftRight 224) fun a => eager (state.shiftRight 96) fun e =>
    let chosen := choice e (state.shiftRight 64) (state.shiftRight 32)
    let agreed := majority a (state.shiftRight 192) (state.shiftRight 160)
    eager (low (state.add ((rotations e 6 11 25).add (chosen.add (constant.add w))))) fun mixed =>
      let first := low (mixed.add ((rotations a 2 13 22).add agreed))
      let fifth := low ((state.shiftRight 128).add mixed)
      ((first.shiftLeft 224).add ((state.shiftRight 160).shiftLeft 128)).add
        ((fifth.shiftLeft 96).add ((state.shiftRight 32).mod (2 ^ 96)))

def rounds : List Nat → (state words : Nat) → Nat
  | [],                    state, _     => state
  | constant :: constants, state, words =>
    eager (round state constant (words.shiftRight 480)) fun state =>
      eager (schedule words) (rounds constants state)

def compress (state block : Nat) : Nat :=
  eager (rounds constants state block) fun mixed =>
    (List.range 8).foldl (fun sum i =>
      sum + low (state >>> (32 * i) + mixed >>> (32 * i)) <<< (32 * i)) 0

-- The last `count` blocks of a padded message.
def absorb (padded : Nat) : (count state : Nat) → Nat
  | 0,         state => state
  | count + 1, state => eager (compress state (padded >>> (512 * count) % 2 ^ 512)) (absorb padded count)

def digest (data : Bytes) : Nat :=
  let count := (data.length + 8) / 64 + 1
  let padding := 64 * count - data.length - 1
  eager ((Bytes.ofBe data * 256 + 0x80) <<< (8 * padding) + 8 * data.length) fun padded =>
    absorb padded count initial

example : digest [0x61, 0x62, 0x63] = 0xba7816bf8f01cfea414140de5dae2223b00361a396177a9cb410ff61f20015ad := by
  decide +kernel

-- Goes through strings, next to those in front of them and their digests.
def distinct : (seen : List (Nat × Bytes)) → List Bytes → Bool
  | _,    []        => true
  | seen, s :: rest =>
    if seen.any (·.2 == s) then distinct seen rest
    else eager (digest s % 256 ^ 32) fun d => seen.all (·.1 != d) && distinct ((d, s) :: seen) rest

theorem injOn_of_distinct {seen : List (Nat × Bytes)} {strings : List Bytes}
    (h : distinct seen strings = true) (known : ∀ other ∈ seen, other.1 = digest other.2 % 256 ^ 32)
    (apart : Set.InjOn (digest · % 256 ^ 32) { s | s ∈ seen.map Prod.snd }) :
    Set.InjOn (digest · % 256 ^ 32) { s | s ∈ seen.map Prod.snd ++ strings } := by
  induction strings generalizing seen
  case nil => simpa using apart
  case cons first rest hi =>
    rw [distinct] at h
    split at h
    case isTrue old =>
      have old : first ∈ seen.map Prod.snd := by simpa using old
      refine (hi h known apart).mono fun s mem => ?_
      obtain mem | mem := List.mem_append.mp mem
      · exact List.mem_append_left _ mem
      · obtain rfl | mem := List.mem_cons.mp mem
        · exact List.mem_append_left _ old
        · exact List.mem_append_right _ mem
    case isFalse new =>
      rw [eager_eq, Bool.and_eq_true] at h
      have new : first ∉ { s | s ∈ seen.map Prod.snd } := by simpa using new
      have fresh : ∀ other ∈ seen, other.1 ≠ digest first % 256 ^ 32 := by simpa using h.left
      have whole : { s | s ∈ first :: seen.map Prod.snd } = insert first { s | s ∈ seen.map Prod.snd } := by
        ext
        simp
      refine (hi h.right ?_ ?_).mono fun s mem => ?_
      · simpa using known
      · rw [List.map_cons, whole, Set.injOn_insert new]
        refine ⟨apart, ?_⟩
        rintro ⟨s, mem, same⟩
        obtain ⟨other, here, rfl⟩ := List.mem_map.mp mem
        exact fresh other here ((known other here).trans same)
      · simpa [or_left_comm] using mem

end Sha2
