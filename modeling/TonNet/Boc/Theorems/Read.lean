import TonNet.Boc.Theorems.Parse

-- Where each read begins and ends.

namespace TonNet

open Fallible Method

-- A stretch of the bag.
def Lies (bytes : Bytes) (pos : Nat) (s : Bytes) : Prop :=
  ∃ front back, bytes = front ++ s ++ back ∧ front.length = pos

namespace Lies

variable {bytes s t : Bytes} {pos : Nat}

theorem left (h : Lies bytes pos (s ++ t)) : Lies bytes pos s := by
  obtain ⟨front, back, rfl, rfl⟩ := h
  exact ⟨front, t ++ back, by simp, rfl⟩

theorem right (h : Lies bytes pos (s ++ t)) : Lies bytes (pos + s.length) t := by
  obtain ⟨front, back, rfl, rfl⟩ := h
  exact ⟨front ++ s, back, by simp, by simp⟩

theorem le (h : Lies bytes pos s) : pos + s.length ≤ bytes.length := by
  obtain ⟨front, back, rfl, rfl⟩ := h
  simp

theorem take_drop (h : Lies bytes pos s) : (bytes.drop pos).take s.length = s := by
  obtain ⟨front, back, rfl, rfl⟩ := h
  simp

theorem getD {byte : UInt8} (h : Lies bytes pos [byte]) : bytes.getD pos 0 = byte := by
  obtain ⟨front, back, rfl, rfl⟩ := h
  simp

end Lies

theorem lies_of_le {bytes : Bytes} {pos n : Nat} (h : pos + n ≤ bytes.length) :
    Lies bytes pos ((bytes.drop pos).take n) := by
  refine ⟨bytes.take pos, bytes.drop (pos + n), ?_, by simp; omega⟩
  rw [List.append_assoc, ← List.drop_drop, List.take_append_drop, List.take_append_drop]

section Reader

variable {r r' : Reader} {data s : Bytes} {n v : Nat}

theorem ends_take : (Reader.take n).Ends r data r' ↔
    data.length = n ∧ Lies r.bytes r.pos data ∧ r' = ⟨r.bytes, r.pos + n⟩ := by
  simp only [Reader.take, ends_bind, ends_get, ends_failIf, ends_set, ends_pure]
  constructor
  · rintro ⟨_, _, ⟨rfl, rfl⟩, _, _, ⟨fits, rfl⟩, _, _, rfl, rfl, rfl⟩
    refine ⟨by simp; omega, lies_of_le (not_lt.mp fits), rfl⟩
  · rintro ⟨rfl, lies, rfl⟩
    exact ⟨r, r, ⟨rfl, rfl⟩, (), r, ⟨not_lt.mpr lies.le, rfl⟩, .unit, _, rfl, lies.take_drop, rfl⟩

theorem ends_byte : Reader.byte.Ends r v r' ↔
    ∃ byte : UInt8, byte.toNat = v ∧ Lies r.bytes r.pos [byte] ∧ r' = ⟨r.bytes, r.pos + 1⟩ := by
  simp only [Reader.byte, ends_bind, ends_take, ends_okOr, ends_pure]
  constructor
  · rintro ⟨data, _, ⟨one, lies, rfl⟩, byte, _, ⟨head, rfl⟩, rfl, rfl⟩
    obtain ⟨byte', rfl⟩ := List.length_eq_one_iff.mp one
    obtain rfl : byte' = byte := by simpa using head
    exact ⟨byte', rfl, lies, rfl⟩
  · rintro ⟨byte, rfl, lies, rfl⟩
    exact ⟨[byte], _, ⟨rfl, lies, rfl⟩, byte, _, ⟨rfl, rfl⟩, rfl, rfl⟩

theorem ends_uint : (Reader.uint n).Ends r v r' ↔
    ∃ data : Bytes, data.length = n ∧ Lies r.bytes r.pos data ∧ Bytes.ofBe data = v ∧
      r' = ⟨r.bytes, r.pos + n⟩ := by
  simp only [Reader.uint, ends_bind, ends_take, ends_pure]
  constructor
  · rintro ⟨data, _, ⟨length, lies, rfl⟩, rfl, rfl⟩
    exact ⟨data, length, lies, rfl, rfl⟩
  · rintro ⟨data, length, lies, rfl, rfl⟩
    exact ⟨data, _, ⟨length, lies, rfl⟩, rfl, rfl⟩

theorem ends_takeSpan {span : Span} : (takeSpan n).Ends r (data, span) r' ↔
    data.length = n ∧ Lies r.bytes r.pos data ∧ Span.new r.pos n = .ok span ∧
      r' = ⟨r.bytes, r.pos + n⟩ := by
  simp only [takeSpan, Reader.consumed, ends_bind, ends_get, ends_take, ends_ofExcept, ends_pure,
    Prod.mk.injEq]
  constructor
  · rintro ⟨_, _, ⟨_, _, ⟨rfl, rfl⟩, rfl, rfl⟩, _, _, ⟨rfl, lies, rfl⟩, _, _, ⟨new, rfl⟩, ⟨rfl, rfl⟩, rfl⟩
    exact ⟨rfl, lies, new, rfl⟩
  · rintro ⟨rfl, lies, new, rfl⟩
    exact ⟨_, _, ⟨_, _, ⟨rfl, rfl⟩, rfl, rfl⟩, _, _, ⟨rfl, lies, rfl⟩, _, _, ⟨new, rfl⟩, ⟨rfl, rfl⟩, rfl⟩

end Reader

end TonNet
