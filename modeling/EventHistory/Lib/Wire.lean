import Mathlib.Algebra.Order.Ring.Int
import Mathlib.Data.Nat.Log

/-!
# Sizes in the protobuf wire format

The number of bytes that the fields of a proto3 message take, for field
numbers up to 15: a tag is one byte, numbers are base-128 varints, and what
has a length of its own stands behind that length. A field without presence is
left out at its default.
-/

namespace Wire

/-- A varint: seven bits in each byte. -/
def varint (n : Nat) : Nat := Nat.log 128 n + 1

/-- A string or an embedded message of `n` bytes, with its tag and length. -/
def delimited (n : Nat) : Nat := 1 + varint n + n

/-- A string field without presence. -/
def text (n : Nat) : Nat := if n = 0 then 0 else delimited n

/-- A field with presence, by the bytes of its value. -/
def optional : Option Nat → Nat
  | none => 0
  | some n => delimited n

/-- An enum field without presence; a negative number is extended to 64 bits. -/
def enum (number : Int32) : Nat :=
  if number = 0 then 0 else 1 + varint (number.toInt % 2 ^ 64).toNat

theorem varint_le {n k : Nat} (h : n < 128 ^ (k + 1)) : varint n ≤ k + 1 :=
  Nat.succ_le_of_lt (Nat.log_lt_of_lt_pow' (Nat.succ_ne_zero k) h)

theorem le_delimited (n : Nat) : n ≤ delimited n := Nat.le_add_left ..

theorem delimited_le {n k : Nat} (h : n < 128 ^ (k + 1)) : delimited n ≤ n + k + 2 := by
  have := varint_le h
  unfold delimited
  omega

theorem le_text (n : Nat) : n ≤ text n := by
  by_cases hn : n = 0
  · omega
  · rw [text, if_neg hn]
    exact le_delimited n

theorem text_le {n k : Nat} (h : n < 128 ^ (k + 1)) : text n ≤ n + k + 2 := by
  by_cases hn : n = 0
  · rw [text, if_pos hn]
    exact Nat.zero_le _
  · rw [text, if_neg hn]
    exact delimited_le h

end Wire
