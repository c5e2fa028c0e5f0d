import EventHistory.Lib.Text

/-!
# Dotted quads

A strict reader of IPv4 addresses: four canonical decimals up to 255 with
dots between them, the first one the most significant octet. `read_quad` is
the round trip, for the text of any four octets.
-/

namespace DottedQuad

open CxxText

/-! ## Canonical decimals -/

/-- Digits, without a zero in front of others; so no sign either. -/
def canonical (ds : List Char) : Bool :=
  !ds.isEmpty && ds.all Char.isDigit && (ds = ['0'] || ds.head? ≠ some '0')

/-- Only the zero starts with a zero. -/
theorem head?_toDigits {n : Nat} (hn : n ≠ 0) : (Nat.toDigits 10 n).head? ≠ some '0' := by
  induction n using Nat.strongRecOn with
  | ind n ih =>
      rcases Nat.lt_or_ge n 10 with hlt | hge
      · rw [Nat.toDigits_of_lt_base hlt]
        simpa using hn
      · have hdiv : n / 10 ≠ 0 := by omega
        rw [Nat.toDigits_of_base_le (by omega) hge, List.head?_append]
        intro hzero
        rcases Option.or_eq_some_iff.mp hzero with hfront | ⟨hnone, -⟩
        · exact ih (n / 10) (by omega) hdiv hfront
        · exact Nat.toDigits_ne_nil (List.head?_eq_none_iff.mp hnone)

theorem canonical_toDigits (n : Nat) : canonical (Nat.toDigits 10 n) = true := by
  have hdigits : (Nat.toDigits 10 n).all Char.isDigit = true :=
    List.all_eq_true.mpr fun c hc => isDigit_of_mem hc
  have hne : (Nat.toDigits 10 n).isEmpty = false := by simp
  have hzero : Nat.toDigits 10 n = ['0'] ∨ (Nat.toDigits 10 n).head? ≠ some '0' := by
    by_cases hn : n = 0
    · exact Or.inl (by rw [hn, Nat.toDigits_zero])
    · exact Or.inr (head?_toDigits hn)
  simpa [canonical, hdigits, hne] using hzero

theorem dot_not_mem_toDigits (n : Nat) : '.' ∉ Nat.toDigits 10 n := by
  intro hdot
  exact absurd (isDigit_of_mem hdot) (by decide)

/-! ## Quads -/

def readOctet (ds : List Char) : Option Nat :=
  if canonical ds && digitsValue ds ≤ 255 then some (digitsValue ds) else none

/-- The address of a dotted quad. -/
def read (text : String) : Option UInt32 :=
  match (text.toList.splitOn '.').mapM readOctet with
  | some [a, b, c, d] => some (UInt32.ofNat (((a * 256 + b) * 256 + c) * 256 + d))
  | _ => none

/-- The text of four octets. -/
def quad (a b c d : Nat) : String :=
  toString a ++ "." ++ toString b ++ "." ++ toString c ++ "." ++ toString d

theorem toList_quad (a b c d : Nat) :
    (quad a b c d).toList =
      ['.'].intercalate [Nat.toDigits 10 a, Nat.toDigits 10 b, Nat.toDigits 10 c,
        Nat.toDigits 10 d] := by
  simp [quad, List.intercalate]

theorem readOctet_toDigits {n : Nat} (hn : n ≤ 255) : readOctet (Nat.toDigits 10 n) = some n := by
  rw [readOctet, canonical_toDigits, digitsValue_toDigits]
  simp [hn]

/-- The dots of a quad are found again. -/
theorem splitOn_quad (a b c d : Nat) :
    (quad a b c d).toList.splitOn '.' =
      [Nat.toDigits 10 a, Nat.toDigits 10 b, Nat.toDigits 10 c, Nat.toDigits 10 d] := by
  rw [toList_quad]
  refine List.splitOn_intercalate '.' ?_ (by simp)
  intro ds hds
  simp only [List.mem_cons, List.not_mem_nil, or_false] at hds
  rcases hds with rfl | rfl | rfl | rfl
  · exact dot_not_mem_toDigits a
  · exact dot_not_mem_toDigits b
  · exact dot_not_mem_toDigits c
  · exact dot_not_mem_toDigits d

/-- What is written as a quad is read as its four octets. -/
theorem read_quad {a b c d : Nat} (ha : a ≤ 255) (hb : b ≤ 255) (hc : c ≤ 255) (hd : d ≤ 255) :
    read (quad a b c d) = some (UInt32.ofNat (((a * 256 + b) * 256 + c) * 256 + d)) := by
  rw [read, splitOn_quad]
  simp [readOctet_toDigits, ha, hb, hc, hd]

/-- A sign, a zero in front, a fifth number: not a dotted quad. -/
example : ["+1.2.3.4", "01.2.3.4", "1.2.3.4.5", "256.0.0.1", "1..2.3"].map read =
    [none, none, none, none, none] := by decide

end DottedQuad
