import Mathlib.Algebra.Order.Ring.Int
import Mathlib.Data.List.TakeWhile

/-!
# Text and numbers of the C and C++ libraries

`std::string::substr` and the decimal conversions of the C locale. A string
is a list of `char`s, so a `Char` of a `String` stands for one `char` here:
text beyond ASCII takes several. An exception is `Except.error` with its text.
-/

namespace CxxText

/-! ## Substrings -/

/-- `s.substr(pos)`. -/
def substr (s : String) (pos : Nat) : Except String String :=
  if s.length < pos then
    .error ("basic_string::substr: __pos (which is " ++ toString pos
      ++ ") > this->size() (which is " ++ toString s.length ++ ")")
  else .ok (String.ofList (s.toList.drop pos))

theorem substr_of_le {s : String} {pos : Nat} (h : pos ≤ s.length) :
    substr s pos = .ok (String.ofList (s.toList.drop pos)) := by
  rw [substr, if_neg (Nat.not_lt.mpr h)]

/-- `std::transform` with `tolower`. -/
def lower (s : String) : String := String.ofList (s.toList.map Char.toLower)

/-! ## Numbers -/

/-- `isspace`. -/
def isSpace (c : Char) : Bool := c = ' ' || (9 ≤ c.toNat && c.toNat ≤ 13)

/-- The value of decimal digits. -/
def digitsValue (ds : List Char) : Nat :=
  ds.foldl (fun n d => 10 * n + (d.toNat - 48)) 0

theorem digitsValue_toDigits (n : Nat) : digitsValue (Nat.toDigits 10 n) = n :=
  Nat.ofDigitChars_ten_toDigits

theorem isDigit_of_mem {n : Nat} {c : Char} (hc : c ∈ Nat.toDigits 10 n) : c.isDigit = true :=
  Nat.isDigit_of_mem_toDigits (by omega) (by omega) hc

/-- How many digits a number has. -/
theorem length_toDigits {n k : Nat} (hlow : 10 ^ k ≤ n) (hhigh : n < 10 ^ (k + 1)) :
    (Nat.toDigits 10 n).length = k + 1 := by
  have hle : (Nat.toDigits 10 n).length ≤ k + 1 :=
    (Nat.length_toDigits_le_iff (by omega) (by omega)).mpr hhigh
  rcases Nat.eq_zero_or_pos k with rfl | hk
  · have hpos : 0 < (Nat.toDigits 10 n).length := Nat.length_toDigits_pos
    omega
  · have hge : ¬(Nat.toDigits 10 n).length ≤ k := by
      rw [Nat.length_toDigits_le_iff (by omega) hk]
      omega
    omega

/-- The number in front of a text, and nothing without a digit. -/
def leadingNat (s : List Char) : Option Nat :=
  match s.takeWhile Char.isDigit with
  | [] => none
  | ds => some (digitsValue ds)

/-- What `strtol` reads in base 10, before it looks at the range: spaces, a
sign, digits; what follows them is left alone. -/
def leadingInt (s : String) : Option Int :=
  match s.toList.dropWhile isSpace with
  | '-' :: rest => (leadingNat rest).map fun n => -(n : Int)
  | '+' :: rest => (leadingNat rest).map fun n => (n : Int)
  | rest => (leadingNat rest).map fun n => (n : Int)

/-- A value of `int`. -/
def IsInt (n : Int) : Prop := -2147483648 ≤ n ∧ n ≤ 2147483647

instance (n : Int) : Decidable (IsInt n) := inferInstanceAs (Decidable (_ ∧ _))

/-- `std::stoi`. Both of its exceptions carry the name of the function. -/
def stoi (s : String) : Except String Int :=
  match leadingInt s with
  | none => .error "stoi"
  | some n => if IsInt n then .ok n else .error "stoi"

/-- `atoi`: the `long` that `strtol` saturates to, cut to an `int`. -/
def atoi (s : String) : Int :=
  (max (-(2 ^ 63)) (min (2 ^ 63 - 1) ((leadingInt s).getD 0))).bmod (2 ^ 32)

theorem stoi_eq_ok {s : String} {n : Int} :
    stoi s = .ok n ↔ leadingInt s = some n ∧ IsInt n := by
  unfold stoi
  cases leadingInt s with
  | none => simp
  | some m =>
      by_cases hm : IsInt m
      · simp only [if_pos hm, Except.ok.injEq, Option.some.injEq]
        constructor
        · rintro rfl
          exact ⟨rfl, hm⟩
        · exact fun h => h.1
      · simp only [if_neg hm, reduceCtorEq, Option.some.injEq, false_iff, not_and]
        rintro rfl
        exact hm

example : stoi " -12x" = .ok (-12) := rfl

/-! ### Whole literals -/

def natLiteral (s : List Char) : Option Nat :=
  if !s.isEmpty && s.all Char.isDigit then some (digitsValue s) else none

/-- The number that a text is from its first to its last character: a sign or
none, and decimal digits. -/
def intLiteral (s : String) : Option Int :=
  match s.toList with
  | '-' :: rest => (natLiteral rest).map fun n : Nat => -(n : Int)
  | '+' :: rest => (natLiteral rest).map fun n : Nat => (n : Int)
  | rest => (natLiteral rest).map fun n : Nat => (n : Int)

theorem leadingNat_of_natLiteral {s : List Char} {n : Nat} (h : natLiteral s = some n) :
    leadingNat s = some n := by
  unfold natLiteral at h
  split at h
  · rename_i hdigits
    rw [Bool.and_eq_true] at hdigits
    obtain ⟨hne, hall⟩ := hdigits
    have htake : s.takeWhile Char.isDigit = s :=
      List.takeWhile_eq_self_iff.mpr (List.all_eq_true.mp hall)
    rw [leadingNat, htake]
    cases s with
    | nil => simp at hne
    | cons d ds => exact h
  · cases h

/-- The first character of a number is no space. -/
theorem isSpace_of_natLiteral {c : Char} {s : List Char} {n : Nat}
    (h : natLiteral (c :: s) = some n) : isSpace c = false := by
  unfold natLiteral at h
  split at h
  · rename_i hdigits
    have hc : c.isDigit = true := by
      rw [Bool.and_eq_true, List.all_cons, Bool.and_eq_true] at hdigits
      exact hdigits.2.1
    rw [Char.isDigit_iff_toNat] at hc
    have hspace : c ≠ ' ' := by
      rintro rfl
      exact absurd hc.1 (by decide)
    have hlow : (48 : Nat) ≤ c.toNat := hc.1
    have hcontrol : ¬(9 ≤ c.toNat ∧ c.toNat ≤ 13) := by omega
    simpa [isSpace, hspace] using hcontrol
  · cases h

/-- `strtol` reads a whole literal to its end. -/
theorem leadingInt_of_intLiteral {s : String} {n : Int} (h : intLiteral s = some n) :
    leadingInt s = some n := by
  unfold intLiteral at h
  unfold leadingInt
  split at h
  · rename_i rest hs
    obtain ⟨m, hm, rfl⟩ := Option.map_eq_some_iff.mp h
    have hminus : isSpace '-' = false := by decide
    simp [hs, hminus, leadingNat_of_natLiteral hm]
  · rename_i rest hs
    obtain ⟨m, hm, rfl⟩ := Option.map_eq_some_iff.mp h
    have hplus : isSpace '+' = false := by decide
    simp [hs, hplus, leadingNat_of_natLiteral hm]
  · rename_i rest hminus hplus
    obtain ⟨m, hm, rfl⟩ := Option.map_eq_some_iff.mp h
    cases hs : s.toList with
    | nil =>
        rw [hs] at hm
        cases hm
    | cons c cs =>
        rw [hs] at hm
        have hc := isSpace_of_natLiteral hm
        rw [List.dropWhile_cons, if_neg (by simp [hc])]
        split
        · rename_i rest heq
          exact absurd (hs.trans heq) (hminus rest)
        · rename_i rest heq
          exact absurd (hs.trans heq) (hplus rest)
        · rw [leadingNat_of_natLiteral hm]
          rfl

end CxxText
