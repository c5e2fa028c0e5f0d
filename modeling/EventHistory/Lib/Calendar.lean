import Mathlib.Algebra.Order.Ring.Int
import Mathlib.Order.Monotone.Basic
import Mathlib.Logic.Function.Iterate

/-!
# The civil calendar

Dates of the Gregorian calendar, numbered by counting on and back from
1 January 1970. A date carries the proof that its month has the day. A later
day has a later date (`rank_ofDays_lt`), so a date belongs to one day.
-/

namespace Calendar

/-! ## Dates -/

def isLeap (year : Int) : Bool :=
  year % 4 = 0 && (year % 100 ≠ 0 || year % 400 = 0)

def monthLength (year : Int) (month : Nat) : Nat :=
  if month = 2 then if isLeap year then 29 else 28
  else if month = 4 ∨ month = 6 ∨ month = 9 ∨ month = 11 then 30
  else 31

theorem monthLength_bounds (year : Int) (month : Nat) :
    28 ≤ monthLength year month ∧ monthLength year month ≤ 31 := by
  unfold monthLength
  split
  · split <;> omega
  · split <;> omega

@[ext] structure Date where
  year : Int
  month : Nat
  day : Nat
  month_mem : 1 ≤ month ∧ month ≤ 12
  day_mem : 1 ≤ day ∧ day ≤ monthLength year month
deriving DecidableEq

namespace Date

/-- The day after. -/
def next (d : Date) : Date :=
  if hday : d.day < monthLength d.year d.month then
    { d with day := d.day + 1, day_mem := ⟨by omega, hday⟩ }
  else if hmonth : d.month < 12 then
    { year := d.year, month := d.month + 1, day := 1
      month_mem := ⟨by omega, hmonth⟩
      day_mem := ⟨Nat.le_refl 1, le_trans (by decide) (monthLength_bounds _ _).1⟩ }
  else
    { year := d.year + 1, month := 1, day := 1
      month_mem := by decide
      day_mem := ⟨Nat.le_refl 1, le_trans (by decide) (monthLength_bounds _ _).1⟩ }

/-- The day before. -/
def prev (d : Date) : Date :=
  if hday : 1 < d.day then
    { d with day := d.day - 1, day_mem := ⟨by omega, le_trans (Nat.sub_le ..) d.day_mem.2⟩ }
  else if hmonth : 1 < d.month then
    { year := d.year, month := d.month - 1, day := monthLength d.year (d.month - 1)
      month_mem := ⟨by omega, le_trans (Nat.sub_le ..) d.month_mem.2⟩
      day_mem := ⟨le_trans (by decide) (monthLength_bounds _ _).1, Nat.le_refl _⟩ }
  else
    { year := d.year - 1, month := 12, day := 31
      month_mem := by decide
      day_mem := ⟨by decide, Nat.le_refl 31⟩ }

theorem next_prev (d : Date) : d.prev.next = d := by
  have hday := d.day_mem
  have hmonth := d.month_mem
  by_cases hd : 1 < d.day
  · have hlast : d.day - 1 < monthLength d.year d.month := by omega
    rw [prev, dif_pos hd, next, dif_pos hlast]
    exact Date.ext rfl rfl (Nat.sub_add_cancel hday.1)
  · have hfirst : 1 = d.day := by omega
    by_cases hm : 1 < d.month
    · have hyear : d.month - 1 < 12 := by omega
      rw [prev, dif_neg hd, dif_pos hm, next, dif_neg (Nat.lt_irrefl _), dif_pos hyear]
      exact Date.ext rfl (Nat.sub_add_cancel hmonth.1) hfirst
    · have hlast : ¬31 < monthLength (d.year - 1) 12 := Nat.lt_irrefl 31
      rw [prev, dif_neg hd, dif_neg hm, next, dif_neg hlast, dif_neg (Nat.lt_irrefl 12)]
      exact Date.ext (by simp) (by simp only; omega) hfirst

/-- A number that grows with the date. -/
def rank (d : Date) : Int := (d.year * 12 + d.month) * 31 + d.day

theorem rank_lt_next (d : Date) : d.rank < d.next.rank := by
  have hday := d.day_mem
  have hlen := monthLength_bounds d.year d.month
  unfold next
  split
  · simp only [rank]
    omega
  · split
    · simp only [rank]
      omega
    · have := d.month_mem
      simp only [rank]
      omega

end Date

/-! ## Days -/

/-- 1 January 1970. -/
def epoch : Date where
  year := 1970
  month := 1
  day := 1
  month_mem := by decide
  day_mem := by decide

/-- The date of a day, counted from the epoch. -/
def ofDays : Int → Date
  | .ofNat n => Date.next^[n] epoch
  | .negSucc n => Date.prev^[n + 1] epoch

theorem ofDays_succ (z : Int) : ofDays (z + 1) = (ofDays z).next := by
  cases z with
  | ofNat n => exact Function.iterate_succ_apply' Date.next n epoch
  | negSucc n =>
      cases n with
      | zero => exact (Date.next_prev epoch).symm
      | succ n =>
          show Date.prev^[n + 1] epoch = (Date.prev^[n + 2] epoch).next
          rw [Function.iterate_succ_apply' Date.prev (n + 1) epoch, Date.next_prev]

/-- A later day has a later date. -/
theorem rank_ofDays_lt {z z' : Int} (h : z < z') : (ofDays z).rank < (ofDays z').rank := by
  have hmono : StrictMono fun z => (ofDays z).rank := by
    refine strictMono_int_of_lt_succ fun z => ?_
    rw [ofDays_succ]
    exact Date.rank_lt_next _
  exact hmono h

theorem ofDays_injective : Function.Injective ofDays := by
  intro z z' h
  have hrank := congrArg Date.rank h
  rcases Int.lt_trichotomy z z' with hlt | heq | hgt
  · exact absurd hrank (Int.ne_of_lt (rank_ofDays_lt hlt))
  · exact heq
  · exact absurd hrank.symm (Int.ne_of_lt (rank_ofDays_lt hgt))

end Calendar
