import Mathlib
import EventHistory.Lib.Calendar
import EventHistory.Lib.Text
import EventHistory.Utils

/-!
# Timestamps and time zones

`FormatTimestamp` renders with `std::localtime`, so in the zone of the host,
what is stored as `timestamp_utc`. A zone is its offset from UTC at every
second, whatever rule it follows. The text of `put_time` determines the time
that it was made from (`putTime_gmtime_injective`), so it is the UTC rendering
of its time point exactly where the offset is zero (`timestampsUtc_iff`).
-/

namespace EventHistory

open CxxText

/-! ## Broken-down time -/

/-- `std::gmtime`. -/
def gmtime (s : Int) : Tm where
  tmYear := (Calendar.ofDays (s / 86400)).year - 1900
  tmMon := (Calendar.ofDays (s / 86400)).month - 1
  tmMday := (Calendar.ofDays (s / 86400)).day
  tmHour := s % 86400 / 3600
  tmMin := s % 3600 / 60
  tmSec := s % 60

/-- Seconds east of UTC, at a second. -/
abbrev Zone := Int → Int

/-- `std::localtime` in a zone. -/
def localtime (zone : Zone) (s : Int) : Tm := gmtime (s + zone s)

/-- The fields that are printed with two digits fit them. -/
structure Tm.TwoDigits (tm : Tm) : Prop where
  tmMon : 0 ≤ tm.tmMon + 1 ∧ tm.tmMon + 1 < 100
  tmMday : 0 ≤ tm.tmMday ∧ tm.tmMday < 100
  tmHour : 0 ≤ tm.tmHour ∧ tm.tmHour < 100
  tmMin : 0 ≤ tm.tmMin ∧ tm.tmMin < 100
  tmSec : 0 ≤ tm.tmSec ∧ tm.tmSec < 100

theorem twoDigits_gmtime (s : Int) : (gmtime s).TwoDigits := by
  have hmonth := (Calendar.ofDays (s / 86400)).month_mem
  have hday := (Calendar.ofDays (s / 86400)).day_mem
  have hlen := Calendar.monthLength_bounds (Calendar.ofDays (s / 86400)).year
    (Calendar.ofDays (s / 86400)).month
  refine ⟨?_, ?_, ?_, ?_, ?_⟩
  all_goals
    simp only [gmtime]
    omega

/-- A second has one date and time. -/
theorem gmtime_injective : Function.Injective gmtime := by
  intro s s' h
  simp only [gmtime, Tm.mk.injEq] at h
  obtain ⟨hyear, hmon, hmday, hhour, hmin, hsec⟩ := h
  have hdays : s / 86400 = s' / 86400 := by
    refine Calendar.ofDays_injective (Calendar.Date.ext ?_ ?_ ?_)
    · omega
    · omega
    · omega
  omega

/-! ## The text of a time -/

section Text

theorem toList_twoDigits {n : Nat} :
    (twoDigits n).toList = if n < 10 then '0' :: Nat.toDigits 10 n else Nat.toDigits 10 n := by
  have hdigits : (toString (n : Int)).toList = Nat.toDigits 10 n := Nat.toList_repr
  by_cases hn : n < 10
  · have hlow : (0 : Int) ≤ n ∧ (n : Int) < 10 := by omega
    rw [twoDigits, if_pos hlow, if_pos hn, String.toList_append, hdigits]
    rfl
  · have hlow : ¬((0 : Int) ≤ n ∧ (n : Int) < 10) := by omega
    rw [twoDigits, if_neg hlow, if_neg hn, hdigits]

theorem length_twoDigits {n : Int} (hn : 0 ≤ n ∧ n < 100) : (twoDigits n).toList.length = 2 := by
  obtain ⟨n, rfl⟩ := Int.eq_ofNat_of_zero_le hn.1
  rw [toList_twoDigits]
  rcases Nat.lt_or_ge n 10 with hlt | hge
  · rw [if_pos hlt, Nat.toDigits_of_lt_base hlt]
    rfl
  · rw [if_neg (Nat.not_lt.mpr hge)]
    exact length_toDigits (k := 1) hge (by omega)

theorem value_twoDigits {n : Int} (hn : 0 ≤ n ∧ n < 100) :
    (digitsValue (twoDigits n).toList : Int) = n := by
  obtain ⟨n, rfl⟩ := Int.eq_ofNat_of_zero_le hn.1
  have hzero : digitsValue ('0' :: Nat.toDigits 10 n) = digitsValue (Nat.toDigits 10 n) := rfl
  rw [toList_twoDigits]
  split
  · rw [hzero, digitsValue_toDigits]
  · rw [digitsValue_toDigits]

/-- Two digits in front of two texts are the same number. -/
theorem twoDigits_append_inj {n m : Int} {s t : List Char} (hn : 0 ≤ n ∧ n < 100)
    (hm : 0 ≤ m ∧ m < 100) (h : (twoDigits n).toList ++ s = (twoDigits m).toList ++ t) :
    n = m ∧ s = t := by
  obtain ⟨hdigits, hrest⟩ := List.append_inj h (by rw [length_twoDigits hn, length_twoDigits hm])
  refine ⟨?_, hrest⟩
  rw [← value_twoDigits hn, hdigits, value_twoDigits hm]

/-- What `put_time` prints behind the year. -/
def behindYear (tm : Tm) : List Char :=
  '-' :: ((twoDigits (tm.tmMon + 1)).toList ++ '-' :: ((twoDigits tm.tmMday).toList
    ++ ' ' :: ((twoDigits tm.tmHour).toList ++ ':' :: ((twoDigits tm.tmMin).toList
      ++ ':' :: ((twoDigits tm.tmSec).toList ++ [])))))

theorem toList_putTime (tm : Tm) :
    (putTime tm).toList = (toString (tm.tmYear + 1900)).toList ++ behindYear tm := by
  simp [putTime, behindYear]

theorem length_behindYear {tm : Tm} (h : tm.TwoDigits) : (behindYear tm).length = 15 := by
  simp [behindYear, length_twoDigits h.tmMon, length_twoDigits h.tmMday,
    length_twoDigits h.tmHour, length_twoDigits h.tmMin, length_twoDigits h.tmSec]

/-- The text of a time determines its fields: what is behind the year has a
fixed length. -/
theorem putTime_inj {tm tm' : Tm} (h : tm.TwoDigits) (h' : tm'.TwoDigits)
    (htext : putTime tm = putTime tm') : tm = tm' := by
  have hlists := congrArg String.toList htext
  rw [toList_putTime, toList_putTime] at hlists
  obtain ⟨hyear, hbehind⟩ := List.append_inj' hlists
    (by rw [length_behindYear h, length_behindYear h'])
  have hyear := Int.repr_injective (String.toList_inj.mp hyear)
  obtain ⟨hmon, hbehind⟩ := twoDigits_append_inj h.tmMon h'.tmMon (List.cons.inj hbehind).2
  obtain ⟨hmday, hbehind⟩ := twoDigits_append_inj h.tmMday h'.tmMday (List.cons.inj hbehind).2
  obtain ⟨hhour, hbehind⟩ := twoDigits_append_inj h.tmHour h'.tmHour (List.cons.inj hbehind).2
  obtain ⟨hmin, hbehind⟩ := twoDigits_append_inj h.tmMin h'.tmMin (List.cons.inj hbehind).2
  obtain ⟨hsec, -⟩ := twoDigits_append_inj h.tmSec h'.tmSec (List.cons.inj hbehind).2
  obtain ⟨year, mon, mday, hour, min, sec⟩ := tm
  obtain ⟨year', mon', mday', hour', min', sec'⟩ := tm'
  simp only at hyear hmon hmday hhour hmin hsec
  obtain rfl : year = year' := by omega
  obtain rfl : mon = mon' := by omega
  rw [hmday, hhour, hmin, hsec]

theorem putTime_gmtime_injective : Function.Injective fun s => putTime (gmtime s) := by
  intro s s' h
  exact gmtime_injective (putTime_inj (twoDigits_gmtime s) (twoDigits_gmtime s') h)

end Text

/-! ## Universal time -/

/-- The text is that of this second in UTC. -/
def IsUtc (text : String) (s : Int) : Prop := text = putTime (gmtime s)

/-- From the epoch to the end of the year 9999. -/
def InRange (t : Int) : Prop := 0 ≤ t ∧ (gmtime (toTimeT t)).tmYear + 1900 ≤ 9999

/-- What the name `timestamp_utc` says of a host in this zone: a time point is
rendered in UTC, and of two of them the later one is not read back as the
earlier instant. -/
structure TimestampsUtc (zone : Zone) : Prop where
  rendered : ∀ t, InRange t → IsUtc (formatTimestamp (localtime zone) t) (toTimeT t)
  ordered : ∀ t t', InRange t → InRange t' → t ≤ t' → ∀ s s',
    IsUtc (formatTimestamp (localtime zone) t) s →
    IsUtc (formatTimestamp (localtime zone) t') s' → s ≤ s'

/-- A text is read back as one instant. -/
theorem isUtc_unique {text : String} {s s' : Int} (h : IsUtc text s) (h' : IsUtc text s') :
    s = s' :=
  putTime_gmtime_injective (h.symm.trans h')

/-- The text of a time point is read back with the offset added. -/
theorem isUtc_formatTimestamp {zone : Zone} {t s : Int} :
    IsUtc (formatTimestamp (localtime zone) t) s ↔ s = toTimeT t + zone (toTimeT t) := by
  constructor
  · intro h
    exact isUtc_unique h rfl
  · rintro rfl
    rfl

theorem toTimeT_mono {t t' : Int} (h0 : 0 ≤ t) (h : t ≤ t') : toTimeT t ≤ toTimeT t' := by
  rw [toTimeT, toTimeT, Int.tdiv_eq_ediv_of_nonneg h0, Int.tdiv_eq_ediv_of_nonneg (h0.trans h)]
  omega

theorem isUtc_iff {zone : Zone} {t : Int} :
    IsUtc (formatTimestamp (localtime zone) t) (toTimeT t) ↔ zone (toTimeT t) = 0 := by
  rw [isUtc_formatTimestamp]
  omega

/-- **When `FormatTimestamp` renders UTC.** A time point is rendered in UTC
exactly where the zone of the host has no offset. All timestamps of a host are
in UTC, and in order, exactly if its zone has none at any second from the
epoch to the year 9999. -/
theorem timestampsUtc_iff (zone : Zone) :
    (∀ t, IsUtc (formatTimestamp (localtime zone) t) (toTimeT t) ↔ zone (toTimeT t) = 0)
    ∧ (TimestampsUtc zone ↔ ∀ t, InRange t → zone (toTimeT t) = 0) := by
  refine ⟨fun t => isUtc_iff, ?_⟩
  constructor
  · intro h t ht
    exact isUtc_iff.mp (h.rendered t ht)
  · intro h
    refine ⟨?_, ?_⟩
    · intro t ht
      exact isUtc_iff.mpr (h t ht)
    · intro t t' ht ht' hle s s' hs hs'
      rw [isUtc_formatTimestamp, h t ht, Int.add_zero] at hs
      rw [isUtc_formatTimestamp, h t' ht', Int.add_zero] at hs'
      rw [hs, hs']
      exact toTimeT_mono ht.1 hle

/-- A host in UTC. -/
theorem timestampsUtc_iff_sample : TimestampsUtc fun _ => 0 :=
  (timestampsUtc_iff fun _ => 0).2.mpr fun _ _ => rfl

/-- Two hours ahead of UTC for a day, and then, when summer is over, one. -/
def summerTime : Zone := fun s => if s < 86400 then 7200 else 3600

/-- The epoch of a host in summer time is two hours late, and the second after
the clock is set back is rendered before the one in front of it. -/
theorem summerTime_not_utc :
    formatTimestamp (localtime summerTime) 0 = "1970-01-01 02:00:00"
    ∧ formatTimestamp (localtime summerTime) 86399000000000 = "1970-01-02 01:59:59"
    ∧ formatTimestamp (localtime summerTime) 86400000000000 = "1970-01-02 01:00:00"
    ∧ ¬TimestampsUtc summerTime := by
  refine ⟨by decide, by decide, by decide, ?_⟩
  intro h
  have hoffset := isUtc_iff.mp (h.rendered 0 ⟨by decide, by decide⟩)
  revert hoffset
  decide

end EventHistory
