import Mathlib.Data.Int.Order.Basic

/-! The proleptic Gregorian calendar: seconds since the epoch against a broken
down time, with the normalisation of `mktime`. -/
namespace Botniklas.Foundation

/-- A broken down time: months from 0, years from 1900, as in `struct tm`. -/
structure Tm where
  sec : Int
  min : Int
  hour : Int
  mday : Int
  mon : Int
  year : Int
  deriving DecidableEq, Repr

namespace Calendar

def isLeap (y : Int) : Bool := y % 4 = 0 && (y % 100 ≠ 0 || y % 400 = 0)

def monthLength (leap : Bool) : Nat → Int
  | 0 | 2 | 4 | 6 | 7 | 9 | 11 => 31
  | 1 => if leap then 29 else 28
  | _ => 30

def daysBeforeMonth (leap : Bool) : Nat → Int
  | 0 => 0
  | m + 1 => daysBeforeMonth leap m + monthLength leap m

def yearLength (leap : Bool) : Int := if leap then 366 else 365

/-- Days from the epoch to the first of January. -/
def daysBeforeYear (y : Int) : Int :=
  365 * (y - 1970) + (y - 1) / 4 - (y - 1) / 100 + (y - 1) / 400 - 477

/-- Any month number and any day number: a month past December counts into the
following years. -/
def daysFromCivil (y mon mday : Int) : Int :=
  let y' := y + mon / 12
  daysBeforeYear y' + daysBeforeMonth (isLeap y') (mon % 12).toNat + (mday - 1)

/-- The year of a day: an estimate by the mean length, off by at most one. -/
def yearOf (z : Int) : Int :=
  let y := 1970 + 400 * z / 146097
  if z < daysBeforeYear y then y - 1
  else if daysBeforeYear (y + 1) ≤ z then y + 1
  else y

def monthOf (leap : Bool) (yday : Int) : Nat → Nat
  | 0 => 0
  | m + 1 => if daysBeforeMonth leap (m + 1) ≤ yday then m + 1 else monthOf leap yday m

end Calendar
open Calendar

/-- Seconds from the epoch to a broken down time, its fields in any range. -/
def Tm.seconds (tm : Tm) : Int :=
  daysFromCivil (tm.year + 1900) tm.mon tm.mday * 86400 + tm.hour * 3600 + tm.min * 60 + tm.sec

def Tm.ofSeconds (t : Int) : Tm :=
  let z := t / 86400
  let y := yearOf z
  let yday := z - daysBeforeYear y
  let m := monthOf (isLeap y) yday 11
  { sec := t % 60
    min := t / 60 % 60
    hour := t / 3600 % 24
    mday := yday - daysBeforeMonth (isLeap y) m + 1
    mon := m
    year := y - 1900 }

namespace Calendar

theorem daysBeforeYear_succ (y : Int) :
    daysBeforeYear (y + 1) = daysBeforeYear y + yearLength (isLeap y) := by
  unfold daysBeforeYear yearLength isLeap
  by_cases h4 : y % 4 = 0 <;> by_cases h100 : y % 100 = 0 <;> by_cases h400 : y % 400 = 0 <;>
    simp [h4, h100, h400] <;> omega

theorem daysBeforeMonth_twelve (leap : Bool) : daysBeforeMonth leap 12 = yearLength leap := by
  cases leap <;> decide

/-- Every day lies in the year found for it. -/
theorem yearOf_spec (z : Int) :
    daysBeforeYear (yearOf z) ≤ z ∧ z < daysBeforeYear (yearOf z + 1) := by
  unfold yearOf
  dsimp only
  split_ifs with h1 h2
  · refine ⟨?_, by rwa [Int.sub_add_cancel]⟩
    unfold daysBeforeYear
    omega
  · refine ⟨h2, ?_⟩
    unfold daysBeforeYear
    omega
  · omega

/-- Every day of the year lies in the month found for it. -/
theorem monthOf_spec (leap : Bool) (yday : Int) (h : 0 ≤ yday) (k : Nat) :
    monthOf leap yday k ≤ k ∧ daysBeforeMonth leap (monthOf leap yday k) ≤ yday ∧
      (monthOf leap yday k < k → yday < daysBeforeMonth leap (monthOf leap yday k + 1)) := by
  induction k with
  | zero => exact ⟨Nat.le_refl _, h, fun hlt => by cases hlt⟩
  | succ k ih =>
    unfold monthOf
    split_ifs with hk
    · exact ⟨Nat.le_refl _, hk, fun hlt => (Nat.lt_irrefl _ hlt).elim⟩
    · obtain ⟨h1, h2, h3⟩ := ih
      refine ⟨by omega, h2, fun _ => ?_⟩
      rcases Nat.lt_or_eq_of_le h1 with hlt | heq
      · exact h3 hlt
      · rw [heq]
        omega

theorem daysBeforeYear_mono {y y' : Int} (h : y ≤ y') : daysBeforeYear y ≤ daysBeforeYear y' := by
  unfold daysBeforeYear
  omega

theorem daysBeforeMonth_mono (leap : Bool) {m m' : Nat} (h : m ≤ m') :
    daysBeforeMonth leap m ≤ daysBeforeMonth leap m' := by
  induction h with
  | refl => exact le_rfl
  | @step m' _ ih =>
    have hpos : 0 ≤ monthLength leap m' := by
      unfold monthLength
      cases leap <;> split <;> decide
    rw [daysBeforeMonth]
    omega

/-- A day lies in one year only. -/
theorem yearOf_eq {y z : Int} (hlo : daysBeforeYear y ≤ z) (hhi : z < daysBeforeYear (y + 1)) :
    yearOf z = y := by
  obtain ⟨hlo', hhi'⟩ := yearOf_spec z
  rcases lt_trichotomy (yearOf z) y with h | h | h
  · have := daysBeforeYear_mono (show yearOf z + 1 ≤ y by omega)
    omega
  · exact h
  · have := daysBeforeYear_mono (show y + 1 ≤ yearOf z by omega)
    omega

/-- A day of the year lies in one month only. -/
theorem monthOf_eq {leap : Bool} {yday : Int} {m k : Nat} (hm : m ≤ k)
    (hlo : daysBeforeMonth leap m ≤ yday) (hhi : yday < daysBeforeMonth leap (m + 1)) :
    monthOf leap yday k = m := by
  have hday : 0 ≤ yday := Int.le_trans (daysBeforeMonth_mono leap (Nat.zero_le m)) hlo
  obtain ⟨hk, hlo', hhi'⟩ := monthOf_spec leap yday hday k
  rcases Nat.lt_trichotomy (monthOf leap yday k) m with h | h | h
  · have := daysBeforeMonth_mono leap (show monthOf leap yday k + 1 ≤ m from h)
    have := hhi' (Nat.lt_of_lt_of_le h hm)
    omega
  · exact h
  · have := daysBeforeMonth_mono leap (show m + 1 ≤ monthOf leap yday k from h)
    omega

end Calendar

namespace Tm

/-- Breaking a time down and putting it together again. -/
theorem seconds_ofSeconds (t : Int) : (ofSeconds t).seconds = t := by
  obtain ⟨hlo, -⟩ := yearOf_spec (t / 86400)
  obtain ⟨hm, -, -⟩ := monthOf_spec (isLeap (yearOf (t / 86400)))
    (t / 86400 - daysBeforeYear (yearOf (t / 86400))) (by omega) 11
  unfold seconds ofSeconds daysFromCivil
  dsimp only
  generalize monthOf _ _ 11 = m at hm ⊢
  have hm0 : (m : Int) / 12 = 0 := by omega
  have hm1 : ((m : Int) % 12).toNat = m := by omega
  rw [hm0, hm1, Int.sub_add_cancel, Int.add_zero]
  omega

/-- Every field in its proper range, the day within the length of its month. -/
structure InRange (tm : Tm) : Prop where
  sec : 0 ≤ tm.sec ∧ tm.sec < 60
  min : 0 ≤ tm.min ∧ tm.min < 60
  hour : 0 ≤ tm.hour ∧ tm.hour < 24
  mon : 0 ≤ tm.mon ∧ tm.mon < 12
  mday : 1 ≤ tm.mday ∧ tm.mday ≤ monthLength (isLeap (tm.year + 1900)) tm.mon.toNat

/-- A time broken down has every field in range. -/
theorem ofSeconds_inRange (t : Int) : (ofSeconds t).InRange := by
  obtain ⟨hlo, hhi⟩ := yearOf_spec (t / 86400)
  rw [daysBeforeYear_succ, ← daysBeforeMonth_twelve] at hhi
  obtain ⟨hm, hday, hnext⟩ := monthOf_spec (isLeap (yearOf (t / 86400)))
    (t / 86400 - daysBeforeYear (yearOf (t / 86400))) (by omega) 11
  have hlast := Int.sub_left_lt_of_lt_add hhi
  unfold ofSeconds
  dsimp only
  generalize t / 86400 - daysBeforeYear (yearOf (t / 86400)) = yday at hm hday hnext hlast ⊢
  generalize yearOf (t / 86400) = y at hm hday hnext hlast ⊢
  have hend : yday < daysBeforeMonth (isLeap y) (monthOf (isLeap y) yday 11 + 1) := by
    rcases Nat.lt_or_eq_of_le hm with hlt | heq
    · exact hnext hlt
    · rwa [heq]
  generalize monthOf (isLeap y) yday 11 = m at hm hday hend ⊢
  rw [daysBeforeMonth] at hend
  refine ⟨?_, ?_, ?_, ?_, ?_⟩ <;> dsimp only
  · omega
  · omega
  · omega
  · omega
  · rw [Int.sub_add_cancel, Int.toNat_natCast]
    omega

/-- A time with every field in range is what it breaks down to, so `mktime` leaves
exactly such times as they are. -/
theorem ofSeconds_seconds {tm : Tm} (h : tm.InRange) : ofSeconds tm.seconds = tm := by
  obtain ⟨⟨hs0, hs1⟩, ⟨hm0, hm1⟩, ⟨hh0, hh1⟩, ⟨ho0, ho1⟩, ⟨hd0, hd1⟩⟩ := h
  obtain ⟨sec, min, hour, mday, mon, year⟩ := tm
  dsimp only at *
  obtain ⟨m, rfl⟩ : ∃ m : Nat, mon = m := ⟨mon.toNat, by omega⟩
  rw [Int.toNat_natCast] at hd1
  -- the day of the year lies before the end of its month, and that within the year
  have hend := daysBeforeMonth_mono (isLeap (year + 1900)) (show m + 1 ≤ 12 by omega)
  rw [daysBeforeMonth_twelve] at hend
  have hstart := daysBeforeMonth_mono (isLeap (year + 1900)) (Nat.zero_le m)
  have hsucc := daysBeforeYear_succ (year + 1900)
  have hnext : daysBeforeMonth (isLeap (year + 1900)) (m + 1) =
      daysBeforeMonth (isLeap (year + 1900)) m + monthLength (isLeap (year + 1900)) m := rfl
  have hdays : daysFromCivil (year + 1900) m mday = daysBeforeYear (year + 1900) +
      daysBeforeMonth (isLeap (year + 1900)) m + (mday - 1) := by
    unfold daysFromCivil
    dsimp only
    rw [show (m : Int) / 12 = 0 by omega, show ((m : Int) % 12).toNat = m by omega, Int.add_zero]
  have hz : (Tm.seconds ⟨sec, min, hour, mday, m, year⟩) / 86400 =
      daysFromCivil (year + 1900) m mday := by
    unfold seconds
    dsimp only
    omega
  have hzero : daysBeforeMonth (isLeap (year + 1900)) 0 = 0 := rfl
  have hyear : yearOf (daysFromCivil (year + 1900) m mday) = year + 1900 := by
    apply yearOf_eq
    · omega
    · omega
  have hmonth : monthOf (isLeap (year + 1900))
      (daysFromCivil (year + 1900) m mday - daysBeforeYear (year + 1900)) 11 = m := by
    apply monthOf_eq
    · omega
    · omega
    · omega
  unfold ofSeconds
  dsimp only
  rw [hz, hyear, hmonth]
  unfold seconds
  dsimp only
  congr 1 <;> omega

theorem ofSeconds_seconds_iff {tm : Tm} : ofSeconds tm.seconds = tm ↔ tm.InRange :=
  ⟨fun h => h ▸ ofSeconds_inRange _, ofSeconds_seconds⟩

/-- A time lies in its year. -/
theorem InRange.year_spec {tm : Tm} (h : tm.InRange) :
    daysBeforeYear (tm.year + 1900) ≤ tm.seconds / 86400 ∧
      tm.seconds / 86400 < daysBeforeYear (tm.year + 1900 + 1) := by
  have hyear : (ofSeconds tm.seconds).year + 1900 = yearOf (tm.seconds / 86400) :=
    Int.sub_add_cancel _ _
  rw [ofSeconds_seconds h] at hyear
  rw [hyear]
  exact yearOf_spec _

/-- Adding whole days to the day of the month, whatever it is then. -/
theorem seconds_add_mday (tm : Tm) (n : Int) :
    ({ tm with mday := tm.mday + n } : Tm).seconds = tm.seconds + n * 86400 := by
  unfold seconds daysFromCivil
  dsimp only
  omega

/-- Resetting the time of day. -/
theorem seconds_set_time (tm : Tm) (hour min sec : Int) :
    ({ tm with hour := hour, min := min, sec := sec } : Tm).seconds =
      tm.seconds + (hour - tm.hour) * 3600 + (min - tm.min) * 60 + (sec - tm.sec) := by
  unfold seconds
  dsimp only
  omega

end Tm

/-- `localtime_r` in a zone that is `zone` seconds ahead of UTC. -/
def localtime (zone t : Int) : Tm := Tm.ofSeconds (t + zone)

/-- `mktime`: the time, and the fields it leaves in their proper ranges. -/
def mktime (zone : Int) (tm : Tm) : Int × Tm := (tm.seconds - zone, Tm.ofSeconds tm.seconds)

end Botniklas.Foundation
