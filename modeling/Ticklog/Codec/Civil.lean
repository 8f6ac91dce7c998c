import Ticklog.Lib.Calendar
import Ticklog.Codec.Timestamp

/-!
# `civil_from_days` is the calendar's (`src/timestamp.rs`)

The algorithm counts years from March, so that the leap day is the last of its year, and days in
eras of 400 years. A day of the era lies in a century, a leap cycle of four years, a year of the
cycle and a day of that year (`era_split`); dividing `doe` less its leap days by 365 finds the
year these name (`yearOfEra`). The month table `(153 * mp + 2) / 5` is then the calendar's own,
with January and February at its end.
-/

namespace Ticklog

open Lib

/-- The era, whichever way the division rounds. -/
theorem era_eq (z : Int) :
    (if 0 ≤ z then z.tdiv 146097 else (z - 146096).tdiv 146097) = z / 146097 := by
  split
  next h => exact Int.tdiv_eq_ediv_of_nonneg h
  next h =>
    rw [show z - 146096 = -(146096 - z) by omega, Int.neg_tdiv,
      Int.tdiv_eq_ediv_of_nonneg (by omega)]
    omega

/-- A day of the era by century, leap cycle, year of the cycle and day of that year. -/
theorem era_split {doe : Nat} (h : doe < 146097) :
    ∃ b c d u, b ≤ 3 ∧ c ≤ 24 ∧ d ≤ 3 ∧ doe = 36524 * b + 1461 * c + 365 * d + u ∧
      (u ≤ 364 ∨ u = 365 ∧ d = 3 ∧ (c < 24 ∨ b = 3)) := by
  -- the last day of the era is a leap day that its century has on top
  obtain ⟨b, r, hb, hr, hdoe⟩ : ∃ b r, b ≤ 3 ∧ (r < 36524 ∨ b = 3 ∧ r = 36524) ∧
      doe = 36524 * b + r := by
    by_cases hlast : doe = 146096
    · exact ⟨3, 36524, by omega, Or.inr ⟨rfl, rfl⟩, by omega⟩
    · exact ⟨doe / 36524, doe % 36524, by omega, Or.inl (by omega), by omega⟩
  obtain ⟨d, u, hd, hdays, hu⟩ : ∃ d u, d ≤ 3 ∧ r % 1461 = 365 * d + u ∧
      (u ≤ 364 ∨ u = 365 ∧ d = 3) := by
    by_cases hlast : r % 1461 = 1460
    · exact ⟨3, 365, by omega, by omega, Or.inr ⟨rfl, rfl⟩⟩
    · exact ⟨r % 1461 / 365, r % 1461 % 365, by omega, by omega, Or.inl (by omega)⟩
  refine ⟨b, r / 1461, d, u, hb, by omega, hd, by omega, ?_⟩
  omega

/-- The year of the era. -/
theorem yearOfEra {doe b c d u : Nat} (hb : b ≤ 3) (hc : c ≤ 24) (hd : d ≤ 3)
    (hdoe : doe = 36524 * b + 1461 * c + 365 * d + u)
    (hu : u ≤ 364 ∨ u = 365 ∧ d = 3 ∧ (c < 24 ∨ b = 3)) :
    (doe - doe / 1460 + doe / 36524 - doe / 146096) / 365 = 100 * b + 4 * c + d := by
  have hcycles : doe / 1460 = 25 * b + c + (24 * b + c + 365 * d + u) / 1460 := by
    have hsum : doe = 1460 * (25 * b + c) + (24 * b + c + 365 * d + u) := by omega
    rw [hsum, Nat.mul_add_div (by decide)]
  by_cases hlast : doe = 146096
  · omega
  · have hcentury : doe / 36524 = b := by omega
    have hera : doe / 146096 = 0 := by omega
    rw [hcycles, hcentury, hera]
    omega

/-- The days before a year that starts in March, counted from the first of March 0000. -/
theorem daysBeforeYear_march (era : Int) {b c d : Nat} (hc : c ≤ 24) (hd : d ≤ 3) (hb : b ≤ 3) :
    daysBeforeYear ((100 * b + 4 * c + d : Nat) + era * 400 + 1)
      = 36524 * b + 1461 * c + 365 * d + 146097 * era := by
  unfold daysBeforeYear
  omega

/-- The year in whose February a leap cycle of the era ends is a leap year, unless a century that
is not the era's last ends with it. -/
theorem isLeap_endOfCycle (era : Int) {b c : Nat} (hb : b ≤ 3) (hc : c ≤ 24)
    (hlast : c < 24 ∨ b = 3) : isLeap ((100 * b + 4 * c + 3 : Nat) + era * 400 + 1) := by
  unfold isLeap
  refine ⟨by omega, ?_⟩
  rcases hlast with hlast | rfl
  · omega
  · omega

/-- The month table: a month from March on, and the day of it, from the day of the year. -/
theorem monthOfYear {u mp : Nat} (hu : u ≤ 365) (hmp : (5 * u + 2) / 153 = mp) :
    mp ≤ 11 ∧ (153 * mp + 2) / 5 ≤ u ∧ u < (153 * (mp + 1) + 2) / 5 ∧ (mp = 11 → 337 ≤ u) := by
  omega

/-- From March to December the date is of the year the era's year starts in. -/
theorem date_march {y : Int} {u mp : Nat} (hmp : mp < 10) (hlo : (153 * mp + 2) / 5 ≤ u)
    (hhi : u < (153 * (mp + 1) + 2) / 5) :
    ValidDate y (mp + 3) (u - (153 * mp + 2) / 5 + 1) ∧
      daysFromCivil y (mp + 3) (u - (153 * mp + 2) / 5 + 1)
        = daysBeforeYear (y + 1) - 306 + u - daysBeforeYear 1970 := by
  refine ⟨⟨by omega, by omega, by omega, ?_⟩, ?_⟩
  · interval_cases mp <;> simp only [monthLength] <;> omega
  · have hmonth := daysBeforeMonth_eq y (show 1 ≤ mp + 3 by omega) (by omega)
    rw [if_neg (by omega), Nat.add_sub_cancel] at hmonth
    have hyear := daysBeforeYear_succ y
    unfold daysFromCivil
    rw [hmonth, hyear]
    split <;> omega

/-- January and February are of the next year. -/
theorem date_january {y : Int} {u mp : Nat} (hmp : 10 ≤ mp) (hmp' : mp ≤ 11)
    (hlo : (153 * mp + 2) / 5 ≤ u) (hhi : u < (153 * (mp + 1) + 2) / 5)
    (hleap : u ≤ 364 ∨ u = 365 ∧ isLeap y) :
    ValidDate y (mp - 9) (u - (153 * mp + 2) / 5 + 1) ∧
      daysFromCivil y (mp - 9) (u - (153 * mp + 2) / 5 + 1)
        = daysBeforeYear y - 306 + u - daysBeforeYear 1970 := by
  have hmonth : monthLength y 2 = if isLeap y then 29 else 28 := rfl
  refine ⟨⟨by omega, by omega, by omega, ?_⟩, ?_⟩
  · have hcases : mp = 10 ∨ mp = 11 := by omega
    rcases hcases with rfl | rfl
    · show _ ≤ 31
      omega
    · rw [hmonth]
      rcases hleap with hu | ⟨rfl, hy⟩
      · split <;> omega
      · rw [if_pos hy]
  · have hbefore := daysBeforeMonth_eq y (show 1 ≤ mp - 9 by omega) (by omega)
    rw [if_pos (by omega)] at hbefore
    unfold daysFromCivil
    rw [hbefore]
    omega

/-- The date that the day of the era, its year and the day of that year give. -/
theorem civil_date {days era : Int} {doe yoe doy mp : Nat}
    (hdays : days + daysFromCivilEpochToUnix = doe + era * 146097) (hlt : doe < 146097)
    (hyoe : (doe - doe / 1460 + doe / 36524 - doe / 146096) / 365 = yoe)
    (hdoy : doe - (365 * yoe + yoe / 4 - yoe / 100) = doy) (hmp : (5 * doy + 2) / 153 = mp) :
    ValidDate ((yoe : Int) + era * 400 + if (if mp < 10 then mp + 3 else mp - 9) ≤ 2 then 1 else 0)
        (if mp < 10 then mp + 3 else mp - 9) (doy - (153 * mp + 2) / 5 + 1) ∧
      daysFromCivil
          ((yoe : Int) + era * 400 + if (if mp < 10 then mp + 3 else mp - 9) ≤ 2 then 1 else 0)
          (if mp < 10 then mp + 3 else mp - 9) (doy - (153 * mp + 2) / 5 + 1) = days := by
  obtain ⟨b, c, d, u, hb, hc, hd, hsplit, hu⟩ := era_split hlt
  have hyear := yearOfEra hb hc hd hsplit hu
  rw [hyoe] at hyear
  have hquads : yoe / 4 = 25 * b + c := by omega
  have hcenturies : yoe / 100 = b := by omega
  have hday : doy = u := by
    rw [← hdoy, hquads, hcenturies]
    omega
  subst hday
  have hmarch := daysBeforeYear_march era hc hd hb
  rw [← hyear] at hmarch
  obtain ⟨hle, hlo, hhi, -⟩ := monthOfYear (by omega) hmp
  have hepoch : daysBeforeYear 1970 = 719162 := by decide
  have hzero : daysFromCivilEpochToUnix = 719468 := rfl
  by_cases hmonth : mp < 10
  · obtain ⟨hvalid, hcount⟩ := date_march (y := (yoe : Int) + era * 400) hmonth hlo hhi
    rw [if_pos hmonth, if_neg (by omega), add_zero]
    refine ⟨hvalid, ?_⟩
    rw [hcount]
    omega
  · have hleap : doy ≤ 364 ∨ doy = 365 ∧ isLeap ((yoe : Int) + era * 400 + 1) := by
      rcases hu with hu | ⟨hu, rfl, hlast⟩
      · exact Or.inl hu
      · rw [hyear]
        exact Or.inr ⟨hu, isLeap_endOfCycle era hb hc hlast⟩
    obtain ⟨hvalid, hcount⟩ := date_january (by omega) hle hlo hhi hleap
    rw [if_neg hmonth, if_pos (by omega)]
    refine ⟨hvalid, ?_⟩
    rw [hcount]
    omega

/-- The day of its era. -/
theorem dayOfEra (z : Int) :
    z = (castU32 (z - z / 146097 * 146097) : Int) + z / 146097 * 146097 ∧
      castU32 (z - z / 146097 * 146097) < 146097 := by
  unfold castU32
  omega

/-- `civil_from_days` gives a date of the calendar, and it is the one the day count names; the
year is then cut to an `i32`. -/
theorem civilFromDays_spec (days : Int) :
    ∃ y m d, ValidDate y m d ∧ daysFromCivil y m d = days ∧
      civilFromDays days = (castI32 y, m, d) := by
  obtain ⟨hdays, hlt⟩ := dayOfEra (days + daysFromCivilEpochToUnix)
  obtain ⟨hvalid, hcount⟩ := civil_date hdays hlt rfl rfl rfl
  refine ⟨_, _, _, hvalid, hcount, ?_⟩
  unfold civilFromDays
  simp only [era_eq]

end Ticklog
