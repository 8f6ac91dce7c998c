import Ticklog.Codec.Civil

/-!
# `civil_from_days` over its range (`src/timestamp.rs`)

The source computes in `i64` and `u32`, where an operation that leaves its type wraps in a
release build. `checkedCivil` is the same text with every operation and cast checked; on a day
whose year is an `i32` no check fails, so the result is the calendar's date itself, with nothing
cut off, and the next day's result is the next date.
-/

namespace Ticklog

open Lib

/-! ## Checked operations -/

/-- An `i64` operation, if its value is an `i64`. -/
def inI64 (x : Int) : Option Int := if -2 ^ 63 ≤ x ∧ x < 2 ^ 63 then some x else none

/-- The same for `i32`. -/
def inI32 (x : Int) : Option Int := if -2 ^ 31 ≤ x ∧ x < 2 ^ 31 then some x else none

/-- The same for `u32`. -/
def inU32 (x : Int) : Option Nat := if 0 ≤ x ∧ x < 2 ^ 32 then some x.toNat else none

/-- `civil_from_days`, with no value where an operation or a cast would change one. -/
def checkedCivil (daysSinceEpoch : Int) : Option (Int × Nat × Nat) := do
  let z ← inI64 (daysSinceEpoch + daysFromCivilEpochToUnix)
  let shifted ← inI64 (if 0 ≤ z then z else z - 146096)
  let era := shifted.tdiv 146097
  let eraDays ← inI64 (era * 146097)
  let doe ← inI64 (z - eraDays)
  let doe ← inU32 doe
  let yoe ← inU32 (doe - (doe / 1460 : Nat))
  let yoe ← inU32 (yoe + (doe / 36524 : Nat))
  let yoe ← inU32 (yoe - (doe / 146096 : Nat))
  let yoe := yoe / 365
  let eraYears ← inI64 (era * 400)
  let y ← inI64 (yoe + eraYears)
  let yearDays ← inU32 (365 * yoe)
  let yearDays ← inU32 (yearDays + (yoe / 4 : Nat))
  let yearDays ← inU32 (yearDays - (yoe / 100 : Nat))
  let doy ← inU32 (doe - yearDays)
  let mp ← inU32 (5 * doy)
  let mp ← inU32 (mp + 2)
  let mp := mp / 153
  let monthDays ← inU32 (153 * mp)
  let monthDays ← inU32 (monthDays + 2)
  let d ← inU32 (doy - (monthDays / 5 : Nat))
  let d ← inU32 (d + 1)
  let m ← inU32 (if mp < 10 then mp + 3 else mp - 9)
  let yAdj ← inI64 (y + if m ≤ 2 then 1 else 0)
  let yAdj ← inI32 yAdj
  return (yAdj, m, d)

theorem bind_inI64 {α : Type} {x : Int} (h : -2 ^ 63 ≤ x ∧ x < 2 ^ 63) (k : Int → Option α) :
    inI64 x >>= k = k x := by
  unfold inI64
  rw [if_pos h]
  rfl

theorem bind_inI32 {α : Type} {x : Int} (h : -2 ^ 31 ≤ x ∧ x < 2 ^ 31) (k : Int → Option α) :
    inI32 x >>= k = k x := by
  unfold inI32
  rw [if_pos h]
  rfl

theorem bind_inU32 {α : Type} {x : Int} {n : Nat} (h : x = n) (hlt : n < 2 ^ 32)
    (k : Nat → Option α) : inU32 x >>= k = k n := by
  subst h
  unfold inU32
  rw [if_pos ⟨Int.natCast_nonneg n, by omega⟩]
  rfl

/-! ## No check fails -/

/-- The year of the era and the day of its year, in their ranges. -/
theorem eraYear_range {doe yoe : Nat} (hdoe : doe < 146097)
    (hyoe : (doe - doe / 1460 + doe / 36524 - doe / 146096) / 365 = yoe) :
    yoe ≤ 399 ∧ 365 * yoe + yoe / 4 - yoe / 100 ≤ doe ∧
      doe - (365 * yoe + yoe / 4 - yoe / 100) ≤ 365 := by
  obtain ⟨b, c, d, u, hb, hc, hd, hsplit, hu⟩ := era_split hdoe
  have hyear := yearOfEra hb hc hd hsplit hu
  rw [hyoe] at hyear
  have hquads : yoe / 4 = 25 * b + c := by omega
  have hcenturies : yoe / 100 = b := by omega
  rw [hquads, hcenturies]
  omega

/-- The years of the dates whose day counts `civil_from_days` takes. -/
def YearFits (days : Int) : Prop :=
  ∃ y m d, ValidDate y m d ∧ daysFromCivil y m d = days ∧ -2 ^ 31 ≤ y ∧ y < 2 ^ 31

/-- Such a count is far from the ends of `i64`. -/
theorem YearFits.bounds {days : Int} (h : YearFits days) : -2 ^ 41 ≤ days ∧ days < 2 ^ 41 := by
  obtain ⟨y, m, d, hvalid, rfl, hlo, hhi⟩ := h
  obtain ⟨hfirst, hlast⟩ := hvalid.year_span
  have hepoch : daysBeforeYear 1970 = 719162 := by decide
  rw [hepoch] at hfirst hlast
  unfold daysBeforeYear at hfirst hlast
  omega

theorem castI32_of_fits {x : Int} (hlo : -2 ^ 31 ≤ x) (hhi : x < 2 ^ 31) : castI32 x = x := by
  unfold castI32
  rw [Int.bmod_def]
  split <;> omega

/-- The division of the source, taken after its shift. -/
theorem shifted_era (z : Int) : (if 0 ≤ z then z else z - 146096).tdiv 146097 = z / 146097 := by
  rw [← era_eq z]
  split <;> rfl

/-- The date of a day whose year is an `i32`: the cut leaves it. -/
theorem civilFromDays_date {days y : Int} {m d : Nat} (hvalid : ValidDate y m d)
    (hcount : daysFromCivil y m d = days) (hlo : -2 ^ 31 ≤ y) (hhi : y < 2 ^ 31) :
    civilFromDays days = (y, m, d) := by
  obtain ⟨y', m', d', hvalid', hcount', heq⟩ := civilFromDays_spec days
  obtain ⟨rfl, rfl, rfl⟩ := date_eq_of_days hvalid hvalid' (hcount.trans hcount'.symm)
  rw [heq, castI32_of_fits hlo hhi]

/-- On a day whose year is an `i32` every check of `checkedCivil` passes. -/
theorem checkedCivil_eq {days : Int} (h : YearFits days) :
    checkedCivil days = some (civilFromDays days) := by
  have hbounds := h.bounds
  have hzero : daysFromCivilEpochToUnix = 719468 := rfl
  obtain ⟨z, hz⟩ : ∃ z, z = days + daysFromCivilEpochToUnix := ⟨_, rfl⟩
  obtain ⟨era, hera⟩ : ∃ era, era = z / 146097 := ⟨_, rfl⟩
  obtain ⟨doe, hdoe⟩ : ∃ doe, doe = castU32 (z - era * 146097) := ⟨_, rfl⟩
  obtain ⟨hday, hlt⟩ := dayOfEra z
  rw [← hera, ← hdoe] at hday hlt
  have hsum : days + daysFromCivilEpochToUnix = doe + era * 146097 := hz.symm.trans hday
  obtain ⟨yoe, hyoe⟩ :
      ∃ yoe, (doe - doe / 1460 + doe / 36524 - doe / 146096) / 365 = yoe := ⟨_, rfl⟩
  obtain ⟨doy, hdoy⟩ : ∃ doy, doe - (365 * yoe + yoe / 4 - yoe / 100) = doy := ⟨_, rfl⟩
  obtain ⟨mp, hmp⟩ : ∃ mp, (5 * doy + 2) / 153 = mp := ⟨_, rfl⟩
  obtain ⟨hyear, hbefore, hlast⟩ := eraYear_range hlt hyoe
  rw [hdoy] at hlast
  obtain ⟨hmonth, hfirst, -, -⟩ := monthOfYear hlast hmp
  obtain ⟨hvalid, hcount⟩ := civil_date hsum hlt hyoe hdoy hmp
  -- the year is the date's own, and so an `i32`
  obtain ⟨y, m, d, hvalid', hcount', hlo, hhi⟩ := h
  obtain ⟨rfl, -, -⟩ := date_eq_of_days hvalid' hvalid (hcount'.trans hcount.symm)
  rw [civilFromDays_date hvalid hcount hlo hhi]
  unfold checkedCivil
  rw [← hz, bind_inI64 (by omega), bind_inI64 (by omega), shifted_era, ← hera,
    bind_inI64 (by omega), bind_inI64 (by omega), bind_inU32 (n := doe) (by omega) (by omega),
    bind_inU32 (n := doe - doe / 1460) (by omega) (by omega),
    bind_inU32 (n := doe - doe / 1460 + doe / 36524) (by omega) (by omega),
    bind_inU32 (n := doe - doe / 1460 + doe / 36524 - doe / 146096) (by omega) (by omega),
    hyoe, bind_inI64 (by omega), bind_inI64 (by omega),
    bind_inU32 (n := 365 * yoe) (by omega) (by omega),
    bind_inU32 (n := 365 * yoe + yoe / 4) (by omega) (by omega),
    bind_inU32 (n := 365 * yoe + yoe / 4 - yoe / 100) (by omega) (by omega),
    bind_inU32 (n := doy) (by omega) (by omega),
    bind_inU32 (n := 5 * doy) (by omega) (by omega),
    bind_inU32 (n := 5 * doy + 2) (by omega) (by omega), hmp,
    bind_inU32 (n := 153 * mp) (by omega) (by omega),
    bind_inU32 (n := 153 * mp + 2) (by omega) (by omega),
    bind_inU32 (n := doy - (153 * mp + 2) / 5) (by omega) (by omega),
    bind_inU32 (n := doy - (153 * mp + 2) / 5 + 1) (by omega) (by omega),
    bind_inU32 (n := if mp < 10 then mp + 3 else mp - 9) (by split <;> omega) (by split <;> omega),
    bind_inI64 (by split <;> omega), bind_inI32 ⟨hlo, hhi⟩]
  rfl

/-- `civil_from_days` on every day whose year is an `i32`: a date of the calendar, the one whose
day count it was given, reached with no intermediate value wrapping; the next day's is the next
date. -/
theorem civil_from_days_calendar (days : Int) (h : YearFits days) :
    ∃ y m d, civilFromDays days = (y, m, d) ∧ ValidDate y m d ∧ daysFromCivil y m d = days ∧
      checkedCivil days = some (y, m, d) ∧
      (YearFits (days + 1) → civilFromDays (days + 1) = nextDate y m d) := by
  obtain ⟨y, m, d, hvalid, hcount, hlo, hhi⟩ := id h
  have hdate := civilFromDays_date hvalid hcount hlo hhi
  refine ⟨y, m, d, hdate, hvalid, hcount, ?_, ?_⟩
  · rw [checkedCivil_eq h, hdate]
  · intro ⟨y', m', d', hvalid', hcount', hlo', hhi'⟩
    have hnext : daysFromCivil y' m' d'
        = daysFromCivil (nextDate y m d).1 (nextDate y m d).2.1 (nextDate y m d).2.2 := by
      rw [nextDate_days hvalid, hcount, hcount']
    obtain ⟨hy, hm, hd⟩ := date_eq_of_days hvalid' (nextDate_valid hvalid) hnext
    rw [civilFromDays_date hvalid' hcount' hlo' hhi', hy, hm, hd]

/-- The leap day of 2000, and the last day of the year before 0001. -/
theorem civil_from_days_leap :
    (∃ y m d, civilFromDays 11016 = (y, m, d) ∧ ValidDate y m d ∧ daysFromCivil y m d = 11016 ∧
      checkedCivil 11016 = some (y, m, d) ∧
      (YearFits (11016 + 1) → civilFromDays (11016 + 1) = nextDate y m d)) ∧
    ∃ y m d, civilFromDays (-719163) = (y, m, d) ∧ ValidDate y m d ∧
      daysFromCivil y m d = -719163 ∧ checkedCivil (-719163) = some (y, m, d) ∧
      (YearFits (-719163 + 1) → civilFromDays (-719163 + 1) = nextDate y m d) := by
  refine ⟨civil_from_days_calendar 11016 ?_, civil_from_days_calendar (-719163) ?_⟩
  · exact ⟨2000, 2, 29, ⟨by decide, by decide, by decide, by decide⟩, by decide, by decide,
      by decide⟩
  · exact ⟨0, 12, 31, ⟨by decide, by decide, by decide, by decide⟩, by decide, by decide,
      by decide⟩

end Ticklog
