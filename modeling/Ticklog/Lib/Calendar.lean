import Mathlib.Tactic.IntervalCases

/-!
# The proleptic Gregorian calendar

A date is a year, a month and a day; `daysFromCivil` counts the days from 1970-01-01 to it by
adding up years and months. Years of any sign follow the same leap rule. The count orders dates
as the calendar does (`dateLt_of_days`), so no two dates share one.
-/

namespace Ticklog.Lib

def isLeap (y : Int) : Prop := y % 4 = 0 ∧ (y % 100 ≠ 0 ∨ y % 400 = 0)

instance (y : Int) : Decidable (isLeap y) := inferInstanceAs (Decidable (_ ∧ _))

/-- The length of a month; there is no month 0. -/
def monthLength (y : Int) : Nat → Nat
  | 2 => if isLeap y then 29 else 28
  | 4 | 6 | 9 | 11 => 30
  | 0 => 0
  | _ => 31

/-- A date of the calendar. -/
structure ValidDate (y : Int) (m d : Nat) : Prop where
  month_pos : 1 ≤ m
  month_le : m ≤ 12
  day_pos : 1 ≤ d
  day_le : d ≤ monthLength y m

/-- The days from 0001-01-01 to the first day of the year. -/
def daysBeforeYear (y : Int) : Int :=
  365 * (y - 1) + (y - 1) / 4 - (y - 1) / 100 + (y - 1) / 400

/-- The days from the first day of the year to the first day of the month. -/
def daysBeforeMonth (y : Int) : Nat → Nat
  | 0 => 0
  | m + 1 => daysBeforeMonth y m + monthLength y m

/-- The days from 1970-01-01 to the date. -/
def daysFromCivil (y : Int) (m d : Nat) : Int :=
  daysBeforeYear y + (daysBeforeMonth y m + d : Nat) - 1 - daysBeforeYear 1970

theorem daysBeforeYear_succ (y : Int) :
    daysBeforeYear (y + 1) = daysBeforeYear y + if isLeap y then 366 else 365 := by
  unfold daysBeforeYear
  split
  next h =>
    unfold isLeap at h
    omega
  next h =>
    unfold isLeap at h
    omega

/-- The months of a year, by what the leap day adds. -/
theorem daysBeforeMonth_eq (y : Int) {m : Nat} (hlo : 1 ≤ m) (hhi : m ≤ 13) :
    daysBeforeMonth y m = (if m ≤ 2 then 31 * (m - 1) else
      (if isLeap y then 60 else 59) + (153 * (m - 3) + 2) / 5) := by
  interval_cases m <;> simp [daysBeforeMonth, monthLength] <;> split <;> rfl

theorem yearLength (y : Int) :
    daysBeforeYear (y + 1) = daysBeforeYear y + daysBeforeMonth y 13 := by
  rw [daysBeforeYear_succ, daysBeforeMonth_eq y (by omega) (by omega)]
  split <;> simp

theorem daysBeforeYear_mono {y y' : Int} (h : y ≤ y') : daysBeforeYear y ≤ daysBeforeYear y' := by
  unfold daysBeforeYear
  omega

theorem daysBeforeMonth_mono (y : Int) {m m' : Nat} (h : m ≤ m') :
    daysBeforeMonth y m ≤ daysBeforeMonth y m' := by
  induction m', h using Nat.le_induction with
  | base => exact Nat.le_refl _
  | succ m' _ ih => exact Nat.le_trans ih (Nat.le_add_right _ _)

theorem monthLength_le (y : Int) (m : Nat) : monthLength y m ≤ 31 := by
  unfold monthLength
  split
  · split <;> omega
  all_goals omega

/-- The year of a date, by its day count. -/
theorem ValidDate.year_span {y : Int} {m d : Nat} (h : ValidDate y m d) :
    daysBeforeYear y ≤ daysFromCivil y m d + daysBeforeYear 1970 ∧
      daysFromCivil y m d + daysBeforeYear 1970 < daysBeforeYear (y + 1) := by
  have hpos := h.day_pos
  have hmonth : daysBeforeMonth y m + d ≤ daysBeforeMonth y (m + 1) :=
    Nat.add_le_add_left h.day_le _
  have hend := daysBeforeMonth_mono y (show m + 1 ≤ 13 from Nat.succ_le_succ h.month_le)
  have hlen := yearLength y
  unfold daysFromCivil
  omega

/-- The dates' own order. -/
def DateLt (y : Int) (m d : Nat) (y' : Int) (m' d' : Nat) : Prop :=
  y < y' ∨ y = y' ∧ (m < m' ∨ m = m' ∧ d < d')

/-- A later date has a higher count. -/
theorem daysFromCivil_lt {y y' : Int} {m d m' d' : Nat} (h : ValidDate y m d)
    (h' : ValidDate y' m' d') (hlt : DateLt y m d y' m' d') :
    daysFromCivil y m d < daysFromCivil y' m' d' := by
  have hday := h'.day_pos
  have hmonth : daysBeforeMonth y m + d ≤ daysBeforeMonth y (m + 1) :=
    Nat.add_le_add_left h.day_le _
  rcases hlt with hyear | ⟨rfl, hmon | ⟨rfl, hd⟩⟩
  · have hspan := h.year_span.2
    have hspan' := h'.year_span.1
    have hnext := daysBeforeYear_mono (show y + 1 ≤ y' from hyear)
    omega
  · have hnext := daysBeforeMonth_mono y (show m + 1 ≤ m' from hmon)
    unfold daysFromCivil
    omega
  · unfold daysFromCivil
    omega

theorem dateLt_trichotomy (y : Int) (m d : Nat) (y' : Int) (m' d' : Nat) :
    DateLt y m d y' m' d' ∨ (y = y' ∧ m = m' ∧ d = d') ∨ DateLt y' m' d' y m d := by
  unfold DateLt
  omega

/-- A higher count is a later date. -/
theorem dateLt_of_days {y y' : Int} {m d m' d' : Nat} (h : ValidDate y m d)
    (h' : ValidDate y' m' d') (hlt : daysFromCivil y m d < daysFromCivil y' m' d') :
    DateLt y m d y' m' d' := by
  rcases dateLt_trichotomy y m d y' m' d' with hd | ⟨rfl, rfl, rfl⟩ | hd
  · exact hd
  · exact absurd hlt (lt_irrefl _)
  · have hback := daysFromCivil_lt h' h hd
    omega

/-- No two dates share a count. -/
theorem date_eq_of_days {y y' : Int} {m d m' d' : Nat} (h : ValidDate y m d)
    (h' : ValidDate y' m' d') (heq : daysFromCivil y m d = daysFromCivil y' m' d') :
    y = y' ∧ m = m' ∧ d = d' := by
  rcases dateLt_trichotomy y m d y' m' d' with hd | hsame | hd
  · have := daysFromCivil_lt h h' hd
    omega
  · exact hsame
  · have := daysFromCivil_lt h' h hd
    omega

/-- The date after a date. -/
def nextDate (y : Int) (m d : Nat) : Int × Nat × Nat :=
  if d < monthLength y m then (y, m, d + 1)
  else if m < 12 then (y, m + 1, 1)
  else (y + 1, 1, 1)

theorem monthLength_pos (y : Int) {m : Nat} (h : 1 ≤ m) : 1 ≤ monthLength y m := by
  unfold monthLength
  split
  · split <;> omega
  all_goals omega

theorem nextDate_valid {y : Int} {m d : Nat} (h : ValidDate y m d) :
    ValidDate (nextDate y m d).1 (nextDate y m d).2.1 (nextDate y m d).2.2 := by
  have hmonth := h.month_pos
  unfold nextDate
  split
  next hd => exact ⟨hmonth, h.month_le, Nat.succ_pos d, hd⟩
  next =>
    split
    next hm => exact ⟨Nat.succ_pos m, hm, Nat.le_refl 1, monthLength_pos y (Nat.succ_pos m)⟩
    next =>
      have hle : 1 ≤ 12 := by decide
      exact ⟨Nat.le_refl 1, hle, Nat.le_refl 1, monthLength_pos (y + 1) (Nat.le_refl 1)⟩

/-- It lies one day on. -/
theorem nextDate_days {y : Int} {m d : Nat} (h : ValidDate y m d) :
    daysFromCivil (nextDate y m d).1 (nextDate y m d).2.1 (nextDate y m d).2.2
      = daysFromCivil y m d + 1 := by
  have hday := h.day_le
  have hmonth : daysBeforeMonth y (m + 1) = daysBeforeMonth y m + monthLength y m := rfl
  unfold nextDate
  split
  next =>
    show daysFromCivil y m (d + 1) = _
    unfold daysFromCivil
    omega
  next hd =>
    split
    next =>
      show daysFromCivil y (m + 1) 1 = _
      unfold daysFromCivil
      omega
    next hm =>
      -- the last day of December: the year's months add up to the year
      have hlast : m = 12 := by
        have := h.month_le
        omega
      subst hlast
      have hyear := yearLength y
      rw [hmonth] at hyear
      have hfirst : daysBeforeMonth (y + 1) 1 = 0 := rfl
      show daysFromCivil (y + 1) 1 1 = _
      unfold daysFromCivil
      omega

/-- The first day of March 0000 lies 719468 days before the epoch. -/
example : daysFromCivil 0 3 1 = -719468 ∧ daysFromCivil 1970 1 1 = 0 ∧
    daysFromCivil 2000 2 29 = 11016 := by
  decide

end Ticklog.Lib
