import Mathlib.Logic.Function.Iterate
import Mathlib.Tactic.IntervalCases
import Mathlib.Algebra.Order.Group.Int

/-!
# Gregorian — the calendar, day by day

The Gregorian calendar in its own terms: when a year is a leap year, how long the months are, and
which day follows a day (`Date.next`).  `dayNumber` counts the days in the textbook way, by whole
years, then whole months.  It grows by one from each day to the next (`dayNumber_next`) and tells
valid dates apart (`dayNumber_inj`), so a day count that agrees with it is a correct one.
-/

namespace Gregorian

@[ext] structure Date where
  year : Int
  month : Nat
  day : Nat
  deriving DecidableEq, Repr

def IsLeap (y : Int) : Prop :=
  y % 4 = 0 ∧ (y % 100 ≠ 0 ∨ y % 400 = 0)

instance instDecidableIsLeap (y : Int) : Decidable (IsLeap y) :=
  inferInstanceAs (Decidable (_ ∧ _))

def yearLength (y : Int) : Nat :=
  if IsLeap y then 366 else 365

def monthLength (y : Int) (m : Nat) : Nat :=
  if m = 2 then
    if IsLeap y then 29 else 28
  else if m = 4 ∨ m = 6 ∨ m = 9 ∨ m = 11 then
    30
  else
    31

namespace Date

structure Valid (d : Date) : Prop where
  month_pos : 1 ≤ d.month
  month_le : d.month ≤ 12
  day_pos : 1 ≤ d.day
  day_le : d.day ≤ monthLength d.year d.month

def newYear (y : Int) : Date :=
  { year := y, month := 1, day := 1 }

/-- The following day. -/
def next (d : Date) : Date :=
  if d.day < monthLength d.year d.month then
    { d with day := d.day + 1 }
  else if d.month < 12 then
    { d with month := d.month + 1, day := 1 }
  else
    newYear (d.year + 1)

end Date

/-! ## Counting days -/

/-- The days of the years before `y`, from year one on. -/
def daysBeforeYear (y : Int) : Int :=
  365 * (y - 1) + (y - 1) / 4 - (y - 1) / 100 + (y - 1) / 400

/-- The days of the months before `m`. -/
def daysBeforeMonth (y : Int) : Nat → Nat
  | 0 => 0
  | 1 => 0
  | m + 2 => daysBeforeMonth y (m + 1) + monthLength y (m + 1)

def dayNumber (d : Date) : Int :=
  daysBeforeYear d.year + daysBeforeMonth d.year d.month + d.day

theorem monthLength_pos (y : Int) (m : Nat) : 1 ≤ monthLength y m := by
  unfold monthLength
  split_ifs <;> omega

theorem daysBeforeYear_succ (y : Int) :
    daysBeforeYear (y + 1) = daysBeforeYear y + yearLength y := by
  have hsub : y + 1 - 1 = y := Int.add_sub_cancel y 1
  rw [daysBeforeYear, daysBeforeYear, hsub]
  by_cases h : IsLeap y
  · rw [yearLength, if_pos h]
    unfold IsLeap at h
    omega
  · rw [yearLength, if_neg h]
    unfold IsLeap at h
    omega

theorem daysBeforeMonth_succ (y : Int) {m : Nat} (h : 1 ≤ m) :
    daysBeforeMonth y (m + 1) = daysBeforeMonth y m + monthLength y m := by
  obtain ⟨k, rfl⟩ := Nat.exists_eq_add_of_le' h
  rfl

/-- The twelve months make up the year. -/
theorem daysBeforeMonth_thirteen (y : Int) : daysBeforeMonth y 13 = yearLength y := by
  by_cases h : IsLeap y
  · simp [daysBeforeMonth, monthLength, yearLength, h]
  · simp [daysBeforeMonth, monthLength, yearLength, h]

theorem daysBeforeMonth_mono (y : Int) {m n : Nat} (hm : 1 ≤ m) (h : m ≤ n) :
    daysBeforeMonth y m ≤ daysBeforeMonth y n := by
  induction n, h using Nat.le_induction with
  | base => exact Nat.le_refl _
  | succ n hmn ih =>
      rw [daysBeforeMonth_succ y (by omega)]
      omega

/-- A day lies inside its year. -/
theorem dayNumber_bounds {d : Date} (h : d.Valid) :
    daysBeforeYear d.year < dayNumber d ∧ dayNumber d ≤ daysBeforeYear (d.year + 1) := by
  have hpos := h.day_pos
  have hday := h.day_le
  have hmonth : daysBeforeMonth d.year (d.month + 1) ≤ yearLength d.year := by
    rw [← daysBeforeMonth_thirteen]
    exact daysBeforeMonth_mono d.year (by omega) (by have := h.month_le; omega)
  rw [daysBeforeMonth_succ d.year h.month_pos] at hmonth
  rw [daysBeforeYear_succ]
  unfold dayNumber
  omega

theorem daysBeforeYear_mono {x y : Int} (h : x ≤ y) : daysBeforeYear x ≤ daysBeforeYear y := by
  unfold daysBeforeYear
  omega

namespace Date

theorem Valid.newYear (y : Int) : (newYear y).Valid :=
  ⟨le_rfl, Nat.le_add_left 1 11, le_rfl, monthLength_pos y 1⟩

theorem Valid.next {d : Date} (h : d.Valid) : d.next.Valid := by
  rcases h with ⟨hm, hm', hd, hd'⟩
  unfold Date.next
  split_ifs with hday hmonth
  · exact ⟨hm, hm', Nat.le_add_left 1 d.day, hday⟩
  · exact ⟨Nat.le_add_left 1 d.month, hmonth, le_rfl, monthLength_pos _ _⟩
  · exact Valid.newYear _

end Date

/-- The following day has the following number. -/
theorem dayNumber_next {d : Date} (h : d.Valid) : dayNumber d.next = dayNumber d + 1 := by
  have hlast := h.day_le
  unfold Date.next
  split_ifs with hday hmonth
  · simp only [dayNumber]
    omega
  · have hsucc := daysBeforeMonth_succ d.year h.month_pos
    simp only [dayNumber, hsucc]
    omega
  · -- the last day of the year
    have htwelve : d.month = 12 := by
      have := h.month_le
      omega
    have hsucc : daysBeforeMonth d.year 13 = daysBeforeMonth d.year 12 + monthLength d.year 12 := rfl
    have hyear := daysBeforeMonth_thirteen d.year
    have hnext := daysBeforeYear_succ d.year
    have hfirst : daysBeforeMonth (d.year + 1) 1 = 0 := rfl
    rw [htwelve] at hlast hday
    simp only [dayNumber, Date.newYear, hfirst, hnext, htwelve]
    omega

theorem dayNumber_iterate_next {d : Date} (h : d.Valid) (k : Nat) :
    (Date.next^[k] d).Valid ∧ dayNumber (Date.next^[k] d) = dayNumber d + k := by
  induction k with
  | zero => exact ⟨h, by simp⟩
  | succ k ih =>
      rw [Function.iterate_succ_apply']
      refine ⟨ih.1.next, ?_⟩
      rw [dayNumber_next ih.1, ih.2]
      omega

/-- The number of a day determines its year. -/
theorem year_eq_of_dayNumber {d : Date} (h : d.Valid) {y : Int} (hlt : daysBeforeYear y < dayNumber d)
    (hle : dayNumber d ≤ daysBeforeYear (y + 1)) : d.year = y := by
  rcases dayNumber_bounds h with ⟨hlt', hle'⟩
  rcases lt_trichotomy d.year y with hyear | hyear | hyear
  · have hmono := daysBeforeYear_mono (show d.year + 1 ≤ y by omega)
    omega
  · exact hyear
  · have hmono := daysBeforeYear_mono (show y + 1 ≤ d.year by omega)
    omega

theorem dayNumber_inj {d e : Date} (hd : d.Valid) (he : e.Valid)
    (h : dayNumber d = dayNumber e) : d = e := by
  have hbounds := dayNumber_bounds he
  rw [← h] at hbounds
  have hyear : d.year = e.year := year_eq_of_dayNumber hd hbounds.1 hbounds.2
  have hd' := hd.day_le
  have he' := he.day_le
  have hdpos := hd.day_pos
  have hepos := he.day_pos
  have hsum : daysBeforeMonth e.year d.month + d.day = daysBeforeMonth e.year e.month + e.day := by
    rw [dayNumber, dayNumber, hyear] at h
    omega
  rw [hyear] at hd'
  -- a later month starts after the earlier one has ended
  have hmonth : d.month = e.month := by
    rcases Nat.lt_trichotomy d.month e.month with hlt | heq | hlt
    · have hmono := daysBeforeMonth_mono e.year (by omega) hlt
      rw [Nat.succ_eq_add_one, daysBeforeMonth_succ e.year hd.month_pos] at hmono
      omega
    · exact heq
    · have hmono := daysBeforeMonth_mono e.year (by omega) hlt
      rw [Nat.succ_eq_add_one, daysBeforeMonth_succ e.year he.month_pos] at hmono
      omega
  have hday : d.day = e.day := by
    rw [hmonth] at hsum
    omega
  exact Date.ext hyear hmonth hday

/-! ## Years that start in March

Counted from the first of March, the leap day is the last day of the year, and the months before a
month have the same length in every year. -/

namespace Date

def marchYear (d : Date) : Int :=
  if d.month ≤ 2 then d.year - 1 else d.year

def marchMonth (d : Date) : Nat :=
  if d.month > 2 then d.month - 3 else d.month + 9

end Date

theorem daysBeforeMonth_eq_of_le_two (y : Int) {m : Nat} (hpos : 1 ≤ m) (h : m ≤ 2) :
    ((daysBeforeMonth y m : Nat) : Int) = ((153 * (m + 9) + 2) / 5 : Nat) - 306 := by
  have hm : m = 1 ∨ m = 2 := by omega
  rcases hm with rfl | rfl
  · rfl
  · rfl

theorem daysBeforeMonth_eq_of_two_lt (y : Int) {m : Nat} (hpos : 2 < m) (h : m ≤ 12) :
    daysBeforeMonth y m + 306 = yearLength y + (153 * (m - 3) + 2) / 5 := by
  by_cases hy : IsLeap y
  · interval_cases m <;> simp [daysBeforeMonth, monthLength, yearLength, hy]
  · interval_cases m <;> simp [daysBeforeMonth, monthLength, yearLength, hy]

theorem dayNumber_eq_march {d : Date} (hpos : 1 ≤ d.month) (hle : d.month ≤ 12) :
    dayNumber d = 365 * d.marchYear + d.marchYear / 4 - d.marchYear / 100 + d.marchYear / 400
      + ((153 * d.marchMonth + 2) / 5 : Nat) + d.day - 306 := by
  unfold dayNumber
  by_cases hm : d.month ≤ 2
  · have hmonth := daysBeforeMonth_eq_of_le_two d.year hpos hm
    rw [Date.marchYear, Date.marchMonth, if_pos hm, if_neg (by omega), hmonth, daysBeforeYear]
    omega
  · have hmonth := daysBeforeMonth_eq_of_two_lt d.year (by omega) hle
    have hyear := daysBeforeYear_succ d.year
    have hsucc : daysBeforeYear (d.year + 1) =
        365 * d.year + d.year / 4 - d.year / 100 + d.year / 400 := by
      rw [daysBeforeYear, Int.add_sub_cancel]
    rw [Date.marchYear, Date.marchMonth, if_neg hm, if_pos (by omega)]
    omega

end Gregorian
