import Mathlib.Tactic.IntervalCases
import DBTest.Library.Gregorian

/-!
# Civil — dates and serial days (`date.h`)

`year_month_day` stores a date field by field, `sys_days` as the number of days since 1970-01-01.
The two conversions count from the first of March, in eras of 400 years, with truncating divisions.
Both agree with the calendar: on the range of `year` they are inverse to each other
(`fromDays_toDays`, `toDays_fromDays`), and one day more is the following day (`fromDays_succ`).

`int` is `Int`: inside the range of `year` no value comes near its bounds.  `unsigned` is `Int` or
`Nat`; the one difference that could be negative, `doy` of a day zero, is cast back to `int` in the
source.
-/

namespace DBTest
namespace Date

open Gregorian

/-- `year_month_day`: a `short` and two `unsigned char`s. -/
@[ext] structure YearMonthDay where
  y : Int16
  m : UInt8
  d : UInt8
  deriving DecidableEq, Repr

/-- `year::is_leap`. -/
def isLeap (y : Int16) : Bool :=
  y.toInt.tmod 4 == 0 && (y.toInt.tmod 100 != 0 || y.toInt.tmod 400 == 0)

/-- `year::ok`. -/
def yearOk (y : Int16) : Bool :=
  y != Int16.minValue

/-- `month::ok`. -/
def monthOk (m : UInt8) : Bool :=
  1 ≤ m && m ≤ 12

/-- The table of `year_month_day_last::day`. -/
def lastDays : List UInt8 := [31, 28, 31, 30, 31, 30, 31, 31, 30, 31, 30, 31]

/-- `year_month_day_last::day`. -/
def lastDay (y : Int16) (m : UInt8) : UInt8 :=
  if (m != 2 || !isLeap y) && monthOk m then lastDays.getD (m.toNat - 1) 0 else 29

namespace YearMonthDay

def ok (ymd : YearMonthDay) : Bool :=
  if !(yearOk ymd.y && monthOk ymd.m) then
    false
  else
    1 ≤ ymd.d && ymd.d ≤ lastDay ymd.y ymd.m

def toDays (ymd : YearMonthDay) : Int :=
  let y : Int := ymd.y.toInt - (if ymd.m ≤ 2 then 1 else 0)
  let m : Int := ymd.m.toNat
  let d : Int := ymd.d.toNat
  let era := (if y ≥ 0 then y else y - 399).tdiv 400
  let yoe := y - era * 400
  let doy := (153 * (if m > 2 then m - 3 else m + 9) + 2) / 5 + d - 1
  let doe := yoe * 365 + yoe / 4 - yoe / 100 + doy
  era * 146097 + doe - 719468

def fromDays (dp : Int) : YearMonthDay :=
  let z := dp + 719468
  let era := (if z ≥ 0 then z else z - 146096).tdiv 146097
  let doe := (z - era * 146097).toNat
  let yoe := (doe - doe / 1460 + doe / 36524 - doe / 146096) / 365
  let y : Int := yoe + era * 400
  let doy := doe - (365 * yoe + yoe / 4 - yoe / 100)
  let mp := (5 * doy + 2) / 153
  let d := doy - (153 * mp + 2) / 5 + 1
  let m := if mp < 10 then mp + 3 else mp - 9
  -- `year{int}` keeps the low sixteen bits
  { y := Int16.ofInt (y + (if m ≤ 2 then 1 else 0)), m := UInt8.ofNat m, d := UInt8.ofNat d }

/-- The date that is stored. -/
def date (ymd : YearMonthDay) : Gregorian.Date :=
  { year := ymd.y.toInt, month := ymd.m.toNat, day := ymd.d.toNat }

end YearMonthDay

/-! ## The fields of a date -/

theorem tmod_eq_zero_iff (x n : Int) : x.tmod n = 0 ↔ x % n = 0 := by
  rw [← Int.dvd_iff_tmod_eq_zero, Int.dvd_iff_emod_eq_zero]

theorem isLeap_iff (y : Int16) : isLeap y = true ↔ IsLeap y.toInt := by
  simp [isLeap, IsLeap, tmod_eq_zero_iff]

theorem monthOk_iff (m : UInt8) : monthOk m = true ↔ 1 ≤ m.toNat ∧ m.toNat ≤ 12 := by
  simp [monthOk, UInt8.le_iff_toNat_le]

theorem toNat_lastDay (y : Int16) {m : UInt8} (h : monthOk m = true) :
    (lastDay y m).toNat = monthLength y.toInt m.toNat := by
  have hbounds := (monthOk_iff m).1 h
  have hm : m = UInt8.ofNat m.toNat := UInt8.ofNat_toNat.symm
  unfold lastDay
  rw [h, Bool.and_true]
  by_cases hy : IsLeap y.toInt
  · rw [(isLeap_iff y).2 hy]
    generalize m.toNat = k at hbounds hm
    rcases hbounds with ⟨hpos, hle⟩
    subst hm
    interval_cases k <;> simp [monthLength, hy, lastDays]
  · have hfalse : isLeap y = false := by
      rw [← Bool.not_eq_true, isLeap_iff]
      exact hy
    rw [hfalse]
    generalize m.toNat = k at hbounds hm
    rcases hbounds with ⟨hpos, hle⟩
    subst hm
    interval_cases k <;> simp [monthLength, hy, lastDays]

/-- `ok` accepts the dates of the calendar in the years the class can hold. -/
theorem YearMonthDay.ok_iff (ymd : YearMonthDay) :
    ymd.ok = true ↔ ymd.y ≠ Int16.minValue ∧ ymd.date.Valid := by
  unfold ok
  by_cases hm : monthOk ymd.m = true
  · have hbounds := (monthOk_iff _).1 hm
    have hlast := toNat_lastDay ymd.y hm
    rw [hm, Bool.and_true]
    simp only [yearOk, UInt8.le_iff_toNat_le, hlast]
    constructor
    · intro h
      simp at h
      exact ⟨h.1, hbounds.1, hbounds.2, h.2.1, h.2.2⟩
    · rintro ⟨hy, hvalid⟩
      have hpos := hvalid.day_pos
      have hle := hvalid.day_le
      simp only [date] at hpos hle
      simp [hy, hpos, hle]
  · constructor
    · intro h
      simp [hm] at h
    · rintro ⟨-, hvalid⟩
      exact absurd ((monthOk_iff _).2 ⟨hvalid.month_pos, hvalid.month_le⟩) hm

/-! ## From a date to its serial day -/

/-- A truncating division that is corrected for negative numbers rounds down. -/
theorem tdiv_eq_ediv (x : Int) {n k : Int} (hn : 0 < n) (hk : k = n - 1) :
    (if x ≥ 0 then x else x - k).tdiv n = x / n := by
  by_cases hx : x ≥ 0
  · rw [if_pos hx, Int.tdiv_eq_ediv_of_nonneg hx]
  · have hneg : x - k = -(k - x) := by omega
    rw [if_neg hx, hneg, Int.neg_tdiv, Int.tdiv_eq_ediv_of_nonneg (by omega)]
    have hq := Int.mul_ediv_add_emod (k - x) n
    have hr := Int.emod_nonneg (k - x) (show n ≠ 0 by omega)
    have hr' := Int.emod_lt_of_pos (k - x) hn
    symm
    rw [Int.ediv_eq_iff_of_pos hn, Int.neg_mul, Int.mul_comm]
    constructor <;> omega

namespace YearMonthDay

theorem marchYear_date (ymd : YearMonthDay) :
    ymd.date.marchYear = ymd.y.toInt - (if ymd.m ≤ 2 then 1 else 0) := by
  by_cases h : ymd.m.toNat ≤ 2
  · have h' : ymd.m ≤ 2 := h
    simp only [Gregorian.Date.marchYear, date, h, h', if_true]
  · have h' : ¬ ymd.m ≤ 2 := h
    simp only [Gregorian.Date.marchYear, date, h, h', if_false, Int.sub_zero]

theorem marchMonth_date (ymd : YearMonthDay) :
    (ymd.date.marchMonth : Int) =
      if (ymd.m.toNat : Int) > 2 then (ymd.m.toNat : Int) - 3 else (ymd.m.toNat : Int) + 9 := by
  by_cases h : ymd.m.toNat > 2
  · have h' : (ymd.m.toNat : Int) > 2 := by omega
    simp only [Gregorian.Date.marchMonth, date, h, h', if_true]
    omega
  · have h' : ¬ (ymd.m.toNat : Int) > 2 := by omega
    simp only [Gregorian.Date.marchMonth, date, h, h', if_false]
    omega

/-- The serial day of 1970-01-01 is zero, and its number in the calendar is 719163. -/
theorem toDays_eq {ymd : YearMonthDay} (h : monthOk ymd.m = true) :
    ymd.toDays = dayNumber ymd.date - 719163 := by
  rcases (monthOk_iff _).1 h with ⟨hpos, hle⟩
  have hmarch := dayNumber_eq_march (d := ymd.date) hpos hle
  have hday : ymd.date.day = ymd.d.toNat := rfl
  rw [hday] at hmarch
  simp only [toDays, ← marchYear_date, ← marchMonth_date]
  have hera : (if ymd.date.marchYear ≥ 0 then ymd.date.marchYear else
      ymd.date.marchYear - 399).tdiv 400 = ymd.date.marchYear / 400 :=
    tdiv_eq_ediv ymd.date.marchYear (by decide) rfl
  rw [hera]
  omega

end YearMonthDay

/-! ## From a serial day to its date -/

/-- The days before a year of an era, where years start in March. -/
def yearStart (yoe : Nat) : Nat :=
  365 * yoe + yoe / 4 - yoe / 100

/-- The year of the era that holds the day `doe`. -/
def yearOfEra (doe : Nat) : Nat :=
  (doe - doe / 1460 + doe / 36524 - doe / 146096) / 365

section Era

variable {q s e f yoe : Nat}

/-- In the day `1460 * q + s`, `q` counts groups of four years, up to one year at either end. -/
theorem era_cases (hs : s < 1460) (h : 1460 * q + s < 146097)
    (he : (1460 * q + s) / 36524 = e) (hf : (1460 * q + s) / 146096 = f)
    (hyoe : (1459 * q + s + e - f) / 365 = yoe) :
    (e = 0 ∨ e = 1 ∨ e = 2 ∨ e = 3 ∨ e = 4) ∧
      (yoe + 1 = 4 * q ∨ yoe = 4 * q ∨ yoe = 4 * q + 1 ∨ yoe = 4 * q + 2 ∨ yoe = 4 * q + 3) := by
  have he' : e = 0 ∨ e = 1 ∨ e = 2 ∨ e = 3 ∨ e = 4 := by omega
  exact ⟨he', by omega⟩

/-- The arithmetic of `yearOfEra_spec`, for the day `1460 * q + s`. -/
theorem yearStart_bounds (hs : s < 1460) (h : 1460 * q + s < 146097)
    (he : (1460 * q + s) / 36524 = e) (hf : (1460 * q + s) / 146096 = f)
    (hyoe : (1459 * q + s + e - f) / 365 = yoe) :
    yoe ≤ 399 ∧ yearStart yoe ≤ 1460 * q + s ∧ 1460 * q + s ≤ yearStart yoe + 365 := by
  unfold yearStart
  rcases era_cases hs h he hf hyoe with ⟨he', hc⟩
  rcases he' with rfl | rfl | rfl | rfl | rfl <;> rcases hc with hc | hc | hc | hc | hc <;> omega

/-- A year with 366 days ends with a leap day. -/
theorem isLeap_of_yearStart (hs : s < 1460) (h : 1460 * q + s < 146097)
    (he : (1460 * q + s) / 36524 = e) (hf : (1460 * q + s) / 146096 = f)
    (hyoe : (1459 * q + s + e - f) / 365 = yoe) (hdoe : 1460 * q + s = yearStart yoe + 365) :
    (yoe + 1) % 4 = 0 ∧ ((yoe + 1) % 100 ≠ 0 ∨ (yoe + 1) % 400 = 0) := by
  unfold yearStart at hdoe
  have hfour : (yoe + 1) % 4 = 0 := by
    rcases era_cases hs h he hf hyoe with ⟨he', hc⟩
    rcases he' with rfl | rfl | rfl | rfl | rfl <;> rcases hc with hc | hc | hc | hc | hc <;> omega
  refine ⟨hfour, ?_⟩
  by_contra hcentury
  have hc : yoe = 99 ∨ yoe = 199 ∨ yoe = 299 := by omega
  rcases hc with rfl | rfl | rfl <;> omega

end Era

theorem yearOfEra_spec {doe : Nat} (h : doe < 146097) :
    yearOfEra doe ≤ 399 ∧ yearStart (yearOfEra doe) ≤ doe ∧
      doe ≤ yearStart (yearOfEra doe) + 365 ∧
      (doe = yearStart (yearOfEra doe) + 365 → IsLeap (yearOfEra doe + 1)) := by
  obtain ⟨q, s, hs, rfl⟩ : ∃ q s, s < 1460 ∧ doe = 1460 * q + s :=
    ⟨doe / 1460, doe % 1460, Nat.mod_lt _ (by decide), (Nat.div_add_mod doe 1460).symm⟩
  have hq : (1460 * q + s) / 1460 = q := by omega
  have hsub : 1460 * q + s - q = 1459 * q + s := by omega
  unfold yearOfEra
  rw [hq, hsub]
  rcases yearStart_bounds hs h rfl rfl rfl with ⟨hyoe, hstart, hend⟩
  refine ⟨hyoe, hstart, hend, ?_⟩
  intro hdoe
  have hleap := isLeap_of_yearStart hs h rfl rfl rfl hdoe
  unfold IsLeap
  omega

/-- The date on day `doy` of a year that starts in March. -/
def marchDate (y : Int) (doy : Nat) : Gregorian.Date :=
  let mp := (5 * doy + 2) / 153
  let m := if mp < 10 then mp + 3 else mp - 9
  { year := y + (if m ≤ 2 then 1 else 0), month := m, day := doy - (153 * mp + 2) / 5 + 1 }

theorem marchDate_spec {y : Int} {doy : Nat} (h : doy ≤ 365) (hleap : doy = 365 → IsLeap (y + 1)) :
    (marchDate y doy).Valid ∧ (marchDate y doy).marchYear = y ∧
      (153 * (marchDate y doy).marchMonth + 2) / 5 + (marchDate y doy).day = doy + 1 := by
  have hmp : (5 * doy + 2) / 153 ≤ 11 := by omega
  generalize hk : (5 * doy + 2) / 153 = mp at hmp
  unfold marchDate
  rw [hk]
  by_cases hlast : doy = 365
  · subst hlast
    obtain rfl : mp = 11 := by omega
    have hy := hleap rfl
    refine ⟨⟨?_, ?_, ?_, ?_⟩, ?_, ?_⟩ <;>
      simp [Gregorian.Date.marchYear, Gregorian.Date.marchMonth, monthLength, hy]
  · interval_cases mp <;> refine ⟨⟨?_, ?_, ?_, ?_⟩, ?_, ?_⟩ <;>
      simp [Gregorian.Date.marchYear, Gregorian.Date.marchMonth, monthLength] <;>
      first | omega | split_ifs <;> omega

/-- The date that `fromDays` computes before it stores the fields. -/
def civil (dp : Int) : Gregorian.Date :=
  let z := dp + 719468
  let doe := (z % 146097).toNat
  marchDate (yearOfEra doe + z / 146097 * 400) (doe - yearStart (yearOfEra doe))

/-- It is the date with that number, and there is no other. -/
theorem civil_spec (dp : Int) : (civil dp).Valid ∧ dayNumber (civil dp) = dp + 719163 := by
  have hera := Int.mul_ediv_add_emod (dp + 719468) 146097
  unfold civil
  simp only
  generalize (dp + 719468) / 146097 = era at hera
  have hpos : 0 ≤ (dp + 719468) % 146097 := Int.emod_nonneg _ (by decide)
  have hlt : (dp + 719468) % 146097 < 146097 := Int.emod_lt_of_pos _ (by decide)
  obtain ⟨doe, hdoe⟩ := Int.eq_ofNat_of_zero_le hpos
  rw [hdoe] at hera hlt ⊢
  rw [Int.toNat_natCast]
  rcases yearOfEra_spec (show doe < 146097 by omega) with ⟨hyoe, hstart, hend, hleap⟩
  generalize yearOfEra doe = yoe at hyoe hstart hend hleap
  have hspec : doe - yearStart yoe = 365 → IsLeap (yoe + era * 400 + 1) := by
    intro h
    have hleap' := hleap (by omega)
    unfold IsLeap at hleap' ⊢
    omega
  rcases marchDate_spec (show doe - yearStart yoe ≤ 365 by omega) hspec with ⟨hvalid, hyear, hday⟩
  refine ⟨hvalid, ?_⟩
  rw [dayNumber_eq_march hvalid.month_pos hvalid.month_le, hyear]
  have hdays : yearStart yoe = 365 * yoe + yoe / 4 - yoe / 100 := rfl
  have hfour : (yoe + era * 400) / 4 = yoe / 4 + era * 100 := by omega
  have hcentury : (yoe + era * 400) / 100 = yoe / 100 + era * 4 := by omega
  have hera' : (yoe + era * 400) / 400 = era := by omega
  rw [hfour, hcentury, hera']
  omega

namespace YearMonthDay

theorem date_fromDays (dp : Int) (h : -32768 ≤ (civil dp).year ∧ (civil dp).year < 32768) :
    (fromDays dp).date = civil dp := by
  have hvalid := (civil_spec dp).1
  have hmonth := hvalid.month_le
  have hday : (civil dp).day ≤ 31 := by
    have hle := hvalid.day_le
    unfold monthLength at hle
    split_ifs at hle <;> omega
  have hera : (if dp + 719468 ≥ 0 then dp + 719468 else dp + 719468 - 146096).tdiv 146097 =
      (dp + 719468) / 146097 :=
    tdiv_eq_ediv _ (by decide) rfl
  have hdoe : dp + 719468 - (dp + 719468) / 146097 * 146097 = (dp + 719468) % 146097 := by omega
  unfold fromDays
  simp only [hera, hdoe, date]
  refine Gregorian.Date.ext ?_ ?_ ?_
  · exact Int16.toInt_ofInt_of_le h.1 h.2
  · exact UInt8.toNat_ofNat_of_lt' (show (civil dp).month < 256 by omega)
  · exact UInt8.toNat_ofNat_of_lt' (show (civil dp).day < 256 by omega)

/-- The serial days whose year fits the class and is not the one value that is no year. -/
def InRange (dp : Int) : Prop :=
  -12687428 ≤ dp ∧ dp ≤ 11248737

instance instDecidableInRange (dp : Int) : Decidable (InRange dp) :=
  inferInstanceAs (Decidable (_ ∧ _))

theorem inRange_iff (dp : Int) : InRange dp ↔ -32767 ≤ (civil dp).year ∧ (civil dp).year ≤ 32767 := by
  rcases civil_spec dp with ⟨hvalid, hnumber⟩
  rcases dayNumber_bounds hvalid with ⟨hlt, hle⟩
  unfold daysBeforeYear at hlt hle
  unfold InRange
  omega

/-- Inside the range, `from_days` gives a date the class accepts: the one with that number. -/
theorem fromDays_spec {dp : Int} (h : InRange dp) :
    (fromDays dp).ok = true ∧ dayNumber (fromDays dp).date = dp + 719163 := by
  have hyear := (inRange_iff dp).1 h
  have hdate := date_fromDays dp (by omega)
  rcases civil_spec dp with ⟨hvalid, hnumber⟩
  rw [ok_iff, hdate]
  refine ⟨⟨?_, hvalid⟩, hnumber⟩
  intro hmin
  have htoInt : (fromDays dp).y.toInt = (civil dp).year := congrArg Gregorian.Date.year hdate
  rw [hmin, Int16.toInt_minValue] at htoInt
  omega

theorem fromDays_toDays {ymd : YearMonthDay} (h : ymd.ok = true) :
    InRange ymd.toDays ∧ fromDays ymd.toDays = ymd := by
  rcases (ok_iff ymd).1 h with ⟨hy, hvalid⟩
  have hmonth : monthOk ymd.m = true := (monthOk_iff _).2 ⟨hvalid.month_pos, hvalid.month_le⟩
  rcases civil_spec ymd.toDays with ⟨hvalid', hnumber⟩
  rw [toDays_eq hmonth, Int.sub_add_cancel, ← toDays_eq hmonth] at hnumber
  have hcivil : civil ymd.toDays = ymd.date := dayNumber_inj hvalid' hvalid hnumber
  have hlo : ymd.y.toInt ≠ -32768 := by
    intro hmin
    exact hy (Int16.toInt_inj.1 hmin)
  have hlo' := Int16.le_toInt ymd.y
  have hhi := Int16.toInt_lt ymd.y
  have hyear : (civil ymd.toDays).year = ymd.y.toInt := congrArg Gregorian.Date.year hcivil
  have hrange : InRange ymd.toDays := by
    rw [inRange_iff, hyear]
    omega
  refine ⟨hrange, ?_⟩
  have hdate := date_fromDays ymd.toDays (by omega)
  rw [hcivil] at hdate
  simp only [date, Gregorian.Date.mk.injEq] at hdate
  exact YearMonthDay.ext (Int16.toInt_inj.1 hdate.1) (UInt8.toNat_inj.1 hdate.2.1)
    (UInt8.toNat_inj.1 hdate.2.2)

theorem toDays_fromDays {dp : Int} (h : InRange dp) : (fromDays dp).toDays = dp := by
  rcases fromDays_spec h with ⟨hok, hnumber⟩
  have hvalid := ((ok_iff _).1 hok).2
  rw [toDays_eq ((monthOk_iff _).2 ⟨hvalid.month_pos, hvalid.month_le⟩), hnumber,
    Int.add_sub_cancel]

/-- The serial days and the dates the class accepts correspond: the two conversions are inverse to
each other, and `k` days later is `k` times the following day of the calendar. -/
theorem serial_days_are_the_calendar :
    (∀ ymd : YearMonthDay, ymd.ok = true → InRange ymd.toDays ∧ fromDays ymd.toDays = ymd) ∧
      ∀ dp : Int, InRange dp → (fromDays dp).ok = true ∧ (fromDays dp).toDays = dp ∧
        ∀ k : Nat, InRange (dp + k) →
          (fromDays (dp + k)).date = Gregorian.Date.next^[k] (fromDays dp).date := by
  refine ⟨fun ymd h => fromDays_toDays h, ?_⟩
  intro dp h
  rcases fromDays_spec h with ⟨hok, hnumber⟩
  refine ⟨hok, toDays_fromDays h, ?_⟩
  intro k hk
  rcases fromDays_spec hk with ⟨hok', hnumber'⟩
  have hvalid := ((ok_iff _).1 hok).2
  have hvalid' := ((ok_iff _).1 hok').2
  rcases dayNumber_iterate_next hvalid k with ⟨hnext, hcount⟩
  refine dayNumber_inj hvalid' hnext ?_
  rw [hnumber', hcount, hnumber]
  omega

theorem serial_days_are_the_calendar_leap_day :
    fromDays (YearMonthDay.mk 2024 2 29).toDays = ⟨2024, 2, 29⟩ ∧
      (fromDays (19781 + (366 : Nat))).date = Gregorian.Date.next^[366] (fromDays 19781).date :=
  ⟨(serial_days_are_the_calendar.1 ⟨2024, 2, 29⟩ (by decide)).2,
    (serial_days_are_the_calendar.2 19781 (by decide)).2.2 366 (by decide)⟩

end YearMonthDay

end Date
end DBTest
