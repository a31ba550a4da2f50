import CalmTrading.HistoricalData
import CalmTrading.Lib.Gregorian

namespace CalmTrading.Dates

open Lib Lib.Gregorian HistoricalData

/-- The number of a year is kept in a `short`. -/
structure YearMonthDay where
  year : Int16
  month : Nat
  day : Nat
  deriving DecidableEq

def isLeap (y : Int) : Bool := y.tmod 4 = 0 && (y.tmod 100 ≠ 0 || y.tmod 400 = 0)

/-- The day of `year_month_day_last`. -/
def lastDay (y : Int) (m : Nat) : Nat :=
  if m ≠ 2 ∨ isLeap y = false then
    match m with
    | 1 | 3 | 5 | 7 | 8 | 10 | 12 => 31
    | 4 | 6 | 9 | 11 => 30
    | 2 => 28
    | _ => 29
  else 29

def yearOk (y : Int16) : Bool := y ≠ .minValue

namespace YearMonthDay

def ok (ymd : YearMonthDay) : Bool :=
  yearOk ymd.year && (1 ≤ ymd.month && ymd.month ≤ 12) &&
    (1 ≤ ymd.day && ymd.day ≤ lastDay ymd.year.toInt ymd.month)

def toDays (ymd : YearMonthDay) : Int :=
  let y := ymd.year.toInt - if ymd.month ≤ 2 then 1 else 0
  let m := ymd.month
  let d := ymd.day
  let era := (if y ≥ 0 then y else y - 399).tdiv 400
  let yoe := (y - era * 400).toNat
  let doy := (153 * (if m > 2 then m - 3 else m + 9) + 2) / 5 + d - 1
  let doe := yoe * 365 + yoe / 4 - yoe / 100 + doy
  era * 146097 + doe - 719468

def fromDays (dp : Int) : YearMonthDay :=
  let z := dp + 719468
  let era := (if z ≥ 0 then z else z - 146096).tdiv 146097
  let doe := (z - era * 146097).toNat
  let yoe := (doe - doe / 1460 + doe / 36524 - doe / 146096) / 365
  let y := yoe + era * 400
  let doy := doe - (365 * yoe + yoe / 4 - yoe / 100)
  let mp := (5 * doy + 2) / 153
  let d := doy - (153 * mp + 2) / 5 + 1
  let m := if mp < 10 then mp + 3 else mp - 9
  ⟨.ofInt (y + if m ≤ 2 then 1 else 0), m, d⟩

end YearMonthDay

open YearMonthDay

theorem isLeap_eq_true {y : Int} : isLeap y = true ↔ IsLeap y := by
  have htmod : ∀ n : Int, y.tmod n = 0 ↔ y % n = 0 := fun n =>
    Int.dvd_iff_tmod_eq_zero.symm.trans Int.dvd_iff_emod_eq_zero
  simp only [isLeap, IsLeap, Bool.and_eq_true, Bool.or_eq_true, decide_eq_true_eq, ne_eq, htmod]

theorem lastDay_eq {y : Int} {m : Nat} (hm : 1 ≤ m ∧ m ≤ 12) : lastDay y m = monthLength y m := by
  have hleap : isLeap y = false ↔ ¬ IsLeap y := by
    rw [← isLeap_eq_true, Bool.not_eq_true]
  obtain ⟨hlow, hhigh⟩ := hm
  simp only [lastDay, hleap]
  interval_cases m <;> simp [monthLength]

/-- Rounding towards zero, of a number moved down if it is negative, is floor
division. -/
theorem era_eq (z : Int) {b c : Int} (hb : 0 < b) (hc : c = b - 1) :
    (if z ≥ 0 then z else z - c).tdiv b = z / b := by
  subst hc
  split
  · next hz => exact Int.tdiv_eq_ediv_of_nonneg hz
  · next hz =>
    have hsum := Int.emod_add_mul_ediv z b
    have hpos := Int.emod_nonneg z hb.ne'
    have hlt := Int.emod_lt_of_pos z hb
    have hneg : -(z - (b - 1)) = (b - 1 - z % b) + b * -(z / b) := by
      rw [mul_neg]
      omega
    have hzero : (b - 1 - z % b) / b = 0 := Int.ediv_eq_zero_of_lt (by omega) (by omega)
    calc (z - (b - 1)).tdiv b
        = -(-(z - (b - 1))).tdiv b := by rw [Int.neg_tdiv, neg_neg]
      _ = -(-(z - (b - 1)) / b) := by rw [Int.tdiv_eq_ediv_of_nonneg (by omega)]
      _ = z / b := by rw [hneg, Int.add_mul_ediv_left _ _ hb.ne', hzero]; omega

/-- The date that is written. -/
def YearMonthDay.date (ymd : YearMonthDay) (h : ymd.ok = true) : Date where
  year := ymd.year.toInt
  month := ymd.month
  day := ymd.day
  month_range := by
    simp only [YearMonthDay.ok, Bool.and_eq_true, decide_eq_true_eq] at h
    exact h.1.2
  day_range := by
    simp only [YearMonthDay.ok, Bool.and_eq_true, decide_eq_true_eq] at h
    rw [← lastDay_eq h.1.2]
    exact h.2

@[simp] theorem date_year {ymd : YearMonthDay} (h : ymd.ok = true) :
    (ymd.date h).year = ymd.year.toInt := rfl

@[simp] theorem date_month {ymd : YearMonthDay} (h : ymd.ok = true) :
    (ymd.date h).month = ymd.month := rfl

@[simp] theorem date_day {ymd : YearMonthDay} (h : ymd.ok = true) :
    (ymd.date h).day = ymd.day := rfl

def ofDate (d : Date) : YearMonthDay := ⟨.ofInt d.year, d.month, d.day⟩

theorem era_days (y : Int) (doy : Nat) :
    y / 400 * 146097 + (((y % 400).toNat * 365 + (y % 400).toNat / 4 - (y % 400).toNat / 100 +
      doy : Nat) : Int) = 365 * y + y / 4 - y / 100 + y / 400 + doy := by
  obtain ⟨e, k, hk, rfl⟩ : ∃ e k : Int, (0 ≤ k ∧ k < 400) ∧ y = 400 * e + k :=
    ⟨y / 400, y % 400, by omega, by omega⟩
  have hdiv : (400 * e + k) / 400 = e := by omega
  have hmod : (400 * e + k) % 400 = k := by omega
  rw [hdiv, hmod]
  omega

theorem toDays_eq {ymd : YearMonthDay} (h : ymd.ok = true) :
    ymd.toDays = (ymd.date h).dayNumber := by
  have hday := (ymd.date h).day_range.1
  have hy : (ymd.year.toInt - if ymd.month ≤ 2 then 1 else 0) = (ymd.date h).marchYear := by
    rw [Date.marchYear, date_year, date_month]
    split <;> omega
  have hdoy : (153 * (if ymd.month > 2 then ymd.month - 3 else ymd.month + 9) + 2) / 5 + ymd.day -
      1 = (ymd.date h).marchDay := by
    rw [date_day] at hday
    rw [Date.marchDay, Date.marchMonth, date_month, date_day]
    split <;> split <;> omega
  have hmod : ∀ y : Int, y - y / 400 * 400 = y % 400 := fun y => by omega
  rw [YearMonthDay.toDays, hy, era_eq _ (by decide) (by decide), hdoy, hmod, era_days]
  rfl

theorem yearOfEra {doe c q r doy : Nat} (hc : c < 4) (hq : q < 25) (hr : r < 4) (hdoy : doy ≤ 365)
    (hleap : doy = 365 → r = 3 ∧ (q ≠ 24 ∨ c = 3))
    (hdoe : doe = c * 36524 + q * 1461 + r * 365 + doy) :
    (doe - doe / 1460 + doe / 36524 - doe / 146096) / 365 = 100 * c + 4 * q + r := by
  have hyears : doe / 1460 = 25 * c + q ∧ doy ≤ 364 ∨ doe / 1460 = 25 * c + q + 1 ∧ 1 ≤ doy := by
    interval_cases c <;> interval_cases r <;> omega
  have hcenturies : doe / 36524 = c ∧ doe / 146096 = 0 ∨
      doe / 36524 = c + 1 ∧ doe / 146096 = 1 ∧ doy = 365 := by omega
  generalize doe / 1460 = years at hyears ⊢
  generalize doe / 36524 = centuries at hcenturies ⊢
  generalize doe / 146096 = last at hcenturies ⊢
  clear hleap
  rw [Nat.div_eq_iff (by decide)]
  omega

theorem fromDays_dayNumber (d : Date) : fromDays d.dayNumber = ofDate d := by
  obtain ⟨⟨hdoy, hleap⟩, hmonth, hday⟩ := d.marchDay_spec
  have hz : d.dayNumber + 719468 = d.marchYear / 400 * 146097 +
      (((d.marchYear % 400).toNat * 365 + (d.marchYear % 400).toNat / 4 -
        (d.marchYear % 400).toNat / 100 + d.marchDay : Nat) : Int) := by
    rw [era_days, Date.dayNumber, sub_add_cancel]
  have hy : d.marchYear = 400 * (d.marchYear / 400) + (d.marchYear % 400).toNat := by omega
  have hk : (d.marchYear % 400).toNat < 400 := by omega
  generalize d.marchYear / 400 = e at hz hy
  generalize (d.marchYear % 400).toNat = k at hz hy hk
  generalize hdoe : k * 365 + k / 4 - k / 100 + d.marchDay = doe at hz
  have hyoe : (doe - doe / 1460 + doe / 36524 - doe / 146096) / 365 = k := by
    obtain ⟨c, q, r, hc, hq, hr, rfl⟩ :
        ∃ c q r, c < 4 ∧ q < 25 ∧ r < 4 ∧ k = 100 * c + 4 * q + r :=
      ⟨k / 100, k % 100 / 4, k % 4, by omega, by omega, by omega, by omega⟩
    have hlast : d.marchDay = 365 → r = 3 ∧ (q ≠ 24 ∨ c = 3) := by
      intro hfull
      have hl := hleap hfull
      rw [IsLeap, hy] at hl
      omega
    have hyears : (100 * c + 4 * q + r) / 4 = 25 * c + q := by omega
    have hcenturies : (100 * c + 4 * q + r) / 100 = c := by omega
    rw [hyears, hcenturies] at hdoe
    exact yearOfEra hc hq hr hdoy hlast (by omega)
  have hsmall : doe < 146097 := by omega
  have hera : (d.dayNumber + 719468) / 146097 = e := by omega
  have hrest : (d.dayNumber + 719468 - e * 146097).toNat = doe := by omega
  have hrestDay : doe - (365 * k + k / 4 - k / 100) = d.marchDay := by omega
  have hm : (if d.marchMonth < 10 then d.marchMonth + 3 else d.marchMonth - 9) = d.month := by
    have hrange := d.month_range
    rw [Date.marchMonth]
    split <;> split <;> omega
  have hyear : (k : Int) + e * 400 + (if d.month ≤ 2 then 1 else 0) = d.year := by
    rw [Date.marchYear] at hy
    split at hy <;> simp_all <;> omega
  rw [YearMonthDay.fromDays, era_eq _ (by decide) (by decide), hera, hrest, hyoe, hrestDay, hmonth,
    hday, hm, hyear]
  rfl

theorem ofDate_date {ymd : YearMonthDay} (h : ymd.ok = true) : ofDate (ymd.date h) = ymd := by
  rw [ofDate, date_year, Int16.ofInt_toInt]
  rfl

theorem toInt_ofDate {d : Date} (hlow : -32768 < d.year) (hhigh : d.year < 32768) :
    (ofDate d).year.toInt = d.year := by
  apply Int16.toInt_ofInt_of_le <;> omega

theorem ofDate_ok {d : Date} (hlow : -32768 < d.year) (hhigh : d.year < 32768) :
    (ofDate d).ok = true := by
  have hyear := toInt_ofDate hlow hhigh
  have hmin : (ofDate d).year ≠ .minValue := by
    intro hmin
    rw [hmin] at hyear
    have hvalue : Int16.minValue.toInt = -32768 := by decide
    omega
  have hlast : lastDay (ofDate d).year.toInt (ofDate d).month = monthLength d.year d.month := by
    rw [hyear]
    exact lastDay_eq d.month_range
  simp only [YearMonthDay.ok, yearOk, Bool.and_eq_true, decide_eq_true_eq, hlast]
  exact ⟨⟨hmin, d.month_range⟩, d.day_range⟩

theorem date_ofDate {d : Date} (hlow : -32768 < d.year) (hhigh : d.year < 32768)
    (h : (ofDate d).ok = true) : (ofDate d).date h = d :=
  Date.ext (toInt_ofDate hlow hhigh) rfl rfl

def minDays : Int := (YearMonthDay.mk (-32767) 1 1).toDays

def maxDays : Int := (YearMonthDay.mk 32767 12 31).toDays

theorem year_of_dayNumber {d first last : Date} (hlow : first.dayNumber ≤ d.dayNumber)
    (hhigh : d.dayNumber ≤ last.dayNumber) : first.year ≤ d.year ∧ d.year ≤ last.year :=
  ⟨le_of_not_gt fun h => absurd (Date.dayNumber_lt h) hlow.not_gt,
    le_of_not_gt fun h => absurd (Date.dayNumber_lt h) hhigh.not_gt⟩

theorem fromDays_ok {dp : Int} (hlow : minDays ≤ dp) (hhigh : dp ≤ maxDays) :
    ∃ h : (fromDays dp).ok = true, ((fromDays dp).date h).dayNumber = dp := by
  obtain ⟨d, rfl⟩ := dayNumber_dayCount.surjective
    ((YearMonthDay.mk 1970 1 1).date (by decide)) dp
  rw [minDays, toDays_eq (by decide)] at hlow
  rw [maxDays, toDays_eq (by decide)] at hhigh
  have hyear := year_of_dayNumber hlow hhigh
  rw [date_year, date_year] at hyear
  have hlow : -32768 < d.year := lt_of_lt_of_le (by decide) hyear.1
  have hhigh : d.year < 32768 := lt_of_le_of_lt hyear.2 (by decide)
  rw [fromDays_dayNumber]
  exact ⟨ofDate_ok hlow hhigh, by rw [date_ofDate hlow hhigh]⟩

/-- Days and dates of the date library are the same thing: every date has its
number, one more than the date before, and every number within the years of a
`short` is that of a date. -/
theorem days_round_trip :
    (∀ ymd : YearMonthDay, ymd.ok = true → fromDays ymd.toDays = ymd) ∧
      (∀ dp, minDays ≤ dp → dp ≤ maxDays → (fromDays dp).ok = true ∧ (fromDays dp).toDays = dp) ∧
      (YearMonthDay.mk 1970 1 1).toDays = 0 ∧
      ∀ (ymd ymd' : YearMonthDay) (h : ymd.ok = true) (h' : ymd'.ok = true),
        ymd'.date h' = (ymd.date h).next → ymd'.toDays = ymd.toDays + 1 := by
  refine ⟨fun ymd h => ?_, fun dp hlow hhigh => ?_, by decide, fun ymd ymd' h h' hnext => ?_⟩
  · rw [toDays_eq h, fromDays_dayNumber, ofDate_date]
  · obtain ⟨hok, hday⟩ := fromDays_ok hlow hhigh
    exact ⟨hok, (toDays_eq hok).trans hday⟩
  · rw [toDays_eq h, toDays_eq h', hnext]
    exact dayNumber_dayCount.next _

theorem days_round_trip_leapDay :
    fromDays (YearMonthDay.mk 2024 2 29).toDays = YearMonthDay.mk 2024 2 29 ∧
      (fromDays 19783).ok = true ∧ (fromDays 19783).toDays = 19783 :=
  ⟨days_round_trip.1 _ (by decide), days_round_trip.2.1 19783 (by decide) (by decide)⟩

end CalmTrading.Dates
