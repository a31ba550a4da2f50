import Mathlib.Data.Int.Basic
import Mathlib.Tactic.IntervalCases

namespace CalmTrading.Lib.Gregorian

def IsLeap (y : Int) : Prop := y % 4 = 0 ∧ (y % 100 ≠ 0 ∨ y % 400 = 0)

instance (y : Int) : Decidable (IsLeap y) :=
  inferInstanceAs (Decidable (y % 4 = 0 ∧ (y % 100 ≠ 0 ∨ y % 400 = 0)))

def monthLength (y : Int) : Nat → Nat
  | 2 => if IsLeap y then 29 else 28
  | 4 | 6 | 9 | 11 => 30
  | _ => 31

theorem monthLength_pos (y : Int) (m : Nat) : 0 < monthLength y m := by
  rw [monthLength.eq_def]
  split
  · split <;> decide
  all_goals decide

theorem monthLength_le (y : Int) (m : Nat) : monthLength y m ≤ 31 := by
  rw [monthLength.eq_def]
  split
  · split <;> decide
  all_goals decide

@[ext] structure Date where
  year : Int
  month : Nat
  day : Nat
  month_range : 1 ≤ month ∧ month ≤ 12
  day_range : 1 ≤ day ∧ day ≤ monthLength year month

namespace Date

/-- The day after. -/
def next (d : Date) : Date :=
  if hday : d.day < monthLength d.year d.month then
    ⟨d.year, d.month, d.day + 1, d.month_range, Nat.le_add_left 1 d.day, hday⟩
  else if hmonth : d.month < 12 then
    ⟨d.year, d.month + 1, 1, ⟨Nat.le_add_left 1 d.month, hmonth⟩, le_rfl, monthLength_pos _ _⟩
  else ⟨d.year + 1, 1, 1, by decide, le_rfl, monthLength_pos _ _⟩

/-- Every date comes after another. -/
theorem next_surjective : Function.Surjective next := by
  intro d
  obtain ⟨year, month, day, hmonth, hday⟩ := d
  by_cases hfirst : day = 1
  · subst hfirst
    by_cases hjanuary : month = 1
    · subst hjanuary
      refine ⟨⟨year - 1, 12, 31, by decide, by decide, le_rfl⟩, ?_⟩
      have hlength : ¬ 31 < monthLength (year - 1) 12 := lt_irrefl 31
      simp [next, hlength]
    · have hlast := monthLength_pos year (month - 1)
      refine ⟨⟨year, month - 1, monthLength year (month - 1), by omega, hlast, le_rfl⟩, ?_⟩
      have hbefore : month - 1 < 12 := by omega
      have hmonth' : month - 1 + 1 = month := by omega
      simp [next, hbefore, hmonth']
  · refine ⟨⟨year, month, day - 1, hmonth, by omega⟩, ?_⟩
    have hroom : day - 1 < monthLength year month := by omega
    have hday' : day - 1 + 1 = day := by omega
    simp [next, hroom, hday']

end Date

/-- A numbering of the days, with one number more for each day. -/
structure DayCount (f : Date → Int) : Prop where
  next : ∀ d, f d.next = f d + 1

theorem DayCount.surjective {f : Date → Int} (h : DayCount f) (d₀ : Date) :
    Function.Surjective f := by
  intro z
  induction z using Int.inductionOn' (b := f d₀) with
  | zero => exact ⟨d₀, rfl⟩
  | succ z _ ih =>
    obtain ⟨d, rfl⟩ := ih
    exact ⟨d.next, h.next d⟩
  | pred z _ ih =>
    obtain ⟨d, rfl⟩ := ih
    obtain ⟨e, rfl⟩ := Date.next_surjective d
    refine ⟨e, ?_⟩
    rw [h.next]
    omega

namespace Date

variable (d : Date)

/-- The year taken to begin in March, so that a leap day is its last day. -/
def marchYear : Int := if d.month ≤ 2 then d.year - 1 else d.year

def marchMonth : Nat := if d.month ≤ 2 then d.month + 9 else d.month - 3

def marchDay : Nat := (153 * d.marchMonth + 2) / 5 + (d.day - 1)

def dayNumber : Int :=
  365 * d.marchYear + d.marchYear / 4 - d.marchYear / 100 + d.marchYear / 400 + d.marchDay - 719468

/-- A leap day comes last, and month and day can be told from the number. -/
theorem marchDay_spec :
    (d.marchDay ≤ 365 ∧ (d.marchDay = 365 → IsLeap (d.marchYear + 1))) ∧
      (5 * d.marchDay + 2) / 153 = d.marchMonth ∧
      d.marchDay - (153 * d.marchMonth + 2) / 5 + 1 = d.day := by
  obtain ⟨year, month, day, ⟨hlow, hhigh⟩, hfirst, hlast⟩ := d
  dsimp only [marchDay, marchMonth, marchYear]
  interval_cases month
  case «2» =>
    by_cases hleap : IsLeap year
    · simp only [monthLength, if_pos hleap] at hlast
      simp [hleap]
      omega
    · simp only [monthLength, if_neg hleap] at hlast
      simp
      omega
  all_goals
    simp [monthLength] at hlast ⊢
    omega

theorem year_next (y : Int) {last : Nat} (hlast : last = if IsLeap (y + 1) then 365 else 364) :
    365 * (y + 1) + (y + 1) / 4 - (y + 1) / 100 + (y + 1) / 400 =
      365 * y + y / 4 - y / 100 + y / 400 + last + 1 := by
  rw [hlast]
  by_cases hleap : IsLeap (y + 1)
  · rw [if_pos hleap]
    rw [IsLeap] at hleap
    omega
  · rw [if_neg hleap]
    rw [IsLeap] at hleap
    omega

end Date

theorem dayNumber_dayCount : DayCount Date.dayNumber where
  next d := by
    obtain ⟨year, month, day, ⟨hlow, hhigh⟩, hfirst, hlast⟩ := d
    by_cases hday : day < monthLength year month
    · simp [Date.next, hday, Date.dayNumber, Date.marchYear, Date.marchDay, Date.marchMonth]
      omega
    · obtain rfl : day = monthLength year month := by omega
      interval_cases month
      case «2» =>
        have hmarch : 337 + (monthLength year 2 - 1) =
            if IsLeap (year - 1 + 1) then 365 else 364 := by
          rw [Int.sub_add_cancel, monthLength]
          split <;> rfl
        have hnext := Date.year_next (year - 1) hmarch
        rw [Int.sub_add_cancel] at hnext
        simp [Date.next, Date.dayNumber, Date.marchYear, Date.marchDay, Date.marchMonth]
        omega
      all_goals
        simp [Date.next, Date.dayNumber, Date.marchYear, Date.marchDay, Date.marchMonth,
          monthLength]
        try omega

theorem Date.marchDay_bounds (d : Date) :
    if d.month ≤ 2 then 306 ≤ d.marchDay else d.marchDay ≤ 305 := by
  obtain ⟨year, month, day, ⟨hlow, hhigh⟩, hfirst, hlast⟩ := d
  dsimp only [marchDay, marchMonth]
  interval_cases month <;> simp [monthLength] at hlast ⊢ <;> omega

theorem leapDays_mono {y z : Int} (h : y ≤ z) :
    y / 4 - y / 100 + y / 400 ≤ z / 4 - z / 100 + z / 400 := by
  omega

/-- A later year has higher numbers. -/
theorem Date.dayNumber_lt {d e : Date} (h : d.year < e.year) : d.dayNumber < e.dayNumber := by
  obtain ⟨⟨hle, hleap⟩, _⟩ := d.marchDay_spec
  have hd := d.marchDay_bounds
  have he := e.marchDay_bounds
  have hmarch : d.marchYear < e.marchYear ∨
      d.marchYear = e.marchYear ∧ ¬ d.month ≤ 2 ∧ e.month ≤ 2 := by
    rw [marchYear, marchYear]
    split <;> split <;> omega
  rw [dayNumber, dayNumber]
  obtain hlt | ⟨heq, hdm, hem⟩ := hmarch
  · have hnext := year_next d.marchYear rfl
    have hlast : d.marchDay ≤ if IsLeap (d.marchYear + 1) then 365 else 364 := by
      split
      · exact hle
      · next hnot => exact Nat.le_of_lt_succ (lt_of_le_of_ne hle fun hfull => hnot (hleap hfull))
    have hmono := leapDays_mono (Int.add_one_le_iff.mpr hlt)
    omega
  · rw [if_neg hdm] at hd
    rw [if_pos hem] at he
    rw [heq]
    omega

theorem Date.newYear_le {d e : Date} (hmonth : e.month = 1) (hday : e.day = 1)
    (h : e.year ≤ d.year) : e.dayNumber ≤ d.dayNumber := by
  have hnext : Date.next ⟨e.year - 1, 12, 31, by decide, by decide, le_rfl⟩ = e := by
    have hlength : ¬ 31 < monthLength (e.year - 1) 12 := lt_irrefl 31
    apply Date.ext <;> simp [next, hlength, hmonth, hday]
  rw [← hnext, dayNumber_dayCount.next]
  exact Date.dayNumber_lt (Int.sub_one_lt_of_le h)

end CalmTrading.Lib.Gregorian
