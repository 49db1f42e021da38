import Mathlib.Algebra.Order.Ring.Int
import Mathlib.Logic.Function.Iterate
import Mathlib.Tactic.IntervalCases

/-! # The proleptic Gregorian calendar

The Gregorian rules for all years, those before the reform included. Years are counted from
March where leap days matter: the leap day is then the last day of its year. -/

namespace OsaspLabs.Calendar

def IsLeap (year : ℤ) : Prop := 4 ∣ year ∧ (¬ 100 ∣ year ∨ 400 ∣ year)

instance : DecidablePred IsLeap := fun year =>
  inferInstanceAs (Decidable (4 ∣ year ∧ (¬ 100 ∣ year ∨ 400 ∣ year)))

def daysIn (year : ℤ) : ℕ → ℕ
  | 2 => if IsLeap year then 29 else 28
  | 4 => 30
  | 6 => 30
  | 9 => 30
  | 11 => 30
  | _ => 31

theorem daysIn_pos (year : ℤ) (month : ℕ) : 0 < daysIn year month := by
  unfold daysIn
  split
  · split <;> decide
  all_goals decide

theorem daysIn_le (year : ℤ) (month : ℕ) :
    daysIn year month ≤ if month = 2 then 29 else 31 := by
  unfold daysIn
  split
  · rw [if_pos rfl]
    split <;> decide
  · decide
  · decide
  · decide
  · decide
  · rename_i hfeb _ _ _ _
    rw [if_neg hfeb]

structure Date where
  year : ℤ
  month : ℕ
  day : ℕ
  month_pos : 0 < month
  month_le : month ≤ 12
  day_pos : 0 < day
  day_le : day ≤ daysIn year month

/-- The day after. -/
def Date.next (d : Date) : Date :=
  if hday : d.day < daysIn d.year d.month then
    { d with day := d.day + 1, day_pos := Nat.succ_pos _, day_le := hday }
  else if hmonth : d.month < 12 then
    { year := d.year, month := d.month + 1, day := 1, month_pos := Nat.succ_pos _,
      month_le := hmonth, day_pos := Nat.one_pos, day_le := daysIn_pos _ _ }
  else
    { year := d.year + 1, month := 1, day := 1, month_pos := Nat.one_pos,
      month_le := by decide, day_pos := Nat.one_pos, day_le := daysIn_pos _ _ }

/-- The date `n` days later. -/
def Date.after (d : Date) (n : ℕ) : Date := Date.next^[n] d

/-! ## Years from March -/

def Date.marchYear (d : Date) : ℤ := if d.month ≤ 2 then d.year - 1 else d.year

/-- The month, with March as 0. -/
def Date.marchMonth (d : Date) : ℕ := if d.month ≤ 2 then d.month + 9 else d.month - 3

/-- The days since the first of March. -/
def Date.dayOfYear (d : Date) : ℕ := (153 * d.marchMonth + 2) / 5 + d.day - 1

/-- The days before the first of March of a year. -/
def daysBefore (year : ℤ) : ℤ := 365 * year + year / 4 - year / 100 + year / 400

/-- The number of a day among all days. -/
def Date.number (d : Date) : ℤ := daysBefore d.marchYear + d.dayOfYear

theorem daysBefore_succ (year : ℤ) :
    daysBefore (year + 1) = daysBefore year + if IsLeap (year + 1) then 366 else 365 := by
  by_cases hleap : IsLeap (year + 1)
  · rw [if_pos hleap]
    unfold IsLeap at hleap
    unfold daysBefore
    omega
  · rw [if_neg hleap]
    unfold IsLeap at hleap
    unfold daysBefore
    omega

theorem Date.number_next (d : Date) : d.next.number = d.number + 1 := by
  obtain ⟨year, month, day, month_pos, month_le, day_pos, day_le⟩ := d
  unfold Date.next
  simp only
  split
  · rename_i hday
    simp only [Date.number, Date.marchYear, Date.dayOfYear, Date.marchMonth]
    omega
  · rename_i hday
    have hlast : day = daysIn year month := by omega
    split
    · rename_i hmonth
      have hyear := daysBefore_succ (year - 1)
      rw [Int.sub_add_cancel] at hyear
      simp only [Date.number, Date.marchYear, Date.dayOfYear, Date.marchMonth, hlast]
      interval_cases month <;> simp [daysIn] <;> grind
    · have hmonth : month = 12 := by omega
      subst hmonth
      simp [Date.number, Date.marchYear, Date.dayOfYear, Date.marchMonth, hlast, daysIn]
      omega

theorem Date.number_after (d : Date) (n : ℕ) : (d.after n).number = d.number + n := by
  induction n with
  | zero => simp [Date.after]
  | succ n ih =>
      have hlast : d.after (n + 1) = (d.after n).next := Function.iterate_succ_apply' ..
      rw [hlast, Date.number_next, ih]
      omega

theorem Date.dayOfYear_le (d : Date) : d.dayOfYear ≤ 365 := by
  have hday := d.day_le
  have hle := d.month_le
  have hlen := daysIn_le d.year d.month
  unfold Date.dayOfYear Date.marchMonth
  by_cases hfeb : d.month = 2
  · rw [if_pos hfeb] at hlen
    rw [if_pos hfeb.le]
    omega
  · rw [if_neg hfeb] at hlen
    split <;> omega

theorem Date.month_eq (d : Date) : d.month = d.marchMonth + 3 - 12 * (d.marchMonth / 10) := by
  have hpos := d.month_pos
  have hle := d.month_le
  unfold Date.marchMonth
  split <;> omega

theorem Date.year_eq (d : Date) : d.year = d.marchYear + (d.marchMonth / 10 : ℕ) := by
  have hpos := d.month_pos
  have hle := d.month_le
  unfold Date.marchYear Date.marchMonth
  split <;> omega

theorem Date.marchMonth_le (d : Date) : d.marchMonth ≤ 11 := by
  have hle := d.month_le
  unfold Date.marchMonth
  split <;> omega

end OsaspLabs.Calendar
