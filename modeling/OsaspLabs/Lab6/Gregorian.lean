import Mathlib.Data.Rat.Floor
import OsaspLabs.Library.Calendar
import OsaspLabs.Library.SignedInt

/-! # `mjd_to_gregorian` of the printer of LAB_6

Time marks are rationals: every finite `double` is one. Local variables are `int`s, and an
expression that overflows has no result. -/

namespace OsaspLabs.Lab6

open Calendar

def int : ℤ → Option ℤ := checked 32

/-- The conversion `(int) mjd` cuts off towards zero. -/
def truncate (mjd : ℚ) : ℤ := if 0 ≤ mjd then ⌊mjd⌋ else ⌈mjd⌉

/-- What follows the `if`. -/
def civil (a b : ℤ) : Option (ℤ × ℤ × ℤ) := do
  let c ← int ((← int (4 * a)).tdiv 1461)
  let d ← int (a - (← int (1461 * c)).tdiv 4)
  let e ← int ((← int ((← int (5 * d)) + 2)).tdiv 153)
  let day ← int ((← int (d - (← int ((← int (153 * e)) + 2)).tdiv 5)) + 1)
  let month ← int ((← int (e + 3)) - (← int (12 * e.tdiv 10)))
  let year ← int ((← int ((← int ((← int (100 * b)) + c)) - 4800)) + e.tdiv 10)
  pure (year, month, day)

/-- The year, the month and the day; `b` is what the local variable holds at the start. -/
def mjdToGregorian (mjd : ℚ) (b : ℤ) : Option (ℤ × ℤ × ℤ) :=
  if mjd ≥ 2400001 then do
    let a ← int ((← int ((← int (truncate mjd)) + 2400001)) + 68569)
    let b ← int ((← int (4 * a)).tdiv 146097)
    let a ← int (a - (← int ((← int (146097 * b)) + 3)).tdiv 4)
    civil a b
  else do
    let a ← int ((← int ((← int (truncate mjd)) + 2400001)) + 32083)
    civil a b

/-- Modified Julian Day 0. -/
def mjdEpoch : Date where
  year := 1858
  month := 11
  day := 17
  month_pos := by decide
  month_le := by decide
  day_pos := by decide
  day_le := by decide

/-- The date of Modified Julian Day `n`. -/
def mjdDate (n : ℕ) : Date := mjdEpoch.after n

/-! ## Without overflow -/

theorem of_int_bind {α : Type} {x : ℤ} {f : ℤ → Option α} {r : α}
    (h : (int x >>= f) = some r) : f x = some r :=
  of_checked_bind h

theorem int_bind_of_fits {α : Type} {x : ℤ} {f : ℤ → Option α} (h : -2147483648 ≤ x)
    (h' : x < 2147483648) : (int x >>= f) = f x :=
  checked_bind_of_fits ⟨h, h'⟩

theorem truncate_le {mjd : ℚ} {n : ℕ} (h : mjd < n + 1) : truncate mjd ≤ n := by
  unfold truncate
  split
  · exact Int.le_of_lt_add_one (Int.floor_lt.mpr (by exact_mod_cast h))
  · exact (Int.ceil_le.mpr (by push_cast; linarith)).trans (Int.natCast_nonneg n)

/-- For a nonnegative `a` the divisions round down. -/
theorem civil_eq_some {a b : ℤ} {t : ℤ × ℤ × ℤ} (ha : 0 ≤ a) (h : civil a b = some t) :
    ∃ c d e : ℤ, 4 * a / 1461 = c ∧ a - 1461 * c / 4 = d ∧ (5 * d + 2) / 153 = e ∧
      t = (100 * b + c - 4800 + e / 10, e + 3 - 12 * (e / 10), d - (153 * e + 2) / 5 + 1) := by
  unfold civil at h
  repeat replace h := of_int_bind h
  rw [Int.tdiv_eq_ediv_of_nonneg (by omega : 0 ≤ 4 * a)] at h
  generalize hc : 4 * a / 1461 = c at h
  rw [Int.tdiv_eq_ediv_of_nonneg (by omega : 0 ≤ 1461 * c)] at h
  generalize hd : a - 1461 * c / 4 = d at h
  rw [Int.tdiv_eq_ediv_of_nonneg (by omega : 0 ≤ 5 * d + 2)] at h
  generalize he : (5 * d + 2) / 153 = e at h
  rw [Int.tdiv_eq_ediv_of_nonneg (by omega : 0 ≤ 153 * e + 2),
    Int.tdiv_eq_ediv_of_nonneg (by omega : 0 ≤ e)] at h
  exact ⟨c, d, e, rfl, hd, he, (Option.some.inj h).symm⟩

theorem civil_isSome {a b : ℤ} (ha : 0 ≤ a) (ha' : a ≤ 4832084) (hb : -20000000 ≤ b)
    (hb' : b ≤ 20000000) : ∃ t, civil a b = some t := by
  unfold civil
  rw [int_bind_of_fits (by omega) (by omega), Int.tdiv_eq_ediv_of_nonneg (by omega)]
  generalize hc : 4 * a / 1461 = c
  rw [int_bind_of_fits (by omega) (by omega), int_bind_of_fits (by omega) (by omega),
    Int.tdiv_eq_ediv_of_nonneg (by omega)]
  generalize hd : a - 1461 * c / 4 = d
  rw [int_bind_of_fits (by omega) (by omega), int_bind_of_fits (by omega) (by omega),
    int_bind_of_fits (by omega) (by omega), Int.tdiv_eq_ediv_of_nonneg (by omega)]
  generalize he : (5 * d + 2) / 153 = e
  rw [int_bind_of_fits (by omega) (by omega), int_bind_of_fits (by omega) (by omega),
    int_bind_of_fits (by omega) (by omega), Int.tdiv_eq_ediv_of_nonneg (by omega)]
  generalize hm : (153 * e + 2) / 5 = m
  rw [int_bind_of_fits (by omega) (by omega), int_bind_of_fits (by omega) (by omega),
    int_bind_of_fits (by omega) (by omega), Int.tdiv_eq_ediv_of_nonneg (by omega),
    int_bind_of_fits (by omega) (by omega), int_bind_of_fits (by omega) (by omega),
    int_bind_of_fits (by omega) (by omega), int_bind_of_fits (by omega) (by omega),
    int_bind_of_fits (by omega) (by omega), int_bind_of_fits (by omega) (by omega)]
  exact ⟨_, rfl⟩

/-- No expression overflows up to day 534402341. -/
theorem mjdToGregorian_isSome {mjd : ℚ} {b : ℤ} (hn : 0 ≤ truncate mjd)
    (hn' : truncate mjd ≤ 534402341) (hb : -20000000 ≤ b) (hb' : b ≤ 20000000) :
    ∃ t, mjdToGregorian mjd b = some t := by
  unfold mjdToGregorian
  by_cases hmjd : mjd ≥ 2400001
  · rw [if_pos hmjd]
    generalize truncate mjd = n at hn hn'
    rw [int_bind_of_fits (by omega) (by omega), int_bind_of_fits (by omega) (by omega),
      int_bind_of_fits (by omega) (by omega)]
    generalize ha : n + 2400001 + 68569 = a
    rw [int_bind_of_fits (by omega) (by omega), Int.tdiv_eq_ediv_of_nonneg (by omega)]
    generalize hb₁ : 4 * a / 146097 = b₁
    rw [int_bind_of_fits (by omega) (by omega), int_bind_of_fits (by omega) (by omega),
      int_bind_of_fits (by omega) (by omega), Int.tdiv_eq_ediv_of_nonneg (by omega),
      int_bind_of_fits (by omega) (by omega)]
    exact civil_isSome (by omega) (by omega) (by omega) (by omega)
  · have hearly : truncate mjd ≤ 2400000 := truncate_le (by push_cast; linarith)
    rw [if_neg hmjd, int_bind_of_fits (by omega) (by omega),
      int_bind_of_fits (by omega) (by omega), int_bind_of_fits (by omega) (by omega)]
    exact civil_isSome (by omega) (by omega) hb hb'

theorem mjdToGregorian_late {mjd : ℚ} {b : ℤ} {t : ℤ × ℤ × ℤ} (hmjd : mjd ≥ 2400001)
    (hn : 0 ≤ truncate mjd) (h : mjdToGregorian mjd b = some t) :
    ∃ a b' : ℤ, 0 ≤ a ∧ 4 * (truncate mjd + 2468570) / 146097 = b' ∧
      truncate mjd + 2468570 - (146097 * b' + 3) / 4 = a ∧ civil a b' = some t := by
  rw [mjdToGregorian, if_pos hmjd] at h
  generalize truncate mjd = n at h hn ⊢
  have hsum : n + 2400001 + 68569 = n + 2468570 := by omega
  replace h := of_int_bind (of_int_bind (of_int_bind h))
  rw [hsum] at h
  replace h := of_int_bind (of_int_bind h)
  rw [Int.tdiv_eq_ediv_of_nonneg (by omega : 0 ≤ 4 * (n + 2468570))] at h
  generalize hb : 4 * (n + 2468570) / 146097 = b' at h
  replace h := of_int_bind (of_int_bind (of_int_bind h))
  rw [Int.tdiv_eq_ediv_of_nonneg (by omega : 0 ≤ 146097 * b' + 3)] at h
  exact ⟨_, b', by omega, rfl, rfl, h⟩

theorem mjdToGregorian_early {mjd : ℚ} {b : ℤ} {t : ℤ × ℤ × ℤ} (hmjd : ¬ mjd ≥ 2400001)
    (h : mjdToGregorian mjd b = some t) : civil (truncate mjd + 2432084) b = some t := by
  rw [mjdToGregorian, if_neg hmjd] at h
  have hsum : truncate mjd + 2400001 + 32083 = truncate mjd + 2432084 := by omega
  replace h := of_int_bind (of_int_bind (of_int_bind h))
  rwa [hsum] at h

/-! ## The calendar date is never computed -/

theorem number_mjdDate (n : ℕ) :
    daysBefore (mjdDate n).marchYear + (mjdDate n).dayOfYear = n + 678881 := by
  have hafter := mjdEpoch.number_after n
  have hepoch : mjdEpoch.number = 678881 := by decide
  rw [hepoch] at hafter
  rw [Int.add_comm (n : ℤ)]
  exact hafter

/-- The constants of the first branch are one hundred years off. -/
theorem late_year {n Y doy a b c d e : ℤ} (hn : daysBefore Y + doy = n + 678881)
    (hdoy : 0 ≤ doy) (hdoy' : doy ≤ 365) (hb : 4 * (n + 2468570) / 146097 = b)
    (ha : n + 2468570 - (146097 * b + 3) / 4 = a) (hc : 4 * a / 1461 = c)
    (hd : a - 1461 * c / 4 = d) (he : (5 * d + 2) / 153 = e) :
    Y + 1 < 100 * b + c - 4800 + e / 10 := by
  unfold daysBefore at hn
  omega

/-- The second branch counts a leap day every fourth year. -/
theorem early_day {n Y doy c d : ℤ} (hn : daysBefore Y + doy = n + 678881)
    (hdoy : 0 ≤ doy) (hdoy' : doy ≤ 365) (h0 : 0 ≤ n) (hearly : n < 2400001)
    (hd : n + 2432084 - 1461 * c / 4 = d) : d ≠ doy := by
  unfold daysBefore at hn
  intro hsame
  have hfirst : 1857 ≤ Y := by omega
  have hlast : Y ≤ 8430 := by omega
  -- the same day of the year in years that are `4799 < c - Y < 4800` apart
  have hlow : Y + 4799 < c := by omega
  have hhigh : c < Y + 4800 := by omega
  omega

/-- The values that `mjd_to_gregorian` is asked for. -/
def yearMonthDay (date : Date) : ℤ × ℤ × ℤ := (date.year, date.month, date.day)

theorem mjdToGregorian_ne_date {mjd : ℚ} {b : ℤ} (hn : 0 ≤ truncate mjd) :
    mjdToGregorian mjd b ≠ some (yearMonthDay (mjdDate (truncate mjd).toNat)) := by
  intro h
  have hnat : ((truncate mjd).toNat : ℤ) = truncate mjd := Int.toNat_of_nonneg hn
  have hnumber := number_mjdDate (truncate mjd).toNat
  rw [hnat] at hnumber
  generalize mjdDate (truncate mjd).toNat = date at h hnumber
  have hdoy : (date.dayOfYear : ℤ) ≤ 365 := by exact_mod_cast date.dayOfYear_le
  have hmonth := date.month_eq
  have hle := date.marchMonth_le
  by_cases hmjd : mjd ≥ 2400001
  · obtain ⟨a, b', ha0, hb, ha, h⟩ := mjdToGregorian_late hmjd hn h
    obtain ⟨c, d, e, hc, hd, he, h⟩ := civil_eq_some ha0 h
    have hyear := late_year hnumber (Int.natCast_nonneg _) hdoy hb ha hc hd he
    have hsame : date.year = 100 * b' + c - 4800 + e / 10 := congrArg Prod.fst h
    have hshift := date.year_eq
    omega
  · have hearly : truncate mjd ≤ 2400000 := truncate_le (by push_cast; linarith)
    obtain ⟨c, d, e, hc, hd, he, h⟩ := civil_eq_some (by omega) (mjdToGregorian_early hmjd h)
    have hne := early_day hnumber (Int.natCast_nonneg _) hdoy hn (by omega) hd
    have hsame : (date.month : ℤ) = e + 3 - 12 * (e / 10) := congrArg (fun t => t.2.1) h
    have hday : (date.day : ℤ) = d - (153 * e + 2) / 5 + 1 := congrArg (fun t => t.2.2) h
    have hpos := date.day_pos
    apply hne
    unfold Date.dayOfYear
    omega

/-- No time mark gets its date, whatever `b` held, although there is a result for every day up to
534402341 and every `b` of moderate size. -/
theorem mjdToGregorian_never {mjd : ℚ} {b : ℤ} (hn : 0 ≤ truncate mjd) :
    mjdToGregorian mjd b ≠ some (yearMonthDay (mjdDate (truncate mjd).toNat)) ∧
      (truncate mjd ≤ 534402341 → -20000000 ≤ b → b ≤ 20000000 →
        ∃ t, mjdToGregorian mjd b = some t) :=
  ⟨mjdToGregorian_ne_date hn, mjdToGregorian_isSome hn⟩

theorem mjdToGregorian_never_zero :
    mjdToGregorian 0 0 ≠ some (yearMonthDay (mjdDate (truncate 0).toNat)) ∧
      (truncate 0 ≤ 534402341 → -20000000 ≤ (0 : ℤ) → (0 : ℤ) ≤ 20000000 →
        ∃ t, mjdToGregorian 0 0 = some t) :=
  mjdToGregorian_never (by decide)

/-- Day 0 comes out as 6 November. -/
theorem mjdToGregorian_zero :
    ¬ ∀ (mjd : ℚ) (b : ℤ) (t : ℤ × ℤ × ℤ), 0 ≤ truncate mjd → mjdToGregorian mjd b = some t →
      t = yearMonthDay (mjdDate (truncate mjd).toNat) := by
  intro h
  have hzero := h 0 0 (1858, 11, 6) (by decide) (by decide)
  exact absurd hzero (by decide)

end OsaspLabs.Lab6
