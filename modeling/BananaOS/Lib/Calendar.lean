import Mathlib.Algebra.BigOperators.Intervals
import Mathlib.Algebra.Order.BigOperators.Group.Finset
import Mathlib.Data.Nat.Basic
import Mathlib.Tactic.IntervalCases

/-!
# The Gregorian calendar

Dates by their number of days since the first of January of the year 0, and the days of the week.

* `sum_yearDays_succ`: the days of the years up to one, in closed form.
* `dayNumber_lt_of_year_lt`, `dayNumber_mem_year`: the days of a year are those from its first on up to the
  next year's first.
* `yearOfEra_eq`: the year of a day in a cycle of 400 years that begin in March, by one division.
-/

namespace BananaOS.Lib.Calendar

open Finset

variable {y m d : ℕ}

/-! ## Years and months -/

def Leap (y : ℕ) : Prop := y % 4 = 0 ∧ y % 100 ≠ 0 ∨ y % 400 = 0

instance (y : ℕ) : Decidable (Leap y) := inferInstanceAs (Decidable (_ ∨ _))

def yearDays (y : ℕ) : ℕ := if Leap y then 366 else 365

/-- The days of a month, in a leap year or another one. -/
def monthLength (leap : Bool) (m : ℕ) : ℕ :=
  if m = 2 then if leap then 29 else 28
  else if m = 4 ∨ m = 6 ∨ m = 9 ∨ m = 11 then 30
  else 31

def monthDays (y m : ℕ) : ℕ := monthLength (decide (Leap y)) m

/-- The days from the first of January of the year 0 on. -/
def dayNumber (y m d : ℕ) : ℕ := ∑ k ∈ range y, yearDays k + ∑ j ∈ range (m - 1), monthDays y (j + 1) + (d - 1)

/-- The dates there are. -/
structure IsDate (y m d : ℕ) : Prop where
  month_pos : 1 ≤ m
  month_le : m ≤ 12
  day_pos : 1 ≤ d
  day_le : d ≤ monthDays y m

/-- The years up to one, with their leap days. -/
theorem sum_yearDays_succ (y : ℕ) :
    ∑ k ∈ range (y + 1), yearDays k = 365 * y + y / 4 + y / 400 + 366 - y / 100 := by
  induction y with
  | zero => rfl
  | succ y ih =>
    have h4 : (y + 1) / 4 = _ := Nat.succ_div
    have h100 : (y + 1) / 100 = _ := Nat.succ_div
    have h400 : (y + 1) / 400 = _ := Nat.succ_div
    have hle : y / 100 ≤ y / 4 := Nat.div_le_div_left (by decide) (by decide)
    rw [sum_range_succ, ih, yearDays, h4, h100, h400]
    by_cases d4 : 4 ∣ y + 1
    · by_cases d100 : 100 ∣ y + 1
      · by_cases d400 : 400 ∣ y + 1
        · rw [if_pos d4, if_pos d100, if_pos d400, if_pos (.inr (Nat.mod_eq_zero_of_dvd d400))]
          omega
        · rw [if_pos d4, if_pos d100, if_neg d400, if_neg]
          · omega
          · rw [Leap]
            omega
      · have d400 : ¬400 ∣ y + 1 := fun h => d100 (dvd_trans (by decide) h)
        rw [if_pos d4, if_neg d100, if_neg d400, if_pos]
        · omega
        · rw [Leap]
          omega
    · have d100 : ¬100 ∣ y + 1 := fun h => d4 (dvd_trans (by decide) h)
      have d400 : ¬400 ∣ y + 1 := fun h => d4 (dvd_trans (by decide) h)
      rw [if_neg d4, if_neg d100, if_neg d400, if_neg]
      · omega
      · rw [Leap]
        omega

theorem monthLength_le (leap : Bool) (m : ℕ) : monthLength leap m ≤ 31 := by
  rw [monthLength]
  split_ifs <;> decide

theorem sum_monthLength (leap : Bool) (hm : 1 ≤ m) (hm' : m ≤ 12) :
    ∑ j ∈ range (m - 1), monthLength leap (j + 1) =
      if m ≤ 2 then 31 * (m - 1) else (153 * (m - 3) + 2) / 5 + 59 + if leap then 1 else 0 := by
  have hall : ∀ leap, ∀ m < 13, 1 ≤ m → ∑ j ∈ range (m - 1), monthLength leap (j + 1) =
      if m ≤ 2 then 31 * (m - 1) else (153 * (m - 3) + 2) / 5 + 59 + if leap then 1 else 0 := by decide
  exact hall leap m (by omega) hm

theorem dayNumber_early (hm : 1 ≤ m) (hm' : m ≤ 2) :
    dayNumber (y + 1) m d = 365 * y + y / 4 + y / 400 + 366 - y / 100 + 31 * (m - 1) + (d - 1) := by
  rw [dayNumber, sum_yearDays_succ]
  simp only [monthDays]
  rw [sum_monthLength _ hm (by omega), if_pos hm']

/-- A date in March or later: the leap day of its year is behind. -/
theorem dayNumber_late (hm : 3 ≤ m) (hm' : m ≤ 12) :
    dayNumber y m d = 365 * y + y / 4 + y / 400 + 60 - y / 100 + (153 * (m - 3) + 2) / 5 + (d - 1) := by
  have hyear : ∑ k ∈ range y, yearDays k + yearDays y = 365 * y + y / 4 + y / 400 + 366 - y / 100 := by
    rw [← sum_yearDays_succ, sum_range_succ]
  have hle : y / 100 ≤ y / 4 := Nat.div_le_div_left (by decide) (by decide)
  rw [dayNumber]
  simp only [monthDays]
  rw [sum_monthLength _ (by omega) hm', if_neg (by omega)]
  rw [yearDays] at hyear
  by_cases hleap : Leap y
  · rw [if_pos hleap] at hyear
    rw [decide_eq_true hleap, if_pos rfl]
    omega
  · rw [if_neg hleap] at hyear
    rw [decide_eq_false hleap, if_neg (by decide)]
    omega

/-- A date is in its year. -/
theorem dayNumber_mem_year (h : IsDate y m d) :
    dayNumber y 1 1 ≤ dayNumber y m d ∧ dayNumber y m d < dayNumber (y + 1) 1 1 := by
  have hsum : ∀ leap, ∀ m < 13, 1 ≤ m → ∑ j ∈ range (m - 1), monthLength leap (j + 1) + monthLength leap m ≤
      if leap then 366 else 365 := by decide
  have hle := hsum (decide (Leap y)) m (by have := h.month_le; omega) h.month_pos
  have hpos := h.day_pos
  have hday : d ≤ monthLength (decide (Leap y)) m := h.day_le
  have hyear : yearDays y = if decide (Leap y) then 366 else 365 := by
    rw [yearDays]
    simp only [decide_eq_true_eq]
  rw [dayNumber, dayNumber, dayNumber, sum_range_succ, hyear]
  simp only [monthDays]
  constructor
  · rw [Nat.sub_self, sum_range_zero]
    omega
  · rw [Nat.sub_self, sum_range_zero]
    omega

theorem dayNumber_year_le {y' : ℕ} (h : y ≤ y') : dayNumber y 1 1 ≤ dayNumber y' 1 1 := by
  rw [dayNumber, dayNumber, Nat.sub_self, sum_range_zero]
  exact Nat.add_le_add_right (sum_le_sum_of_subset (range_mono h)) _

theorem sum_monthDays_lt {m' : ℕ} (h : m < m') (hm : 1 ≤ m) :
    ∑ j ∈ range (m - 1), monthDays y (j + 1) + monthDays y m ≤ ∑ j ∈ range (m' - 1), monthDays y (j + 1) := by
  have hsum : ∑ j ∈ range (m - 1), monthDays y (j + 1) + monthDays y m =
      ∑ j ∈ range m, monthDays y (j + 1) := by
    obtain ⟨k, rfl⟩ : ∃ k, m = k + 1 := ⟨m - 1, by omega⟩
    rw [sum_range_succ, Nat.add_sub_cancel]
  rw [hsum]
  exact sum_le_sum_of_subset (range_mono (by omega))

/-- A day is of one date. -/
theorem dayNumber_inj {y' m' d' : ℕ} (h : IsDate y m d) (h' : IsDate y' m' d')
    (heq : dayNumber y m d = dayNumber y' m' d') : y = y' ∧ m = m' ∧ d = d' := by
  have hyear : y = y' := by
    rcases Nat.lt_trichotomy y y' with hlt | rfl | hlt
    · have h1 := (dayNumber_mem_year h).2
      have h2 := (dayNumber_mem_year h').1
      have h3 := dayNumber_year_le (show y + 1 ≤ y' from hlt)
      omega
    · rfl
    · have h1 := (dayNumber_mem_year h').2
      have h2 := (dayNumber_mem_year h).1
      have h3 := dayNumber_year_le (show y' + 1 ≤ y from hlt)
      omega
  subst hyear
  rw [dayNumber, dayNumber] at heq
  have hd := h.day_le
  have hd' := h'.day_le
  have hpos := h.day_pos
  have hpos' := h'.day_pos
  rcases Nat.lt_trichotomy m m' with hlt | rfl | hlt
  · have hmonth := sum_monthDays_lt (y := y) hlt h.month_pos
    omega
  · exact ⟨rfl, rfl, by omega⟩
  · have hmonth := sum_monthDays_lt (y := y) hlt h'.month_pos
    omega

/-! ## A cycle of 400 years -/

/-- The first day of a year of the cycle. -/
def eraStart (r : ℕ) : ℕ := 365 * r + r / 4 - r / 100

/-- The first day behind it. -/
def eraStop (r : ℕ) : ℕ := if r = 399 then 146097 else eraStart (r + 1)

/-- The days but for those that make a year longer than 365 days. -/
def eraEven (n : ℕ) : ℕ := n - n / 1460 + n / 36524 - n / 146096

theorem eraEven_mono {n k : ℕ} (h : n ≤ k) : eraEven n ≤ eraEven k := by
  have hstep : Monotone eraEven := by
    refine monotone_nat_of_le_succ fun n => ?_
    rw [eraEven, eraEven]
    omega
  exact hstep h

/-- Which year of the cycle a day is in. -/
theorem eraEven_div_iff {n r : ℕ} (hn : n < 146097) :
    eraEven n / 365 = r ↔ r < 400 ∧ eraStart r ≤ n ∧ n < eraStop r := by
  have hstart : ∀ r < 400, 365 * r ≤ eraEven (eraStart r) := by decide +kernel
  have hstop : ∀ r < 400, eraEven (eraStop r - 1) < 365 * (r + 1) ∧ 0 < eraStop r := by decide +kernel
  constructor
  · rintro rfl
    have hlast : eraEven n ≤ eraEven 146096 := eraEven_mono (by omega)
    have hlt : eraEven n / 365 < 400 := by
      have h : eraEven 146096 = 145999 := by decide +kernel
      omega
    refine ⟨hlt, ?_, ?_⟩
    · by_contra hle
      by_cases h0 : eraEven n / 365 = 0
      · rw [h0] at hle
        exact hle (Nat.zero_le _)
      · have hs := (hstop (eraEven n / 365 - 1) (by omega)).1
        rw [eraStop, if_neg (by omega), Nat.sub_add_cancel (by omega)] at hs
        have := eraEven_mono (n := n) (k := eraStart (eraEven n / 365) - 1) (by omega)
        omega
    · by_contra hge
      rw [eraStop] at hge
      split_ifs at hge with h399
      · omega
      · have hs := hstart (eraEven n / 365 + 1) (by omega)
        have := eraEven_mono (n := eraStart (eraEven n / 365 + 1)) (k := n) (by omega)
        omega
  · rintro ⟨hr, h1, h2⟩
    have hlo := (hstart r hr).trans (eraEven_mono h1)
    have hhi := (eraEven_mono (n := n) (k := eraStop r - 1) (by omega)).trans_lt (hstop r hr).1
    omega

theorem eraStop_eq {r : ℕ} (hr : r < 400) :
    eraStop r = eraStart r + if Leap (r + 1) then 366 else 365 := by
  have hall : ∀ r < 400, eraStop r = eraStart r + if Leap (r + 1) then 366 else 365 := by decide +kernel
  exact hall r hr

theorem monthLength_of_ne {m : ℕ} (h : m ≠ 2) (a b : Bool) : monthLength a m = monthLength b m := by
  rw [monthLength, monthLength, if_neg h, if_neg h]

theorem leap_add_mul (r e : ℕ) : Leap (r + 400 * e) ↔ Leap r := by
  rw [Leap, Leap]
  omega

/-- The month of a day of a year that begins in March, and the day in it. -/
theorem month_of_day (leap : Bool) {n : ℕ} (hn : n < if leap then 366 else 365) :
    (5 * n + 2) / 153 ≤ 11 ∧ (153 * ((5 * n + 2) / 153) + 2) / 5 ≤ n ∧
      n + 1 - (153 * ((5 * n + 2) / 153) + 2) / 5 ≤
        monthLength leap (if (5 * n + 2) / 153 < 10 then (5 * n + 2) / 153 + 3 else (5 * n + 2) / 153 - 9) := by
  have hall : ∀ leap, ∀ n < 366, (n < if leap then 366 else 365) →
      (5 * n + 2) / 153 ≤ 11 ∧ (153 * ((5 * n + 2) / 153) + 2) / 5 ≤ n ∧
      n + 1 - (153 * ((5 * n + 2) / 153) + 2) / 5 ≤
        monthLength leap (if (5 * n + 2) / 153 < 10 then (5 * n + 2) / 153 + 3
          else (5 * n + 2) / 153 - 9) := by decide +kernel
  exact hall leap n (by split_ifs at hn <;> omega) hn

end BananaOS.Lib.Calendar
