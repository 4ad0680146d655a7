import BananaOS.Lib.Calendar

/-!
# Seconds and civil dates

`days_from_civil`, `rtc_make_time` and `rtc_split_time` of `kernel/rtc.c`.  They count in eras of 400 years,
each beginning in March, with the truncating divisions of C on signed numbers.

* `daysFromCivil_eq`: the day is the calendar's.
* `rtcSplitTime_eq`: what a time is split into, in natural numbers.
* `civil_rtcSplitTime`, `rtcMakeTime_rtcSplitTime`, `rtcSplitTime_rtcMakeTime`: the two are inverse to each
  other, between the 32-bit times and the dates there are.
-/

namespace BananaOS.Clock

open Lib.Calendar

/-! ## The program -/

structure RtcDatetime where
  second : ℕ
  minute : ℕ
  hour : ℕ
  day : ℕ
  month : ℕ
  year : ℕ
  deriving DecidableEq

def daysFromCivil (y m d : ℤ) : ℤ :=
  let y := if m ≤ 2 then y - 1 else y
  let era := (if 0 ≤ y then y else y - 399).tdiv 400
  let yoe := y - era * 400
  let doy := (153 * (m + if 2 < m then -3 else 9) + 2).tdiv 5 + d - 1
  let doe := yoe * 365 + yoe.tdiv 4 - yoe.tdiv 100 + doy
  era * 146097 + doe - 719468

def rtcMakeTime (year month day hour minute second : ℤ) : ℕ :=
  if year < 1970 ∨ month < 1 ∨ 12 < month ∨ day < 1 ∨ 31 < day then 0
  else
    ((daysFromCivil year month day * 86400 + (hour * 3600 + minute * 60 + second)) % 2 ^ 32).toNat

def rtcSplitTime (t : ℕ) : RtcDatetime :=
  let z : ℤ := (t / 86400 : ℕ) + 719468
  let secs := t % 86400
  let era := (if 0 ≤ z then z else z - 146096).tdiv 146097
  let doe := z - era * 146097
  let yoe := (doe - doe.tdiv 1460 + doe.tdiv 36524 - doe.tdiv 146096).tdiv 365
  let y := yoe + era * 400
  let doy := doe - (365 * yoe + yoe.tdiv 4 - yoe.tdiv 100)
  let mp := (5 * doy + 2).tdiv 153
  let d := doy - (153 * mp + 2).tdiv 5 + 1
  let m := mp + if mp < 10 then 3 else -9
  { year := ((y + if m ≤ 2 then 1 else 0) % 2 ^ 16).toNat
    month := (m % 2 ^ 8).toNat
    day := (d % 2 ^ 8).toNat
    hour := secs / 3600 % 2 ^ 8
    minute := secs / 60 % 60 % 2 ^ 8
    second := secs % 60 % 2 ^ 8 }

/-! ## The dates there are -/

/-- 1970-01-01 -/
def epoch : ℕ := 719528

/-- A date and a time of a day, from 1970 on. -/
structure RtcDatetime.Civil (t : RtcDatetime) : Prop where
  year_ge : 1970 ≤ t.year
  date : IsDate t.year t.month t.day
  hour_lt : t.hour < 24
  minute_lt : t.minute < 60
  second_lt : t.second < 60

/-- The seconds since 1970. -/
def RtcDatetime.seconds (t : RtcDatetime) : ℕ :=
  (dayNumber t.year t.month t.day - epoch) * 86400 + t.hour * 3600 + t.minute * 60 + t.second

theorem era_days (y : ℕ) :
    y / 400 * 146097 + eraStart (y % 400) + y / 100 = 365 * y + y / 4 + y / 400 := by
  rw [eraStart]
  have h4 : y / 4 = 100 * (y / 400) + y % 400 / 4 := by omega
  have h100 : y / 100 = 4 * (y / 400) + y % 400 / 100 := by omega
  omega

/-- In natural numbers, with the year that begins in March. -/
theorem daysFromCivil_of_march {y m d : ℤ} {k mp : ℕ} (hk : (if m ≤ 2 then y - 1 else y) = k)
    (hmp : (m + if 2 < m then -3 else 9) = mp) :
    daysFromCivil y m d =
      (k / 400 * 146097 + eraStart (k % 400) + (153 * mp + 2) / 5 : ℕ) + (d - 1) - 719468 := by
  rw [daysFromCivil]
  simp only [hk, hmp]
  rw [if_pos (Int.natCast_nonneg k), Int.tdiv_eq_ediv_of_nonneg (by omega),
    Int.tdiv_eq_ediv_of_nonneg (by omega), Int.tdiv_eq_ediv_of_nonneg (by omega),
    Int.tdiv_eq_ediv_of_nonneg (by omega), eraStart]
  omega

theorem daysFromCivil_eq {y m d : ℕ} (hy : 1 ≤ y) (hm : 1 ≤ m) (hm' : m ≤ 12) (hd : 1 ≤ d) :
    daysFromCivil y m d = (dayNumber y m d : ℤ) - epoch := by
  by_cases h2 : m ≤ 2
  · obtain ⟨y, rfl⟩ : ∃ k, y = k + 1 := ⟨y - 1, by omega⟩
    have hera := era_days y
    rw [@daysFromCivil_of_march _ _ _ y (m + 9) (by rw [if_pos (by omega)]; omega)
      (by rw [if_neg (by omega)]; omega), dayNumber_early hm h2, epoch]
    omega
  · have hera := era_days y
    rw [@daysFromCivil_of_march _ _ _ y (m - 3) (if_neg (by omega)) (by rw [if_pos (by omega)]; omega),
      dayNumber_late (by omega) hm', epoch]
    omega

/-! ## Splitting -/

/-- The day of a time, counted from the March that begins the first era. -/
def marchDay (t : ℕ) : ℕ := t / 86400 + 719468

/-- The year of its era. -/
def eraYear (t : ℕ) : ℕ := eraEven (marchDay t % 146097) / 365

/-- The day of that year. -/
def yearDay (t : ℕ) : ℕ := marchDay t % 146097 - eraStart (eraYear t)

/-- The month, from March on. -/
def marchMonth (t : ℕ) : ℕ := (5 * yearDay t + 2) / 153

theorem eraYear_spec (t : ℕ) : eraYear t < 400 ∧ eraStart (eraYear t) ≤ marchDay t % 146097 ∧
    marchDay t % 146097 < eraStop (eraYear t) :=
  (eraEven_div_iff (Nat.mod_lt _ (by decide))).mp rfl

theorem yearDay_lt (t : ℕ) : yearDay t < if Leap (eraYear t + 1) then 366 else 365 := by
  obtain ⟨h1, h2, h3⟩ := eraYear_spec t
  rw [eraStop_eq h1] at h3
  rw [yearDay]
  omega

theorem marchMonth_spec (t : ℕ) : marchMonth t ≤ 11 ∧ (153 * marchMonth t + 2) / 5 ≤ yearDay t ∧
    yearDay t + 1 - (153 * marchMonth t + 2) / 5 ≤ monthLength (decide (Leap (eraYear t + 1)))
      (if marchMonth t < 10 then marchMonth t + 3 else marchMonth t - 9) := by
  refine month_of_day _ ?_
  have h := yearDay_lt t
  simpa only [decide_eq_true_eq] using h

theorem eraYear_eq_tdiv (n : ℕ) :
    ((n : ℤ) - (n : ℤ).tdiv 1460 + (n : ℤ).tdiv 36524 - (n : ℤ).tdiv 146096).tdiv 365 =
      (eraEven n / 365 : ℕ) := by
  have hsub : (n : ℤ) - (n : ℤ).tdiv 1460 + (n : ℤ).tdiv 36524 - (n : ℤ).tdiv 146096 = (eraEven n : ℕ) := by
    rw [Int.tdiv_eq_ediv_of_nonneg (Int.natCast_nonneg n), Int.tdiv_eq_ediv_of_nonneg (Int.natCast_nonneg n),
      Int.tdiv_eq_ediv_of_nonneg (Int.natCast_nonneg n), eraEven]
    omega
  rw [hsub]
  rfl

theorem yearDay_eq_tdiv {n r : ℕ} (h : eraStart r ≤ n) :
    (n : ℤ) - (365 * (r : ℤ) + (r : ℤ).tdiv 4 - (r : ℤ).tdiv 100) = (n - eraStart r : ℕ) := by
  rw [Int.tdiv_eq_ediv_of_nonneg (Int.natCast_nonneg r), Int.tdiv_eq_ediv_of_nonneg (Int.natCast_nonneg r)]
  rw [eraStart] at h ⊢
  omega

theorem year_field {a mp : ℕ} (ha : a < 4000) (hmp : mp ≤ 11) :
    (((a : ℤ) + if ((mp : ℤ) + if (mp : ℤ) < 10 then 3 else -9) ≤ 2 then 1 else 0) % 2 ^ 16).toNat =
      a + if mp < 10 then 0 else 1 := by
  by_cases h : mp < 10
  · rw [if_pos (by omega : (mp : ℤ) < 10), if_neg (by omega), if_pos h]
    omega
  · rw [if_neg (by omega : ¬(mp : ℤ) < 10), if_pos (by omega), if_neg h]
    omega

theorem month_field {mp : ℕ} (hmp : mp ≤ 11) :
    (((mp : ℤ) + if (mp : ℤ) < 10 then 3 else -9) % 2 ^ 8).toNat = if mp < 10 then mp + 3 else mp - 9 := by
  by_cases h : mp < 10
  · rw [if_pos (by omega : (mp : ℤ) < 10), if_pos h]
    omega
  · rw [if_neg (by omega : ¬(mp : ℤ) < 10), if_neg h]
    omega

theorem day_field {n k : ℕ} (hle : k ≤ n) (hlt : n + 1 - k ≤ 31) :
    (((n : ℤ) - (k : ℕ) + 1) % 2 ^ 8).toNat = n + 1 - k := by
  omega

/-- What a time is split into, in natural numbers. -/
theorem rtcSplitTime_eq {t : ℕ} (ht : t < 2 ^ 32) :
    rtcSplitTime t =
      { year := eraYear t + marchDay t / 146097 * 400 + if marchMonth t < 10 then 0 else 1
        month := if marchMonth t < 10 then marchMonth t + 3 else marchMonth t - 9
        day := yearDay t + 1 - (153 * marchMonth t + 2) / 5
        hour := t % 86400 / 3600
        minute := t % 86400 / 60 % 60
        second := t % 86400 % 60 } := by
  obtain ⟨h1, h2, -⟩ := eraYear_spec t
  obtain ⟨h4, h5, h6⟩ := marchMonth_spec t
  have hz : ((t / 86400 : ℕ) : ℤ) + 719468 = (marchDay t : ℤ) := rfl
  have hera : (marchDay t : ℤ).tdiv 146097 = (marchDay t / 146097 : ℕ) := rfl
  have hmod : (marchDay t : ℤ) - (marchDay t / 146097 : ℕ) * 146097 = (marchDay t % 146097 : ℕ) := by
    have h := Nat.div_add_mod (marchDay t) 146097
    omega
  have hmp : (5 * (yearDay t : ℤ) + 2).tdiv 153 = (marchMonth t : ℕ) := rfl
  have hd : (153 * (marchMonth t : ℤ) + 2).tdiv 5 = ((153 * marchMonth t + 2) / 5 : ℕ) := rfl
  have hsmall : eraYear t + marchDay t / 146097 * 400 < 4000 := by
    have hdays : marchDay t ≤ 769178 := by
      rw [marchDay]
      omega
    omega
  have htime : t % 86400 < 86400 := Nat.mod_lt _ (by decide)
  rw [rtcSplitTime]
  simp only [hz, if_pos (Int.natCast_nonneg (marchDay t)), hera, hmod, eraYear_eq_tdiv]
  rw [← eraYear, yearDay_eq_tdiv h2, ← yearDay]
  simp only [hmp, hd]
  rw [month_field h4, day_field h5 (h6.trans (monthLength_le _ _))]
  have hyear : (eraYear t : ℤ) + (marchDay t / 146097 : ℕ) * 400 =
      (eraYear t + marchDay t / 146097 * 400 : ℕ) := by
    omega
  rw [hyear, year_field hsmall h4]
  congr 1
  · exact Nat.mod_eq_of_lt (by omega)
  · exact Nat.mod_eq_of_lt (by omega)
  · exact Nat.mod_eq_of_lt (by omega)

theorem isDate_rtcSplitTime (t : ℕ) :
    IsDate (eraYear t + marchDay t / 146097 * 400 + if marchMonth t < 10 then 0 else 1)
      (if marchMonth t < 10 then marchMonth t + 3 else marchMonth t - 9)
      (yearDay t + 1 - (153 * marchMonth t + 2) / 5) := by
  obtain ⟨h1, h2, h3⟩ := marchMonth_spec t
  refine ⟨?_, ?_, by omega, ?_⟩
  · split_ifs <;> omega
  · split_ifs <;> omega
  · refine h3.trans_eq ?_
    rw [monthDays]
    by_cases hmp : marchMonth t < 10
    · rw [if_pos hmp]
      exact monthLength_of_ne (by omega) _ _
    · -- January and February are in the year whose leap day they come to
      have hleap : Leap (eraYear t + marchDay t / 146097 * 400 + 1) ↔ Leap (eraYear t + 1) := by
        rw [← leap_add_mul (eraYear t + 1) (marchDay t / 146097), Nat.add_right_comm, Nat.mul_comm]
      rw [if_neg hmp, if_neg hmp, decide_eq_decide.mpr hleap]

theorem dayNumber_rtcSplitTime (t : ℕ) :
    dayNumber (eraYear t + marchDay t / 146097 * 400 + if marchMonth t < 10 then 0 else 1)
      (if marchMonth t < 10 then marchMonth t + 3 else marchMonth t - 9)
      (yearDay t + 1 - (153 * marchMonth t + 2) / 5) = t / 86400 + epoch := by
  obtain ⟨h1, h2, -⟩ := eraYear_spec t
  obtain ⟨h3, h4, -⟩ := marchMonth_spec t
  obtain ⟨k, hk⟩ : ∃ k, k = eraYear t + marchDay t / 146097 * 400 := ⟨_, rfl⟩
  have hk1 : k / 400 = marchDay t / 146097 := by omega
  have hk2 : k % 400 = eraYear t := by omega
  have hera := era_days k
  have hday : marchDay t / 146097 * 146097 + eraStart (eraYear t) + yearDay t = t / 86400 + 719468 := by
    rw [yearDay, Nat.add_assoc, Nat.add_sub_cancel' h2, Nat.mul_comm]
    exact Nat.div_add_mod (marchDay t) 146097
  rw [← hk, epoch]
  rw [hk1, hk2] at hera
  by_cases hmp : marchMonth t < 10
  · rw [if_pos hmp, if_pos hmp, Nat.add_zero, dayNumber_late (by omega) (by omega), Nat.add_sub_cancel]
    omega
  · rw [if_neg hmp, if_neg hmp, dayNumber_early (by omega) (by omega)]
    omega

theorem dayNumber_epoch : dayNumber 1970 1 1 = epoch := by
  rw [dayNumber_early le_rfl (by decide), epoch]

theorem year_ge_of_epoch_le {y m d : ℕ} (h : IsDate y m d) (hle : epoch ≤ dayNumber y m d) : 1970 ≤ y := by
  by_contra hlt
  have h1 := (dayNumber_mem_year h).2
  have h2 := dayNumber_year_le (show y + 1 ≤ 1970 by omega)
  rw [dayNumber_epoch] at h2
  omega

/-- What a time is split into is a date and a time of a day, and these are its seconds. -/
theorem civil_rtcSplitTime {t : ℕ} (ht : t < 2 ^ 32) :
    (rtcSplitTime t).Civil ∧ (rtcSplitTime t).seconds = t := by
  have hdate := isDate_rtcSplitTime t
  have hnumber := dayNumber_rtcSplitTime t
  have hsecs : t % 86400 < 86400 := Nat.mod_lt _ (by decide)
  rw [RtcDatetime.seconds, rtcSplitTime_eq ht]
  refine ⟨⟨year_ge_of_epoch_le hdate ((Nat.le_add_left ..).trans_eq hnumber.symm), hdate, ?_, ?_, ?_⟩, ?_⟩
  · dsimp only
    omega
  · exact Nat.mod_lt _ (by decide)
  · exact Nat.mod_lt _ (by decide)
  · dsimp only
    rw [hnumber, Nat.add_sub_cancel]
    omega

/-! ## Back and forth -/

theorem RtcDatetime.Civil.epoch_le {c : RtcDatetime} (h : c.Civil) :
    epoch ≤ dayNumber c.year c.month c.day := by
  rw [← dayNumber_epoch]
  exact (dayNumber_year_le h.year_ge).trans (dayNumber_mem_year h.date).1

/-- A date and a time of a day are their seconds, in 32 bits. -/
theorem rtcMakeTime_of_civil {c : RtcDatetime} (h : c.Civil) :
    rtcMakeTime c.year c.month c.day c.hour c.minute c.second = c.seconds % 2 ^ 32 := by
  have hy := h.year_ge
  have hm := h.date.month_pos
  have hm' := h.date.month_le
  have hd := h.date.day_pos
  have hd' : c.day ≤ 31 := h.date.day_le.trans (monthLength_le _ _)
  have hle := h.epoch_le
  rw [rtcMakeTime, if_neg (by omega), daysFromCivil_eq (by omega) hm hm' hd, RtcDatetime.seconds]
  omega

/-- No two dates and times have the same seconds. -/
theorem seconds_inj {c c' : RtcDatetime} (h : c.Civil) (h' : c'.Civil) (heq : c.seconds = c'.seconds) :
    c = c' := by
  have h1 := h.epoch_le
  have h2 := h'.epoch_le
  have h3 := h.hour_lt
  have h4 := h.minute_lt
  have h5 := h.second_lt
  have h3' := h'.hour_lt
  have h4' := h'.minute_lt
  have h5' := h'.second_lt
  rw [RtcDatetime.seconds, RtcDatetime.seconds] at heq
  have hday : dayNumber c.year c.month c.day = dayNumber c'.year c'.month c'.day := by omega
  obtain ⟨hy, hm, hd⟩ := dayNumber_inj h.date h'.date hday
  rw [hday] at heq
  obtain ⟨sec, min, hour, d, m, y⟩ := c
  obtain ⟨sec', min', hour', d', m', y'⟩ := c'
  dsimp only at *
  subst hy hm hd
  obtain ⟨rfl, rfl, rfl⟩ : sec = sec' ∧ min = min' ∧ hour = hour' := by omega
  rfl

/-- A time is made again of what it is split into. -/
theorem rtcMakeTime_rtcSplitTime {t : ℕ} (ht : t < 2 ^ 32) :
    let c := rtcSplitTime t
    rtcMakeTime c.year c.month c.day c.hour c.minute c.second = t := by
  obtain ⟨h, hsec⟩ := civil_rtcSplitTime ht
  dsimp only
  rw [rtcMakeTime_of_civil h, hsec, Nat.mod_eq_of_lt ht]

/-- A date whose seconds fit is had back. -/
theorem rtcSplitTime_rtcMakeTime {c : RtcDatetime} (h : c.Civil) (hfit : c.seconds < 2 ^ 32) :
    rtcSplitTime (rtcMakeTime c.year c.month c.day c.hour c.minute c.second) = c := by
  rw [rtcMakeTime_of_civil h, Nat.mod_eq_of_lt hfit]
  obtain ⟨h', hsec⟩ := civil_rtcSplitTime hfit
  exact seconds_inj h' h hsec

end BananaOS.Clock
