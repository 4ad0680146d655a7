import BananaOS.Clock.Civil
import Mathlib.Tactic.Ring

/-!
# Time zones

`kernel/tz.c`: a table of zones, five rules for summer time, and the way from UTC to local time and back.

The rule is asked for the year that a time is in where it is winter time, and its Sundays are found with
32-bit seconds, which wrap for the months after February 2106; what comes out there is right all the same
(`summer_last`).

* `sunday_eq`: the Sundays that are found are Sundays.
* `summer_north`, `summer_south`: when it is summer in a year, by two instants.
* `repeated_iff`: winter time an hour after summer time is the hour that clocks show a second time.
* `clock_round_trips`: times, dates and local times and back.
-/

namespace BananaOS.Clock

open Lib.Calendar

/-! ## The program -/

/-- `TZR_*` -/
inductive Rule where
  | none
  | eu
  | us
  | au
  | nz
  | cl
  deriving DecidableEq

/-- `tz_zone_t` -/
structure TzZone where
  id : String
  stdMin : ℤ
  rule : Rule

def zones : List TzZone :=
  [⟨"UTC", 0, .none⟩, ⟨"Pacific/Honolulu", -600, .none⟩, ⟨"America/Anchorage", -540, .us⟩,
    ⟨"America/Los_Angeles", -480, .us⟩, ⟨"America/Phoenix", -420, .none⟩, ⟨"America/Denver", -420, .us⟩,
    ⟨"America/Chicago", -360, .us⟩, ⟨"America/Mexico_City", -360, .none⟩, ⟨"America/New_York", -300, .us⟩,
    ⟨"America/Bogota", -300, .none⟩, ⟨"America/Halifax", -240, .us⟩, ⟨"America/Caracas", -240, .none⟩,
    ⟨"America/Santiago", -240, .cl⟩, ⟨"America/St_Johns", -210, .us⟩, ⟨"America/Sao_Paulo", -180, .none⟩,
    ⟨"America/Argentina/Buenos_Aires", -180, .none⟩, ⟨"Atlantic/Azores", -60, .eu⟩,
    ⟨"Atlantic/Reykjavik", 0, .none⟩, ⟨"Europe/London", 0, .eu⟩, ⟨"Africa/Lagos", 60, .none⟩,
    ⟨"Africa/Casablanca", 60, .none⟩, ⟨"Europe/Paris", 60, .eu⟩, ⟨"Europe/Zurich", 60, .eu⟩,
    ⟨"Europe/Berlin", 60, .eu⟩, ⟨"Europe/Rome", 60, .eu⟩, ⟨"Africa/Johannesburg", 120, .none⟩,
    ⟨"Africa/Cairo", 120, .none⟩, ⟨"Europe/Athens", 120, .eu⟩, ⟨"Europe/Helsinki", 120, .eu⟩,
    ⟨"Europe/Istanbul", 180, .none⟩, ⟨"Europe/Moscow", 180, .none⟩, ⟨"Asia/Riyadh", 180, .none⟩,
    ⟨"Africa/Nairobi", 180, .none⟩, ⟨"Asia/Tehran", 210, .none⟩, ⟨"Asia/Dubai", 240, .none⟩,
    ⟨"Asia/Kabul", 270, .none⟩, ⟨"Asia/Karachi", 300, .none⟩, ⟨"Asia/Kolkata", 330, .none⟩,
    ⟨"Asia/Kathmandu", 345, .none⟩, ⟨"Asia/Dhaka", 360, .none⟩, ⟨"Asia/Yangon", 390, .none⟩,
    ⟨"Asia/Bangkok", 420, .none⟩, ⟨"Asia/Shanghai", 480, .none⟩, ⟨"Asia/Singapore", 480, .none⟩,
    ⟨"Australia/Perth", 480, .none⟩, ⟨"Asia/Tokyo", 540, .none⟩, ⟨"Australia/Darwin", 570, .none⟩,
    ⟨"Australia/Adelaide", 570, .au⟩, ⟨"Australia/Brisbane", 600, .none⟩, ⟨"Australia/Sydney", 600, .au⟩,
    ⟨"Pacific/Noumea", 660, .none⟩, ⟨"Pacific/Auckland", 720, .nz⟩, ⟨"Pacific/Fiji", 720, .none⟩,
    ⟨"Pacific/Tongatapu", 780, .none⟩]

def tzGet (i : ℕ) : Option TzZone := zones[i]?

/-- `leap` -/
def isLeap (y : ℕ) : Bool := (y % 4 == 0 && y % 100 != 0) || y % 400 == 0

def mdays (y m : ℕ) : ℕ :=
  [31, 28, 31, 30, 31, 30, 31, 31, 30, 31, 30, 31].getD (m - 1) 0 + if m = 2 ∧ isLeap y then 1 else 0

/-- `while (day + 7 <= mdays(y, m)) day += 7`, with a number of turns. -/
def lastWeek (mdays : ℕ) : ℕ → ℕ → ℕ
  | 0, day => day
  | n + 1, day => if day + 7 ≤ mdays then lastWeek mdays n (day + 7) else day

/-- `sunday` -/
def sunday (y m : ℕ) (n : ℤ) : ℕ :=
  let first := rtcMakeTime y m 1 0 0 0
  let wd := (first / 86400 + 4) % 7
  let day := 1 + (7 - wd) % 7
  let day := if 0 < n then day + 7 * (n - 1).toNat else lastWeek (mdays y m) (mdays y m) day
  (first + (day - 1) * 86400) % 2 ^ 32

def summer (rule : Rule) (std : ℤ) (utc : ℕ) : Bool :=
  let y := (rtcSplitTime ((utc + std) % 2 ^ 32).toNat).year
  let u : ℤ := utc
  match rule with
  | .none => false
  | .eu => u ≥ sunday y 3 (-1) + 3600 && u < sunday y 10 (-1) + 3600
  | .us => u ≥ sunday y 3 2 + 7200 - std && u < sunday y 11 1 + 7200 - (std + 3600)
  | .au => !(u ≥ sunday y 4 1 + 10800 - (std + 3600) && u < sunday y 10 1 + 7200 - std)
  | .nz => u < sunday y 4 1 + 10800 - (std + 3600) || u ≥ sunday y 9 (-1) + 7200 - std
  | .cl => u < sunday y 4 1 + 10800 || u ≥ sunday y 9 1 + 14400

def tzOffsetAt (i utc : ℕ) : ℤ :=
  match tzGet i with
  | none => 0
  | some z => z.stdMin * 60 + if summer z.rule (z.stdMin * 60) utc then 3600 else 0

/-- `tz_to_local` in the zone `i` -/
def tzToLocal (i utc : ℕ) : ℕ := ((utc + tzOffsetAt i utc) % 2 ^ 32).toNat

/-- `tz_to_utc` in the zone `i` -/
def tzToUtc (i loc : ℕ) : ℕ :=
  match tzGet i with
  | none => (loc % 2 ^ 32 : ℤ).toNat
  | some z =>
    let std := z.stdMin * 60
    let w := ((loc - std) % 2 ^ 32).toNat
    if z.rule ≠ .none then
      let s := ((loc - std - 3600) % 2 ^ 32).toNat
      if tzOffsetAt i s = std + 3600 then s else w
    else w

/-! ## When summer time ends -/

/-- The seconds from 1970 to the beginning of a day. -/
def midnight (y m d : ℕ) : ℤ := ((dayNumber y m d : ℤ) - epoch) * 86400

/-- The first Sunday of a month; the first of January of the year 0 was a Saturday. -/
def FirstSunday (y m d : ℕ) : Prop := 1 ≤ d ∧ d ≤ 7 ∧ dayNumber y m d % 7 = 1

/-- The last one. -/
def LastSunday (y m d : ℕ) : Prop := d ≤ monthDays y m ∧ monthDays y m < d + 7 ∧ dayNumber y m d % 7 = 1

/-- The instant at which summer time ends in a year: in Europe at one o'clock UTC, in Chile at three; else by
the clock of summer time, at two in America and at three in Australia and New Zealand. -/
def SummerEnds (rule : Rule) (std : ℤ) (y : ℕ) (e : ℤ) : Prop :=
  match rule with
  | .none => False
  | .eu => ∃ d, LastSunday y 10 d ∧ e = midnight y 10 d + 3600
  | .us => ∃ d, FirstSunday y 11 d ∧ e + std + 3600 = midnight y 11 d + 2 * 3600
  | .au => ∃ d, FirstSunday y 4 d ∧ e + std + 3600 = midnight y 4 d + 3 * 3600
  | .nz => ∃ d, FirstSunday y 4 d ∧ e + std + 3600 = midnight y 4 d + 3 * 3600
  | .cl => ∃ d, FirstSunday y 4 d ∧ e = midnight y 4 d + 3 * 3600

/-- The hour that local clocks show a second time, when summer time has ended. -/
def Repeated (rule : Rule) (std : ℤ) (u : ℕ) : Prop :=
  ∃ y e, SummerEnds rule std y e ∧ e ≤ u ∧ (u : ℤ) < e + 3600

/-! ## Sundays -/

variable {y m d n : ℕ} {rule : Rule} {std e : ℤ} {u : ℕ}

theorem isLeap_eq (y : ℕ) : isLeap y = decide (Leap y) := by
  rw [Bool.eq_iff_iff, decide_eq_true_iff, Leap, isLeap]
  simp

theorem mdays_eq (hm : 1 ≤ m) (hm' : m ≤ 12) : mdays y m = monthDays y m := by
  have hall : ∀ leap, ∀ m < 13, 1 ≤ m → [31, 28, 31, 30, 31, 30, 31, 31, 30, 31, 30, 31].getD (m - 1) 0 +
      (if m = 2 ∧ leap = true then 1 else 0) = monthLength leap m := by decide
  rw [mdays, isLeap_eq, monthDays]
  exact hall _ m (by omega) hm

/-- Weeks are added as long as the day is in the month. -/
theorem lastWeek_spec {k : ℕ} (hle : d ≤ k) (hn : k < d + 7 * (n + 1)) :
    lastWeek k n d ≤ k ∧ k < lastWeek k n d + 7 ∧ d ≤ lastWeek k n d ∧ (lastWeek k n d - d) % 7 = 0 := by
  induction n generalizing d with
  | zero =>
    rw [lastWeek]
    omega
  | succ n ih =>
    rw [lastWeek]
    split_ifs with h
    · obtain ⟨h1, h2, h3, h4⟩ := ih h (by omega)
      exact ⟨h1, h2, by omega, by omega⟩
    · omega

theorem dayNumber_add (y m d : ℕ) : dayNumber y m d = dayNumber y m 1 + (d - 1) := by
  rw [dayNumber, dayNumber, Nat.sub_self, Nat.add_zero]

theorem midnight_bounds (hy : 1970 ≤ y) (hy' : y ≤ 2105) (h : IsDate y m d) :
    epoch ≤ dayNumber y m d ∧ (dayNumber y m d - epoch) * 86400 < 2 ^ 32 := by
  have h1 := dayNumber_mem_year h
  have h2 := dayNumber_year_le hy
  have h3 := dayNumber_year_le (show y + 1 ≤ 2106 by omega)
  have h4 : dayNumber 2106 1 1 = 769201 := dayNumber_early le_rfl (by decide)
  rw [dayNumber_epoch] at h2
  refine ⟨h2.trans h1.1, ?_⟩
  rw [epoch]
  omega

theorem monthDays_ge (y m : ℕ) : 28 ≤ monthDays y m := by
  rw [monthDays, monthLength]
  split_ifs <;> decide

theorem rtcMakeTime_first (hy : 1970 ≤ y) (hy' : y ≤ 2105) (hm : 1 ≤ m) (hm' : m ≤ 12) :
    rtcMakeTime y m 1 0 0 0 = (dayNumber y m 1 - epoch) * 86400 := by
  have hdate : IsDate y m 1 := ⟨hm, hm', le_rfl, by have := monthDays_ge y m; omega⟩
  have hcivil : RtcDatetime.Civil ⟨0, 0, 0, 1, m, y⟩ :=
    ⟨hy, hdate, Nat.succ_pos _, Nat.succ_pos _, Nat.succ_pos _⟩
  have hsec : RtcDatetime.seconds ⟨0, 0, 0, 1, m, y⟩ = (dayNumber y m 1 - epoch) * 86400 := by
    simp [RtcDatetime.seconds]
  have h := rtcMakeTime_of_civil hcivil
  rw [hsec, Nat.mod_eq_of_lt (midnight_bounds hy hy' hdate).2] at h
  exact h

/-- What `sunday` finds: a Sunday in the month. -/
theorem sunday_eq (hy : 1970 ≤ y) (hy' : y ≤ 2105) (hm : 1 ≤ m) (hm' : m ≤ 12) (n : ℤ) (hn : n ≤ 2) :
    ∃ d, FirstSunday y m d ∧ (sunday y m n : ℤ) = midnight y m
      (if 0 < n then d + 7 * (n - 1).toNat else lastWeek (monthDays y m) (monthDays y m) d) := by
  have hfirst : IsDate y m 1 := ⟨hm, hm', le_rfl, by have := monthDays_ge y m; omega⟩
  have hle := (midnight_bounds hy hy' hfirst).1
  have h28 := monthDays_ge y m
  obtain ⟨D, hD⟩ : ∃ D, D = dayNumber y m 1 - epoch := ⟨_, rfl⟩
  obtain ⟨d, hd⟩ : ∃ d, d = 1 + (7 - (D * 86400 / 86400 + 4) % 7) % 7 := ⟨_, rfl⟩
  rw [Nat.mul_div_cancel _ (by decide)] at hd
  have hsun : FirstSunday y m d := by
    refine ⟨by omega, by omega, ?_⟩
    rw [dayNumber_add y m]
    rw [epoch] at hD hle
    omega
  refine ⟨d, hsun, ?_⟩
  obtain ⟨k, hk⟩ : ∃ k, k = if 0 < n then d + 7 * (n - 1).toNat
      else lastWeek (monthDays y m) (monthDays y m) d := ⟨_, rfl⟩
  have hkm : 1 ≤ k ∧ k ≤ monthDays y m := by
    obtain ⟨h1, h2, -⟩ := hsun
    rw [hk]
    split_ifs with hpos
    · omega
    · have h := lastWeek_spec (show d ≤ monthDays y m by omega)
        (show monthDays y m < d + 7 * (monthDays y m + 1) by omega)
      omega
  have hdate : IsDate y m k := ⟨hm, hm', hkm.1, hkm.2⟩
  have hlt := (midnight_bounds hy hy' hdate).2
  rw [sunday, rtcMakeTime_first hy hy' hm hm', mdays_eq hm hm', ← hD]
  rw [Nat.mul_div_cancel _ (by decide), ← hd, ← hk, midnight]
  rw [dayNumber_add y m k] at hlt ⊢
  have hsum : (dayNumber y m 1 + (k - 1) - epoch) * 86400 = D * 86400 + (k - 1) * 86400 := by
    rw [← Nat.add_mul, hD, Nat.sub_add_comm hle]
  rw [Nat.mod_eq_of_lt (hsum ▸ hlt), ← hsum, Nat.cast_mul, Nat.cast_sub (Nat.le_add_right_of_le hle)]
  rfl

theorem sunday_first (hy : 1970 ≤ y) (hy' : y ≤ 2105) (hm : 1 ≤ m) (hm' : m ≤ 12) :
    ∃ d, FirstSunday y m d ∧ (sunday y m 1 : ℤ) = midnight y m d :=
  sunday_eq hy hy' hm hm' 1 (by decide)

theorem sunday_last (hy : 1970 ≤ y) (hy' : y ≤ 2105) (hm : 1 ≤ m) (hm' : m ≤ 12) :
    ∃ d, LastSunday y m d ∧ (sunday y m (-1) : ℤ) = midnight y m d := by
  obtain ⟨d, ⟨h1, h2, h3⟩, heq⟩ := sunday_eq hy hy' hm hm' (-1) (by decide)
  have h28 := monthDays_ge y m
  obtain ⟨h4, h5, h6, h7⟩ := lastWeek_spec (show d ≤ monthDays y m by omega)
    (show monthDays y m < d + 7 * (monthDays y m + 1) by omega)
  refine ⟨_, ⟨h4, h5, ?_⟩, heq⟩
  rw [dayNumber_add y m]
  rw [dayNumber_add y m d] at h3
  omega

theorem sunday_second (hy : 1970 ≤ y) (hy' : y ≤ 2105) (hm : 1 ≤ m) (hm' : m ≤ 12) :
    ∃ d, 8 ≤ d ∧ d ≤ 14 ∧ (sunday y m 2 : ℤ) = midnight y m d := by
  obtain ⟨d, ⟨h1, h2, -⟩, heq⟩ := sunday_eq hy hy' hm hm' 2 (by decide)
  exact ⟨d + 7, by omega, by omega, heq⟩

/-! ## The turns of a year -/

/-- A day from March on, and the end of the year, in seconds from the year's beginning. -/
theorem midnight_late (y : ℕ) (hm : 3 ≤ m) (hm' : m ≤ 12) (hd : 1 ≤ d) : ∃ k : ℕ, k ≤ 1 ∧
    midnight y m d = midnight y 1 1 + ((153 * (m - 3) + 2) / 5 + 58 + k + d : ℕ) * 86400 ∧
      midnight (y + 1) 1 1 = midnight y 1 1 + (365 + k : ℕ) * 86400 := by
  have hday : dayNumber y m d =
      dayNumber y 1 1 + ((153 * (m - 3) + 2) / 5 + 58 + (if Leap y then 1 else 0) + d) := by
    rw [dayNumber, dayNumber, Nat.sub_self, Finset.sum_range_zero]
    simp only [monthDays]
    rw [sum_monthLength _ (by omega) hm', if_neg (by omega)]
    simp only [decide_eq_true_eq]
    omega
  have hyear : dayNumber (y + 1) 1 1 = dayNumber y 1 1 + (365 + if Leap y then 1 else 0) := by
    rw [dayNumber, dayNumber, Nat.sub_self, Finset.sum_range_zero, Finset.sum_range_zero,
      Finset.sum_range_succ, yearDays]
    split_ifs <;> omega
  refine ⟨if Leap y then 1 else 0, by split_ifs <;> omega, ?_, ?_⟩
  · rw [midnight, midnight, hday]
    push_cast
    ring
  · rw [midnight, midnight, hyear]
    push_cast
    ring

/-- Summer time ends in its year, after March and two days before its end at least. -/
theorem SummerEnds.bounds (h : SummerEnds rule std y e) (hstd : -50400 ≤ std) (hstd' : std ≤ 50400) :
    midnight y 1 1 + 7000000 ≤ e + std ∧ e + std + 172800 ≤ midnight (y + 1) 1 1 := by
  have hdays := monthDays_ge y 10
  have h31 : monthDays y 10 ≤ 31 := monthLength_le _ _
  match rule, h with
  | .eu, ⟨d, ⟨h1, h2, _⟩, he⟩ =>
    obtain ⟨k, hk, h3, h4⟩ := midnight_late y (m := 10) (d := d) (by decide) (by decide) (by omega)
    omega
  | .us, ⟨d, ⟨h1, h2, _⟩, he⟩ =>
    obtain ⟨k, hk, h3, h4⟩ := midnight_late y (m := 11) (d := d) (by decide) (by decide) h1
    omega
  | .au, ⟨d, ⟨h1, h2, _⟩, he⟩ =>
    obtain ⟨k, hk, h3, h4⟩ := midnight_late y (m := 4) (d := d) (by decide) (by decide) h1
    omega
  | .nz, ⟨d, ⟨h1, h2, _⟩, he⟩ =>
    obtain ⟨k, hk, h3, h4⟩ := midnight_late y (m := 4) (d := d) (by decide) (by decide) h1
    omega
  | .cl, ⟨d, ⟨h1, h2, _⟩, he⟩ =>
    obtain ⟨k, hk, h3, h4⟩ := midnight_late y (m := 4) (d := d) (by decide) (by decide) h1
    omega

theorem FirstSunday.unique {d' : ℕ} (h : FirstSunday y m d) (h' : FirstSunday y m d') : d = d' := by
  obtain ⟨h1, h2, h3⟩ := h
  obtain ⟨h1', h2', h3'⟩ := h'
  rw [dayNumber_add] at h3 h3'
  omega

theorem LastSunday.unique {d' : ℕ} (h : LastSunday y m d) (h' : LastSunday y m d') : d = d' := by
  obtain ⟨h1, h2, h3⟩ := h
  obtain ⟨h1', h2', h3'⟩ := h'
  have h28 := monthDays_ge y m
  rw [dayNumber_add] at h3 h3'
  omega

theorem SummerEnds.unique {e' : ℤ} (h : SummerEnds rule std y e) (h' : SummerEnds rule std y e') : e = e' := by
  match rule, h, h' with
  | .eu, ⟨d, hd, he⟩, ⟨d', hd', he'⟩ =>
    rw [he, he', hd.unique hd']
  | .us, ⟨d, hd, he⟩, ⟨d', hd', he'⟩ =>
    rw [hd.unique hd'] at he
    omega
  | .au, ⟨d, hd, he⟩, ⟨d', hd', he'⟩ =>
    rw [hd.unique hd'] at he
    omega
  | .nz, ⟨d, hd, he⟩, ⟨d', hd', he'⟩ =>
    rw [hd.unique hd'] at he
    omega
  | .cl, ⟨d, hd, he⟩, ⟨d', hd', he'⟩ =>
    rw [he, he', hd.unique hd']

/-- The year that `summer` looks at. -/
def summerYear (std : ℤ) (u : ℕ) : ℕ := (rtcSplitTime ((u + std) % 2 ^ 32).toNat).year

/-- Where it is summer at the turn of the year. -/
def South (rule : Rule) : Prop := rule = .au ∨ rule = .nz ∨ rule = .cl

theorem summerYear_spec (h : 0 ≤ u + std) (h' : u + std < 2 ^ 32) :
    midnight (summerYear std u) 1 1 ≤ u + std ∧ u + std < midnight (summerYear std u + 1) 1 1 ∧
      1970 ≤ summerYear std u ∧ summerYear std u ≤ 2106 := by
  obtain ⟨v, hv⟩ := Int.eq_ofNat_of_zero_le h
  have hlt : v < 2 ^ 32 := by omega
  have hmod : ((u + std) % 2 ^ 32).toNat = v := by omega
  obtain ⟨hcivil, hsec⟩ := civil_rtcSplitTime hlt
  have hle := hcivil.epoch_le
  have hyear := dayNumber_mem_year hcivil.date
  have h1 := hcivil.hour_lt
  have h2 := hcivil.minute_lt
  have h3 := hcivil.second_lt
  rw [summerYear, hmod, hv, midnight, midnight]
  rw [RtcDatetime.seconds] at hsec
  refine ⟨by omega, by omega, hcivil.year_ge, ?_⟩
  by_contra hgt
  have h4 : dayNumber 2107 1 1 ≤ dayNumber (rtcSplitTime v).year 1 1 := dayNumber_year_le (by omega)
  have h5 : dayNumber 2107 1 1 = 769566 := dayNumber_early le_rfl (by decide)
  rw [epoch] at hle hsec
  omega

/-- In the north it is summer from one Sunday of a year to another. -/
theorem summer_north (hrule : rule = .eu ∨ rule = .us) (hy : 1970 ≤ y) (hy' : y ≤ 2105) :
    ∃ a b : ℤ, SummerEnds rule std y b ∧ midnight y 1 1 + 4000000 ≤ a + (if rule = .eu then 0 else std) ∧
      a + 86400 ≤ b ∧ ∀ u, summerYear std u = y → (summer rule std u = true ↔ a ≤ u ∧ u < b) := by
  rcases hrule with rfl | rfl
  · obtain ⟨d, ⟨h1, h2, h3⟩, hd⟩ := sunday_last hy hy' (m := 3) (by decide) (by decide)
    obtain ⟨d', hsun, hd'⟩ := sunday_last hy hy' (m := 10) (by decide) (by decide)
    have h28 := monthDays_ge y 3
    have h28' := monthDays_ge y 10
    have hle := hsun.1
    have hgt := hsun.2.1
    have h31 : monthDays y 3 ≤ 31 := monthLength_le _ _
    obtain ⟨k, hk, h4, -⟩ := midnight_late y (m := 3) (d := d) (by decide) (by decide) (by omega)
    obtain ⟨k', hk', h4', -⟩ := midnight_late y (m := 10) (d := d') (by decide) (by decide) (by omega)
    refine ⟨midnight y 3 d + 3600, midnight y 10 d' + 3600, ⟨d', hsun, rfl⟩, ?_, ?_, fun u hu => ?_⟩
    · rw [if_pos rfl]
      omega
    · omega
    · rw [summerYear] at hu
      simp only [summer.eq_def, hu, hd, hd', ge_iff_le, Bool.and_eq_true, decide_eq_true_eq]
  · obtain ⟨d, h1, h2, hd⟩ := sunday_second hy hy' (m := 3) (by decide) (by decide)
    obtain ⟨d', hsun, hd'⟩ := sunday_first hy hy' (m := 11) (by decide) (by decide)
    obtain ⟨k, hk, h4, -⟩ := midnight_late y (m := 3) (d := d) (by decide) (by decide) (by omega)
    obtain ⟨k', hk', h4', -⟩ := midnight_late y (m := 11) (d := d') (by decide) (by decide) hsun.1
    refine ⟨midnight y 3 d + 7200 - std, midnight y 11 d' + 7200 - (std + 3600), ⟨d', hsun, by omega⟩, ?_, ?_,
      fun u hu => ?_⟩
    · rw [if_neg (by decide)]
      omega
    · omega
    · rw [summerYear] at hu
      simp only [summer.eq_def, hu, hd, hd', ge_iff_le, Bool.and_eq_true, decide_eq_true_eq]

/-- In the south it is summer but for the time from one Sunday to another. -/
theorem summer_south (hrule : South rule) (hy : 1970 ≤ y) (hy' : y ≤ 2105) (hstd : -50400 ≤ std)
    (hstd' : std ≤ 50400) : ∃ a b : ℤ, SummerEnds rule std y b ∧ a + std + 172800 ≤ midnight (y + 1) 1 1 ∧
      b + 86400 ≤ a ∧ ∀ u, summerYear std u = y → (summer rule std u = true ↔ u < b ∨ a ≤ u) := by
  obtain ⟨d, hsun, hd⟩ := sunday_first hy hy' (m := 4) (by decide) (by decide)
  obtain ⟨k, hk, h4, h5⟩ := midnight_late y (m := 4) (d := d) (by decide) (by decide) hsun.1
  have hle := hsun.2.1
  have h28 := monthDays_ge y 9
  have h31 : monthDays y 9 ≤ 31 := monthLength_le _ _
  rcases hrule with rfl | rfl | rfl
  · obtain ⟨d', ⟨h1, h2, -⟩, hd'⟩ := sunday_first hy hy' (m := 10) (by decide) (by decide)
    obtain ⟨k', hk', h4', h5'⟩ := midnight_late y (m := 10) (d := d') (by decide) (by decide) h1
    refine ⟨midnight y 10 d' + 7200 - std, midnight y 4 d + 10800 - (std + 3600), ⟨d, hsun, by omega⟩, ?_, ?_,
      fun u hu => ?_⟩
    · omega
    · omega
    · rw [summerYear] at hu
      simp only [summer.eq_def, hu, hd, hd', ge_iff_le, Bool.not_eq_true', Bool.and_eq_false_iff,
        decide_eq_false_iff_not, not_le, not_lt]
  · obtain ⟨d', ⟨h1, h2, -⟩, hd'⟩ := sunday_last hy hy' (m := 9) (by decide) (by decide)
    obtain ⟨k', hk', h4', h5'⟩ := midnight_late y (m := 9) (d := d') (by decide) (by decide) (by omega)
    refine ⟨midnight y 9 d' + 7200 - std, midnight y 4 d + 10800 - (std + 3600), ⟨d, hsun, by omega⟩, ?_, ?_,
      fun u hu => ?_⟩
    · omega
    · omega
    · rw [summerYear] at hu
      simp only [summer.eq_def, hu, hd, hd', ge_iff_le, Bool.or_eq_true, decide_eq_true_eq]
  · obtain ⟨d', ⟨h1, h2, -⟩, hd'⟩ := sunday_first hy hy' (m := 9) (by decide) (by decide)
    obtain ⟨k', hk', h4', h5'⟩ := midnight_late y (m := 9) (d := d') (by decide) (by decide) h1
    refine ⟨midnight y 9 d' + 14400, midnight y 4 d + 10800, ⟨d, hsun, by omega⟩, ?_, ?_, fun u hu => ?_⟩
    · omega
    · omega
    · rw [summerYear] at hu
      simp only [summer.eq_def, hu, hd, hd', ge_iff_le, Bool.or_eq_true, decide_eq_true_eq]

/-- In the last weeks of the range, where the Sundays wrap. -/
theorem summer_last (hu : summerYear std u = 2106) (hge : 4291000000 ≤ u) (hstd : -50400 ≤ std)
    (hstd' : std ≤ 50400) : summer rule std u = true ↔ South rule := by
  have h1 : sunday 2106 3 (-1) = 3951104 := by decide +kernel
  have h2 : sunday 2106 10 (-1) = 22699904 := by decide +kernel
  have h3 : sunday 2106 3 2 = 2741504 := by decide +kernel
  have h4 : sunday 2106 11 1 = 23304704 := by decide +kernel
  have h5 : sunday 2106 4 1 = 4555904 := by decide +kernel
  have h6 : sunday 2106 10 1 = 20885504 := by decide +kernel
  have h7 : sunday 2106 9 (-1) = 20280704 := by decide +kernel
  have h8 : sunday 2106 9 1 = 17861504 := by decide +kernel
  rw [summerYear] at hu
  rw [South]
  cases rule with
  | none => simp [summer.eq_def]
  | eu =>
    simp only [summer.eq_def, hu, h1, h2, ge_iff_le, Bool.and_eq_true, decide_eq_true_eq, reduceCtorEq, or_self,
      iff_false]
    omega
  | us =>
    simp only [summer.eq_def, hu, h3, h4, ge_iff_le, Bool.and_eq_true, decide_eq_true_eq, reduceCtorEq, or_self,
      iff_false]
    omega
  | au =>
    simp only [summer.eq_def, hu, h5, h6, ge_iff_le, Bool.not_eq_true', Bool.and_eq_false_iff,
      decide_eq_false_iff_not, true_or, iff_true]
    omega
  | nz =>
    simp only [summer.eq_def, hu, h5, h7, ge_iff_le, Bool.or_eq_true, decide_eq_true_eq, true_or, or_true, iff_true]
    omega
  | cl =>
    simp only [summer.eq_def, hu, h5, h8, ge_iff_le, Bool.or_eq_true, decide_eq_true_eq, or_true, iff_true]
    omega

/-! ## The hour that is repeated -/

theorem midnight_year_le {y' : ℕ} (h : y ≤ y') : midnight y 1 1 ≤ midnight y' 1 1 := by
  have hle := dayNumber_year_le h
  rw [midnight, midnight]
  omega

theorem year_unique {y' : ℕ} {v : ℤ} (h1 : midnight y 1 1 ≤ v) (h2 : v < midnight (y + 1) 1 1)
    (h1' : midnight y' 1 1 ≤ v) (h2' : v < midnight (y' + 1) 1 1) : y = y' := by
  rcases Nat.lt_trichotomy y y' with hlt | heq | hlt
  · have hle := midnight_year_le (show y + 1 ≤ y' from hlt)
    omega
  · exact heq
  · have hle := midnight_year_le (show y' + 1 ≤ y from hlt)
    omega

/-- The hour that is repeated is in the year that `summer` looks at, where summer time ends. -/
theorem Repeated.ends (h : Repeated rule std u) (hstd : -50400 ≤ std) (hstd' : std ≤ 50400)
    (h1 : midnight y 1 1 ≤ u + std) (h2 : u + std < midnight (y + 1) 1 1) :
    ∃ e, SummerEnds rule std y e ∧ e ≤ u ∧ (u : ℤ) < e + 3600 := by
  obtain ⟨y', e, he, hle, hlt⟩ := h
  have hb := he.bounds hstd hstd'
  have hyear : y = y' := year_unique h1 h2 (by omega) (by omega)
  subst hyear
  exact ⟨e, he, hle, hlt⟩

/-- In a year short of the last one, an hour after a time of the same year. -/
theorem repeated_same (hrule : rule ≠ .none) (hstd : -50400 ≤ std) (hstd' : std ≤ 50400) (hu : 3600 ≤ u)
    (hy : 1970 ≤ y) (hy' : y ≤ 2105) (h1 : midnight y 1 1 ≤ u + std) (h2 : u + std < midnight (y + 1) 1 1)
    (hyear : summerYear std u = y) (hyear' : summerYear std (u - 3600) = y) :
    summer rule std u = false ∧ summer rule std (u - 3600) = true ↔ Repeated rule std u := by
  have hcases : (rule = .eu ∨ rule = .us) ∨ South rule := by
    rw [South]
    cases rule <;> simp_all
  rw [← Bool.not_eq_true]
  rcases hcases with hnorth | hsouth
  · obtain ⟨a, b, hb, -, hab, hsummer⟩ := @summer_north y rule std hnorth hy hy'
    rw [hsummer u hyear, hsummer _ hyear']
    constructor
    · intro h
      exact ⟨y, b, hb, by omega, by omega⟩
    · intro h
      obtain ⟨e, he, hle, hlt⟩ := h.ends hstd hstd' h1 h2
      rw [he.unique hb] at hle hlt
      omega
  · obtain ⟨a, b, hb, -, hab, hsummer⟩ := @summer_south y rule std hsouth hy hy' hstd hstd'
    rw [hsummer u hyear, hsummer _ hyear']
    constructor
    · intro h
      exact ⟨y, b, hb, by omega, by omega⟩
    · intro h
      obtain ⟨e, he, hle, hlt⟩ := h.ends hstd hstd' h1 h2
      rw [he.unique hb] at hle hlt
      omega

/-- In the first hour of a year nothing is repeated. -/
theorem repeated_turn {y' : ℕ} (hrule : rule ≠ .none) (hstd : -50400 ≤ std) (hstd' : std ≤ 50400)
    (hu : 3600 ≤ u) (hy : 1970 ≤ y') (hlt : y' < y) (hy' : y ≤ 2106) (h1 : midnight y 1 1 ≤ u + std)
    (h2 : u + std < midnight (y + 1) 1 1) (hyear : summerYear std u = y)
    (hyear' : summerYear std (u - 3600) = y') (h3 : u + std < midnight (y' + 1) 1 1 + 3600) :
    ¬(summer rule std u = false ∧ summer rule std (u - 3600) = true) := by
  have hle := midnight_year_le (show y' + 1 ≤ y from hlt)
  have h2106 : midnight 2106 1 1 = 4291747200 := by
    rw [midnight, dayNumber_early le_rfl (by decide)]
    decide
  have hcases : (rule = .eu ∨ rule = .us) ∨ South rule := by
    rw [South]
    cases rule <;> simp_all
  rw [← Bool.not_eq_true]
  rintro ⟨hnot, hsum⟩
  rcases hcases with hnorth | hsouth
  · obtain ⟨a, b, hb, -, -, hsummer⟩ := @summer_north y' rule std hnorth hy (by omega)
    have hbound := hb.bounds hstd hstd'
    rw [hsummer _ hyear'] at hsum
    omega
  · rcases Nat.lt_or_ge 2105 y with h | h
    · obtain rfl : y = 2106 := by omega
      exact hnot ((summer_last hyear (by omega) hstd hstd').mpr hsouth)
    · obtain ⟨a, b, hb, -, -, hsummer⟩ := @summer_south y rule std hsouth (by omega) h hstd hstd'
      have hbound := hb.bounds hstd hstd'
      rw [hsummer u hyear] at hnot
      omega

/-- Winter time an hour after summer time: that is the hour that is repeated. -/
theorem repeated_iff (hrule : rule ≠ .none) (hstd : -50400 ≤ std) (hstd' : std ≤ 50400) (hu : 86400 ≤ u)
    (hu' : u + 86400 < 2 ^ 32) :
    summer rule std u = false ∧ summer rule std (u - 3600) = true ↔ Repeated rule std u := by
  obtain ⟨h1, h2, h3, h4⟩ := @summerYear_spec std u (by omega) (by omega)
  obtain ⟨h1', h2', h3', h4'⟩ := @summerYear_spec std (u - 3600) (by omega) (by omega)
  have h2106 : midnight 2106 1 1 = 4291747200 := by
    rw [midnight, dayNumber_early le_rfl (by decide)]
    decide
  generalize hyear : summerYear std u = y at h1 h2 h3 h4
  generalize hyear' : summerYear std (u - 3600) = y' at h1' h2' h3' h4'
  have hnone : (y = 2106 ∨ y' < y) → ¬Repeated rule std u := by
    intro h hr
    obtain ⟨e, he, hle, hlt⟩ := hr.ends hstd hstd' h1 h2
    have hb := he.bounds hstd hstd'
    rcases h with rfl | h
    · omega
    · have hle := midnight_year_le (show y' + 1 ≤ y from h)
      omega
  rcases Nat.lt_trichotomy y' y with hlt | rfl | hlt
  · refine iff_of_false ?_ (hnone (.inr hlt))
    exact repeated_turn hrule hstd hstd' (by omega) h3' hlt h4 h1 h2 hyear hyear' (by omega)
  · rcases Nat.lt_or_ge 2105 y' with h | h
    · obtain rfl : y' = 2106 := by omega
      refine iff_of_false ?_ (hnone (.inl rfl))
      rw [← Bool.not_eq_true, summer_last hyear (by omega) hstd hstd',
        summer_last hyear' (by omega) hstd hstd']
      exact fun h => h.1 h.2
    · exact repeated_same hrule hstd hstd' (by omega) h3 h h1 h2 hyear hyear'
  · have hle := midnight_year_le (show y + 1 ≤ y' from hlt)
    omega

/-! ## Back and forth -/

theorem zones_std {i : ℕ} {z : TzZone} (h : tzGet i = some z) :
    -50400 ≤ z.stdMin * 60 ∧ z.stdMin * 60 ≤ 50400 := by
  have hall : ∀ z ∈ zones, -840 ≤ z.stdMin ∧ z.stdMin ≤ 840 := by decide
  have hz := hall z (List.mem_of_getElem? h)
  omega

theorem tzOffsetAt_eq {i : ℕ} {z : TzZone} (h : tzGet i = some z) (u : ℕ) :
    tzOffsetAt i u = z.stdMin * 60 + if summer z.rule (z.stdMin * 60) u then 3600 else 0 := by
  rw [tzOffsetAt, h]

/-- A time comes back from its local time, but for the hour that is repeated: it comes back as the time an
hour before. -/
theorem tzToUtc_tzToLocal {i : ℕ} {z : TzZone} (h : tzGet i = some z) (hu : 86400 ≤ u)
    (hu' : u + 86400 < 2 ^ 32) : (¬Repeated z.rule (z.stdMin * 60) u → tzToUtc i (tzToLocal i u) = u) ∧
      (Repeated z.rule (z.stdMin * 60) u → tzToUtc i (tzToLocal i u) = u - 3600) := by
  obtain ⟨hstd, hstd'⟩ := zones_std h
  generalize hs : z.stdMin * 60 = std at hstd hstd'
  have hoff := tzOffsetAt_eq h u
  rw [hs] at hoff
  have hlocal : (tzToLocal i u : ℤ) = u + tzOffsetAt i u := by
    rw [tzToLocal, hoff]
    split_ifs <;> omega
  rw [hoff] at hlocal
  rw [tzToUtc, h]
  simp only [hs, hlocal]
  by_cases hrule : z.rule = .none
  · have hsum : summer z.rule std u = false := by
      rw [hrule, summer.eq_def]
    rw [if_neg (by simpa using hrule), hsum, if_neg (by decide)]
    refine ⟨fun _ => by omega, ?_⟩
    rintro ⟨y, e, he, -⟩
    rw [hrule] at he
    exact he.elim
  · have hiff := repeated_iff hrule hstd hstd' hu hu'
    rw [if_pos hrule]
    cases hsum : summer z.rule std u with
    | true =>
      have hback : ((u + (std + 3600) - std - 3600) % 2 ^ 32 : ℤ).toNat = u := by omega
      simp only [if_true]
      rw [hback, hoff, hsum, if_pos rfl, if_pos rfl]
      refine ⟨fun _ => rfl, fun hr => ?_⟩
      have h1 := (hiff.mpr hr).1
      rw [hsum] at h1
      cases h1
    | false =>
      have hback : ((u + (std + 0) - std - 3600) % 2 ^ 32 : ℤ).toNat = u - 3600 := by omega
      have hback' : ((u + (std + 0) - std) % 2 ^ 32 : ℤ).toNat = u := by omega
      simp only [Bool.false_eq_true, if_false]
      rw [hback, hback', tzOffsetAt_eq h, hs]
      cases hsum' : summer z.rule std (u - 3600) with
      | true =>
        rw [if_pos rfl, if_pos rfl]
        exact ⟨fun hr => absurd (hiff.mp ⟨hsum, hsum'⟩) hr, fun _ => rfl⟩
      | false =>
        simp only [Bool.false_eq_true, if_false]
        rw [if_neg (by omega)]
        refine ⟨fun _ => rfl, fun hr => ?_⟩
        have h1 := (hiff.mpr hr).2
        rw [hsum'] at h1
        cases h1

/-- Times and dates are had back from each other, and times from local times, but for one hour a year. -/
theorem clock_round_trips :
    (∀ t < 2 ^ 32, let c := rtcSplitTime t
      rtcMakeTime c.year c.month c.day c.hour c.minute c.second = t) ∧
    (∀ c : RtcDatetime, c.Civil → c.seconds < 2 ^ 32 →
      rtcSplitTime (rtcMakeTime c.year c.month c.day c.hour c.minute c.second) = c) ∧
    ∀ i z, tzGet i = some z → ∀ u, 86400 ≤ u → u + 86400 < 2 ^ 32 →
      (¬Repeated z.rule (z.stdMin * 60) u → tzToUtc i (tzToLocal i u) = u) ∧
      (Repeated z.rule (z.stdMin * 60) u → tzToUtc i (tzToLocal i u) = u - 3600) ∧
      ∀ y e e', SummerEnds z.rule (z.stdMin * 60) y e → SummerEnds z.rule (z.stdMin * 60) y e' → e = e' := by
  refine ⟨fun t ht => rtcMakeTime_rtcSplitTime ht, fun c hc hfit => rtcSplitTime_rtcMakeTime hc hfit,
    fun i z h u hu hu' => ?_⟩
  obtain ⟨h1, h2⟩ := tzToUtc_tzToLocal h hu hu'
  exact ⟨h1, h2, fun y e e' he he' => he.unique he'⟩

theorem clock_round_trips_2024 :
    rtcSplitTime (rtcMakeTime 2024 2 29 23 59 59) = ⟨59, 59, 23, 29, 2, 2024⟩ ∧
      (let c := rtcSplitTime 1709251199;
        rtcMakeTime c.year c.month c.day c.hour c.minute c.second = 1709251199) ∧
      tzToUtc 21 (tzToLocal 21 1729990800) = 1729990800 - 3600 := by
  have hfeb : dayNumber 2024 2 29 = 739310 := dayNumber_early (by decide) (by decide)
  have hoct : dayNumber 2024 10 27 = 739551 := dayNumber_late (by decide) (by decide)
  have hsecs : RtcDatetime.seconds ⟨59, 59, 23, 29, 2, 2024⟩ = 1709251199 := by
    rw [RtcDatetime.seconds, hfeb]
    rfl
  have hends : SummerEnds .eu (60 * 60) 2024 1729990800 := by
    refine ⟨27, ⟨by decide, by decide, by rw [hoct]⟩, ?_⟩
    rw [midnight, hoct, epoch]
    decide
  refine ⟨?_, clock_round_trips.1 1709251199 (by decide), ?_⟩
  · exact clock_round_trips.2.1 ⟨59, 59, 23, 29, 2, 2024⟩
      ⟨by decide, ⟨by decide, by decide, by decide, by decide⟩, by decide, by decide, by decide⟩
      (by rw [hsecs]; decide)
  · exact (clock_round_trips.2.2 21 ⟨"Europe/Paris", 60, .eu⟩ rfl 1729990800 (by decide) (by decide)).2.1
      ⟨2024, _, hends, by decide, by decide⟩

end BananaOS.Clock
