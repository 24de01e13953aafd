/-
# An instant and the window of its day file
-/

import Sysak.Fox.Date

namespace Sysak.Fox

structure Zone where
  gmtoff : ℤ
  lower : -2 ^ 31 < gmtoff
  upper : gmtoff < 2 ^ 31

def utcDay (us : UInt64) : ℕ := us.toNat / 1000000 / 86400

def utcSecond (us : UInt64) : ℕ := us.toNat / 1000000 % 86400

def FoxDate.dayNumber (d : FoxDate) : ℤ :=
  daysFromCivil (d.year + 1900 + d.mon / 12) (d.mon % 12 + 1) d.mday

def dayMicros : ℤ := 86400 * 1000000

def firstMicros (gmtoff : ℤ) (d : FoxDate) : ℤ := (d.dayNumber * 86400 - gmtoff) * 1000000

theorem toNat_ofInt_mul_microUnit (t : ℤ) :
    ((UInt64.ofInt t * microUnit).toNat : ℤ) = t * 1000000 % 2 ^ 64 := by
  have hmicro : microUnit.toNat = 1000000 := by decide
  rw [UInt64.toNat_mul, hmicro, UInt64.ofInt, UInt64.toNat_ofNat']
  omega

theorem toNat_dayFirst (gmtoff : ℤ) (d : FoxDate) :
    ((dayFirst gmtoff d).toNat : ℤ) = firstMicros gmtoff d % 2 ^ 64 := by
  rw [dayFirst, makeStamp, toNat_ofInt_mul_microUnit]
  simp [mktime, date2tm, firstMicros, FoxDate.dayNumber]

theorem toNat_dayEnd (gmtoff : ℤ) (d : FoxDate) :
    ((dayEnd gmtoff d).toNat : ℤ) = (firstMicros gmtoff d + dayMicros) % 2 ^ 64 := by
  have hday : (24 * 60 * 60 * microUnit).toNat = 86400000000 := by decide
  have hfirst := toNat_dayFirst gmtoff d
  rw [dayEnd, UInt64.toNat_add, hday, dayMicros]
  omega

theorem foxRead_of_checkPmanDate {man : FoxManager} {d : FoxDate}
    (h : checkPmanDate man d = true) (gmtoff : ℤ) :
    foxReadInitNow gmtoff man = dayFirst gmtoff d ∧ foxReadDayMax gmtoff man = dayEnd gmtoff d := by
  simp only [checkPmanDate, Bool.and_eq_true, beq_iff_eq] at h
  obtain ⟨⟨hy, hm⟩, hd⟩ := h
  simp [foxReadInitNow, foxReadDayMax, FoxManager.midnight, dayFirst, dayEnd, hy, hm, hd]

theorem mem_window_iff {first : ℤ} (hlow : -2 ^ 63 < first) (hhigh : first < 2 ^ 63) (u : ℤ) :
    (first % 2 ^ 64 ≤ u ∧ u < (first + dayMicros) % 2 ^ 64) ↔
      (0 ≤ first ∧ first ≤ u ∧ u < first + dayMicros) ∨
        (first + dayMicros < 0 ∧ first + 2 ^ 64 ≤ u ∧ u < first + dayMicros + 2 ^ 64) := by
  unfold dayMicros
  rcases lt_or_ge first 0 with hneg | hpos
  · rcases lt_or_ge (first + 86400 * 1000000) 0 with hneg' | hpos'
    · rw [show first % 2 ^ 64 = first + 2 ^ 64 by omega,
        show (first + 86400 * 1000000) % 2 ^ 64 = first + 86400 * 1000000 + 2 ^ 64 by omega]
      omega
    · rw [show first % 2 ^ 64 = first + 2 ^ 64 by omega,
        show (first + 86400 * 1000000) % 2 ^ 64 = first + 86400 * 1000000 by omega]
      omega
  · rw [Int.emod_eq_of_lt hpos (by omega), Int.emod_eq_of_lt (by omega) (by omega)]
    omega

theorem daysFromCivil_sub (y k m d : ℤ) :
    146097 * k - 1600 ≤ 400 * (daysFromCivil y m d - daysFromCivil (y - k) m d) ∧
      400 * (daysFromCivil y m d - daysFromCivil (y - k) m d) ≤ 146097 * k + 1600 := by
  unfold daysFromCivil
  simp only
  split_ifs <;> omega

theorem dayNumber_tm2date (t : ℕ) {y m d : ℤ} (hciv : civilFromDays (t / 86400 : ℕ) = (y, m, d)) :
    (tm2date (gmtime t)).dayNumber =
      daysFromCivil (y - (y - 1900 + 2 ^ 15) / 2 ^ 16 * 2 ^ 16) m d := by
  obtain ⟨-, -, -, hm₀, hm₁⟩ := civilFromDays_spec ((t / 86400 : ℕ) : ℤ)
  simp only [hciv] at hm₀ hm₁
  simp only [FoxDate.dayNumber, tm2date, gmtime, hciv, toShort]
  rw [show (m - 1) % 12 + 1 = m by omega]
  congr 1
  omega

theorem dayNumber_of_fits {t : ℕ} (hfits : (civilFromDays (t / 86400 : ℕ)).1 ≤ 34667) :
    (tm2date (gmtime t)).dayNumber = (t / 86400 : ℕ) := by
  obtain ⟨hinv, hy, -⟩ := civilFromDays_spec ((t / 86400 : ℕ) : ℤ)
  rcases hciv : civilFromDays ((t / 86400 : ℕ) : ℤ) with ⟨y, m, d⟩
  simp only [hciv] at hy hfits hinv
  rw [dayNumber_tm2date t hciv, show (y - 1900 + 2 ^ 15) / 2 ^ 16 = 0 by omega]
  simpa using hinv

theorem dayNumber_of_wraps {t : ℕ} (hwrap : 34667 < (civilFromDays (t / 86400 : ℕ)).1) :
    ∃ back : ℤ, (tm2date (gmtime t)).dayNumber = (t / 86400 : ℕ) - back ∧ 23000000 ≤ back ∧
      (back ≤ 192000000 ∨ 215000000 ≤ back) ∧
      -14000000 ≤ (t / 86400 : ℕ) - back ∧ (t / 86400 : ℕ) - back ≤ 14000000 := by
  obtain ⟨hinv, hy₀, hy₁, -⟩ := civilFromDays_spec ((t / 86400 : ℕ) : ℤ)
  rcases hciv : civilFromDays ((t / 86400 : ℕ) : ℤ) with ⟨y, m, d⟩
  simp only [hciv] at hy₀ hy₁ hwrap hinv
  rw [dayNumber_tm2date t hciv]
  generalize hj : (y - 1900 + 2 ^ 15) / 2 ^ 16 = j
  obtain ⟨hsub₀, hsub₁⟩ := daysFromCivil_sub y (j * 2 ^ 16) m d
  rw [hinv] at hsub₀ hsub₁
  generalize daysFromCivil (y - j * 2 ^ 16) m d = number at hsub₀ hsub₁ ⊢
  generalize t / 86400 = day at *
  have hj₁ : 1 ≤ j := by omega
  have hj₈ : j ≤ 8 ∨ 9 ≤ j := by omega
  refine ⟨day - number, by omega, by omega, ?_, by omega, by omega⟩
  rcases hj₈ with hj₈ | hj₈
  · left
    omega
  · right
    omega

theorem toNat_eq_utc (us : UInt64) :
    ∃ micros : ℕ, micros < 1000000 ∧
      us.toNat = (utcDay us * 86400 + utcSecond us) * 1000000 + micros := by
  refine ⟨us.toNat % 1000000, Nat.mod_lt _ (by decide), ?_⟩
  unfold utcDay utcSecond
  omega

theorem utcSecond_lt (us : UInt64) : utcSecond us < 86400 := Nat.mod_lt _ (by decide)

theorem utcDay_lt_of_fits {n : ℕ} (hfits : (civilFromDays n).1 ≤ 34667) : n < 12000000 := by
  obtain ⟨-, hyear, -⟩ := civilFromDays_spec n
  omega

variable {us : UInt64}

theorem dayNumber_getDateFromUs_of_fits (hfits : (civilFromDays (utcDay us)).1 ≤ 34667) :
    (getDateFromUs us).dayNumber = utcDay us := by
  rw [getDateFromUs, UInt64.toNat_div]
  exact dayNumber_of_fits hfits

theorem dayNumber_getDateFromUs_of_wraps (hwrap : 34667 < (civilFromDays (utcDay us)).1) :
    ∃ back : ℤ, (getDateFromUs us).dayNumber = utcDay us - back ∧ 23000000 ≤ back ∧
      (back ≤ 192000000 ∨ 215000000 ≤ back) ∧
      -14000000 ≤ utcDay us - back ∧ utcDay us - back ≤ 14000000 := by
  rw [getDateFromUs, UInt64.toNat_div]
  exact dayNumber_of_wraps hwrap

theorem mem_day_iff (z : Zone) (us : UInt64) :
    (dayFirst z.gmtoff (getDateFromUs us) ≤ us ∧ us < dayEnd z.gmtoff (getDateFromUs us)) ↔
      (civilFromDays (utcDay us)).1 ≤ 34667 ∧ z.gmtoff ≤ utcDay us * 86400 ∧
        0 ≤ utcSecond us + z.gmtoff ∧ utcSecond us + z.gmtoff < 86400 := by
  obtain ⟨micros, hmicros, hus⟩ := toNat_eq_utc us
  have hsec := utcSecond_lt us
  have hlow := z.lower
  have hhigh := z.upper
  have hlt := us.toNat_lt
  rw [UInt64.le_iff_toNat_le, UInt64.lt_iff_toNat_lt, ← Int.ofNat_le, ← Int.ofNat_lt,
    toNat_dayFirst, toNat_dayEnd]
  rcases le_or_gt (civilFromDays (utcDay us)).1 34667 with hfits | hwrap
  · have hday := utcDay_lt_of_fits hfits
    have hfirst : firstMicros z.gmtoff (getDateFromUs us) =
        (utcDay us * 86400 - z.gmtoff) * 1000000 := by
      rw [firstMicros, dayNumber_getDateFromUs_of_fits hfits]
    rw [hfirst, mem_window_iff (by omega) (by omega), dayMicros]
    omega
  · obtain ⟨back, hnumber, hback, hround, hn₀, hn₁⟩ := dayNumber_getDateFromUs_of_wraps hwrap
    have hfirst : firstMicros z.gmtoff (getDateFromUs us) =
        ((utcDay us - back) * 86400 - z.gmtoff) * 1000000 := by
      rw [firstMicros, hnumber]
    rw [hfirst, mem_window_iff (by omega) (by omega), dayMicros]
    omega

theorem utcDay_add_day (hday : utcDay us < 12000000) :
    utcDay (us + 24 * 60 * 60 * microUnit) = utcDay us + 1 := by
  have hmicros : (24 * 60 * 60 * microUnit).toNat = 86400000000 := by decide
  unfold utcDay at *
  rw [UInt64.toNat_add, hmicros, Nat.mod_eq_of_lt (by omega)]
  omega

theorem eq_zero_of_dayMicros {days : ℤ} (hlow : -2 ^ 27 < days) (hhigh : days < 2 ^ 27)
    (h : days * dayMicros % 2 ^ 64 = 0) : days = 0 := by
  have hzero : days * dayMicros = 0 := by
    refine Int.eq_zero_of_abs_lt_dvd (Int.dvd_of_emod_eq_zero h) ?_
    rw [dayMicros, abs_lt]
    constructor <;> omega
  exact (mul_eq_zero.mp hzero).resolve_right (by decide)

theorem end_eq_first_iff {n n' : ℤ} (gmtoff : ℤ) (hlow : -2 ^ 26 < n' - n)
    (hhigh : n' - n < 2 ^ 26) :
    ((n * 86400 - gmtoff) * 1000000 + dayMicros) % 2 ^ 64 =
        (n' * 86400 - gmtoff) * 1000000 % 2 ^ 64 ↔ n' = n + 1 := by
  have hsub : (n * 86400 - gmtoff) * 1000000 + dayMicros - (n' * 86400 - gmtoff) * 1000000 =
      (n + 1 - n') * dayMicros := by
    unfold dayMicros
    ring
  rw [Int.emod_eq_emod_iff_emod_sub_eq_zero, hsub]
  constructor
  · intro h
    have hdays := eq_zero_of_dayMicros (by omega) (by omega) h
    omega
  · rintro rfl
    simp

theorem dayEnd_eq_iff (gmtoff : ℤ) (hfits : (civilFromDays (utcDay us)).1 ≤ 34667) :
    dayEnd gmtoff (getDateFromUs us) =
        dayFirst gmtoff (getDateFromUs (us + 24 * 60 * 60 * microUnit)) ↔
      (civilFromDays (utcDay us + 1)).1 ≤ 34667 := by
  have hday := utcDay_lt_of_fits hfits
  have hnext := utcDay_add_day hday
  generalize us + 24 * 60 * 60 * microUnit = us' at *
  have hcast : ((utcDay us : ℕ) : ℤ) + 1 = utcDay us' := by rw [hnext]; rfl
  rw [← UInt64.toNat_inj, ← Int.natCast_inj, toNat_dayEnd, toNat_dayFirst, firstMicros, firstMicros,
    dayNumber_getDateFromUs_of_fits hfits, hcast]
  rcases le_or_gt (civilFromDays (utcDay us')).1 34667 with hfits' | hwrap
  · rw [dayNumber_getDateFromUs_of_fits hfits', end_eq_first_iff gmtoff (by omega) (by omega)]
    exact ⟨fun _ => hfits', fun _ => hcast.symm⟩
  · obtain ⟨back, hnumber, hback, -, hn₀, -⟩ := dayNumber_getDateFromUs_of_wraps hwrap
    rw [hnumber, end_eq_first_iff gmtoff (by omega) (by omega)]
    omega

theorem inWindow_iff (z : Zone) (us : UInt64) (man man' : FoxManager)
    (hman : checkPmanDate man (getDateFromUs us) = true)
    (hman' : checkPmanDate man' (getDateFromUs (us + 24 * 60 * 60 * microUnit)) = true) :
    (foxReadInitNow z.gmtoff man ≤ us ∧ us < foxReadDayMax z.gmtoff man ∧
        foxReadDayMax z.gmtoff man = foxReadInitNow z.gmtoff man') ↔
      (0 ≤ utcSecond us + z.gmtoff ∧ utcSecond us + z.gmtoff < 86400) ∧
        z.gmtoff ≤ utcDay us * 86400 ∧ (civilFromDays (utcDay us)).1 ≤ 34667 ∧
        (civilFromDays (utcDay us + 1)).1 ≤ 34667 := by
  obtain ⟨hfirst, hend⟩ := foxRead_of_checkPmanDate hman z.gmtoff
  obtain ⟨hfirst', -⟩ := foxRead_of_checkPmanDate hman' z.gmtoff
  rw [hfirst, hend, hfirst', ← and_assoc, mem_day_iff]
  constructor
  · rintro ⟨⟨hfits, hepoch, hlocal₀, hlocal₁⟩, hmeet⟩
    exact ⟨⟨hlocal₀, hlocal₁⟩, hepoch, hfits, (dayEnd_eq_iff z.gmtoff hfits).mp hmeet⟩
  · rintro ⟨⟨hlocal₀, hlocal₁⟩, hepoch, hfits, hfits'⟩
    exact ⟨⟨hfits, hepoch, hlocal₀, hlocal₁⟩, (dayEnd_eq_iff z.gmtoff hfits).mpr hfits'⟩

def FoxManager.ofUs (us : UInt64) : FoxManager :=
  { FoxManager.zero with
    year := (getDateFromUs us).year
    mon := (getDateFromUs us).mon
    mday := (getDateFromUs us).mday }

def east8 : Zone := ⟨28800, by decide, by decide⟩

theorem inWindow_sample :
    foxReadInitNow 28800 (.ofUs 1671000000000000) ≤ 1671000000000000 ∧
      1671000000000000 < foxReadDayMax 28800 (.ofUs 1671000000000000) ∧
      foxReadDayMax 28800 (.ofUs 1671000000000000) =
        foxReadInitNow 28800 (.ofUs 1671086400000000) :=
  (inWindow_iff east8 1671000000000000 (.ofUs 1671000000000000) (.ofUs 1671086400000000)
    (by decide) (by decide)).mpr (by decide)

theorem inWindow_misses :
    checkPmanDate (.ofUs 1671048000000000) (getDateFromUs 1671048000000000) = true ∧
      foxReadDayMax 28800 (.ofUs 1671048000000000) ≤ 1671048000000000 := by
  decide

end Sysak.Fox
