/-
# Dates, stamps and file names
-/

import Sysak.Fox.Basic

namespace Sysak.Fox

variable {us : UInt64}

structure Tm where
  year : ℤ
  mon : ℤ
  mday : ℤ
  hour : ℤ
  min : ℤ
  sec : ℤ
  deriving DecidableEq, Repr

def civilFromDays (n : ℤ) : ℤ × ℤ × ℤ :=
  let z := n + 719468
  let doe := z % 146097
  let c := min (doe / 36524) 3
  let doc := doe - 36524 * c
  let q := doc / 1461
  let doq := doc - 1461 * q
  let a := min (doq / 365) 3
  let doy := doq - 365 * a
  let mp := (5 * doy + 2) / 153
  let m := if mp < 10 then mp + 3 else mp - 9
  (100 * c + 4 * q + a + z / 146097 * 400 + (if m ≤ 2 then 1 else 0), m,
    doy - (153 * mp + 2) / 5 + 1)

def daysFromCivil (y m d : ℤ) : ℤ :=
  let y' := if m ≤ 2 then y - 1 else y
  let yoe := y' % 400
  let mp := if 2 < m then m - 3 else m + 9
  let doy := (153 * mp + 2) / 5 + d - 1
  y' / 400 * 146097 + (yoe * 365 + yoe / 4 - yoe / 100 + doy) - 719468

theorem doe_eq_yoe_doy {doe c doc q doq a yoe doy : ℤ} (h₀ : 0 ≤ doe) (h₁ : doe < 146097)
    (hc : min (doe / 36524) 3 = c) (hdoc : doe - 36524 * c = doc) (hq : doc / 1461 = q)
    (hdoq : doc - 1461 * q = doq) (ha : min (doq / 365) 3 = a)
    (hy : 100 * c + 4 * q + a = yoe) (hd : doq - 365 * a = doy) :
    0 ≤ yoe ∧ yoe < 400 ∧ 0 ≤ doy ∧ doy < 366 ∧
      doe = yoe * 365 + yoe / 4 - yoe / 100 + doy := by
  have hq₁ : 0 ≤ q ∧ q < 25 := by omega
  have ha₁ : 0 ≤ a ∧ a < 4 := by omega
  have hcent : yoe / 100 = c := by omega
  have hleap : yoe / 4 = 25 * c + q := by omega
  omega

theorem civilFromDays_spec (n : ℤ) :
    daysFromCivil (civilFromDays n).1 (civilFromDays n).2.1 (civilFromDays n).2.2 = n ∧
      (n + 719468) / 146097 * 400 ≤ (civilFromDays n).1 ∧
      (civilFromDays n).1 ≤ (n + 719468) / 146097 * 400 + 400 ∧
      1 ≤ (civilFromDays n).2.1 ∧ (civilFromDays n).2.1 ≤ 12 := by
  unfold daysFromCivil civilFromDays
  simp only
  generalize hz : n + 719468 = z
  generalize hdoe : z % 146097 = doe
  generalize hc : min (doe / 36524) 3 = c
  generalize hdoc : doe - 36524 * c = doc
  generalize hq : doc / 1461 = q
  generalize hdoq : doc - 1461 * q = doq
  generalize ha : min (doq / 365) 3 = a
  generalize hyoe : 100 * c + 4 * q + a = yoe
  generalize hdoy : doq - 365 * a = doy
  obtain ⟨hy₀, hy₁, hd₀, hd₁, hdec⟩ :=
    doe_eq_yoe_doy (by omega) (by omega) hc hdoc hq hdoq ha hyoe hdoy
  clear hc hdoc hq hdoq ha hyoe hdoy
  generalize hmp : (5 * doy + 2) / 153 = mp
  have hmp₁ : 0 ≤ mp ∧ mp < 12 := by omega
  have hera : (yoe + z / 146097 * 400) / 400 = z / 146097 := by omega
  have hmod : (yoe + z / 146097 * 400) % 400 = yoe := by omega
  by_cases hm : mp < 10
  · have e₁ : ¬ (mp + 3 ≤ 2) := by omega
    have e₂ : 2 < mp + 3 := by omega
    simp only [hm, e₁, e₂, if_true, if_false, add_zero, hera, hmod]
    omega
  · have e₁ : mp - 9 ≤ 2 := by omega
    have e₂ : ¬ (2 < mp - 9) := by omega
    simp only [hm, e₁, e₂, if_true, if_false, add_sub_cancel_right, hera, hmod]
    omega

def gmtime (t : ℕ) : Tm :=
  let civil := civilFromDays (t / 86400 : ℕ)
  let rem := t % 86400
  ⟨civil.1 - 1900, civil.2.1 - 1, civil.2.2, (rem / 3600 : ℕ), (rem % 3600 / 60 : ℕ),
    (rem % 60 : ℕ)⟩

def mktime (gmtoff : ℤ) (tm : Tm) : ℤ :=
  daysFromCivil (tm.year + 1900 + tm.mon / 12) (tm.mon % 12 + 1) tm.mday * 86400 +
    tm.hour * 3600 + tm.min * 60 + tm.sec - gmtoff

def toShort (z : ℤ) : ℤ := (z + 2 ^ 15) % 2 ^ 16 - 2 ^ 15

def tm2date (tm : Tm) : FoxDate :=
  ⟨toShort tm.year, tm.mon, tm.mday, tm.hour, tm.min, tm.sec⟩

def date2tm (d : FoxDate) : Tm := ⟨d.year, d.mon, d.mday, d.hour, d.min, d.sec⟩

def microUnit : UInt64 := 1000 * 1000

def getDateFromUs (us : UInt64) : FoxDate := tm2date (gmtime (us / microUnit).toNat)

def makeStamp (gmtoff : ℤ) (d : FoxDate) : UInt64 :=
  UInt64.ofInt (mktime gmtoff (date2tm d)) * microUnit

def FoxManager.midnight (man : FoxManager) : FoxDate := ⟨man.year, man.mon, man.mday, 0, 0, 0⟩

def dayFirst (gmtoff : ℤ) (d : FoxDate) : UInt64 :=
  makeStamp gmtoff ⟨d.year, d.mon, d.mday, 0, 0, 0⟩

def dayEnd (gmtoff : ℤ) (d : FoxDate) : UInt64 := dayFirst gmtoff d + 24 * 60 * 60 * microUnit

def foxReadInitNow (gmtoff : ℤ) (man : FoxManager) : UInt64 := makeStamp gmtoff man.midnight

def foxReadDayMax (gmtoff : ℤ) (man : FoxManager) : UInt64 :=
  makeStamp gmtoff man.midnight + 24 * 60 * 60 * microUnit

def fmtD (w : ℕ) (z : ℤ) : List Char :=
  let digits := Nat.toDigits 10 z.natAbs
  if z < 0 then
    '-' :: (List.replicate (w - 1 - digits.length) '0' ++ digits)
  else
    List.replicate (w - digits.length) '0' ++ digits

def packFname (d : FoxDate) : FName :=
  (fmtD 4 d.year ++ fmtD 2 d.mon ++ fmtD 2 d.mday ++ ['.', 'f', 'o', 'x']).take 15

theorem toNat_ofInt_natCast {n : ℕ} (h : n < 2 ^ 64) : (UInt64.ofInt (n : ℤ)).toNat = n := by
  have hmod : ((n : ℤ) % 2 ^ 64).toNat = n := by omega
  rw [UInt64.ofInt, hmod, UInt64.toNat_ofNat', Nat.mod_eq_of_lt h]

theorem toNat_makeStamp_of_mktime {d : FoxDate} {n : ℕ} (h : mktime 0 (date2tm d) = n)
    (hn : n < 2 ^ 34) : (makeStamp 0 d).toNat = n * 1000000 := by
  have hmicro : microUnit.toNat = 1000000 := by decide
  rw [makeStamp, h, UInt64.toNat_mul, toNat_ofInt_natCast (by omega), hmicro,
    Nat.mod_eq_of_lt (by omega)]

theorem getDateFromUs_eq (h : us.toNat < 2 ^ 53) :
    getDateFromUs us =
      let tm := gmtime (us.toNat / 1000000)
      ⟨tm.year, tm.mon, tm.mday, tm.hour, tm.min, tm.sec⟩ := by
  have hsec : (us / microUnit).toNat = us.toNat / 1000000 := by
    rw [UInt64.toNat_div]
    rfl
  have hyear : toShort (gmtime (us.toNat / 1000000)).year =
      (gmtime (us.toNat / 1000000)).year := by
    have hn : ((us.toNat / 1000000 / 86400 : ℕ) : ℤ) < 2 ^ 17 := by omega
    obtain ⟨-, hy₀, hy₁, -⟩ := civilFromDays_spec ((us.toNat / 1000000 / 86400 : ℕ) : ℤ)
    simp only [gmtime, toShort]
    omega
  rw [getDateFromUs, hsec, tm2date, hyear]

theorem mktime_gmtime (n : ℕ) (hour min sec : ℤ) :
    mktime 0 { gmtime n with hour := hour, min := min, sec := sec } =
      (n / 86400 : ℕ) * 86400 + hour * 3600 + min * 60 + sec := by
  obtain ⟨hdays, -, -, hm₀, hm₁⟩ := civilFromDays_spec ((n / 86400 : ℕ) : ℤ)
  simp only [mktime, gmtime]
  generalize civilFromDays ((n / 86400 : ℕ) : ℤ) = civil at *
  rw [show civil.1 - 1900 + 1900 + (civil.2.1 - 1) / 12 = civil.1 by omega,
    show (civil.2.1 - 1) % 12 + 1 = civil.2.1 by omega, hdays]
  omega

theorem toNat_dayFirst_utc (h : us.toNat < 2 ^ 53) :
    (dayFirst 0 (getDateFromUs us)).toNat = us.toNat / 86400000000 * 86400000000 := by
  have hmk : mktime 0 (date2tm { getDateFromUs us with hour := 0, min := 0, sec := 0 }) =
      (us.toNat / 86400000000 * 86400 : ℕ) := by
    rw [getDateFromUs_eq h]
    refine (mktime_gmtime (us.toNat / 1000000) 0 0 0).trans ?_
    omega
  rw [dayFirst, toNat_makeStamp_of_mktime hmk (by omega)]
  omega

theorem toNat_makeStamp_utc (h : us.toNat < 2 ^ 53) :
    (makeStamp 0 (getDateFromUs us)).toNat = us.toNat / 1000000 * 1000000 := by
  have hmk : mktime 0 (date2tm (getDateFromUs us)) = (us.toNat / 1000000 : ℕ) := by
    rw [getDateFromUs_eq h]
    refine (mktime_gmtime (us.toNat / 1000000) _ _ _).trans ?_
    simp only [gmtime]
    omega
  exact toNat_makeStamp_of_mktime hmk (by omega)

theorem checkFoxdate_utc {us' : UInt64} (h : us.toNat < 2 ^ 53) (h' : us'.toNat < 2 ^ 53)
    (hday : us.toNat / 86400000000 = us'.toNat / 86400000000) :
    checkFoxdate (getDateFromUs us) (getDateFromUs us') = true := by
  have hdiv (n : ℕ) : n / 1000000 / 86400 = n / 86400000000 := by rw [Nat.div_div_eq_div_mul]
  rw [getDateFromUs_eq h, getDateFromUs_eq h']
  simp [checkFoxdate, gmtime, hdiv, hday]

theorem checkFoxdate_congr {d d' : FoxDate} (h : checkFoxdate d d' = true) :
    packFname d = packFname d' ∧ ∀ gmtoff, dayFirst gmtoff d = dayFirst gmtoff d' := by
  simp only [checkFoxdate, Bool.and_eq_true, beq_iff_eq] at h
  obtain ⟨⟨hy, hm⟩, hd⟩ := h
  constructor
  · rw [packFname, packFname, hy, hm, hd]
  · intro gmtoff
    rw [dayFirst, dayFirst, hy, hm, hd]

def sampleDate : FoxDate := ⟨122, 11, 14, 0, 0, 0⟩

example : packFname (getDateFromUs 1671000000000000) = "01221114.fox".toList := by decide

end Sysak.Fox
