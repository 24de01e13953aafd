/-
# Old day files are deleted

`CfoxTSDB:rotateDb` reads the number of a file's date off its name and compares it with that of the
date seven days ago.  Such numbers order dates as the calendar does.
-/

import Sysak.Fox.Date

namespace Sysak.Fox

open List Option

/-- The days before the `y`-th year that begins in March. -/
def marchDays (y : ℤ) : ℤ := y * 365 + y / 4 - y / 100 + y / 400

theorem marchDays_mono {y y' : ℤ} (h : y ≤ y') : marchDays y ≤ marchDays y' := by
  unfold marchDays
  omega

theorem civilFromDays_march (n : ℤ) : ∃ y doy : ℤ, marchDays y + doy = n + 719468 ∧ 0 ≤ doy ∧
    doy ≤ 365 ∧ marchDays y + doy < marchDays (y + 1) ∧
      (civilFromDays n).1 * 12 + (civilFromDays n).2.1 = y * 12 + (5 * doy + 2) / 153 + 3 ∧
      (civilFromDays n).2.2 = doy - (153 * ((5 * doy + 2) / 153) + 2) / 5 + 1 := by
  unfold civilFromDays marchDays
  simp only
  generalize hz : n + 719468 = z
  generalize hdoe : z % 146097 = doe
  generalize hc : min (doe / 36524) 3 = c
  generalize hdoc : doe - 36524 * c = doc
  generalize hq : doc / 1461 = q
  generalize hdoq : doc - 1461 * q = doq
  generalize ha : min (doq / 365) 3 = a
  generalize hdoy : doq - 365 * a = doy
  -- era, century, four years, year: the leap day is the last day of the unit it is in
  have hdoc₁ : 0 ≤ c ∧ c ≤ 3 ∧ 0 ≤ doc ∧ (doc < 36524 ∨ c = 3 ∧ doc = 36524) := by omega
  have hdoq₁ : 0 ≤ q ∧ q ≤ 24 ∧ 0 ≤ doq ∧
      (q < 24 ∧ doq < 1461 ∨ doq < 1460 ∨ c = 3 ∧ doq = 1460) := by omega
  have hdoy₁ : 0 ≤ a ∧ a ≤ 3 ∧ 0 ≤ doy ∧
      (doy < 365 ∨ a = 3 ∧ doy = 365 ∧ (q < 24 ∨ c = 3)) := by omega
  have hsum : z = z / 146097 * 146097 + 36524 * c + 1461 * q + 365 * a + doy := by omega
  clear hz hdoe hc hdoc hq hdoq ha hdoy
  generalize z / 146097 = era at *
  generalize hy : 100 * c + 4 * q + a + era * 400 = y
  have hy₄ : y / 4 = 25 * c + q + 100 * era := by omega
  have hy₁₀₀ : y / 100 = c + 4 * era := by omega
  have hy₄₀₀ : y / 400 = era := by omega
  refine ⟨y, doy, by omega, by omega, by omega, ?_, ?_, rfl⟩
  · have hdiv : (y + 1) / 4 = 25 * c + q + 100 * era + (a + 1) / 4 := by omega
    omega
  · split_ifs <;> omega

/-- The date of a day, its digits read as one number. -/
def civilNumber (n : ℤ) : ℤ :=
  (civilFromDays n).1 * 10000 + (civilFromDays n).2.1 * 100 + (civilFromDays n).2.2

theorem civilNumber_lt {n n' : ℤ} (h : n < n') : civilNumber n < civilNumber n' := by
  unfold civilNumber
  obtain ⟨-, -, -, hm₁, hm₂⟩ := civilFromDays_spec n
  obtain ⟨-, -, -, hm₁', hm₂'⟩ := civilFromDays_spec n'
  obtain ⟨y, doy, hn, h₀, h₁, hlt, hmon, hday⟩ := civilFromDays_march n
  obtain ⟨y', doy', hn', h₀', h₁', hlt', hmon', hday'⟩ := civilFromDays_march n'
  -- years that begin in March are ordered first, then the civil months and days
  have hyear : y < y' ∨ y = y' ∧ doy < doy' := by
    rcases lt_trichotomy y y' with hy | rfl | hy
    · exact .inl hy
    · exact .inr ⟨rfl, by omega⟩
    · have := marchDays_mono (show y' + 1 ≤ y from hy)
      omega
  have hmonth : y * 12 + (5 * doy + 2) / 153 < y' * 12 + (5 * doy' + 2) / 153 ∨
      y * 12 + (5 * doy + 2) / 153 = y' * 12 + (5 * doy' + 2) / 153 ∧ doy < doy' := by omega
  have hdays : 1 ≤ (civilFromDays n).2.2 ∧ (civilFromDays n).2.2 ≤ 31 := by omega
  have hdays' : 1 ≤ (civilFromDays n').2.2 ∧ (civilFromDays n').2.2 ≤ 31 := by omega
  rcases hmonth with hmonth | ⟨hmonth, hdoy⟩
  · have : (civilFromDays n).1 < (civilFromDays n').1 ∨
        (civilFromDays n).1 = (civilFromDays n').1 ∧
          (civilFromDays n).2.1 < (civilFromDays n').2.1 := by omega
    omega
  · have hmp : (5 * doy + 2) / 153 = (5 * doy' + 2) / 153 := by omega
    rw [hmp] at hday
    have : (civilFromDays n).1 = (civilFromDays n').1 ∧
        (civilFromDays n).2.1 = (civilFromDays n').2.1 := by omega
    omega

/-- The date as `rotateDb` and the file names number it. -/
def FoxDate.number (d : FoxDate) : ℤ := d.year * 10000 + d.mon * 100 + d.mday

theorem fmtD_spec {w : ℕ} {z : ℤ} (hw : 0 < w) (h₀ : 0 ≤ z) (h : z < 10 ^ w) :
    (fmtD w z).length = w ∧ (∀ c ∈ fmtD w z, c.isDigit = true) ∧
      (Nat.ofDigitChars 10 (fmtD w z) 0 : ℤ) = z := by
  have hlen : (Nat.toDigits 10 z.natAbs).length ≤ w := by
    have habs : (z.natAbs : ℤ) < 10 ^ w := by rwa [Int.natAbs_of_nonneg h₀]
    exact (Nat.length_toDigits_le_iff (by decide) hw).mpr (by exact_mod_cast habs)
  rw [fmtD, if_neg (not_lt.mpr h₀)]
  refine ⟨?_, fun c hc => ?_, ?_⟩
  · rw [length_append, length_replicate]
    omega
  · rcases mem_append.mp hc with hc | hc
    · rw [eq_of_mem_replicate hc]
      rfl
    · exact Nat.isDigit_of_mem_toDigits (by decide) (by decide) hc
  · rw [Nat.ofDigitChars_append, Nat.ofDigitChars_replicate_zero, Nat.mul_zero,
      Nat.ofDigitChars_ten_toDigits]
    exact Int.natAbs_of_nonneg h₀

/-- What `string.match(f,"^%d%d%d%d%d%d%d%d%.fox$")` accepts. -/
def isDayFile (f : FName) : Bool :=
  (f.take 8).length == 8 && (f.take 8).all Char.isDigit && f.drop 8 == ['.', 'f', 'o', 'x']

theorem packFname_spec {d : FoxDate} (hy : 0 ≤ d.year ∧ d.year < 10000)
    (hm : 0 ≤ d.mon ∧ d.mon < 100) (hd : 0 ≤ d.mday ∧ d.mday < 100) :
    isDayFile (packFname d) = true ∧
      (Nat.ofDigitChars 10 ((packFname d).take 8) 0 : ℤ) = d.number := by
  obtain ⟨hly, hdy, hny⟩ := fmtD_spec (w := 4) (by decide) hy.1 hy.2
  obtain ⟨hlm, hdm, hnm⟩ := fmtD_spec (w := 2) (by decide) hm.1 hm.2
  obtain ⟨hld, hdd, hnd⟩ := fmtD_spec (w := 2) (by decide) hd.1 hd.2
  have hlen : (fmtD 4 d.year ++ fmtD 2 d.mon ++ fmtD 2 d.mday).length = 8 := by
    simp [hly, hlm, hld]
  have hname : packFname d =
      fmtD 4 d.year ++ fmtD 2 d.mon ++ fmtD 2 d.mday ++ ['.', 'f', 'o', 'x'] :=
    take_of_length_le (by rw [length_append, hlen]; decide)
  rw [isDayFile, hname, take_left' hlen, drop_left' hlen, hlen]
  constructor
  · simpa [or_imp, forall_and] using ⟨hdy, hdm, hdd⟩
  · rw [Nat.ofDigitChars_append, Nat.ofDigitChars_append,
      Nat.ofDigitChars_eq_ofDigitChars_zero (l := fmtD 2 d.mon),
      Nat.ofDigitChars_eq_ofDigitChars_zero (l := fmtD 2 d.mday), hlm, hld, FoxDate.number]
    omega

theorem getDateFromUs_number {us : UInt64} (h : us.toNat < 2 ^ 58) {n : ℤ}
    (hn : ((us.toNat / 86400000000 : ℕ) : ℤ) = n) :
    isDayFile (packFname (getDateFromUs us)) = true ∧
      (Nat.ofDigitChars 10 ((packFname (getDateFromUs us)).take 8) 0 : ℤ) =
        (getDateFromUs us).number ∧
      (getDateFromUs us).number = civilNumber n - 19000100 := by
  have hsec : (us / microUnit).toNat / 86400 = us.toNat / 86400000000 := by
    rw [UInt64.toNat_div, Nat.div_div_eq_div_mul]
    rfl
  have hn₁ : 0 ≤ n ∧ n < 3400000 := by omega
  obtain ⟨-, hy₀, hy₁, hm₀, hm₁⟩ := civilFromDays_spec n
  obtain ⟨y, doy, hsum, h₀, h₁, hlt, hmon, hday⟩ := civilFromDays_march n
  have hy : 1969 ≤ y := by
    by_contra hy
    have hle := marchDays_mono (show y + 1 ≤ 1969 by omega)
    have h1969 : marchDays 1969 = 719162 := by decide
    omega
  have hyear : 1969 ≤ (civilFromDays n).1 ∧ (civilFromDays n).1 < 11900 := by omega
  have hmday : 1 ≤ (civilFromDays n).2.2 ∧ (civilFromDays n).2.2 ≤ 31 := by omega
  have hshort : toShort ((civilFromDays n).1 - 1900) = (civilFromDays n).1 - 1900 := by
    rw [toShort]
    omega
  have hdate : (getDateFromUs us).year = (civilFromDays n).1 - 1900 ∧
      (getDateFromUs us).mon = (civilFromDays n).2.1 - 1 ∧
      (getDateFromUs us).mday = (civilFromDays n).2.2 := by
    simp only [getDateFromUs, tm2date, gmtime, hsec, hn, hshort, and_self]
  clear hn hn₁ hsec hshort hy₀ hy₁ hsum hlt hmon hday hy h₀ h₁
  obtain ⟨hfile, hnum⟩ := packFname_spec (d := getDateFromUs us) (by omega) (by omega) (by omega)
  refine ⟨hfile, hnum, ?_⟩
  rw [FoxDate.number, civilNumber]
  omega

theorem number_lt_iff {us us' : UInt64} (h : us.toNat < 2 ^ 58) (h' : us'.toNat < 2 ^ 58) :
    (getDateFromUs us).number < (getDateFromUs us').number ↔
      us.toNat / 86400000000 < us'.toNat / 86400000000 := by
  have hlt {a b : ℕ} (h : a < b) := civilNumber_lt (Int.ofNat_lt.mpr h)
  rw [(getDateFromUs_number h rfl).2.2, (getDateFromUs_number h' rfl).2.2]
  rcases lt_trichotomy (us.toNat / 86400000000) (us'.toNat / 86400000000) with hday | hday | hday
  · have := hlt hday
    omega
  · rw [hday]
    omega
  · have := hlt hday
    omega

/-- `CfoxTSDB:rotateDb` at the manager's time `now`.  `listed` and `unlinked` say which of the calls
under `pcall` succeed. -/
def rotateDb (now : UInt64) (listed : Bool) (unlinked : FName → Bool) (fs : Fs) : Fs := fun f =>
  if listed ∧ isDayFile f ∧ (Nat.ofDigitChars 10 (f.take 8) 0 : ℤ) <
      (getDateFromUs (now - 7 * 24 * 60 * 60 * microUnit)).number ∧ unlinked f then none
  else fs f

variable {us now : UInt64}

/-- The file of a day is deleted once the day is more than seven days back, and not before. -/
theorem rotateDb_packFname (h : us.toNat < 2 ^ 58) (hnow : now.toNat < 2 ^ 58)
    (hweek : 604800000000 ≤ now.toNat) (listed : Bool) (unlinked : FName → Bool) (fs : Fs) :
    rotateDb now listed unlinked fs (packFname (getDateFromUs us)) =
      if listed ∧ us.toNat / 86400000000 + 7 < now.toNat / 86400000000 ∧
          unlinked (packFname (getDateFromUs us)) then none
      else fs (packFname (getDateFromUs us)) := by
  have hcut : (now - 7 * 24 * 60 * 60 * microUnit).toNat = now.toNat - 604800000000 :=
    UInt64.toNat_sub_of_le _ _ (UInt64.le_iff_toNat_le.mpr hweek)
  obtain ⟨hfile, hnum, -⟩ := getDateFromUs_number h rfl
  have hlt := number_lt_iff h (hcut.trans_lt (by omega))
  have hdays : us.toNat / 86400000000 < (now.toNat - 604800000000) / 86400000000 ↔
      us.toNat / 86400000000 + 7 < now.toNat / 86400000000 := by omega
  rw [hcut, hdays] at hlt
  simp only [rotateDb, hfile, hnum, hlt, true_and]

theorem rotateDb_packFname_eight_days :
    rotateDb 1700691200000000 true (fun _ => true) (fun _ => some [])
      (packFname (getDateFromUs 1700000000000000)) = none :=
  (rotateDb_packFname (by decide) (by decide) (by decide) _ _ _).trans (if_pos (by decide))

end Sysak.Fox
