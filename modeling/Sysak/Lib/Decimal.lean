/-
# Decimal numerals
-/

import Sysak.Lib.LuaString
import Mathlib.Data.Nat.Digits.Defs

namespace Sysak.Lib

open List

def dec (n : ℕ) : Bytes := (Nat.toDigits 10 n).map fun c => UInt8.ofNat c.toNat

def decInt : ℤ → Bytes
  | .ofNat n => dec n
  | .negSucc n => 45 :: dec (n + 1)

def sign : Bytes → Bool × Bytes
  | 45 :: s => (true, s)
  | 43 :: s => (false, s)
  | s => (false, s)

def strtoull (s : Bytes) : UInt64 × Bytes :=
  let t := sign (s.dropWhile isSpace)
  let ds := t.2.takeWhile isDigit
  let v := decimal ds
  if ds = [] then (0, s)
  else if 18446744073709551615 < v then (18446744073709551615, t.2.dropWhile isDigit)
  else (if t.1 then 0 - UInt64.ofNat v else UInt64.ofNat v, t.2.dropWhile isDigit)

def atol (s : Bytes) : ℤ :=
  let t := sign (s.dropWhile isSpace)
  let v : ℤ := decimal (t.2.takeWhile isDigit)
  if t.1 then -v else v

def digit (d : ℕ) : UInt8 := UInt8.ofNat (48 + d)

theorem digit_spec {d : ℕ} (h : d < 10) :
    UInt8.ofNat (Nat.digitChar d).toNat = digit d ∧ (digit d).toNat - 48 = d ∧
      isDigit (digit d) = true := by
  have hall : ∀ d < 10, UInt8.ofNat (Nat.digitChar d).toNat = digit d ∧
      (digit d).toNat - 48 = d ∧ isDigit (digit d) = true := by decide
  exact hall d h

variable {n : ℕ}

theorem dec_of_lt (h : n < 10) : dec n = [digit n] := by
  rw [dec, Nat.toDigits_of_lt_base h, map_singleton, (digit_spec h).1]

theorem dec_of_le (h : 10 ≤ n) : dec n = dec (n / 10) ++ [digit (n % 10)] := by
  rw [dec, Nat.toDigits_eq_if (by decide), if_neg (Nat.not_lt.mpr h), map_append,
    map_singleton, (digit_spec (Nat.mod_lt _ (by decide))).1, dec]

theorem dec_induction {P : ℕ → Prop} (hlt : ∀ n < 10, P n) (hle : ∀ n, 10 ≤ n → P (n / 10) → P n)
    (n : ℕ) : P n := by
  induction n using Nat.strongRecOn with
  | ind n ih =>
    rcases Nat.lt_or_ge n 10 with h | h
    · exact hlt n h
    · exact hle n h (ih (n / 10) (by omega))

theorem dec_ne_nil (n : ℕ) : dec n ≠ [] := by
  rcases Nat.lt_or_ge n 10 with h | h
  · simp [dec_of_lt h]
  · simp [dec_of_le h]

theorem isDigit_of_mem_dec : ∀ {c : UInt8}, c ∈ dec n → isDigit c = true := by
  induction n using dec_induction with
  | hlt n h =>
    intro c hc
    rw [dec_of_lt h, mem_singleton] at hc
    rw [hc, (digit_spec h).2.2]
  | hle n h ih =>
    intro c hc
    rw [dec_of_le h, mem_append, mem_singleton] at hc
    rcases hc with hc | rfl
    · exact ih hc
    · exact (digit_spec (Nat.mod_lt _ (by decide))).2.2

theorem head?_dec (hn : 0 < n) : (dec n).head? ≠ some 48 := by
  induction n using dec_induction with
  | hlt n h =>
    have hall : ∀ n < 10, 0 < n → ([digit n] : Bytes).head? ≠ some 48 := by decide
    rw [dec_of_lt h]
    exact hall n h hn
  | hle n h ih =>
    rw [dec_of_le h, head?_append_of_ne_nil _ (dec_ne_nil _)]
    exact ih (by omega)

theorem not_mem_dec {c : UInt8} (hc : isDigit c = false) (n : ℕ) : c ∉ dec n := fun hmem => by
  rw [isDigit_of_mem_dec hmem] at hc
  exact Bool.false_ne_true hc.symm

theorem length_dec_pos (n : ℕ) : 0 < (dec n).length := length_pos_iff.mpr (dec_ne_nil n)

theorem decimal_append_singleton (s : Bytes) (c : UInt8) :
    decimal (s ++ [c]) = 10 * decimal s + (c.toNat - 48) := by
  rw [decimal, foldl_append]
  rfl

theorem decimal_dec (n : ℕ) : decimal (dec n) = n := by
  induction n using dec_induction with
  | hlt n h =>
    have h0 := decimal_append_singleton [] (digit n)
    rw [nil_append, (digit_spec h).2.1] at h0
    rw [dec_of_lt h, h0]
    exact Nat.zero_add n
  | hle n h ih =>
    rw [dec_of_le h, decimal_append_singleton, ih, (digit_spec (Nat.mod_lt _ (by decide))).2.1]
    omega

theorem dec_injective : Function.Injective dec :=
  Function.LeftInverse.injective decimal_dec

theorem length_dec_le {k : ℕ} : ∀ {n : ℕ}, n < 10 ^ (k + 1) → (dec n).length ≤ k + 1 := by
  induction k with
  | zero =>
    intro n hn
    rw [dec_of_lt (by simpa using hn), length_singleton]
  | succ k ih =>
    intro n hn
    rcases Nat.lt_or_ge n 10 with h | h
    · rw [dec_of_lt h, length_singleton]
      omega
    · have hdiv := ih (n := n / 10) (by rw [Nat.pow_succ] at hn; omega)
      rw [dec_of_le h, length_append, length_singleton]
      omega

def NoDigit (s : Bytes) : Prop := ∀ c ∈ s.head?, isDigit c = false

variable {s : Bytes}

theorem takeWhile_dec (h : NoDigit s) : (dec n ++ s).takeWhile isDigit = dec n := by
  rw [takeWhile_append_of_pos fun c hc => isDigit_of_mem_dec hc]
  cases s with
  | nil => simp
  | cons c s => simp [h c rfl]

theorem dropWhile_dec (h : NoDigit s) : (dec n ++ s).dropWhile isDigit = s := by
  rw [dropWhile_append_of_pos fun c hc => isDigit_of_mem_dec hc]
  cases s with
  | nil => rfl
  | cons c s => rw [dropWhile_cons_of_neg (by simp [h c rfl])]

theorem dropWhile_isSpace_dec (n : ℕ) (s : Bytes) :
    (dec n ++ s).dropWhile isSpace = dec n ++ s := by
  have hb : ([] ++ (dec n ++ s)).dropWhile isSpace = dec n ++ s := by
    refine dropWhile_blanks (by simp) fun c hc => ?_
    rw [head?_append_of_ne_nil _ (dec_ne_nil n)] at hc
    exact isSpace_of_isDigit (isDigit_of_mem_dec (mem_of_mem_head? hc))
  exact hb

theorem sign_dec (n : ℕ) (s : Bytes) : sign (dec n ++ s) = (false, dec n ++ s) := by
  cases hd : dec n with
  | nil => exact absurd hd (dec_ne_nil n)
  | cons c t =>
    have hc : isDigit c = true := isDigit_of_mem_dec (n := n) (by simp [hd])
    have h45 : c ≠ 45 := by
      rintro rfl
      exact absurd hc (by decide)
    have h43 : c ≠ 43 := by
      rintro rfl
      exact absurd hc (by decide)
    simp [sign, h45, h43]

theorem length_sign_le (s : Bytes) : (sign s).2.length ≤ s.length := by
  rw [sign.eq_def]
  split
  · exact Nat.le_succ _
  · exact Nat.le_succ _
  · exact le_rfl

theorem length_strtoull_le (s : Bytes) : (strtoull s).2.length ≤ s.length := by
  have hrest : ((sign (s.dropWhile isSpace)).2.dropWhile isDigit).length ≤ s.length :=
    (dropWhile_suffix _).length_le.trans
      ((length_sign_le _).trans (dropWhile_suffix _).length_le)
  simp only [strtoull]
  split_ifs
  · exact le_rfl
  · exact hrest
  · exact hrest
  · exact hrest

theorem strtoull_dec (hn : n < 18446744073709551616) (hs : NoDigit s) :
    strtoull (dec n ++ s) = (UInt64.ofNat n, s) := by
  have hle : ¬ 18446744073709551615 < n := by omega
  simp [strtoull, dropWhile_isSpace_dec, sign_dec, takeWhile_dec hs, dropWhile_dec hs, dec_ne_nil,
    decimal_dec, hle]

theorem ofInt_natCast (n : ℕ) : UInt64.ofInt (n : ℤ) = UInt64.ofNat n := by
  have h : ((n : ℤ) % 2 ^ 64).toNat = n % 2 ^ 64 := by omega
  rw [UInt64.ofInt, h]
  exact UInt64.toNat.inj (by simp)

theorem strtoull_decInt {z : ℤ} (hle : -9223372036854775808 ≤ z) (hlt : z < 18446744073709551616)
    (hs : NoDigit s) : strtoull (decInt z ++ s) = (UInt64.ofInt z, s) := by
  cases z with
  | ofNat n =>
    rw [decInt, strtoull_dec (by simpa using hlt) hs, Int.ofNat_eq_natCast, ofInt_natCast]
  | negSucc n =>
    have hskip : (45 :: dec (n + 1) ++ s).dropWhile isSpace = 45 :: (dec (n + 1) ++ s) := rfl
    have hsign : sign (45 :: (dec (n + 1) ++ s)) = (true, dec (n + 1) ++ s) := rfl
    have hfit : ¬ 18446744073709551615 < n + 1 := by omega
    simp only [strtoull, decInt, hskip, hsign, takeWhile_dec hs, dropWhile_dec hs, dec_ne_nil,
      decimal_dec, hfit, if_true, if_false]
    rw [Int.negSucc_eq, UInt64.ofInt_neg, ← Nat.cast_succ, ofInt_natCast, UInt64.zero_sub]

theorem not_mem_decInt {c : UInt8} (hc : isDigit c = false) (hsign : c ≠ 45) (z : ℤ) :
    c ∉ decInt z := by
  intro hmem
  cases z with
  | ofNat n => exact not_mem_dec hc n hmem
  | negSucc n =>
    rcases mem_cons.mp hmem with h | h
    · exact hsign h
    · exact not_mem_dec hc _ h

theorem atol_decInt (z : ℤ) (hs : NoDigit s) : atol (decInt z ++ s) = z := by
  cases z with
  | ofNat n =>
    simp [atol, decInt, dropWhile_isSpace_dec, sign_dec, takeWhile_dec hs, decimal_dec]
  | negSucc n =>
    have hskip : (45 :: dec (n + 1) ++ s).dropWhile isSpace = 45 :: (dec (n + 1) ++ s) := rfl
    have hsign : sign (45 :: (dec (n + 1) ++ s)) = (true, dec (n + 1) ++ s) := rfl
    simp only [atol, decInt, hskip, hsign, takeWhile_dec hs, decimal_dec, if_true]
    omega

example : strtoull (bytes "42,7") = (42, bytes ",7") := by decide

end Sysak.Lib
