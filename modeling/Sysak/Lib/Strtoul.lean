/-
# `strtoul` in other bases
-/

import Sysak.Lib.Decimal

namespace Sysak.Lib

open List

def digitValue (c : UInt8) : ℕ :=
  if isDigit c then c.toNat - 48
  else if 97 ≤ c ∧ c ≤ 122 then c.toNat - 87
  else if 65 ≤ c ∧ c ≤ 90 then c.toNat - 55
  else 36

def hexPrefixed : Bytes → Bool
  | 48 :: x :: c :: _ => (x == 120 || x == 88) && digitValue c < 16
  | _ => false

def baseOf (base : ℕ) (t : Bytes) : ℕ × Bytes :=
  if (base = 0 ∨ base = 16) ∧ hexPrefixed t then (16, t.drop 2)
  else if base = 0 then (if t.head? = some 48 then 8 else 10, t)
  else (base, t)

def numeral (base : ℕ) (s : Bytes) : Option (Bool × ℕ × Bytes) :=
  let t := sign (s.dropWhile isSpace)
  let b := baseOf base t.2
  let ds := b.2.takeWhile (digitValue · < b.1)
  if ds = [] then none
  else some (t.1, ds.foldl (fun n c => b.1 * n + digitValue c) 0, b.2.drop ds.length)

def strtoul (base : ℕ) (s : Bytes) : UInt64 × Bytes :=
  match numeral base s with
  | none => (0, s)
  | some (neg, v, rest) =>
    (if 18446744073709551615 < v then 18446744073709551615
      else if neg then 0 - UInt64.ofNat v else UInt64.ofNat v, rest)

def erange (base : ℕ) (s : Bytes) : Bool :=
  (numeral base s).any fun r => 18446744073709551615 < r.2.1

theorem digitValue_eq {c : UInt8} (h : isDigit c = true) :
    digitValue c = c.toNat - 48 ∧ digitValue c < 10 := by
  rw [digitValue, if_pos h]
  simp only [isDigit, Bool.and_eq_true, decide_eq_true_eq, UInt8.le_iff_toNat_le] at h
  have h57 : (57 : UInt8).toNat = 57 := rfl
  exact ⟨rfl, by omega⟩

theorem head?_of_hexPrefixed {t : Bytes} (h : hexPrefixed t = true) : t.head? = some 48 := by
  unfold hexPrefixed at h
  split at h
  · rfl
  · cases h

theorem strtoul_dec {n : ℕ} (h0 : 0 < n) (hn : n < 18446744073709551616) {s : Bytes}
    (hs : ∀ c ∈ s.head?, 10 ≤ digitValue c) : strtoul 0 (dec n ++ s) = (UInt64.ofNat n, s) := by
  have hhead : (dec n ++ s).head? ≠ some 48 := by
    rw [head?_append_of_ne_nil _ (dec_ne_nil n)]
    exact head?_dec h0
  have hbase : baseOf 0 (dec n ++ s) = (10, dec n ++ s) := by
    rw [baseOf, if_neg (fun h => hhead (head?_of_hexPrefixed h.2)), if_pos rfl, if_neg hhead]
  have hdigits : ∀ c ∈ dec n, digitValue c < 10 := fun c hc =>
    (digitValue_eq (isDigit_of_mem_dec hc)).2
  have htake : (dec n ++ s).takeWhile (digitValue · < 10) = dec n := by
    rw [takeWhile_append_of_pos (by simpa using hdigits)]
    cases s with
    | nil => simp
    | cons c s => simp [hs c rfl]
  have hvalue : (dec n).foldl (fun n c => 10 * n + digitValue c) 0 = n := by
    conv_rhs => rw [← decimal_dec n, decimal]
    exact foldl_ext _ _ _ fun m c hc => by rw [(digitValue_eq (isDigit_of_mem_dec hc)).1]
  have hle : ¬18446744073709551615 < n := by omega
  rw [strtoul, numeral, dropWhile_isSpace_dec, sign_dec]
  simp only [hbase, htake, hvalue, if_neg (dec_ne_nil n), drop_left, if_neg hle,
    Bool.false_eq_true, if_false]

end Sysak.Lib
