/-
# One's-complement sums
-/

import Mathlib.Data.Nat.ModEq
import Mathlib.Tactic.Ring

namespace Sysak.Lib

open List

variable (bs : List UInt8)

def foldCarry (s : ℕ) : ℕ := s % 65536 + s / 65536

def foldCarries (s : ℕ) : ℕ := if s < 65536 then s else foldCarries (foldCarry s)
termination_by s
decreasing_by
  rw [foldCarry]
  omega

def leSum : List UInt8 → ℕ
  | [] => 0
  | [a] => a.toNat
  | a :: b :: bs => a.toNat + 256 * b.toNat + leSum bs

def beSum : List UInt8 → ℕ
  | [] => 0
  | [a] => 256 * a.toNat
  | a :: b :: bs => 256 * a.toNat + b.toNat + beSum bs

theorem foldCarry_mod (s : ℕ) : foldCarry s % 65535 = s % 65535 := by
  rw [foldCarry]
  omega

theorem foldCarries_eq (s : ℕ) : foldCarries s = if s = 0 then 0 else (s - 1) % 65535 + 1 := by
  induction s using foldCarries.induct with
  | case1 s h =>
    rw [foldCarries, if_pos h]
    split_ifs <;> omega
  | case2 s h ih =>
    have hmod := foldCarry_mod s
    have hpos : foldCarry s ≠ 0 := by
      rw [foldCarry]
      omega
    rw [foldCarries, if_neg h, ih, if_neg hpos, if_neg (by omega)]
    omega

theorem foldCarries_eq_top_iff (s : ℕ) : foldCarries s = 65535 ↔ s ≠ 0 ∧ s % 65535 = 0 := by
  rw [foldCarries_eq]
  split_ifs with hs
  · exact iff_of_false (by decide) fun h => h.1 hs
  · constructor <;> intro h <;> omega

theorem foldCarries_add_complement_iff {s : ℕ} (hs : s < 2 ^ 32) :
    foldCarries (s + (65535 - foldCarry s % 65536)) = 65535 ↔ foldCarry s < 65536 := by
  rw [foldCarries_eq_top_iff]
  generalize hq : s / 65536 = q
  generalize hr : s % 65536 = r
  have hfold : foldCarry s = r + q := by rw [foldCarry, hq, hr]
  have hsplit : s = 65535 * q + (r + q) := by omega
  rw [hfold]
  rcases Nat.lt_or_ge (r + q) 65536 with hlt | hge
  · -- the complement fills up to a multiple of 65535
    have hsum : s + (65535 - (r + q) % 65536) = 65535 * (q + 1) := by omega
    rw [hsum, Nat.mul_mod_right]
    exact iff_of_true ⟨by omega, rfl⟩ hlt
  · -- the carry that is lost makes it one more
    have hsum : s + (65535 - (r + q) % 65536) = 1 + 65535 * (q + 2) := by omega
    rw [hsum, Nat.add_mul_mod_self_left]
    exact iff_of_false (fun h => absurd h.2 (by decide)) (by omega)

theorem beSum_modEq : beSum bs ≡ 256 * leSum bs [MOD 65535] := by
  induction bs using leSum.induct with
  | case1 => rfl
  | case2 a => rfl
  | case3 a b bs ih =>
    have hsplit : 256 * leSum (a :: b :: bs) =
        65535 * b.toNat + (256 * a.toNat + b.toNat + 256 * leSum bs) := by
      rw [leSum]
      ring
    rw [hsplit, beSum]
    have hmul : 65535 * b.toNat ≡ 0 [MOD 65535] := Nat.modEq_zero_iff_dvd.mpr ⟨_, rfl⟩
    have hsum := (Nat.ModEq.refl (256 * a.toNat + b.toNat)).add ih
    simpa using (hmul.add hsum.symm).symm

theorem beSum_eq_zero_iff : beSum bs = 0 ↔ leSum bs = 0 := by
  induction bs using leSum.induct with
  | case1 => rfl
  | case2 a =>
    rw [beSum, leSum]
    omega
  | case3 a b bs ih =>
    rw [beSum, leSum]
    omega

theorem foldCarries_beSum_eq_top_iff :
    foldCarries (beSum bs) = 65535 ↔ foldCarries (leSum bs) = 65535 := by
  have hmod : beSum bs % 65535 = 256 * leSum bs % 65535 := beSum_modEq bs
  have hzero := beSum_eq_zero_iff bs
  rw [foldCarries_eq_top_iff, foldCarries_eq_top_iff, ne_eq, hzero]
  refine and_congr_right fun _ => ?_
  constructor <;> intro h <;> omega

theorem leSum_le : leSum bs ≤ 65535 * ((bs.length + 1) / 2) := by
  induction bs using leSum.induct with
  | case1 => exact Nat.zero_le _
  | case2 a =>
    have ha := a.toNat_lt
    rw [leSum, length_singleton]
    omega
  | case3 a b bs ih =>
    have ha := a.toNat_lt
    have hb := b.toNat_lt
    rw [leSum, length_cons, length_cons]
    omega

end Sysak.Lib
