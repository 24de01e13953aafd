/-
# A mean kept with truncating division
-/

import Mathlib.Algebra.BigOperators.Group.List.Basic
import Mathlib.Algebra.GroupWithZero.Nat

namespace Sysak.Lib

open List

def truncMeanFrom (M n a : ℕ) : List ℕ → ℕ
  | [] => a
  | v :: vs => truncMeanFrom M (n + 1) ((a * n + v) % M / (n + 1)) vs

def stepDrop (M n x : ℕ) : ℕ := x / M * M + x % M % n

def droppedFrom (M n s lost : ℕ) : List ℕ → ℕ
  | [] => lost
  | v :: vs => droppedFrom M (n + 1) (s + v) (lost + stepDrop M (n + 1) (s + v - lost)) vs

def truncMean (M : ℕ) (vs : List ℕ) : ℕ := truncMeanFrom M 0 0 vs

def dropped (M : ℕ) (vs : List ℕ) : ℕ := droppedFrom M 0 0 0 vs

theorem mul_add_stepDrop (M n x : ℕ) : n * (x % M / n) + stepDrop M n x = x := by
  have hdiv := Nat.div_add_mod (x % M) n
  have hmod := Nat.div_add_mod x M
  rw [stepDrop, Nat.mul_comm (x / M) M]
  omega

theorem truncMeanFrom_add_droppedFrom {M : ℕ} {vs : List ℕ} :
    ∀ {n a s lost : ℕ}, n * a + lost = s →
      (n + vs.length) * truncMeanFrom M n a vs + droppedFrom M n s lost vs = s + vs.sum := by
  induction vs with
  | nil =>
    intro n a s lost h
    exact h
  | cons v vs ih =>
    intro n a s lost h
    have hx : s + v - lost = a * n + v := by
      rw [Nat.mul_comm a n]
      omega
    have hstep := mul_add_stepDrop M (n + 1) (a * n + v)
    have hinv : (n + 1) * ((a * n + v) % M / (n + 1)) +
        (lost + stepDrop M (n + 1) (a * n + v)) = s + v := by omega
    have hrest := ih hinv
    rw [truncMeanFrom, droppedFrom, hx, length_cons, sum_cons, ← Nat.add_assoc s v,
      ← hrest, Nat.add_comm vs.length 1, ← Nat.add_assoc]

theorem truncMean_add_dropped (M : ℕ) (vs : List ℕ) :
    vs.length * truncMean M vs + dropped M vs = vs.sum := by
  have h := @truncMeanFrom_add_droppedFrom M vs 0 0 0 0 rfl
  rwa [Nat.zero_add, Nat.zero_add] at h

theorem truncMean_eq_iff {M : ℕ} {vs : List ℕ} (hne : vs ≠ []) :
    truncMean M vs = vs.sum / vs.length ↔ dropped M vs < vs.length := by
  have hsum := truncMean_add_dropped M vs
  have hpos : 0 < vs.length := length_pos_iff.mpr hne
  rw [eq_comm, Nat.div_eq_iff hpos, ← hsum, Nat.mul_comm (truncMean M vs)]
  omega

end Sysak.Lib
