/-
# Rows of a flat array
-/

import Mathlib.Data.List.Basic
import Mathlib.Algebra.Order.Ring.Nat

namespace Sysak.Lib

open List

variable {α : Type*}

def row (a : ℕ → α) (n i : ℕ) : List α := (range n).map fun j => a (i * n + j)

def writeAt (a : ℕ → α) (k : ℕ) (vs : List α) (j : ℕ) : α :=
  if k ≤ j then vs[j - k]?.getD (a j) else a j

variable (a : ℕ → α)

@[simp] theorem length_row (n i : ℕ) : (row a n i).length = n := by simp [row]

theorem row_writeAt_le {n i : ℕ} {vs : List α} (h : vs.length ≤ n) :
    row (writeAt a (i * n) vs) n i = vs ++ (row a n i).drop vs.length := by
  refine ext_getElem (by simp [h]) fun j hj hj' => ?_
  rw [getElem_append]
  split_ifs with hlt
  · simp [row, writeAt, hlt]
  · have hsub : vs.length + (j - vs.length) = j := by omega
    simp [row, writeAt, Nat.not_lt.mp hlt, hsub]

theorem row_writeAt_self {n i : ℕ} {vs : List α} (h : vs.length = n) :
    row (writeAt a (i * n) vs) n i = vs := by
  rw [row_writeAt_le a h.le, h, drop_of_length_le (length_row a n i).le, append_nil]

theorem row_end_le {i j : ℕ} (n : ℕ) (h : i < j) : i * n + n ≤ j * n := by
  have hmul := Nat.mul_le_mul_right n (Nat.succ_le_of_lt h)
  rwa [Nat.succ_mul] at hmul

theorem row_writeAt_ne {n i i' : ℕ} {vs : List α} (h : vs.length ≤ n) (hne : i ≠ i') :
    row (writeAt a (i * n) vs) n i' = row a n i' := by
  refine map_congr_left fun j hj => ?_
  have hj := mem_range.mp hj
  rw [writeAt]
  split_ifs with hle
  · rcases Nat.lt_or_gt_of_ne hne with hlt | hgt
    · have hend := row_end_le n hlt
      rw [getElem?_eq_none (by omega)]
      rfl
    · have hend := row_end_le n hgt
      omega
  · rfl

def cells (a : ℕ → α) (o : ℕ) {n : ℕ} (i : Fin n) : α := a (o + i)

def putCells (a : ℕ → α) (o : ℕ) {n : ℕ} (v : Fin n → α) (j : ℕ) : α :=
  if h : o ≤ j ∧ j < o + n then v ⟨j - o, by omega⟩ else a j

theorem cells_putCells_self (o : ℕ) {n : ℕ} (v : Fin n → α) : cells (putCells a o v) o = v := by
  funext i
  simp [cells, putCells]

theorem putCells_of_notMem {o n : ℕ} (v : Fin n → α) {j : ℕ} (h : ¬ (o ≤ j ∧ j < o + n)) :
    putCells a o v j = a j := dif_neg h

theorem cells_putCells_of_disjoint {o n o' n' : ℕ} (v : Fin n → α) (h : o + n ≤ o' ∨ o' + n' ≤ o) :
    (cells (putCells a o v) o' : Fin n' → α) = cells a o' := by
  funext i
  exact putCells_of_notMem a v (by omega)

end Sysak.Lib
