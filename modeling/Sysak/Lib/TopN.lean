/-
# The largest elements of a sequence
-/

import Mathlib.Data.List.Perm.Basic
import Mathlib.Data.List.Sort

namespace Sysak.Lib

open List

variable {α : Type*} [LinearOrder α]

def IsTop (kept seen : List α) : Prop :=
  ∃ dropped, Perm seen (kept ++ dropped) ∧ ∀ x ∈ kept, ∀ y ∈ dropped, y ≤ x

def falling (xs : List α) : List α := xs.mergeSort (fun a b => decide (b ≤ a))

def largest [OrderBot α] (n : ℕ) (xs : List α) : List α :=
  (falling xs).take n ++ replicate (n - xs.length) ⊥

theorem falling_perm (xs : List α) : Perm (falling xs) xs := mergeSort_perm _ _

theorem falling_pairwise (xs : List α) : (falling xs).Pairwise (fun a b => b ≤ a) := by
  have h : (falling xs).Pairwise fun a b => decide (b ≤ a) = true := by
    refine pairwise_mergeSort (fun a b c hab hbc => ?_) (fun a b => ?_) xs
    · rw [decide_eq_true_eq] at hab hbc ⊢
      exact hbc.trans hab
    · rw [Bool.or_eq_true, decide_eq_true_eq, decide_eq_true_eq]
      exact le_total b a
  exact h.imp of_decide_eq_true

theorem length_falling (xs : List α) : (falling xs).length = xs.length :=
  (falling_perm xs).length_eq

theorem eq_of_perm_of_falling {xs ys : List α} (hp : Perm xs ys)
    (hx : xs.Pairwise (fun a b => b ≤ a)) (hy : ys.Pairwise (fun a b => b ≤ a)) : xs = ys :=
  hp.eq_of_pairwise (fun _ _ _ _ hab hba => le_antisymm hba hab) hx hy

namespace IsTop

variable {kept kept' seen seen' rest : List α} {m x : α}

theorem congr (h : IsTop kept seen) (hp : Perm kept kept') : IsTop kept' seen := by
  obtain ⟨dropped, hseen, hle⟩ := h
  exact ⟨dropped, hseen.trans (hp.append_right dropped), fun x hx => hle x (hp.mem_iff.mpr hx)⟩

theorem seen_congr (hp : Perm seen seen') : IsTop kept seen ↔ IsTop kept seen' :=
  exists_congr fun _ => and_congr_left' ⟨hp.symm.trans, hp.trans⟩

theorem falling_eq (h : IsTop kept seen) : falling kept = (falling seen).take kept.length := by
  obtain ⟨dropped, hseen, hle⟩ := h
  have hall : falling kept ++ falling dropped = falling seen := by
    refine eq_of_perm_of_falling ?_ ?_ (falling_pairwise seen)
    · exact (((falling_perm kept).append (falling_perm dropped)).trans hseen.symm).trans
        (falling_perm seen).symm
    · refine pairwise_append.mpr ⟨falling_pairwise kept, falling_pairwise dropped, ?_⟩
      intro x hx y hy
      exact hle x ((falling_perm kept).mem_iff.mp hx) y ((falling_perm dropped).mem_iff.mp hy)
  rw [← hall, ← length_falling kept, take_left]

theorem perm (h : IsTop kept seen) (h' : IsTop kept' seen) (hlen : kept.length = kept'.length) :
    Perm kept kept' := by
  have heq : falling kept = falling kept' := by rw [h.falling_eq, h'.falling_eq, hlen]
  exact (falling_perm kept).symm.trans (heq ▸ falling_perm kept')

theorem skip (h : IsTop kept seen) (hx : ∀ y ∈ kept, x ≤ y) : IsTop kept (x :: seen) := by
  obtain ⟨dropped, hseen, hle⟩ := h
  refine ⟨x :: dropped, (hseen.cons x).trans perm_middle.symm, ?_⟩
  rintro y hy z hz
  rcases mem_cons.mp hz with rfl | hz
  · exact hx y hy
  · exact hle y hy z hz

theorem replace (h : IsTop (m :: rest) seen) (hm : ∀ y ∈ rest, m ≤ y) (hx : m ≤ x) :
    IsTop (x :: rest) (x :: seen) := by
  obtain ⟨dropped, hseen, hle⟩ := h
  refine ⟨m :: dropped, (hseen.trans perm_middle.symm).cons x, ?_⟩
  intro y hy z hz
  have hmy : m ≤ y := by
    rcases mem_cons.mp hy with rfl | hy
    · exact hx
    · exact hm y hy
  rcases mem_cons.mp hz with rfl | hz
  · exact hmy
  · exact (hle m mem_cons_self z hz).trans hmy

theorem not_replace (h : IsTop (m :: rest) seen) (hx : x < m) :
    ¬ IsTop (x :: rest) (x :: seen) := by
  obtain ⟨dropped, hseen, -⟩ := h
  rintro ⟨dropped', hseen', hle⟩
  -- the element that made room is among those dropped
  have hdropped : Perm dropped' (m :: dropped) := by
    have hall : Perm (rest ++ dropped') (rest ++ m :: dropped) :=
      (hseen'.cons_inv.symm.trans hseen).trans perm_middle.symm
    exact (perm_append_left_iff rest).mp hall
  exact absurd (hle x mem_cons_self m (hdropped.mem_iff.mpr mem_cons_self)) hx.not_ge

section Bottom

variable [OrderBot α]

theorem length_largest (n : ℕ) (xs : List α) : (largest n xs).length = n := by
  rw [largest, length_append, length_take, length_replicate, length_falling]
  omega

theorem isTop_largest (n : ℕ) (xs : List α) :
    IsTop (largest n xs) (replicate n ⊥ ++ xs) := by
  refine ⟨(falling xs).drop n ++ replicate (n - (n - xs.length)) ⊥, ?_, ?_⟩
  · have hbot : replicate n (⊥ : α) =
        replicate (n - xs.length) ⊥ ++ replicate (n - (n - xs.length)) ⊥ := by
      rw [replicate_append_replicate]
      congr 1
      omega
    rw [perm_iff_count]
    intro a
    have hcount := (falling_perm xs).count_eq a
    rw [← take_append_drop n (falling xs), count_append] at hcount
    rw [hbot, largest]
    simp only [count_append]
    omega
  · intro x hx y hy
    rcases mem_append.mp hy with hy | hy
    · rcases mem_append.mp hx with hx | hx
      · have hpair := falling_pairwise xs
        rw [← take_append_drop n (falling xs)] at hpair
        exact (pairwise_append.mp hpair).2.2 x hx y hy
      · -- there is something missing only if nothing is dropped
        have hlt := length_pos_of_mem hx
        have hdrop := length_pos_of_mem hy
        rw [length_replicate] at hlt
        rw [length_drop, length_falling] at hdrop
        omega
    · rw [eq_of_mem_replicate hy]
      exact bot_le

theorem perm_largest_iff {n : ℕ} {xs : List α} (hlen : kept.length = n) :
    Perm kept (largest n xs) ↔ IsTop kept (replicate n ⊥ ++ xs) := by
  constructor
  · intro hp
    exact (isTop_largest n xs).congr hp.symm
  · intro h
    exact h.perm (isTop_largest n xs) (by rw [hlen, length_largest])

end Bottom

end IsTop

end Sysak.Lib
