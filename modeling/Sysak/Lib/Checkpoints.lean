/-
# Totals that are brought up to date now and then
-/

import Mathlib.Algebra.Group.Basic
import Mathlib.Data.List.DropRight

namespace Sysak.Lib

open List

structure Checkpoints (α M : Type*) [AddMonoid M] where
  mark : α → Bool
  due : List α → M
  gain : List α → M
  due_append : ∀ p q, due (p ++ q) = due p + due q
  due_mark : ∀ x, mark x = true → due [x] = 0

namespace Checkpoints

section Marks

variable {α M : Type*} [AddMonoid M] (c : Checkpoints α M)

def sinceMark (acts : List α) : List α := acts.rtakeWhile fun x => !c.mark x

def uptoMark (acts : List α) : List α := acts.rdropWhile fun x => !c.mark x

def AtMarks (acts : List α) (P : List α → Prop) : Prop :=
  ∀ p x, c.mark x = true → p ++ [x] <+: acts → P p

def Adds (total : List α → M) : Prop :=
  total [] = 0 ∧ ∀ p x, total (p ++ [x]) = if c.mark x then total p + c.gain p else total p

theorem due_uptoMark (acts : List α) :
    c.due (c.uptoMark acts) + c.due (c.sinceMark acts) = c.due acts := by
  rw [← c.due_append, uptoMark, sinceMark, rdropWhile_append_rtakeWhile]

variable {c} {P : List α → Prop}

theorem atMarks_nil : c.AtMarks [] P := by
  intro p x _ hp
  simp at hp

theorem atMarks_concat (acts : List α) (x : α) :
    c.AtMarks (acts ++ [x]) P ↔ c.AtMarks acts P ∧ (c.mark x = true → P acts) := by
  constructor
  · intro h
    exact ⟨fun p y hy hp => h p y hy (hp.trans (prefix_append _ _)),
      fun hx => h acts x hx (prefix_refl _)⟩
  · rintro ⟨hold, hnew⟩ p y hy hp
    rcases prefix_concat_iff.mp hp with heq | hp
    · obtain ⟨rfl, hyx⟩ := append_inj' heq rfl
      cases hyx
      exact hnew hy
    · exact hold p y hy hp

end Marks

section Totals

variable {α M : Type*} [AddMonoid M] [IsLeftCancelAdd M] {c : Checkpoints α M} {total : List α → M}

theorem due_nil : c.due [] = 0 := by
  have h := c.due_append [] []
  rw [append_nil] at h
  exact left_eq_add.mp h

theorem total_eq_due_uptoMark (ht : c.Adds total) {acts : List α}
    (h : c.AtMarks acts fun p => total p + c.gain p = c.due p) :
    total acts = c.due (c.uptoMark acts) := by
  induction acts using reverseRecOn with
  | nil => rw [ht.1, uptoMark, rdropWhile_nil, due_nil]
  | append_singleton acts x ih =>
    obtain ⟨hold, hnew⟩ := (atMarks_concat acts x).mp h
    by_cases hx : c.mark x = true
    · rw [ht.2, if_pos hx, hnew hx, uptoMark, rdropWhile_concat_neg _ _ _ (by simp [hx]),
        c.due_append, c.due_mark x hx, add_zero]
    · rw [ht.2, if_neg hx, ih hold, uptoMark, uptoMark,
        rdropWhile_concat_pos _ _ _ (by simp [hx])]

theorem total_eq_due_iff (ht : c.Adds total) (acts : List α) :
    (c.AtMarks acts fun p => total p + c.gain p = c.due p) ↔
      c.AtMarks acts fun p => c.gain p = c.due (c.sinceMark p) := by
  induction acts using reverseRecOn with
  | nil => exact iff_of_true atMarks_nil atMarks_nil
  | append_singleton acts x ih =>
    rw [atMarks_concat, atMarks_concat, ← ih]
    refine and_congr_right fun hold => ?_
    rw [total_eq_due_uptoMark ht hold, ← c.due_uptoMark acts, add_left_cancel_iff]

end Totals

end Checkpoints

end Sysak.Lib
