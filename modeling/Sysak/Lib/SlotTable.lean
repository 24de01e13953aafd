/-
# Tables of slots
-/

import Mathlib.Data.Finset.Card
import Mathlib.Data.List.GetD

namespace Sysak.Lib
namespace SlotTable

open List

variable {α : Type*} [DecidableEq α]

def overwrite (l : List α) (a b : α) : List α := l.set (l.findIdx (· == a)) b

theorem overwrite_of_mem {l : List α} {a : α} (h : a ∈ l) :
    ∃ l₁ l₂, l = l₁ ++ a :: l₂ ∧ ∀ b, overwrite l a b = l₁ ++ b :: l₂ := by
  induction l with
  | nil => cases h
  | cons x l ih =>
    by_cases hx : x = a
    · subst hx
      exact ⟨[], l, rfl, fun b => by simp [overwrite, findIdx_cons]⟩
    · obtain ⟨l₁, l₂, heq, hset⟩ := ih ((mem_cons.mp h).resolve_left (Ne.symm hx))
      refine ⟨x :: l₁, l₂, by rw [heq, cons_append], fun b => ?_⟩
      have hidx : (x :: l).findIdx (· == a) = l.findIdx (· == a) + 1 := by
        rw [findIdx_cons, beq_false_of_ne hx, cond_false]
      rw [overwrite, hidx, set_cons_succ, ← overwrite, hset b, cons_append]

theorem overwrite_of_not_mem {l : List α} {a : α} (h : a ∉ l) (b : α) : overwrite l a b = l := by
  have hidx : l.findIdx (· == a) = l.length :=
    findIdx_eq_length_of_false fun x hx => by
      simpa using fun heq : x = a => h (heq ▸ hx)
  rw [overwrite, hidx, set_eq_of_length_le le_rfl]

@[simp]
theorem length_overwrite (l : List α) (a b : α) : (overwrite l a b).length = l.length :=
  length_set ..

theorem getD_overwrite (l : List α) (a b d : α) (i : ℕ) :
    (overwrite l a b).getD i d = l.getD i d ∨
      (l.getD i d = a ∧ (overwrite l a b).getD i d = b) := by
  by_cases h : a ∈ l
  · obtain ⟨l₁, l₂, heq, hset⟩ := overwrite_of_mem h
    rw [hset b, heq]
    rcases Nat.lt_trichotomy i l₁.length with hi | rfl | hi
    · exact Or.inl (by rw [getD_append _ _ _ _ hi, getD_append _ _ _ _ hi])
    · exact Or.inr (by simp)
    · obtain ⟨k, rfl⟩ := Nat.exists_eq_add_of_lt hi
      refine Or.inl ?_
      rw [getD_append_right _ _ _ _ hi.le, getD_append_right _ _ _ _ hi.le,
        show l₁.length + k + 1 - l₁.length = k + 1 by omega, getD_cons_succ,
        getD_cons_succ]
  · rw [overwrite_of_not_mem h]
    exact Or.inl rfl

variable [Zero α]

structure Holds (l : List α) (s : Finset α) : Prop where
  once : (l.filter (· ≠ 0)).Nodup
  mem : ∀ a, a ∈ s ↔ a ∈ l ∧ a ≠ 0

variable {l : List α} {s : Finset α}

theorem holds_replicate (n : ℕ) : Holds (replicate n (0 : α)) ∅ where
  once := by simp
  mem := fun a => by
    simp

theorem Holds.card_eq (h : Holds l s) : s.card = (l.filter (· ≠ 0)).length := by
  have hset : s = (l.filter (· ≠ 0)).toFinset := by
    ext a
    rw [h.mem, mem_toFinset, mem_filter, decide_eq_true_eq]
  rw [hset, toFinset_card_of_nodup h.once]

theorem Holds.exists_free (h : Holds l s) (hroom : s.card < l.length) : 0 ∈ l := by
  by_contra h0
  have hne : ∀ a ∈ l, a ≠ 0 := fun a ha heq => h0 (heq ▸ ha)
  have hnodup : l.Nodup := by
    have hall : l.filter (· ≠ 0) = l := filter_eq_self.mpr (by simpa using hne)
    exact hall ▸ h.once
  have hset : l.toFinset = s := by
    ext a
    rw [mem_toFinset, h.mem]
    exact ⟨fun ha => ⟨ha, hne a ha⟩, And.left⟩
  rw [← hset, toFinset_card_of_nodup hnodup] at hroom
  exact lt_irrefl _ hroom

theorem Holds.put (h : Holds l s) (hroom : s.card < l.length) {a : α} (ha : a ≠ 0) (hs : a ∉ s) :
    Holds (overwrite l 0 a) (insert a s) := by
  obtain ⟨l₁, l₂, rfl, hset⟩ := overwrite_of_mem (h.exists_free hroom)
  rw [hset a]
  have honce := h.once
  have hmem := h.mem a
  constructor
  · simp only [filter_append, filter_cons] at honce ⊢
    simp only [ha, ne_eq, not_true, decide_false, not_false_iff, decide_true, if_true,
      Bool.false_eq_true, if_false] at honce ⊢
    refine (perm_middle.nodup_iff).mpr (nodup_cons.mpr ⟨fun hin => ?_, honce⟩)
    rw [← filter_append, mem_filter] at hin
    exact hs (hmem.mpr ⟨by simpa [ha] using hin.1, ha⟩)
  · intro b
    rw [Finset.mem_insert, h.mem]
    simp only [mem_append, mem_cons]
    by_cases hb : b = a
    · simp [hb, ha]
    · tauto

theorem Holds.drop (h : Holds l s) {a : α} (ha : a ≠ 0) : Holds (overwrite l a 0) (s.erase a) := by
  by_cases hmem : a ∈ l
  · obtain ⟨l₁, l₂, rfl, hset⟩ := overwrite_of_mem hmem
    rw [hset 0]
    have honce : (a :: (l₁.filter (· ≠ 0) ++ l₂.filter (· ≠ 0))).Nodup := by
      have h := h.once
      rw [filter_append, filter_cons_of_pos (by simpa using ha)] at h
      exact perm_middle.nodup_iff.mp h
    obtain ⟨hnot, hrest⟩ := nodup_cons.mp honce
    constructor
    · rwa [filter_append, filter_cons_of_neg (by simp)]
    · intro b
      rw [Finset.mem_erase, h.mem]
      simp only [mem_append, mem_cons]
      simp only [mem_append, mem_filter] at hnot
      by_cases hb : b = a
      · subst hb
        simp only [ne_eq, decide_not, Bool.not_eq_true', decide_eq_false_iff_not] at hnot
        tauto
      · tauto
  · rw [overwrite_of_not_mem hmem, Finset.erase_eq_of_notMem fun hs => hmem ((h.mem a).mp hs).1]
    exact h

theorem Holds.eq_empty (h : Holds l s) (hfree : ∀ i, l.getD i 0 = 0) : s = ∅ := by
  refine Finset.eq_empty_of_forall_notMem fun a ha => ?_
  obtain ⟨hmem, hne⟩ := (h.mem a).mp ha
  obtain ⟨i, hi, rfl⟩ := mem_iff_getElem.mp hmem
  exact hne ((getD_eq_getElem _ _ hi).symm.trans (hfree i))

theorem Holds.getD_mem (h : Holds l s) {i : ℕ} (hi : l.getD i 0 ≠ 0) : l.getD i 0 ∈ s := by
  refine (h.mem _).mpr ⟨?_, hi⟩
  by_cases hlt : i < l.length
  · rw [getD_eq_getElem _ _ hlt]
    exact getElem_mem hlt
  · exact absurd (getD_eq_default _ _ (Nat.le_of_not_lt hlt)) hi

end SlotTable
end Sysak.Lib
