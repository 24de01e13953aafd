/-
# Records laid end to end
-/

import Mathlib.Data.List.Basic
import Mathlib.Data.List.OfFn
import Mathlib.Data.List.TakeDrop

namespace Sysak.Lib

open List

variable {α β : Type*} (enc : α → List β)

def offset (l : List α) (i : ℕ) : ℕ := ((l.take i).flatMap enc).length

@[simp] theorem offset_zero (l : List α) : offset enc l 0 = 0 := by simp [offset]

theorem offset_length (l : List α) : offset enc l l.length = (l.flatMap enc).length := by
  simp [offset]

variable {l : List α} {i : ℕ}

theorem offset_succ (h : i < l.length) :
    offset enc l (i + 1) = offset enc l i + (enc l[i]).length := by
  rw [offset, take_succ_eq_append_getElem h, flatMap_append]
  simp [offset]

theorem offset_append_left (l' : List α) (h : i ≤ l.length) :
    offset enc (l ++ l') i = offset enc l i := by
  rw [offset, take_append_of_le_length h, offset]

theorem offset_take {i k : ℕ} (h : i ≤ k) : offset enc (l.take k) i = offset enc l i := by
  rw [offset, take_take, Nat.min_eq_left h, offset]

theorem offset_mono (l : List α) {i j : ℕ} (h : i ≤ j) : offset enc l i ≤ offset enc l j := by
  have hp : l.take i <+: l.take j := take_prefix_take_left h
  obtain ⟨t, ht⟩ := hp
  rw [offset, offset, ← ht, flatMap_append, length_append]
  exact Nat.le_add_right _ _

theorem offset_le (l : List α) (i : ℕ) : offset enc l i ≤ (l.flatMap enc).length := by
  rcases Nat.le_total i l.length with h | h
  · rw [← offset_length]
    exact offset_mono enc l h
  · exact Nat.le_of_eq (by rw [offset, take_of_length_le h])

section Nonempty

variable {enc} (hpos : ∀ a, 0 < (enc a).length)

include hpos

theorem offset_lt {i j : ℕ} (hij : i < j) (hj : j ≤ l.length) :
    offset enc l i < offset enc l j := by
  have hi : i < l.length := by omega
  have hstep := offset_succ enc hi
  have := offset_mono enc l (Nat.succ_le_of_lt hij)
  have := hpos l[i]
  rw [Nat.succ_eq_add_one] at *
  omega

theorem offset_lt_iff {i j : ℕ} (hj : j ≤ l.length) : offset enc l i < offset enc l j ↔ i < j := by
  refine ⟨fun h => ?_, fun h => offset_lt hpos h hj⟩
  by_contra hn
  exact absurd (offset_mono enc l (Nat.le_of_not_lt hn)) (Nat.not_le_of_lt h)

theorem offset_inj {i j : ℕ} (hi : i ≤ l.length) (hj : j ≤ l.length) :
    offset enc l i = offset enc l j ↔ i = j := by
  refine ⟨fun h => ?_, fun h => h ▸ rfl⟩
  by_contra hne
  rcases Nat.lt_or_gt_of_ne hne with hlt | hlt
  · exact absurd h (Nat.ne_of_lt (offset_lt hpos hlt hj))
  · exact absurd h.symm (Nat.ne_of_lt (offset_lt hpos hlt hi))

end Nonempty

theorem drop_offset (l : List α) (i : ℕ) (rest : List β) :
    (l.flatMap enc ++ rest).drop (offset enc l i) = (l.drop i).flatMap enc ++ rest := by
  have h : l.flatMap enc = (l.take i).flatMap enc ++ (l.drop i).flatMap enc := by
    rw [← flatMap_append, take_append_drop]
  rw [h, append_assoc, offset, drop_left]

theorem drop_offset_of_lt (h : i < l.length) (rest : List β) :
    (l.flatMap enc ++ rest).drop (offset enc l i) =
      enc l[i] ++ ((l.drop (i + 1)).flatMap enc ++ rest) := by
  rw [drop_offset, drop_eq_getElem_cons h, flatMap_cons, append_assoc]

section Slots

variable {n : ℕ} (slots : Fin n → α)

def slotBytes (i : ℕ) : List β := ((ofFn slots).drop i).flatMap enc

theorem slotBytes_of_lt (h : i < n) :
    slotBytes enc slots i = enc (slots ⟨i, h⟩) ++ slotBytes enc slots (i + 1) := by
  have hlt : i < (ofFn slots).length := by rwa [length_ofFn]
  rw [slotBytes, drop_eq_getElem_cons hlt, flatMap_cons, List.getElem_ofFn]
  rfl

theorem slotBytes_length : slotBytes enc slots n = [] := by
  rw [slotBytes, drop_of_length_le (by rw [length_ofFn]), flatMap_nil]

theorem offset_of_length_eq {size : ℕ} (hsize : ∀ a, (enc a).length = size) (h : i ≤ l.length) :
    offset enc l i = size * i := by
  induction i with
  | zero => simp
  | succ i ih => rw [offset_succ enc h, ih (by omega), hsize, Nat.mul_succ]

theorem drop_slotBytes {size : ℕ} (hsize : ∀ a, (enc a).length = size) (h : i ≤ n) (rest : List β) :
    (slotBytes enc slots 0 ++ rest).drop (size * i) = slotBytes enc slots i ++ rest := by
  have hle : i ≤ (ofFn slots).length := by rwa [length_ofFn]
  rw [← offset_of_length_eq enc hsize hle, slotBytes, drop_zero, drop_offset, slotBytes]

end Slots

end Sysak.Lib
