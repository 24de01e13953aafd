/-
# An array that is written again and again from its beginning
-/

import Mathlib.Data.List.Induction

namespace Sysak.Lib

open List Option

variable {α : Type*}

def overwrite (buf r : List α) : List α := r ++ buf.drop r.length

theorem length_overwrite {buf r : List α} (h : r.length ≤ buf.length) :
    (overwrite buf r).length = buf.length := by
  rw [overwrite, length_append, length_drop, Nat.add_sub_cancel' h]

theorem getElem?_overwrite (buf r : List α) (n : ℕ) :
    (overwrite buf r)[n]? = r[n]?.or buf[n]? := by
  unfold overwrite
  by_cases hn : n < r.length
  · rw [getElem?_append_left hn, getElem?_eq_getElem hn]
    rfl
  · have hnone : r[n]? = none := getElem?_eq_none (by omega)
    rw [getElem?_append_right (by omega), getElem?_drop, Nat.add_sub_cancel' (by omega),
      hnone, none_or]

theorem set_overwrite (buf r : List α) (h : r.length < buf.length) (x : α) :
    (overwrite buf r).set r.length x = overwrite buf (r ++ [x]) := by
  unfold overwrite
  rw [set_append_right _ _ (Nat.le_refl _), Nat.sub_self, drop_eq_getElem_cons h,
    set_cons_zero,
    length_append, length_singleton, append_assoc, singleton_append]

theorem getElem?_foldl_overwrite_iff {buf : List α} {l : List (List α)} {z : α}
    (hz : ∀ r ∈ l, z ∉ r) (n : ℕ) :
    (l.foldl overwrite buf)[n]? = some z ↔ (∀ r ∈ l, r.length ≤ n) ∧ buf[n]? = some z := by
  induction l using reverseRecOn with
  | nil => simp
  | append_singleton l r ih =>
    obtain ⟨hl, hr⟩ := forall_mem_append.mp hz
    rw [foldl_append, foldl_cons, foldl_nil, getElem?_overwrite,
      forall_mem_append]
    by_cases hn : n < r.length
    · -- the last record reaches the place, and `z` is not in it
      rw [getElem?_eq_getElem hn, some_or]
      constructor
      · intro heq
        have hmem : z ∈ r := some.inj heq ▸ getElem_mem hn
        exact absurd hmem (hr r mem_cons_self)
      · rintro ⟨⟨-, hle⟩, -⟩
        have := hle r mem_cons_self
        omega
    · rw [getElem?_eq_none (by omega), none_or, ih hl]
      have hle : ∀ q ∈ [r], q.length ≤ n := fun q hq => by
        rw [mem_singleton.mp hq]
        omega
      exact ⟨fun h => ⟨⟨h.1, hle⟩, h.2⟩, fun h => ⟨h.1.1, h.2⟩⟩

end Sysak.Lib
