/-
# The minima of the rests of a list
-/

import Mathlib.Data.List.DropRight
import Sysak.Lib.MovingWindow

namespace Sysak.Lib

open List

variable {α β : Type*} [LinearOrder α] (f : β → α)

def suffixMinima : List β → List β
  | [] => []
  | e :: w => if ∀ d ∈ w, f e < f d then e :: suffixMinima w else suffixMinima w

theorem suffixMinima_sublist (w : List β) : (suffixMinima f w).Sublist w := by
  induction w with
  | nil => exact Sublist.refl _
  | cons e w ih =>
    rw [suffixMinima]
    split_ifs
    · exact ih.cons_cons e
    · exact ih.cons e

theorem rdropWhile_cons_of_not {p : β → Bool} {e : β} (he : ¬ p e) (l : List β) :
    (e :: l).rdropWhile p = e :: l.rdropWhile p := by
  rw [rdropWhile, rdropWhile, reverse_cons, dropWhile_append]
  split_ifs with hnil
  · rw [List.isEmpty_iff] at hnil
    rw [hnil, dropWhile_cons_of_neg he]
    rfl
  · rw [reverse_append]
    rfl

theorem suffixMinima_concat (w : List β) (x : β) :
    suffixMinima f (w ++ [x]) =
      (suffixMinima f w).rdropWhile (fun d => decide (f x ≤ f d)) ++ [x] := by
  induction w with
  | nil => rfl
  | cons e w ih =>
    rw [cons_append, suffixMinima, ih, suffixMinima]
    have hall : (∀ d ∈ w ++ [x], f e < f d) ↔ (∀ d ∈ w, f e < f d) ∧ f e < f x := by
      rw [forall_mem_append, forall_mem_singleton]
    by_cases hw : ∀ d ∈ w, f e < f d
    · by_cases hx : f e < f x
      · rw [if_pos (hall.mpr ⟨hw, hx⟩), if_pos hw, rdropWhile_cons_of_not (by simpa using hx)]
        rfl
      · -- everything behind `e` is greater than `e`, and goes with it
        have hgo : ∀ d ∈ suffixMinima f w, f x ≤ f d := fun d hd =>
          (not_lt.mp hx).trans (hw d ((suffixMinima_sublist f w).subset hd)).le
        have hnil : (suffixMinima f w).rdropWhile (fun d => decide (f x ≤ f d)) = [] :=
          rdropWhile_eq_nil_iff.mpr fun d hd => decide_eq_true (hgo d hd)
        have hnil' : (e :: suffixMinima f w).rdropWhile (fun d => decide (f x ≤ f d)) = [] := by
          refine rdropWhile_eq_nil_iff.mpr fun d hd => decide_eq_true ?_
          rcases mem_cons.mp hd with rfl | hd
          · exact not_lt.mp hx
          · exact hgo d hd
        rw [if_neg fun h => hx (hall.mp h).2, if_pos hw, hnil, hnil']
    · rw [if_neg fun h => hw (hall.mp h).1, if_neg hw]

theorem suffixMinima_append (a b : List β) :
    ∃ c, (∀ e ∈ c, e ∈ a) ∧ suffixMinima f (a ++ b) = c ++ suffixMinima f b := by
  induction a with
  | nil => exact ⟨[], fun _ he => absurd he not_mem_nil, rfl⟩
  | cons e a ih =>
    obtain ⟨c, hc, heq⟩ := ih
    have hc' : ∀ d ∈ c, d ∈ e :: a := fun d hd => mem_cons_of_mem _ (hc d hd)
    rw [cons_append, suffixMinima, heq]
    split_ifs
    · refine ⟨e :: c, fun d hd => ?_, rfl⟩
      rcases mem_cons.mp hd with rfl | hd
      · exact mem_cons_self
      · exact hc' d hd
    · exact ⟨c, hc', rfl⟩

theorem dropWhile_suffixMinima {a b : List β} {p : β → Bool} (ha : ∀ e ∈ a, p e = true)
    (hb : ∀ e ∈ b, p e = false) : (suffixMinima f (a ++ b)).dropWhile p = suffixMinima f b := by
  obtain ⟨c, hc, heq⟩ := suffixMinima_append f a b
  have hnil : c.dropWhile p = [] :=
    dropWhile_eq_nil_iff.mpr fun e he => ha e (hc e he)
  rw [heq, dropWhile_append, hnil, isEmpty_nil, if_pos rfl]
  cases hs : suffixMinima f b with
  | nil => rfl
  | cons e l =>
    have he : e ∈ b := (suffixMinima_sublist f b).subset (hs ▸ mem_cons_self)
    rw [dropWhile_cons_of_neg (by rw [hb e he]; exact Bool.false_ne_true)]

theorem suffixMinima_lastN_concat {l : List β} {x : β} {w : ℕ} {p : β → Bool}
    (hp : ∀ {j e}, (l ++ [x])[j]? = some e → p e = decide (j + w ≤ l.length)) :
    ((suffixMinima f (lastN w l)).rdropWhile (fun d => decide (f x ≤ f d)) ++ [x]).dropWhile p =
      suffixMinima f (lastN w (l ++ [x])) := by
  have hcut : lastN w l ++ [x] =
      ((l ++ [x]).drop (l.length - w)).take (l.length + 1 - w - (l.length - w)) ++
        lastN w (l ++ [x]) := by
    rw [lastN, lastN, ← drop_append_of_le_length (Nat.sub_le _ _), length_append,
      length_singleton]
    conv_lhs => rw [← take_append_drop (l.length + 1 - w - (l.length - w))
      ((l ++ [x]).drop (l.length - w))]
    rw [drop_drop, Nat.add_sub_cancel' (by omega)]
  rw [← suffixMinima_concat, hcut]
  refine dropWhile_suffixMinima f (fun e he => ?_) fun e he => ?_
  · obtain ⟨i, hi⟩ := mem_iff_getElem?.mp he
    have hlt := (List.getElem?_eq_some_iff.mp hi).1
    rw [length_take] at hlt
    rw [getElem?_take_of_lt (by omega), getElem?_drop] at hi
    rw [hp hi]
    exact decide_eq_true (by omega)
  · obtain ⟨i, hi⟩ := mem_iff_getElem?.mp he
    rw [lastN, length_append, length_singleton, getElem?_drop] at hi
    rw [hp hi]
    exact decide_eq_false (by omega)

theorem head?_suffixMinima {w : List β} (hw : w ≠ []) :
    ∃ e ∈ w, (suffixMinima f w).head? = some e ∧ ∀ d ∈ w, f e ≤ f d := by
  induction w with
  | nil => exact absurd rfl hw
  | cons e w ih =>
    rw [suffixMinima]
    split_ifs with he
    · refine ⟨e, mem_cons_self, rfl, fun d hd => ?_⟩
      rcases mem_cons.mp hd with rfl | hd
      · exact le_rfl
      · exact (he d hd).le
    · push Not at he
      obtain ⟨d, hd, hle⟩ := he
      obtain ⟨m, hm, hhead, hleast⟩ := ih (ne_nil_of_mem hd)
      refine ⟨m, mem_cons_of_mem _ hm, hhead, fun d' hd' => ?_⟩
      rcases mem_cons.mp hd' with rfl | hd'
      · exact (hleast d hd).trans hle
      · exact hleast d' hd'

end Sysak.Lib
