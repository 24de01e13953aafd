/-
# Halving a window
-/

import Mathlib.Order.Lattice
import Mathlib.Order.Nat

namespace Sysak.Lib

open List Option

variable {α : Type*} [LinearOrder α]

section Keys

variable {β : Type*} {f : β → α} {l : List β}

theorem le_of_getElem? (hl : l.Pairwise fun a b => f a ≤ f b) {i j : ℕ} {x y : β}
    (hx : l[i]? = some x) (hy : l[j]? = some y) (hij : i ≤ j) : f x ≤ f y := by
  obtain ⟨hi, rfl⟩ := List.getElem?_eq_some_iff.mp hx
  obtain ⟨hj, rfl⟩ := List.getElem?_eq_some_iff.mp hy
  rcases Nat.lt_or_eq_of_le hij with hlt | rfl
  · exact pairwise_iff_getElem.mp hl i j hi hj hlt
  · exact le_rfl

theorem pairwise_mergeSort_key (f : β → α) (l : List β) :
    (l.mergeSort fun a b => f a ≤ f b).Pairwise fun a b => f a ≤ f b := by
  refine (pairwise_mergeSort (fun a b c hab hbc => ?_) (fun a b => ?_) l).imp
    fun h => of_decide_eq_true h
  · simp only [decide_eq_true_eq] at hab hbc ⊢
    exact hab.trans hbc
  · simpa using le_total (f a) (f b)

end Keys

def bsearchLoop (a : List α) (key : α) : ℕ → ℕ → ℕ → Option (ℕ ⊕ ℕ × ℕ)
  | 0, start, stop => if start < stop then none else some (.inr (start, stop))
  | n + 1, start, stop =>
    if start < stop then
      let mid := start + (stop - start) / 2
      a[mid]?.bind fun x =>
        if key < x then bsearchLoop a key n start mid
        else if x < key then bsearchLoop a key n (mid + 1) stop
        else some (.inl mid)
    else some (.inr (start, stop))

structure Window (a : List α) (key : α) (start stop : ℕ) : Prop where
  le : start ≤ stop
  stop_le : stop ≤ a.length
  below : ∀ {i x}, a[i]? = some x → i < start → x < key
  above : ∀ {i x}, a[i]? = some x → stop ≤ i → key < x

theorem window_all (a : List α) (key : α) : Window a key 0 a.length := by
  refine ⟨Nat.zero_le _, le_rfl, fun _ hi => absurd hi (Nat.not_lt_zero _), fun hx hi => ?_⟩
  exact absurd (List.getElem?_eq_some_iff.mp hx).1 (Nat.not_lt.mpr hi)

section Sorted

variable {a : List α} {key : α} {start stop : ℕ}

theorem Window.lower (h : Window a key start stop) (ha : a.Pairwise (· ≤ ·)) {mid : ℕ} {x : α}
    (hx : a[mid]? = some x) (hkey : key < x) (hstart : start ≤ mid) (hstop : mid ≤ stop) :
    Window a key start mid :=
  ⟨hstart, hstop.trans h.stop_le, h.below, fun hy hi =>
    hkey.trans_le (le_of_getElem? ha hx hy hi)⟩

theorem Window.upper (h : Window a key start stop) (ha : a.Pairwise (· ≤ ·)) {mid : ℕ} {x : α}
    (hx : a[mid]? = some x) (hkey : x < key) (hstop : mid < stop) :
    Window a key (mid + 1) stop :=
  ⟨hstop, h.stop_le, fun hy hi => (le_of_getElem? ha hy hx (Nat.le_of_lt_succ hi)).trans_lt hkey,
    h.above⟩

theorem bsearchLoop_spec (ha : a.Pairwise (· ≤ ·)) {n : ℕ} (h : Window a key start stop)
    (hn : stop - start ≤ n) :
    (∃ i, bsearchLoop a key n start stop = some (.inl i) ∧ a[i]? = some key) ∨
      ∃ m, bsearchLoop a key n start stop = some (.inr (m, m)) ∧ Window a key m m := by
  induction n generalizing start stop with
  | zero =>
    obtain rfl : start = stop := Nat.le_antisymm h.le (by omega)
    exact .inr ⟨start, by rw [bsearchLoop, if_neg (lt_irrefl _)], h⟩
  | succ n ih =>
    unfold bsearchLoop
    by_cases hlt : start < stop
    · have hstop := h.stop_le
      have hmid : start + (stop - start) / 2 < a.length := by omega
      obtain ⟨x, hx⟩ : ∃ x, a[start + (stop - start) / 2]? = some x :=
        ⟨_, getElem?_eq_getElem hmid⟩
      simp only [if_pos hlt, hx, bind_some]
      split_ifs with hkey hkey'
      · exact ih (h.lower ha hx hkey (by omega) (by omega)) (by omega)
      · exact ih (h.upper ha hx hkey' (by omega)) (by omega)
      · refine .inl ⟨_, rfl, ?_⟩
        rw [hx, le_antisymm (not_lt.mp hkey) (not_lt.mp hkey')]
    · obtain rfl : start = stop := Nat.le_antisymm h.le (by omega)
      exact .inr ⟨start, by rw [if_neg hlt], h⟩

end Sorted

section Keys

variable {β : Type*} {f : β → α} {l : List β} {key : α} {start stop m i : ℕ} {x : β}

theorem Window.key_lt (h : Window (l.map f) key start stop) (hx : l[i]? = some x) (hi : i < start) :
    f x < key :=
  h.below (by rw [getElem?_map, hx, map_some]) hi

theorem Window.lt_key (h : Window (l.map f) key start stop) (hx : l[i]? = some x) (hi : stop ≤ i) :
    key < f x :=
  h.above (by rw [getElem?_map, hx, map_some]) hi

theorem Window.all_above (h : Window (l.map f) key start 0) : ∀ x ∈ l, key < f x := by
  intro x hx
  obtain ⟨i, hi⟩ := mem_iff_getElem?.mp hx
  exact h.lt_key hi (Nat.zero_le _)

theorem Window.all_below (h : Window (l.map f) key l.length stop) : ∀ x ∈ l, f x < key := by
  intro x hx
  obtain ⟨i, hi⟩ := mem_iff_getElem?.mp hx
  exact h.key_lt hi (List.getElem?_eq_some_iff.mp hi).1

theorem Window.floor (h : Window (l.map f) key m m) (hl : l.Pairwise fun a b => f a ≤ f b)
    (hm : 0 < m) :
    ∃ x, l[m - 1]? = some x ∧ f x < key ∧ ∀ y ∈ l, f y ≤ key → f y ≤ f x := by
  have hle := h.stop_le
  rw [length_map] at hle
  obtain ⟨x, hx⟩ : ∃ x, l[m - 1]? = some x := ⟨_, getElem?_eq_getElem (by omega)⟩
  refine ⟨x, hx, h.key_lt hx (by omega), fun y hy hle => ?_⟩
  obtain ⟨i, hi⟩ := mem_iff_getElem?.mp hy
  have him : i < m := by
    by_contra hge
    exact absurd (h.lt_key hi (Nat.not_lt.mp hge)) (not_lt.mpr hle)
  exact le_of_getElem? hl hi hx (by omega)

end Keys

theorem bsearchLoop_append (a b : List α) (key : α) {n start stop : ℕ} (h : stop ≤ a.length) :
    bsearchLoop (a ++ b) key n start stop = bsearchLoop a key n start stop := by
  induction n generalizing start stop with
  | zero => rfl
  | succ n ih =>
    unfold bsearchLoop
    by_cases hlt : start < stop
    · have hmid : start + (stop - start) / 2 < a.length := by omega
      have hget : (a ++ b)[start + (stop - start) / 2]? = a[start + (stop - start) / 2]? :=
        getElem?_append_left hmid
      simp only [if_pos hlt, hget, ih h, ih hmid.le]
    · simp only [if_neg hlt]

end Sysak.Lib
