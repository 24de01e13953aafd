/-
# A window that moves over a sequence
-/

import Mathlib.Algebra.BigOperators.Group.List.Basic
import Mathlib.Algebra.Order.BigOperators.Group.List
import Mathlib.Algebra.Order.Field.Basic
import Mathlib.Data.List.Rotate

namespace Sysak.Lib

open List

section Window

variable {α : Type*} {w : ℕ} {slots xs : List α}

def lastN (w : ℕ) (xs : List α) : List α := xs.drop (xs.length - w)

def IsRing (w : ℕ) (slots xs : List α) : Prop := slots.rotate xs.length = lastN w xs

theorem length_lastN (w : ℕ) (xs : List α) : (lastN w xs).length = min xs.length w := by
  rw [lastN, length_drop]
  omega

theorem lastN_of_length_le (h : xs.length ≤ w) : lastN w xs = xs := by
  rw [lastN, Nat.sub_eq_zero_of_le h, drop_zero]

theorem lastN_concat (x : α) (hw : 0 < w) (h : w ≤ xs.length) :
    lastN w (xs ++ [x]) = (lastN w xs).tail ++ [x] := by
  rw [lastN, lastN, tail_drop, length_append, length_singleton,
    drop_append_of_le_length (by omega)]
  congr 2
  omega

theorem rotate_set_self (x : α) {k : ℕ} (hk : k < slots.length) :
    (slots.set k x).rotate k = x :: (slots.rotate k).tail := by
  have htake : (slots.take k).length = k := length_take_of_le hk.le
  have hset := rotate_append_length_eq (slots.take k) (x :: slots.drop (k + 1))
  rw [htake] at hset
  have hne : slots.drop k ≠ [] := fun heq => absurd (drop_eq_nil_iff.mp heq) (by omega)
  rw [set_eq_take_append_cons_drop, if_pos hk, hset, rotate_eq_drop_append_take hk.le,
    tail_append_of_ne_nil hne, tail_drop, cons_append]

theorem rotate_set (x : α) (n : ℕ) (h : slots ≠ []) :
    (slots.set (n % slots.length) x).rotate (n + 1) = (slots.rotate n).tail ++ [x] := by
  have hk : n % slots.length < slots.length := Nat.mod_lt _ (length_pos_iff.mpr h)
  have hmod := rotate_mod (slots.set (n % slots.length) x) n
  rw [length_set, rotate_set_self x hk, rotate_mod] at hmod
  rw [← rotate_rotate, ← hmod, rotate_cons_succ, rotate_zero]

namespace IsRing

theorem nil : IsRing w ([] : List α) [] := by
  rw [IsRing, rotate_nil, lastN, drop_nil]

theorem length_eq (h : IsRing w slots xs) : slots.length = min xs.length w := by
  rw [← length_rotate slots xs.length, h, length_lastN]

theorem append (h : IsRing w slots xs) (x : α) (hlt : xs.length < w) :
    IsRing w (slots ++ [x]) (xs ++ [x]) := by
  have hlen : slots.length = xs.length := h.length_eq.trans (Nat.min_eq_left hlt.le)
  have heq : slots = xs := by
    have hrot : slots.rotate xs.length = lastN w xs := h
    rwa [← hlen, rotate_length, lastN_of_length_le hlt.le] at hrot
  subst heq
  rw [IsRing, rotate_length, lastN_of_length_le]
  rw [length_append]
  exact hlt

theorem set (h : IsRing w slots xs) (x : α) (hw : 0 < w) (hle : w ≤ xs.length) :
    IsRing w (slots.set (xs.length % w) x) (xs ++ [x]) := by
  have hlen : slots.length = w := h.length_eq.trans (Nat.min_eq_right hle)
  have hrot : slots.rotate xs.length = lastN w xs := h
  rw [IsRing, length_append, length_singleton, lastN_concat x hw hle, ← hrot, ← hlen]
  exact rotate_set x xs.length (length_pos_iff.mp (hlen ▸ hw))

theorem sum_eq [AddCommMonoid α] (h : IsRing w slots xs) : slots.sum = (lastN w xs).sum := by
  have hrot : slots.rotate xs.length = lastN w xs := h
  rw [← hrot]
  exact (rotate_perm slots xs.length).sum_eq.symm

end IsRing

end Window

section Blocks

variable {α : Type*} {w : ℕ}

def inBlock (w : ℕ) (xs : List α) : List α := xs.drop (w * (xs.length / w))

def lastBlock (w : ℕ) (xs : List α) : List α := xs.drop (w * ((xs.length - 1) / w))

theorem div_mod_succ (n : ℕ) (hw : 0 < w) :
    n % w + 1 < w ∧ (n + 1) / w = n / w ∧ (n + 1) % w = n % w + 1 ∨
      n % w + 1 = w ∧ (n + 1) / w = n / w + 1 ∧ (n + 1) % w = 0 := by
  have hdecomp := Nat.div_add_mod n w
  rcases Nat.lt_or_eq_of_le (Nat.mod_lt n hw) with hlt | heq
  · refine .inl ⟨hlt, (Nat.div_mod_unique hw).mpr ⟨?_, hlt⟩⟩
    omega
  · have hnext : n + 1 = w * (n / w + 1) := by
      rw [Nat.mul_add, Nat.mul_one]
      omega
    refine .inr ⟨heq, ?_, ?_⟩
    · rw [hnext, Nat.mul_div_cancel_left _ hw]
    · rw [hnext, Nat.mul_mod_right]

theorem lastBlock_concat (w : ℕ) (xs : List α) (x : α) :
    lastBlock w (xs ++ [x]) = inBlock w xs ++ [x] := by
  rw [lastBlock, inBlock, length_append, length_singleton, Nat.add_sub_cancel,
    drop_append_of_le_length (Nat.mul_div_le _ _)]

theorem lastBlock_ne_nil {xs : List α} (h : xs ≠ []) : lastBlock w xs ≠ [] := by
  have hpos := length_pos_iff.mpr h
  have hle := Nat.mul_div_le (xs.length - 1) w
  rw [lastBlock, ne_eq, drop_eq_nil_iff]
  omega

end Blocks

section Mean

variable {α : Type*} [Field α] [CharZero α]

def mean (xs : List α) : α := xs.sum / xs.length

theorem mean_concat (xs : List α) (x : α) :
    mean (xs ++ [x]) = (mean xs * xs.length + x) / (xs.length + 1) := by
  have hsum : mean xs * xs.length = xs.sum := by
    rcases Nat.eq_zero_or_pos xs.length with hzero | hpos
    · rw [length_eq_zero_iff.mp hzero]
      simp
    · exact div_mul_cancel₀ _ (Nat.cast_ne_zero.mpr hpos.ne')
  rw [hsum, mean, sum_append, sum_singleton, length_append, length_singleton,
    Nat.cast_add, Nat.cast_one]

omit [CharZero α] in
theorem le_mean_le [LinearOrder α] [IsStrictOrderedRing α] {xs : List α} (hne : xs ≠ []) {lo hi : α}
    (hlo : ∀ x ∈ xs, lo ≤ x) (hhi : ∀ x ∈ xs, x ≤ hi) : lo ≤ mean xs ∧ mean xs ≤ hi := by
  have hpos : 0 < (xs.length : α) := Nat.cast_pos.mpr (length_pos_iff.mpr hne)
  rw [mean, le_div_iff₀ hpos, div_le_iff₀ hpos, mul_comm, ← nsmul_eq_mul, mul_comm hi,
    ← nsmul_eq_mul]
  exact ⟨card_nsmul_le_sum xs lo hlo, sum_le_card_nsmul xs hi hhi⟩

end Mean

section Extremes

variable {α : Type*} [LinearOrder α]

theorem isGreatest_foldl_max (a : α) (xs : List α) :
    IsGreatest {x | x ∈ a :: xs} (xs.foldl max a) := by
  induction xs generalizing a with
  | nil => exact ⟨mem_singleton_self a, fun x hx => (mem_singleton.mp hx).le⟩
  | cons b xs ih =>
    obtain ⟨hmem, hle⟩ := ih (max a b)
    have hmax := hle (mem_cons_self : max a b ∈ max a b :: xs)
    refine ⟨?_, ?_⟩
    · rcases mem_cons.mp hmem with heq | hin
      · rcases max_choice a b with hc | hc
        · exact mem_cons.mpr (.inl (heq.trans hc))
        · exact mem_cons_of_mem _ (mem_cons.mpr (.inl (heq.trans hc)))
      · exact mem_cons_of_mem _ (mem_cons_of_mem _ hin)
    · intro x hx
      rcases mem_cons.mp hx with rfl | hx
      · exact (le_max_left x b).trans hmax
      · rcases mem_cons.mp hx with rfl | hx
        · exact (le_max_right a x).trans hmax
        · exact hle (mem_cons_of_mem _ hx)

theorem isLeast_foldl_min (a : α) (xs : List α) :
    IsLeast {x | x ∈ a :: xs} (xs.foldl min a) :=
  isGreatest_foldl_max (α := αᵒᵈ) a xs

theorem isGreatest_iff_of_insert {S : Set α} {a s : α} (h : IsGreatest (insert a S) s) :
    IsGreatest S s ↔ ∃ x ∈ S, a ≤ x := by
  constructor
  · exact fun hS => ⟨s, hS.1, h.2 (Set.mem_insert a S)⟩
  · rintro ⟨x, hx, hax⟩
    refine ⟨?_, fun y hy => h.2 (Set.mem_insert_of_mem a hy)⟩
    rcases h.1 with rfl | hs
    · rwa [le_antisymm hax (h.2 (Set.mem_insert_of_mem s hx))]
    · exact hs

theorem isGreatest_foldl_max_iff {a : α} {xs : List α} :
    IsGreatest {x | x ∈ xs} (xs.foldl max a) ↔ ∃ x ∈ xs, a ≤ x := by
  have hinsert : {x | x ∈ a :: xs} = insert a {x | x ∈ xs} := Set.ext fun x => mem_cons
  exact isGreatest_iff_of_insert (hinsert ▸ isGreatest_foldl_max a xs)

theorem isLeast_foldl_min_iff {a : α} {xs : List α} :
    IsLeast {x | x ∈ xs} (xs.foldl min a) ↔ ∃ x ∈ xs, x ≤ a :=
  isGreatest_foldl_max_iff (α := αᵒᵈ)

theorem eq_iff_of_isGreatest {S T : Set α} {s t : α} (hs : IsGreatest S s) (ht : IsGreatest T t) :
    s = t ↔ (∃ x ∈ S, ∀ y ∈ T, y ≤ x) ∧ ∀ x ∈ S, ∃ y ∈ T, x ≤ y := by
  constructor
  · rintro rfl
    exact ⟨⟨s, hs.1, fun y hy => ht.2 hy⟩, fun x hx => ⟨s, ht.1, hs.2 hx⟩⟩
  · rintro ⟨⟨x, hx, hxt⟩, hall⟩
    obtain ⟨y, hy, hsy⟩ := hall s hs.1
    exact le_antisymm (hsy.trans (ht.2 hy)) ((hxt t ht.1).trans (hs.2 hx))

end Extremes

theorem isGreatest_abs_sub {α : Type*} [AddCommGroup α] [LinearOrder α] [IsOrderedAddMonoid α]
    {S : Set α} {hi lo : α} (hhi : IsGreatest S hi) (hlo : IsLeast S lo) (a : α) :
    IsGreatest ((fun x => |x - a|) '' S) (max (hi - a) (a - lo)) := by
  have hup : ∀ x ∈ S, |x - a| ≤ max (hi - a) (a - lo) := by
    intro x hx
    refine abs_le'.mpr ⟨le_max_of_le_left (sub_le_sub_right (hhi.2 hx) a), ?_⟩
    rw [neg_sub]
    exact le_max_of_le_right (sub_le_sub_left (hlo.2 hx) a)
  refine ⟨?_, ?_⟩
  · rcases max_choice (hi - a) (a - lo) with hmax | hmax
    · refine ⟨hi, hhi.1, le_antisymm (hup hi hhi.1) ?_⟩
      rw [hmax]
      exact le_abs_self _
    · refine ⟨lo, hlo.1, le_antisymm (hup lo hlo.1) ?_⟩
      rw [hmax, ← neg_sub lo a]
      exact neg_le_abs _
  · rintro _ ⟨x, hx, rfl⟩
    exact hup x hx

end Sysak.Lib
