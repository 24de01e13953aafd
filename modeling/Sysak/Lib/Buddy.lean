/-
# Aligned blocks
-/

import Mathlib.Order.Bounds.Basic
import Mathlib.Order.Nat
import Mathlib.Algebra.Order.Group.Nat
import Mathlib.Algebra.GroupWithZero.Nat
import Mathlib.Algebra.BigOperators.Group.List.Basic

namespace Sysak.Lib
namespace Buddy

open List

def IsBlock (m : ℕ) (p : ℕ × ℕ) : Prop := p.1 ≤ m ∧ 2 ^ p.1 ∣ p.2

def InBlock (p : ℕ × ℕ) (x : ℕ) : Prop := p.2 ≤ x ∧ x < p.2 + 2 ^ p.1

structure Covers (m : ℕ) (bs : List (ℕ × ℕ)) (a b : ℕ) : Prop where
  block : ∀ p ∈ bs, IsBlock m p
  mem_iff : ∀ x, (∃ p ∈ bs, InBlock p x) ↔ a ≤ x ∧ x < b

inductive Greedy (m : ℕ) : ℕ → ℕ → List ℕ → Prop
  | nil (a : ℕ) : Greedy m a 0 []
  | cons {a len o : ℕ} {os : List ℕ}
      (ho : IsGreatest {o | o ≤ m ∧ 2 ^ o ∣ a ∧ 2 ^ o ≤ len} o)
      (h : Greedy m (a + 2 ^ o) (len - 2 ^ o) os) : Greedy m a len (o :: os)

def placed : ℕ → List ℕ → List (ℕ × ℕ)
  | _, [] => []
  | a, o :: os => (o, a) :: placed (a + 2 ^ o) os

section Greedy

variable {m a len : ℕ} {os : List ℕ}

theorem Greedy.sum_eq (h : Greedy m a len os) : (os.map fun o => 2 ^ o).sum = len := by
  induction h with
  | nil => rfl
  | cons ho _ ih =>
    rw [map_cons, sum_cons, ih]
    exact Nat.add_sub_cancel' ho.1.2.2

theorem Greedy.le (h : Greedy m a len os) : ∀ o ∈ os, o ≤ m := by
  induction h with
  | nil => exact fun o ho => absurd ho not_mem_nil
  | cons ho _ ih =>
    intro o hmem
    rcases mem_cons.mp hmem with rfl | hmem
    · exact ho.1.1
    · exact ih o hmem

theorem Greedy.covers (h : Greedy m a len os) : Covers m (placed a os) a (a + len) := by
  induction h with
  | nil a =>
    refine ⟨fun p hp => absurd hp not_mem_nil, fun x => iff_of_false ?_ (by omega)⟩
    rintro ⟨p, hp, -⟩
    exact absurd hp not_mem_nil
  | @cons a len o os ho _ ih =>
    obtain ⟨hm, hdvd, hle⟩ := ho.1
    constructor
    · intro p hp
      rcases mem_cons.mp hp with rfl | hp
      · exact ⟨hm, hdvd⟩
      · exact ih.block p hp
    · intro x
      have hrest := ih.mem_iff x
      rw [placed, exists_mem_cons_iff, hrest, InBlock]
      show a ≤ x ∧ x < a + 2 ^ o ∨ _ ↔ _
      omega

theorem InBlock.of_meets {p q : ℕ × ℕ} (hp : 2 ^ p.1 ∣ p.2) (hq : 2 ^ q.1 ∣ q.2)
    (hle : p.1 ≤ q.1) {x y : ℕ} (hpx : InBlock p x) (hqx : InBlock q x) (hpy : InBlock p y) :
    InBlock q y := by
  -- both begin at multiples of the size of the smaller one
  obtain ⟨i, hi⟩ := hp
  obtain ⟨k, hk⟩ := (Nat.pow_dvd_pow 2 hle).trans hq
  obtain ⟨d, hd⟩ := Nat.pow_dvd_pow 2 hle
  obtain ⟨hp₁, hp₂⟩ := hpx
  obtain ⟨hq₁, hq₂⟩ := hqx
  obtain ⟨hy₁, hy₂⟩ := hpy
  rw [hi] at hp₁ hp₂ hy₁ hy₂
  rw [hk] at hq₁ hq₂
  rw [hd, ← Nat.mul_add] at hq₂
  have hki : k < i + 1 := Nat.lt_of_mul_lt_mul_left (a := 2 ^ p.1) (by rw [Nat.mul_add]; omega)
  have hik : i < k + d := Nat.lt_of_mul_lt_mul_left (a := 2 ^ p.1) (by omega)
  have hlow : 2 ^ p.1 * k ≤ 2 ^ p.1 * i := Nat.mul_le_mul_left _ (by omega)
  have hhigh : 2 ^ p.1 * (i + 1) ≤ 2 ^ p.1 * (k + d) := Nat.mul_le_mul_left _ (by omega)
  rw [Nat.mul_add, Nat.mul_one] at hhigh
  refine ⟨?_, ?_⟩
  · rw [hk]
    omega
  · rw [hk, hd, ← Nat.mul_add]
    omega

theorem inBlock_first {o : ℕ} (ho : IsGreatest {o | o ≤ m ∧ 2 ^ o ∣ a ∧ 2 ^ o ≤ len} o)
    {p : ℕ × ℕ} (hp : IsBlock m p) (hsub : ∀ x, InBlock p x → a ≤ x ∧ x < a + len) {x y : ℕ}
    (hpx : InBlock p x) (hx : x < a + 2 ^ o) (hpy : InBlock p y) : y < a + 2 ^ o := by
  have hax := (hsub x hpx).1
  have hpos : 0 < 2 ^ p.1 := Nat.two_pow_pos p.1
  rcases Nat.le_total p.1 o with hle | hge
  · exact (InBlock.of_meets (q := (o, a)) hp.2 ho.1.2.1 hle hpx ⟨hax, hx⟩ hpy).2
  · -- a larger one would begin where the interval does, and the first block is the largest there
    have hstart := (InBlock.of_meets ho.1.2.1 hp.2 hge (p := (o, a)) ⟨hax, hx⟩ hpx
      (y := a) ⟨le_rfl, Nat.lt_add_of_pos_right (Nat.two_pow_pos o)⟩).1
    have hbegin := (hsub p.2 ⟨le_rfl, Nat.lt_add_of_pos_right hpos⟩).1
    have hend := (hsub (p.2 + (2 ^ p.1 - 1)) ⟨by omega, by omega⟩).2
    have heq : p.2 = a := Nat.le_antisymm hstart hbegin
    have hlen : 2 ^ p.1 ≤ len := by omega
    have hmax : p.1 ≤ o := ho.2 ⟨hp.1, heq ▸ hp.2, hlen⟩
    exact (InBlock.of_meets (q := (o, a)) hp.2 ho.1.2.1 hmax hpx ⟨hax, hx⟩ hpy).2

theorem Greedy.length_le (h : Greedy m a len os) {bs : List (ℕ × ℕ)}
    (hbs : Covers m bs a (a + len)) : os.length ≤ bs.length := by
  induction h generalizing bs with
  | nil => exact Nat.zero_le _
  | @cons a len o os ho _ ih =>
    have hle := ho.1.2.2
    have hpos : 0 < 2 ^ o := Nat.two_pow_pos o
    have hsub : ∀ p ∈ bs, ∀ x, InBlock p x → a ≤ x ∧ x < a + len :=
      fun p hp x hx => (hbs.mem_iff x).mp ⟨p, hp, hx⟩
    -- the blocks that begin behind the first one make up the rest
    have hrest : Covers m (bs.filter fun p => decide (a + 2 ^ o ≤ p.2)) (a + 2 ^ o)
        (a + 2 ^ o + (len - 2 ^ o)) := by
      constructor
      · exact fun p hp => hbs.block p (mem_filter.mp hp).1
      · intro x
        constructor
        · rintro ⟨p, hp, hx⟩
          obtain ⟨hmem, hstart⟩ := mem_filter.mp hp
          have hin := hsub p hmem x hx
          have hge := of_decide_eq_true hstart
          have := hx.1
          omega
        · intro hx
          obtain ⟨p, hp, hpx⟩ := (hbs.mem_iff x).mpr ⟨by omega, by omega⟩
          refine ⟨p, mem_filter.mpr ⟨hp, decide_eq_true ?_⟩, hpx⟩
          by_contra hlt
          have hfirst : InBlock p p.2 :=
            ⟨le_rfl, Nat.lt_add_of_pos_right (Nat.two_pow_pos p.1)⟩
          have := inBlock_first ho (hbs.block p hp) (hsub p hp) hfirst (by omega) hpx
          omega
    -- and one more covers the beginning
    obtain ⟨p, hp, hpa⟩ := (hbs.mem_iff a).mpr ⟨le_rfl, by omega⟩
    have hlt : (bs.filter fun p => decide (a + 2 ^ o ≤ p.2)).length < bs.length := by
      refine length_filter_lt_length_iff_exists.mpr ⟨p, hp, ?_⟩
      have := hpa.1
      simp only [decide_eq_true_eq]
      omega
    exact Nat.lt_of_le_of_lt (ih hrest) hlt

end Greedy

end Buddy
end Sysak.Lib
