/-
# A loop over a stream
-/

import Mathlib.Order.Nat

namespace Sysak.Lib

variable {σ ι ρ : Type*} (body : σ → ι → σ ⊕ ρ) (s : σ) (input : ℕ → ι)

def loopAfter : ℕ → σ ⊕ ρ
  | 0 => .inl s
  | n + 1 => (loopAfter n).elim (fun s => body s (input n)) .inr

def Returns (n : ℕ) (r : ρ) : Prop :=
  ∃ s', loopAfter body s input n = .inl s' ∧ body s' (input n) = .inr r

variable {body s input} {n k : ℕ}

theorem loopAfter_succ_eq_inl {s' : σ} :
    loopAfter body s input (n + 1) = .inl s' ↔
      ∃ s₁, loopAfter body s input n = .inl s₁ ∧ body s₁ (input n) = .inl s' := by
  rw [loopAfter]
  cases loopAfter body s input n <;> simp

theorem loopAfter_succ_eq_inr {r : ρ} :
    loopAfter body s input (n + 1) = .inr r ↔
      loopAfter body s input n = .inr r ∨ Returns body s input n r := by
  rw [loopAfter, Returns]
  cases loopAfter body s input n <;> simp

theorem loopAfter_eq_inr_iff {r : ρ} :
    loopAfter body s input n = .inr r ↔ ∃ j < n, Returns body s input j r := by
  induction n with
  | zero =>
    refine iff_of_false (fun h => by cases h) ?_
    rintro ⟨j, hj, -⟩
    exact Nat.not_lt_zero j hj
  | succ n ih =>
    rw [loopAfter_succ_eq_inr, ih]
    constructor
    · rintro (⟨j, hj, hret⟩ | hret)
      · exact ⟨j, Nat.lt_succ_of_lt hj, hret⟩
      · exact ⟨n, Nat.lt_succ_self n, hret⟩
    · rintro ⟨j, hj, hret⟩
      rcases Nat.lt_succ_iff_lt_or_eq.mp hj with hlt | rfl
      · exact .inl ⟨j, hlt, hret⟩
      · exact .inr hret

theorem exists_returns_le (h : ∀ s', ∃ r, body s' (input k) = .inr r) :
    ∃ n ≤ k, ∃ r, Returns body s input n r := by
  have hret : ∃ r, loopAfter body s input (k + 1) = .inr r := by
    rw [loopAfter]
    cases loopAfter body s input k with
    | inl s' => exact h s'
    | inr r => exact ⟨r, rfl⟩
  obtain ⟨r, hr⟩ := hret
  obtain ⟨n, hn, hret⟩ := loopAfter_eq_inr_iff.mp hr
  exact ⟨n, Nat.lt_succ_iff.mp hn, r, hret⟩

section Invariant

variable {inv : ℕ → σ → Prop} {go : ℕ → Prop} (hzero : inv 0 s)
  (hgo : ∀ {n s}, inv n s → go n → ∃ s', body s (input n) = .inl s' ∧ inv (n + 1) s')
  (hstop : ∀ {n s}, inv n s → ¬ go n → ∃ r, body s (input n) = .inr r)

include hzero hgo

theorem exists_loopAfter (h : ∀ j < n, go j) :
    ∃ s', loopAfter body s input n = .inl s' ∧ inv n s' := by
  induction n with
  | zero => exact ⟨s, rfl, hzero⟩
  | succ n ih =>
    obtain ⟨s₁, hs₁, hinv⟩ := ih fun j hj => h j (Nat.lt_succ_of_lt hj)
    obtain ⟨s', hs', hinv'⟩ := hgo hinv (h n (Nat.lt_succ_self n))
    exact ⟨s', loopAfter_succ_eq_inl.mpr ⟨s₁, hs₁, hs'⟩, hinv'⟩

include hstop

theorem exists_returns_le_iff : (∃ n ≤ k, ∃ r, Returns body s input n r) ↔ ∃ j ≤ k, ¬ go j := by
  constructor
  · rintro ⟨n, hn, r, s', hs', hret⟩
    by_contra hall
    push Not at hall
    obtain ⟨s₁, hs₁, hinv⟩ := exists_loopAfter hzero hgo fun j (hj : j < n) => hall j (by omega)
    obtain rfl := Sum.inl.inj (hs'.symm.trans hs₁)
    obtain ⟨s₂, hs₂, -⟩ := hgo hinv (hall n hn)
    rw [hret] at hs₂
    cases hs₂
  · rintro ⟨j, hj, hnot⟩
    -- the first input with which the loop does not go on
    classical
    have hex : ∃ j, ¬ go j := ⟨j, hnot⟩
    obtain ⟨s', hs', hinv⟩ := exists_loopAfter hzero hgo fun i (hi : i < Nat.find hex) =>
      not_not.mp (Nat.find_min hex hi)
    obtain ⟨r, hr⟩ := hstop hinv (Nat.find_spec hex)
    exact ⟨Nat.find hex, (Nat.find_min' hex hnot).trans hj, r, s', hs', hr⟩

end Invariant

end Sysak.Lib
