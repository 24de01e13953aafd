/-
# Walks along links
-/

import Mathlib.Data.Finset.Card

namespace Sysak.Lib
namespace Walk

open Option

variable {σ ρ κ : Type*}

def run (next : σ → σ ⊕ ρ) : ℕ → σ → Option ρ
  | 0, _ => none
  | n + 1, s => match next s with
    | .inl s' => run next n s'
    | .inr r => some r

def after (next : σ → σ ⊕ ρ) : ℕ → σ → Option σ
  | 0, s => some s
  | n + 1, s => (after next n s).bind fun a => (next a).getLeft?

def Stops (next : σ → σ ⊕ ρ) (s : σ) : Prop := ∃ n r, run next n s = some r

def NoRepeat (next : σ → σ ⊕ ρ) (place : σ → κ) (s : σ) : Prop :=
  ∀ i j a b, after next i s = some a → after next j s = some b → place a = place b → i = j

variable {next : σ → σ ⊕ ρ} {place : σ → κ} {s a b : σ} {i j n : ℕ}

theorem after_succ_of_inl (ha : after next n s = some a) (h : next a = .inl b) :
    after next (n + 1) s = some b := by
  rw [after, ha, bind_some, h]
  rfl

theorem exists_of_after_succ (h : after next (n + 1) s = some b) :
    ∃ a, after next n s = some a ∧ next a = .inl b := by
  rw [after, bind_eq_some_iff] at h
  obtain ⟨a, ha, hnext⟩ := h
  exact ⟨a, ha, Sum.getLeft?_eq_some_iff.mp hnext⟩

theorem after_add (m n : ℕ) :
    after next (m + n) s = (after next m s).bind (after next n) := by
  induction n with
  | zero => cases after next m s <;> simp [after]
  | succ n ih =>
    rw [← Nat.add_assoc, after, ih, bind_assoc]
    rfl

theorem after_one_add (n : ℕ) : after next (n + 1) s = (next s).getLeft?.bind (after next n) := by
  rw [Nat.add_comm, after_add]
  rfl

theorem exists_after_of_le (h : after next j s = some b) (hij : i ≤ j) :
    ∃ a, after next i s = some a := by
  obtain ⟨k, rfl⟩ := Nat.exists_eq_add_of_le hij
  rw [after_add, bind_eq_some_iff] at h
  obtain ⟨a, ha, -⟩ := h
  exact ⟨a, ha⟩

theorem run_eq_none_iff : run next n s = none ↔ ∃ a, after next n s = some a := by
  induction n generalizing s with
  | zero => simp [run, after]
  | succ n ih =>
    rw [after_one_add, run]
    cases next s with
    | inl s' => exact ih
    | inr r => simp

theorem run_eq_some_iff : (∃ r, run next n s = some r) ↔ after next n s = none := by
  rw [← ne_none_iff_exists', ne_eq, run_eq_none_iff, ← ne_none_iff_exists', not_not]

theorem exists_run_inr {r : ρ} {P : ρ → Prop} (h : next s = .inr r) :
    (∃ n r', run next n s = some r' ∧ P r') ↔ P r := by
  constructor
  · rintro ⟨n, r', hrun, hP⟩
    cases n with
    | zero => cases hrun
    | succ n =>
      rw [run, h] at hrun
      exact some.inj hrun ▸ hP
  · exact fun hP => ⟨1, r, by rw [run, h], hP⟩

theorem exists_run_inl {s' : σ} {P : ρ → Prop} (h : next s = .inl s') :
    (∃ n r, run next n s = some r ∧ P r) ↔ ∃ n r, run next n s' = some r ∧ P r := by
  constructor
  · rintro ⟨n, r, hrun, hP⟩
    cases n with
    | zero => cases hrun
    | succ n =>
      rw [run, h] at hrun
      exact ⟨n, r, hrun, hP⟩
  · rintro ⟨n, r, hrun, hP⟩
    exact ⟨n + 1, r, by rw [run, h]; exact hrun, hP⟩

theorem not_stops_of_eq (hi : after next i s = some a) (hj : after next j s = some a)
    (hij : i < j) : ¬ Stops next s := by
  -- what comes after iteration `j` is what came after iteration `i`
  have hall : ∀ k, ∃ b, after next k s = some b := by
    intro k
    induction k using Nat.strong_induction_on with
    | _ k ih =>
      rcases Nat.le_total k j with hk | hk
      · exact exists_after_of_le hj hk
      · obtain ⟨n, rfl⟩ := Nat.exists_eq_add_of_le hk
        obtain ⟨b, hb⟩ := ih (i + n) (by omega)
        rw [after_add, hi] at hb
        exact ⟨b, by rw [after_add, hj, hb]⟩
  rintro ⟨n, hr⟩
  obtain ⟨b, hb⟩ := hall n
  rw [run_eq_some_iff.mp hr] at hb
  cases hb

theorem run_of_noRepeat (T : Finset κ) (h : NoRepeat next place s)
    (hT : ∀ i a b, after next i s = some a → next a = .inl b → place a ∈ T) (hn : T.card < n) :
    ∃ r, run next n s = some r := by
  classical
  rw [run_eq_some_iff]
  by_contra hne
  obtain ⟨b, hb⟩ := ne_none_iff_exists'.mp hne
  -- each of the first `n` iterations begins at a place of `T`
  have hstep : ∀ i, i < n → ∃ a, after next i s = some a ∧ place a ∈ T := by
    intro i hi
    obtain ⟨c, hc⟩ := exists_after_of_le hb (Nat.succ_le_of_lt hi)
    obtain ⟨a, ha, hnext⟩ := exists_of_after_succ hc
    exact ⟨a, ha, hT i a c ha hnext⟩
  choose f hf hfT using hstep
  have hcard : (Finset.range n).card ≤ T.card := by
    refine Finset.card_le_card_of_injOn (fun i => if hi : i < n then place (f i hi) else place b)
      ?_ ?_
    · intro i hi
      have hi' : i < n := by simpa using hi
      simpa [hi'] using hfT i hi'
    · intro i hi j hj heq
      have hi' : i < n := by simpa using hi
      have hj' : j < n := by simpa using hj
      simp only [hi', hj', dif_pos] at heq
      exact h i j _ _ (hf i hi') (hf j hj') heq
  rw [Finset.card_range] at hcard
  omega

theorem stops_iff_noRepeat (T : Finset κ)
    (hT : NoRepeat next place s → ∀ i a b, after next i s = some a → next a = .inl b → place a ∈ T)
    (hback : ∀ i j a b, i < j → after next i s = some a → after next j s = some b →
      place a = place b → ¬ Stops next s) :
    Stops next s ↔ NoRepeat next place s := by
  constructor
  · intro hstop i j a b ha hb heq
    rcases Nat.lt_trichotomy i j with hij | hij | hij
    · exact absurd hstop (hback i j a b hij ha hb heq)
    · exact hij
    · exact absurd hstop (hback j i b a hij hb ha heq.symm)
  · intro h
    exact ⟨_, run_of_noRepeat T h (hT h) (Nat.lt_succ_self _)⟩

end Walk
end Sysak.Lib
