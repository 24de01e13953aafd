/-
# Halving an interval of offsets
-/

import Mathlib.Logic.Function.Iterate
import Mathlib.Order.Nat

namespace Sysak.Lib

open Option

inductive Verdict where
  | hit | left | right | stop
deriving Repr, DecidableEq

inductive Outcome where
  | hit (x : ℕ)
  | stop (s e : ℕ)
  | out (s e : ℕ)
deriving Repr, DecidableEq

def halve (probe : ℕ → Verdict) : ℕ → ℕ → ℕ → Option Outcome
  | 0, _, _ => none
  | n + 1, s, e =>
    let x := (s + e) / 2
    match probe x with
    | .hit => some (.hit x)
    | .stop => some (.stop s e)
    | .left => if x = (s + x) / 2 then some (.out s x) else halve probe n s x
    | .right => if x = (x + e) / 2 then some (.out x e) else halve probe n x e

theorem halve_isSome (probe : ℕ → Verdict) {n : ℕ} : ∀ {s e : ℕ}, s ≤ e → e - s < n →
    (halve probe n s e).isSome := by
  induction n with
  | zero => exact fun _ h => absurd h (Nat.not_lt_zero _)
  | succ n ih =>
    intro s e hle hn
    rw [halve]
    cases probe ((s + e) / 2) with
    | hit => rfl
    | stop => rfl
    | left =>
      simp only
      split_ifs
      · rfl
      · exact ih (by omega) (by omega)
    | right =>
      simp only
      split_ifs
      · rfl
      · exact ih (by omega) (by omega)

theorem probe_of_halve {probe : ℕ → Verdict} {x : ℕ} {n : ℕ} : ∀ {s e : ℕ},
    halve probe n s e = some (.hit x) → probe x = .hit := by
  induction n with
  | zero => exact fun h => absurd h (some_ne_none _).symm
  | succ n ih =>
    intro s e h
    rw [halve] at h
    cases hprobe : probe ((s + e) / 2) with
    | hit =>
      simp only [hprobe, some.injEq, Outcome.hit.injEq] at h
      rw [← h, hprobe]
    | stop => simp [hprobe] at h
    | left =>
      simp only [hprobe] at h
      split_ifs at h
      · simp at h
      · exact ih h
    | right =>
      simp only [hprobe] at h
      split_ifs at h
      · simp at h
      · exact ih h

def FirstHas (f : ℕ → ℕ) (P Q : ℕ → Prop) (x : ℕ) : Prop :=
  ∀ j, P (f^[j + 1] x) → (∀ i < j, ¬ P (f^[i + 1] x)) → Q (f^[j + 1] x)

section First

variable {f : ℕ → ℕ} {P Q : ℕ → Prop} {x : ℕ}

theorem firstHas_of_pos (h : P (f x)) : FirstHas f P Q x ↔ Q (f x) := by
  constructor
  · intro hfirst
    exact hfirst 0 h fun i hi => absurd hi (Nat.not_lt_zero i)
  · rintro hq (_ | j) _ hbefore
    · exact hq
    · exact absurd h (hbefore 0 (Nat.succ_pos j))

theorem firstHas_of_neg (h : ¬ P (f x)) : FirstHas f P Q x ↔ FirstHas f P Q (f x) := by
  constructor
  · intro hfirst j hp hbefore
    refine hfirst (j + 1) hp ?_
    rintro (_ | i) hi
    · exact h
    · exact hbefore i (Nat.lt_of_succ_lt_succ hi)
  · rintro hfirst (_ | j) hp hbefore
    · exact absurd hp h
    · exact hfirst j hp fun i hi => hbefore (i + 1) (Nat.succ_lt_succ hi)

end First

structure Range (probe : ℕ → Verdict) (low a b high : ℕ) : Prop where
  low_le : low ≤ a
  lt : a < b
  le_high : b ≤ high
  low_lt : low + 1 < b
  stop : ∀ x, x ≤ low ∨ high ≤ x → probe x = .stop
  right : ∀ x, low < x → x < a → probe x = .right
  hit : ∀ x, low < x → a ≤ x → x < b → probe x = .hit
  left : ∀ x, b ≤ x → x < high → probe x = .left

namespace Range

variable {probe : ℕ → Verdict} {low a b high : ℕ}

def Hits (a b : ℕ) (r : Option Outcome) : Prop := ∃ x, a ≤ x ∧ x < b ∧ r = some (.hit x)

theorem not_hits_stop (a b s e : ℕ) : ¬ Hits a b (some (.stop s e)) := by
  rintro ⟨x, -, -, h⟩
  exact Outcome.noConfusion (some.inj h)

theorem of_hit (h : Range probe low a b high) {x : ℕ} (hx : probe x = .hit) :
    low < x ∧ a ≤ x ∧ x < b := by
  have hlow : low < x := by
    by_contra hle
    rw [h.stop x (.inl (Nat.not_lt.mp hle))] at hx
    exact Verdict.noConfusion hx
  refine ⟨hlow, ?_, ?_⟩
  · by_contra hlt
    rw [h.right x hlow (Nat.not_le.mp hlt)] at hx
    exact Verdict.noConfusion hx
  · by_contra hle
    by_cases hhigh : x < high
    · rw [h.left x (Nat.not_lt.mp hle) hhigh] at hx
      exact Verdict.noConfusion hx
    · rw [h.stop x (.inr (Nat.not_lt.mp hhigh))] at hx
      exact Verdict.noConfusion hx

theorem halve_of_right {n s e : ℕ} (h : probe ((s + e) / 2) = .right) (hlt : (s + e) / 2 + 2 ≤ e) :
    halve probe (n + 1) s e = halve probe n ((s + e) / 2) e := by
  rw [halve]
  simp only [h]
  rw [if_neg (by omega)]

theorem halve_of_left {n s e : ℕ} (h : probe ((s + e) / 2) = .left) (hlt : s < (s + e) / 2) :
    halve probe (n + 1) s e = halve probe n s ((s + e) / 2) := by
  rw [halve]
  simp only [h]
  rw [if_neg (by omega)]

theorem halve_of_stop {n s e : ℕ} (h : probe ((s + e) / 2) = .stop) :
    halve probe (n + 1) s e = some (.stop s e) := by
  rw [halve]
  simp only [h]

theorem halve_of_hit {n s e : ℕ} (h : probe ((s + e) / 2) = .hit) :
    halve probe (n + 1) s e = some (.hit ((s + e) / 2)) := by
  rw [halve]
  simp only [h]

theorem hits_inside (h : Range probe low a b high) {n : ℕ} : ∀ {s e : ℕ}, low ≤ s → s < a → b ≤ e →
    e ≤ high → e - s < n → Hits a b (halve probe n s e) := by
  have hab := h.lt
  induction n with
  | zero => exact fun _ _ _ _ hn => absurd hn (Nat.not_lt_zero _)
  | succ n ih =>
    intro s e hlow hs he hhigh hn
    by_cases hxa : (s + e) / 2 < a
    · rw [halve_of_right (h.right _ (by omega) hxa) (by omega)]
      exact ih (by omega) hxa he hhigh (by omega)
    · by_cases hxb : (s + e) / 2 < b
      · rw [halve_of_hit (h.hit _ (by omega) (by omega) hxb)]
        exact ⟨_, by omega, hxb, rfl⟩
      · rw [halve_of_left (h.left _ (by omega) (by omega)) (by omega)]
        exact ih hlow hs (by omega) (by omega) (by omega)

theorem hits_up_iff (h : Range probe low a b high) {e : ℕ} (he : high < e) {n : ℕ} : ∀ {s : ℕ},
    low ≤ s → s < a → e - s < n →
      (Hits a b (halve probe n s e) ↔
        FirstHas (fun x => (x + e) / 2) (a ≤ ·) (· < high) s) := by
  obtain ⟨hab, hbh⟩ := And.intro h.lt h.le_high
  induction n with
  | zero => exact fun _ _ hn => absurd hn (Nat.not_lt_zero _)
  | succ n ih =>
    intro s hlow hs hn
    by_cases hxa : a ≤ (s + e) / 2
    · rw [firstHas_of_pos (f := fun x => (x + e) / 2) (P := (a ≤ ·)) hxa]
      by_cases hxh : (s + e) / 2 < high
      · refine iff_of_true ?_ hxh
        by_cases hxb : (s + e) / 2 < b
        · rw [halve_of_hit (h.hit _ (by omega) hxa hxb)]
          exact ⟨_, hxa, hxb, rfl⟩
        · rw [halve_of_left (h.left _ (by omega) hxh) (by omega)]
          exact h.hits_inside hlow hs (by omega) hxh.le (by omega)
      · rw [halve_of_stop (h.stop _ (.inr (by omega)))]
        exact iff_of_false (not_hits_stop _ _ _ _) hxh
    · rw [firstHas_of_neg (f := fun x => (x + e) / 2) (P := (a ≤ ·)) hxa,
        halve_of_right (h.right _ (by omega) (by omega)) (by omega)]
      exact ih (by omega) (by omega) (by omega)

theorem hits_down_iff (h : Range probe low a b high) {n : ℕ} : ∀ {e : ℕ}, b ≤ e → e ≤ high →
    e < n → (Hits a b (halve probe n 0 e) ↔ FirstHas (· / 2) (· < b) (low < ·) e) := by
  obtain ⟨hab, hlb⟩ := And.intro h.lt h.low_lt
  induction n with
  | zero => exact fun _ _ hn => absurd hn (Nat.not_lt_zero _)
  | succ n ih =>
    intro e he hhigh hn
    have hmid : (0 + e) / 2 = e / 2 := by rw [Nat.zero_add]
    by_cases hxb : e / 2 < b
    · rw [firstHas_of_pos hxb]
      by_cases hlow : low < e / 2
      · refine iff_of_true ?_ hlow
        by_cases hxa : e / 2 < a
        · rw [halve_of_right (by rw [hmid]; exact h.right _ hlow hxa) (by omega), hmid]
          exact h.hits_inside hlow.le hxa he hhigh (by omega)
        · rw [halve_of_hit (by rw [hmid]; exact h.hit _ hlow (by omega) hxb), hmid]
          exact ⟨_, by omega, hxb, rfl⟩
      · rw [halve_of_stop (by rw [hmid]; exact h.stop _ (.inl (by omega)))]
        exact iff_of_false (not_hits_stop _ _ _ _) hlow
    · rw [firstHas_of_neg hxb,
        halve_of_left (by rw [hmid]; exact h.left _ (by omega) (by omega)) (by omega), hmid]
      exact ih (by omega) (by omega) (by omega)

theorem halve_hit_iff (h : Range probe low a b high) {e n : ℕ} (he : high < e) (hn : e < n) :
    Hits a b (halve probe n 0 e) ↔
      FirstHas (fun x => (x + e) / 2) (a ≤ ·) (· < high) 0 ∧
        FirstHas (· / 2) (· < b) (low < ·) e := by
  obtain ⟨hab, hbh⟩ := And.intro h.lt h.le_high
  have hlb := h.low_lt
  obtain ⟨n, rfl⟩ := Nat.exists_eq_succ_of_ne_zero (Nat.ne_zero_of_lt hn)
  have hmid : (0 + e) / 2 = e / 2 := by rw [Nat.zero_add]
  by_cases hxb : e / 2 < b
  · rw [firstHas_of_pos (f := (· / 2)) hxb]
    by_cases hlow : low < e / 2
    · rw [and_iff_left hlow]
      by_cases hxa : a ≤ e / 2
      · -- the first middle is in the range
        rw [halve_of_hit (by rw [hmid]; exact h.hit _ hlow hxa hxb), hmid,
          firstHas_of_pos (f := fun x => (x + e) / 2) (by rw [hmid]; exact hxa), hmid]
        exact iff_of_true ⟨_, hxa, hxb, rfl⟩ (by omega)
      · rw [halve_of_right (by rw [hmid]; exact h.right _ hlow (by omega)) (by omega),
          firstHas_of_neg (f := fun x => (x + e) / 2) (by rw [hmid]; exact hxa), hmid]
        exact h.hits_up_iff he hlow.le (by omega) (by omega)
    · rw [halve_of_stop (by rw [hmid]; exact h.stop _ (.inl (by omega)))]
      exact iff_of_false (not_hits_stop _ _ _ _) fun hboth => hlow hboth.2
  · rw [firstHas_of_neg (f := (· / 2)) hxb,
      firstHas_of_pos (f := fun x => (x + e) / 2) (by rw [hmid]; omega), hmid]
    by_cases hxh : e / 2 < high
    · rw [and_iff_right hxh,
        halve_of_left (by rw [hmid]; exact h.left _ (by omega) hxh) (by omega), hmid]
      exact h.hits_down_iff (by omega) hxh.le (by omega)
    · rw [halve_of_stop (by rw [hmid]; exact h.stop _ (.inr (by omega)))]
      exact iff_of_false (not_hits_stop _ _ _ _) fun hboth => hxh hboth.1

end Range

end Sysak.Lib
