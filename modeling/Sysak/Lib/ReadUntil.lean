/-
# Reading until
-/

import Mathlib.Data.List.Basic

namespace Sysak.Lib

open List

variable {α : Type*}

def readUntil (p : List α → Bool) (acc : List α) : List (List α) → Option (List α × List (List α))
  | [] => if p acc then some (acc, []) else none
  | s :: reads => if p acc then some (acc, s :: reads) else readUntil p (acc ++ s) reads

structure Stops (p : List α → Bool) (acc : List α) (g : List (List α)) : Prop where
  holds : p (acc ++ g.flatten) = true
  before : ∀ k < g.length, p (acc ++ (g.take k).flatten) = false

variable {p q : List α → Bool} {acc out s : List α} {reads rest g : List (List α)}

theorem stops_nil : Stops p acc [] ↔ p acc = true := by
  constructor
  · intro h
    simpa using h.holds
  · intro h
    exact ⟨by simpa using h, fun k hk => absurd hk (Nat.not_lt_zero k)⟩

theorem stops_cons : Stops p acc (s :: g) ↔ p acc = false ∧ Stops p (acc ++ s) g := by
  constructor
  · intro h
    refine ⟨by simpa using h.before 0 (Nat.succ_pos _), ?_, fun k hk => ?_⟩
    · simpa using h.holds
    · simpa using h.before (k + 1) (Nat.succ_lt_succ hk)
  · rintro ⟨hacc, hs⟩
    refine ⟨by simpa using hs.holds, fun k hk => ?_⟩
    cases k with
    | zero => simpa using hacc
    | succ k => simpa using hs.before k (Nat.lt_of_succ_lt_succ hk)

theorem readUntil_eq_some_iff : readUntil p acc reads = some (out, rest) ↔
    ∃ g, reads = g ++ rest ∧ out = acc ++ g.flatten ∧ Stops p acc g := by
  induction reads generalizing acc with
  | nil =>
    rw [readUntil]
    constructor
    · intro h
      split_ifs at h with hp
      cases h
      exact ⟨[], rfl, by simp, stops_nil.mpr hp⟩
    · rintro ⟨g, hg, rfl, hs⟩
      obtain ⟨rfl, rfl⟩ := append_eq_nil_iff.mp hg.symm
      rw [if_pos (stops_nil.mp hs)]
      simp
  | cons s reads ih =>
    rw [readUntil]
    split_ifs with hp
    · constructor
      · intro h
        cases h
        exact ⟨[], rfl, by simp, stops_nil.mpr hp⟩
      · rintro ⟨g, hg, rfl, hs⟩
        cases g with
        | nil => simpa using hg
        | cons s' g =>
          rw [(stops_cons.mp hs).1] at hp
          cases hp
    · rw [ih]
      constructor
      · rintro ⟨g, rfl, rfl, hs⟩
        exact ⟨s :: g, rfl, by simp, stops_cons.mpr ⟨by simpa using hp, hs⟩⟩
      · rintro ⟨g, hg, rfl, hs⟩
        cases g with
        | nil => exact absurd (stops_nil.mp hs) hp
        | cons s' g =>
          rw [cons_append] at hg
          cases hg
          exact ⟨g, rfl, by simp, (stops_cons.mp hs).2⟩

theorem exists_readUntil (h : p (acc ++ reads.flatten) = true) :
    ∃ out rest, readUntil p acc reads = some (out, rest) := by
  induction reads generalizing acc with
  | nil => exact ⟨acc, [], by rw [readUntil, if_pos (by simpa using h)]⟩
  | cons s reads ih =>
    rw [readUntil]
    split_ifs
    · exact ⟨_, _, rfl⟩
    · exact ih (by simpa using h)

theorem readUntil_congr (h : ∀ k ≤ reads.length,
    p (acc ++ (reads.take k).flatten) = q (acc ++ (reads.take k).flatten)) :
    readUntil p acc reads = readUntil q acc reads := by
  induction reads generalizing acc with
  | nil =>
    have hacc : p acc = q acc := by simpa using h 0 (Nat.le_refl _)
    rw [readUntil, readUntil, hacc]
  | cons s reads ih =>
    have hacc : p acc = q acc := by simpa using h 0 (Nat.zero_le _)
    rw [readUntil, readUntil, hacc,
      ih fun k hk => by simpa using h (k + 1) (Nat.succ_le_succ hk)]

theorem readUntil_append (l : List α) : readUntil p (l ++ acc) reads =
    (readUntil (fun s => p (l ++ s)) acc reads).map fun r => (l ++ r.1, r.2) := by
  induction reads generalizing acc with
  | nil =>
    rw [readUntil, readUntil]
    split_ifs <;> rfl
  | cons s reads ih =>
    rw [readUntil, readUntil]
    split_ifs
    · rfl
    · rw [append_assoc, ih]

theorem readUntil_of_readUntil (hqp : ∀ s, q s = true → p s = true)
    (h : readUntil p acc reads = some (out, rest)) :
    readUntil q out rest = readUntil q acc reads := by
  induction reads generalizing acc with
  | nil =>
    rw [readUntil] at h
    split_ifs at h
    cases h
    rfl
  | cons s reads ih =>
    rw [readUntil] at h
    split_ifs at h with hp
    · cases h
      rfl
    · have hq : ¬ q acc = true := fun hq => hp (hqp acc hq)
      rw [ih h]
      exact (if_neg hq).symm

end Sysak.Lib
