/-
# The list of process ids
-/

import Sysak.Lib.Strtoul

namespace Sysak.Pagescan

open Lib List

inductive PidError where
  | failed | outside
  deriving DecidableEq

def pidLoop : ℕ → List Int32 → ℕ → Bytes → Except PidError (List Int32)
  | 0, _, _, _ => .error .failed
  | fuel + 1, pids, maxNum, pos =>
    let r := strtoul 0 pos
    if r.1 = 18446744073709551615 then .error .failed
    else if maxNum ≤ pids.length then .error .outside
    else
      let pids := pids ++ [r.1.toUInt32.toInt32]
      match r.2 with
      | [] => .ok pids
      | c :: pos =>
        if c ≠ 44 then .error .failed
        else if pids.length = maxNum then
          -- the new array is assigned to `pids`, and `new_pids` is still `NULL`
          let newPids : Option (List Int32) := none
          newPids.elim (.error .failed) fun pids => pidLoop fuel pids (2 * maxNum) pos
        else pidLoop fuel pids maxNum pos

def pidParse (arg : Bytes) : Except PidError (List Int32) := pidLoop (arg.length + 1) [] 8 arg

abbrev Pid : Type := { p : ℕ // 0 < p ∧ p < 2147483648 }

def Pid.toPidT (p : Pid) : Int32 := Int32.ofNat p.1

def pidText (ps : List Pid) : Bytes := [44].intercalate (ps.map fun p => dec p.1)

theorem strtoul_pid (p : Pid) {s : Bytes} (hs : ∀ c ∈ s.head?, 10 ≤ digitValue c) :
    ∃ v, strtoul 0 (dec p.1 ++ s) = (v, s) ∧ v ≠ 18446744073709551615 ∧
      v.toUInt32.toInt32 = p.toPidT := by
  obtain ⟨n, h0, hn⟩ := p
  refine ⟨UInt64.ofNat n, strtoul_dec h0 (by omega) hs, fun h => ?_, ?_⟩
  · have := congrArg UInt64.toNat h
    rw [UInt64.toNat_ofNat_of_lt' (by simp only [UInt64.size]; omega)] at this
    simp at this
    omega
  · simp [Pid.toPidT]

theorem pidLoop_text (p : Pid) (ps : List Pid) {fuel : ℕ} (hfuel : ps.length < fuel)
    {pids : List Int32} (hroom : pids.length < 8) :
    pidLoop fuel pids 8 (pidText (p :: ps)) =
      if pids.length + ps.length < 8 then .ok (pids ++ (p :: ps).map Pid.toPidT)
      else .error .failed := by
  induction ps generalizing p pids fuel with
  | nil =>
    obtain ⟨fuel, rfl⟩ := Nat.exists_eq_add_of_lt hfuel
    obtain ⟨v, hv, hmax, hpid⟩ := strtoul_pid p (s := []) (by simp)
    rw [append_nil] at hv
    simp [pidText, pidLoop, hv, hmax, hpid, hroom.not_ge, hroom]
  | cons q ps ih =>
    obtain ⟨fuel, rfl⟩ : ∃ k, fuel = k + 1 := ⟨fuel - 1, by omega⟩
    obtain ⟨v, hv, hmax, hpid⟩ := strtoul_pid p (s := 44 :: pidText (q :: ps)) (by simp; decide)
    have htext : pidText (p :: q :: ps) = dec p.1 ++ 44 :: pidText (q :: ps) := by simp [pidText]
    have hfull : (pids ++ [p.toPidT]).length = pids.length + 1 := length_append
    rw [htext, pidLoop]
    simp only [hv, hpid, if_neg hmax, if_neg hroom.not_ge, ne_eq, not_true, if_false, hfull]
    by_cases h8 : pids.length + 1 = 8
    · -- the array is full
      rw [if_pos h8, if_neg (by rw [length_cons]; omega)]
      rfl
    · rw [if_neg h8, ih q (by rw [length_cons] at hfuel; omega) (by omega), hfull, length_cons,
        append_assoc, Nat.add_right_comm, Nat.add_assoc]
      rfl

theorem length_le_pidText (p : Pid) (ps : List Pid) : ps.length ≤ (pidText (p :: ps)).length := by
  induction ps generalizing p with
  | nil => exact Nat.zero_le _
  | cons q ps ih =>
    have hrest := ih q
    simp only [pidText, map_cons, intercalate_cons_cons, length_append, length_cons] at hrest ⊢
    omega

theorem pidParse_eq_iff (p : Pid) (ps : List Pid) :
    pidParse (pidText (p :: ps)) = .ok ((p :: ps).map Pid.toPidT) ↔ (p :: ps).length ≤ 8 := by
  rw [pidParse, pidLoop_text p ps (Nat.lt_succ_of_le (length_le_pidText p ps)) (by decide),
    length_nil, Nat.zero_add, length_cons]
  split_ifs with h <;> simp <;> omega

theorem pidParse_nine_ne : pidParse (pidText (replicate 9 ⟨1, by decide⟩)) ≠
    .ok ((replicate 9 ⟨1, by decide⟩).map Pid.toPidT) := by
  decide +kernel

end Sysak.Pagescan
