/-
# Splitting strings
-/

import Sysak.Lib.LuaString

namespace Sysak.Pystring

open Lib List

def checkDelimiter (ch : UInt8) : UInt8 → Bool := if ch = 32 then isSpace else (· == ch)

def setupDelimiter (delimiter : Bytes) : Pattern := delimiter.map checkDelimiter

def splitLoop (pat : Pattern) (n : Option ℕ) : ℕ → ℕ → Bytes → List Bytes
  | 0, _, s => [s]
  | fuel + 1, nums, s =>
    match find pat s with
    | some (a, b) => if n.any (· ≤ nums + 1) then [a, b] else a :: splitLoop pat n fuel (nums + 1) b
    | none => [s]

def split (s delimiter : Bytes) (n : Option ℕ) : List Bytes :=
  splitLoop (setupDelimiter delimiter) n (s.length + 1) 0 s

def join (delim : Bytes) (strings : List Bytes) : Bytes := delim.intercalate strings

def lstrip (s : Bytes) : Bytes := s.dropWhile isSpace

theorem splitLoop_none {pat : Pattern} (hpat : pat ≠ []) {fuel fuel' : ℕ} :
    ∀ (nums nums' : ℕ) (s : Bytes), s.length < fuel → s.length < fuel' →
      splitLoop pat none fuel nums s = splitLoop pat none fuel' nums' s := by
  induction fuel generalizing fuel' with
  | zero => exact fun _ _ _ h => absurd h (Nat.not_lt_zero _)
  | succ fuel ih =>
    intro nums nums' s h h'
    obtain ⟨fuel', rfl⟩ := Nat.exists_eq_succ_of_ne_zero (Nat.ne_zero_of_lt h')
    rw [splitLoop, splitLoop]
    cases hf : find pat s with
    | none => rfl
    | some r =>
      have hlen := length_of_find hf
      have hpos := length_pos_iff.mpr hpat
      have hrest : splitLoop pat none fuel (nums + 1) r.2 =
          splitLoop pat none fuel' (nums' + 1) r.2 := ih _ _ _ (by omega) (by omega)
      simp only [hrest]
      rfl

variable {s a b delimiter : Bytes}

theorem split_one (h : find (setupDelimiter delimiter) s = some (a, b)) :
    split s delimiter (some 1) = [a, b] := by
  rw [split, splitLoop, h]
  rfl

theorem split_cons (hd : delimiter ≠ []) (h : find (setupDelimiter delimiter) s = some (a, b)) :
    split s delimiter none = a :: split b delimiter none := by
  have hne : setupDelimiter delimiter ≠ [] := by simpa [setupDelimiter] using hd
  have hlen := length_of_find h
  have hpos := length_pos_iff.mpr hne
  rw [split, splitLoop, h, split]
  show a :: splitLoop _ none s.length 1 b = _
  rw [splitLoop_none hne 1 0 b (by omega) (Nat.lt_succ_self _)]

theorem join_singleton (delim x : Bytes) : join delim [x] = x := intercalate_singleton

theorem join_cons {delim x : Bytes} {xs : List Bytes} (hxs : xs ≠ []) :
    join delim (x :: xs) = x ++ (delim ++ join delim xs) := by
  obtain ⟨y, ys, rfl⟩ := exists_cons_of_ne_nil hxs
  rw [join, intercalate_cons_cons, append_assoc]
  rfl

theorem mem_join {delim : Bytes} {xs : List Bytes} {c : UInt8} (hc : c ∈ join delim xs) :
    c ∈ delim ∨ ∃ x ∈ xs, c ∈ x := by
  induction xs with
  | nil => exact absurd hc (by simp [join])
  | cons x xs ih =>
    by_cases hnil : xs = []
    · rw [hnil, join_singleton] at hc
      exact .inr ⟨x, mem_cons_self, hc⟩
    · rw [join_cons hnil, mem_append, mem_append] at hc
      rcases hc with hc | hc | hc
      · exact .inr ⟨x, mem_cons_self, hc⟩
      · exact .inl hc
      · obtain hdelim | ⟨y, hy, hcy⟩ := ih hc
        · exact .inl hdelim
        · exact .inr ⟨y, mem_cons_of_mem _ hy, hcy⟩

theorem split_none {n : Option ℕ} (h : find (setupDelimiter delimiter) s = none) :
    split s delimiter n = [s] := by
  rw [split, splitLoop, h]

theorem find_byte {c x : UInt8} (ha : ∀ y ∈ a, checkDelimiter c y = false)
    (hx : checkDelimiter c x = true) : find (setupDelimiter [c]) (a ++ x :: b) = some (a, b) := by
  refine find_append (noMatch_of_head [] _ ha) ?_
  show (checkDelimiter c x && true) = true
  rw [hx, Bool.true_and]

theorem find_byte_none {c : UInt8} (hs : ∀ y ∈ s, checkDelimiter c y = false) :
    find (setupDelimiter [c]) s = none :=
  find_eq_none_of_head [] hs

theorem find_byte_cases (s : Bytes) (c : UInt8) :
    (∃ a x b, s = a ++ x :: b ∧ (∀ y ∈ a, checkDelimiter c y = false) ∧
      checkDelimiter c x = true) ∨ ∀ y ∈ s, checkDelimiter c y = false := by
  by_cases hs : ∀ y ∈ s, checkDelimiter c y = false
  · exact .inr hs
  · left
    push Not at hs
    obtain ⟨y, hy, hc⟩ := hs
    have hsome : (s.find? (checkDelimiter c)).isSome = true :=
      find?_isSome.mpr ⟨y, hy, by simpa using hc⟩
    obtain ⟨x, hfind⟩ := Option.isSome_iff_exists.mp hsome
    obtain ⟨hx, a, b, rfl, hnot⟩ := find?_eq_some_iff_append.mp hfind
    exact ⟨a, x, b, rfl, fun y hy => by simpa using hnot y hy, hx⟩

theorem split_byte {c x : UInt8} (ha : ∀ y ∈ a, checkDelimiter c y = false)
    (hx : checkDelimiter c x = true) : split (a ++ x :: b) [c] (some 1) = [a, b] :=
  split_one (find_byte ha hx)

theorem split_byte_none {c : UInt8} {n : Option ℕ} (hs : ∀ y ∈ s, checkDelimiter c y = false) :
    split s [c] n = [s] :=
  split_none (find_byte_none hs)

theorem split_byte_cases (s : Bytes) (c : UInt8) :
    (∃ a x b, s = a ++ x :: b ∧ (∀ y ∈ a, checkDelimiter c y = false) ∧
      checkDelimiter c x = true ∧ split s [c] (some 1) = [a, b]) ∨
    (∀ y ∈ s, checkDelimiter c y = false) ∧ split s [c] (some 1) = [s] := by
  obtain ⟨a, x, b, rfl, ha, hx⟩ | hs := find_byte_cases s c
  · exact .inl ⟨a, x, b, rfl, ha, hx, split_byte ha hx⟩
  · exact .inr ⟨hs, split_byte_none hs⟩

end Sysak.Pystring
