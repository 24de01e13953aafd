/-
# NUL-terminated strings in fixed-size arrays
-/

import Mathlib.Data.List.TakeWhile

namespace Sysak.Lib

open List

structure CStr where
  bytes : List UInt8
  nul_free : 0 ∉ bytes
  deriving DecidableEq

namespace CStr

def empty : CStr := ⟨[], not_mem_nil⟩

def cut (s : CStr) (n : ℕ) : List UInt8 := s.bytes.take n

theorem cut_eq_nil_iff {s : CStr} {n : ℕ} (hn : 0 < n) : s.cut n = [] ↔ s.bytes = [] := by
  rw [cut, take_eq_nil_iff]
  constructor
  · rintro (h | h)
    · omega
    · exact h
  · exact Or.inr

end CStr

abbrev CharArray (n : ℕ) : Type := { bs : List UInt8 // bs.length = n }

def strncpy (s : CStr) (n : ℕ) : CharArray n :=
  ⟨s.cut n ++ replicate (n - s.bytes.length) 0, by
    rw [length_append, length_replicate, CStr.cut, length_take]
    omega⟩

def snprintf (n : ℕ) (s : List UInt8) : List UInt8 := s.take (n - 1)

def strncat (size : ℕ) (dst src : List UInt8) (n : ℕ) : Option (List UInt8) :=
  let s := dst ++ src.take n
  if s.length < size then some s else none

def stringAt (mem : List UInt8) : List UInt8 := mem.takeWhile (· != 0)

theorem stringAt_strncpy (s : CStr) (n : ℕ) (rest : List UInt8) :
    stringAt ((strncpy s n).1 ++ rest) =
      s.cut n ++ if s.bytes.length < n then [] else stringAt rest := by
  have hcut : ∀ b ∈ s.cut n, (b != 0) = true := by
    intro b hb
    have hmem := mem_of_mem_take hb
    rw [bne_iff_ne]
    rintro rfl
    exact s.nul_free hmem
  rw [stringAt, strncpy, append_assoc, takeWhile_append_of_pos hcut]
  congr 1
  by_cases hlen : s.bytes.length < n
  · obtain ⟨k, hk⟩ : ∃ k, n - s.bytes.length = k + 1 := ⟨n - s.bytes.length - 1, by omega⟩
    simp [hlen, hk, replicate_succ]
  · have hk : n - s.bytes.length = 0 := by omega
    simp [hlen, hk, stringAt]

theorem stringAt_strncpy_eq_iff (s : CStr) (n : ℕ) (rest : List UInt8) :
    stringAt ((strncpy s n).1 ++ rest) = s.cut n ↔
      s.bytes.length < n ∨ stringAt rest = [] := by
  rw [stringAt_strncpy, append_right_eq_self]
  by_cases hlen : s.bytes.length < n <;> simp [hlen]

theorem stringAt_strncpy_eq_nil_iff (s : CStr) {n : ℕ} (hn : 0 < n) (rest : List UInt8) :
    stringAt ((strncpy s n).1 ++ rest) = [] ↔ s.bytes = [] := by
  rw [stringAt_strncpy, append_eq_nil_iff, CStr.cut_eq_nil_iff hn]
  constructor
  · rintro ⟨hs, -⟩
    exact hs
  · intro hs
    simp [hs, hn]

theorem stringAt_cons_eq_nil_iff (b : UInt8) (rest : List UInt8) :
    stringAt (b :: rest) = [] ↔ b = 0 := by
  by_cases hb : b = 0 <;> simp [stringAt, hb]

theorem stringAt_eq_nil_iff (mem : List UInt8) : stringAt mem = [] ↔ mem.getD 0 0 = 0 := by
  cases mem with
  | nil => simp [stringAt]
  | cons b mem => simpa using stringAt_cons_eq_nil_iff b mem

theorem length_stringAt_le {mem : List UInt8} {k : ℕ} (h : mem.getD k 0 = 0) :
    (stringAt mem).length ≤ k := by
  induction mem generalizing k with
  | nil => simp [stringAt]
  | cons b mem ih =>
    rw [stringAt, takeWhile_cons]
    split
    · cases k with
      | zero => simp_all
      | succ k => exact Nat.succ_le_succ (ih (k := k) (by simpa using h))
    · simp

end Sysak.Lib
