/-
# Hexadecimal numbers
-/

import Mathlib.Data.Nat.Digits.Defs

namespace Sysak.Lib

open List Option

variable {s : List Char} (n : ℕ)

def hexDigit (c : Char) : Option ℕ :=
  if '0' ≤ c ∧ c ≤ '9' then some (c.toNat - 48)
  else if 'a' ≤ c ∧ c ≤ 'f' then some (c.toNat - 87)
  else if 'A' ≤ c ∧ c ≤ 'F' then some (c.toNat - 55)
  else none

def readHex (s : List Char) : Option ℕ :=
  if s = [] then none else s.foldlM (fun v c => (hexDigit c).map (16 * v + ·)) 0

def int16 (s : List Char) : Option ℕ :=
  if s.take 2 = "0x".toList then readHex (s.drop 2) else readHex s

def hex (n : ℕ) : List Char := Nat.toDigits 16 n

def hex8 (n : ℕ) : List Char := leftpad 8 '0' (hex n)

def IsHex (c : Char) : Prop := (hexDigit c).isSome = true ∧ c.val ≤ 127

def hexValue (s : List Char) : ℕ := s.foldl (fun v c => 16 * v + (hexDigit c).getD 0) 0

theorem hexDigit_digitChar {d : ℕ} (h : d < 16) :
    hexDigit (Nat.digitChar d) = some d ∧ (Nat.digitChar d).val ≤ 127 := by
  have hall : ∀ d < 16, hexDigit (Nat.digitChar d) = some d ∧ (Nat.digitChar d).val ≤ 127 := by
    decide
  exact hall d h

theorem isHex_digitChar {d : ℕ} (h : d < 16) : IsHex (Nat.digitChar d) := by
  obtain ⟨hd, hle⟩ := hexDigit_digitChar h
  exact ⟨by rw [hd]; rfl, hle⟩

theorem hexValue_append_singleton (s : List Char) (c : Char) :
    hexValue (s ++ [c]) = 16 * hexValue s + (hexDigit c).getD 0 := by
  rw [hexValue, foldl_append]
  rfl

theorem readHex_eq (hne : s ≠ []) (hs : ∀ c ∈ s, IsHex c) : readHex s = some (hexValue s) := by
  have hfold : ∀ (s : List Char) (v : ℕ), (∀ c ∈ s, IsHex c) →
      s.foldlM (fun v c => (hexDigit c).map (16 * v + ·)) v =
        some (s.foldl (fun v c => 16 * v + (hexDigit c).getD 0) v) := by
    intro s
    induction s with
    | nil => exact fun _ _ => rfl
    | cons c s ih =>
      intro v hs
      obtain ⟨hc, hs⟩ := forall_mem_cons.mp hs
      obtain ⟨d, hd⟩ := isSome_iff_exists.mp hc.1
      rw [foldlM_cons, foldl_cons, hd]
      exact ih _ hs
  rw [readHex, if_neg hne, hfold s 0 hs, hexValue]

theorem int16_eq (hne : s ≠ []) (hs : ∀ c ∈ s, IsHex c) : int16 s = some (hexValue s) := by
  have hplain : s.take 2 ≠ "0x".toList := by
    intro h
    have hx : 'x' ∈ s.take 2 := by
      rw [h]
      decide
    exact absurd (hs 'x' (mem_of_mem_take hx)).1 (by decide)
  rw [int16, if_neg hplain, readHex_eq hne hs]

theorem int16_prefixed (hne : s ≠ []) (hs : ∀ c ∈ s, IsHex c) :
    int16 ("0x".toList ++ s) = some (hexValue s) := by
  have hmark : ("0x".toList ++ s).take 2 = "0x".toList := rfl
  rw [int16, if_pos hmark]
  exact readHex_eq hne hs

theorem hex_eq : hex n = if n < 16 then [n.digitChar] else hex (n / 16) ++ [(n % 16).digitChar] :=
  Nat.toDigits_eq_if (by decide)

theorem hex_spec : (∀ c ∈ hex n, IsHex c) ∧ hexValue (hex n) = n := by
  induction n using Nat.strongRecOn with
  | ind n ih =>
    rw [hex_eq]
    split_ifs with hlt
    · refine ⟨by simpa using isHex_digitChar hlt, ?_⟩
      have hv := hexValue_append_singleton [] (Nat.digitChar n)
      rw [nil_append, (hexDigit_digitChar hlt).1] at hv
      rw [hv]
      exact Nat.zero_add n
    · obtain ⟨hhex, hval⟩ := ih (n / 16) (by omega)
      have hmod : n % 16 < 16 := Nat.mod_lt _ (by decide)
      refine ⟨forall_mem_append.mpr ⟨hhex, by simpa using isHex_digitChar hmod⟩, ?_⟩
      rw [hexValue_append_singleton, hval, (hexDigit_digitChar hmod).1, getD_some]
      omega

theorem length_hex8 : 8 ≤ (hex8 n).length ∧ ((hex8 n).length = 8 ↔ n < 4294967296) := by
  have hlen : (hex n).length ≤ 8 ↔ n < 4294967296 :=
    Nat.length_toDigits_le_iff (by decide) (by decide)
  rw [hex8, length_leftpad]
  omega

theorem hex8_spec : (∀ c ∈ hex8 n, IsHex c) ∧ hexValue (hex8 n) = n := by
  obtain ⟨hhex, hval⟩ := hex_spec n
  have hzeros : ∀ k, hexValue (replicate k '0' ++ hex n) = n := by
    intro k
    induction k with
    | zero => exact hval
    | succ k ih => exact ih
  have hzero : ∀ c ∈ replicate (8 - (hex n).length) '0', IsHex c := by
    intro c hc
    rw [eq_of_mem_replicate hc]
    exact isHex_digitChar (d := 0) (by decide)
  exact ⟨forall_mem_append.mpr ⟨hzero, hhex⟩, hzeros _⟩

theorem hex_injective : Function.Injective hex := by
  intro n m h
  rw [← (hex_spec n).2, h, (hex_spec m).2]

theorem hex_ne_nil : hex n ≠ [] := Nat.toDigits_ne_nil

theorem hexValue_take_le (s : List Char) (k : ℕ) : hexValue (s.take k) ≤ hexValue s := by
  have hgrow : ∀ (t s : List Char), hexValue s ≤ hexValue (s ++ t) := by
    intro t
    induction t with
    | nil => exact fun s => by rw [append_nil]
    | cons c t ih =>
      intro s
      have hone : hexValue s ≤ hexValue (s ++ [c]) := by
        rw [hexValue_append_singleton]
        omega
      rw [← singleton_append, ← append_assoc]
      exact hone.trans (ih _)
  have h := hgrow (s.drop k) (s.take k)
  rwa [take_append_drop] at h

end Sysak.Lib
