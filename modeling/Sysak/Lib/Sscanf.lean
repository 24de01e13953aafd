/-
# `sscanf` with one conversion
-/

import Mathlib.Data.List.TakeWhile
import Sysak.Lib.Decimal

namespace Sysak.Lib

open List

def clampLong (v : ℤ) : ℤ := max (-9223372036854775808) (min v 9223372036854775807)

def sscanfString (width : ℕ) (s : Bytes) : ℤ × Option Bytes :=
  let s := s.dropWhile isSpace
  if s = [] then (-1, none) else (1, some ((s.takeWhile fun c => !isSpace c).take width))

def sscanfLong (s : Bytes) : ℤ × Option ℤ :=
  let s := s.dropWhile isSpace
  let t := sign s
  let ds := t.2.takeWhile isDigit
  if s = [] then (-1, none)
  else if ds = [] then (0, none)
  else (1, some (clampLong (if t.1 then -decimal ds else decimal ds)))

def scanText : Bytes → Bytes → Except ℤ Bytes
  | [], s => .ok s
  | c :: text, s =>
    if isSpace c then scanText text (s.dropWhile isSpace)
    else
      match s with
      | [] => .error (-1)
      | d :: s => if d = c then scanText text s else .error 0

def sscanfLabelled (text s : Bytes) : ℤ :=
  match scanText text s with
  | .ok s => (sscanfLong s).1
  | .error ret => ret

def scanUnsigned (s : Bytes) : Option (UInt64 × Bytes) :=
  if (sign (s.dropWhile isSpace)).2.takeWhile isDigit = [] then none else some (strtoull s)

def scanUnsigneds : ℕ → Bytes → List UInt64
  | 0, _ => []
  | k + 1, s =>
    match scanUnsigned s with
    | none => []
    | some (v, s) => v :: scanUnsigneds k s

def isInteger (t : Bytes) : Bool := !(sign t).2.isEmpty && (sign t).2.all isDigit

def integer (t : Bytes) : ℤ := if (sign t).1 then -decimal (sign t).2 else decimal (sign t).2

def IsLong (t : Bytes) : Prop :=
  isInteger t = true ∧ -9223372036854775808 ≤ integer t ∧ integer t ≤ 9223372036854775807

theorem clampLong_eq_self_iff {v : ℤ} :
    clampLong v = v ↔ -9223372036854775808 ≤ v ∧ v ≤ 9223372036854775807 := by
  unfold clampLong
  omega

variable {t s : Bytes}

theorem sign_append (ht : t ≠ []) (s : Bytes) :
    sign (t ++ s) = ((sign t).1, (sign t).2 ++ s) := by
  obtain ⟨c, u, rfl⟩ := exists_cons_of_ne_nil ht
  by_cases h45 : c = 45
  · subst h45
    rfl
  · by_cases h43 : c = 43
    · subst h43
      rfl
    · simp [sign, h45, h43]

theorem isSpace_head_of_isInteger (h : isInteger t = true) : ∀ c ∈ t.head?, isSpace c = false := by
  obtain ⟨-, hdigits⟩ := Bool.and_eq_true_iff.mp h
  intro c hc
  obtain ⟨u, rfl⟩ : ∃ u, t = c :: u := ⟨t.tail, eq_cons_of_mem_head? hc⟩
  by_cases h45 : c = 45
  · subst h45
    rfl
  · by_cases h43 : c = 43
    · subst h43
      rfl
    · have hsign : sign (c :: u) = (false, c :: u) := by simp [sign, h45, h43]
      rw [hsign] at hdigits
      exact isSpace_of_isDigit (all_eq_true.mp hdigits c mem_cons_self)

theorem ne_nil_of_isInteger (h : isInteger t = true) : t ≠ [] := by
  rintro rfl
  exact Bool.false_ne_true h

theorem dropWhile_isSpace_append (ht : t ≠ []) (h : ∀ c ∈ t.head?, isSpace c = false) (s : Bytes) :
    (t ++ s).dropWhile isSpace = t ++ s := by
  obtain ⟨c, u, rfl⟩ := exists_cons_of_ne_nil ht
  exact dropWhile_cons_of_neg (by simp [h c rfl])

theorem takeWhile_isDigit_append (ht : ∀ c ∈ t, isDigit c = true) (hs : NoDigit s) :
    (t ++ s).takeWhile isDigit = t := by
  rw [takeWhile_append_of_pos ht]
  cases s with
  | nil => simp
  | cons c s => simp [hs c rfl]

theorem sscanfLong_integer (ht : isInteger t = true) (hs : NoDigit s) :
    sscanfLong (t ++ s) = (1, some (clampLong (integer t))) := by
  obtain ⟨hne, hdigits⟩ := Bool.and_eq_true_iff.mp ht
  have hnil := ne_nil_of_isInteger ht
  have htake := takeWhile_isDigit_append (all_eq_true.mp hdigits) hs
  have hds : (sign t).2 ≠ [] := by simpa using hne
  simp only [sscanfLong, dropWhile_isSpace_append hnil (isSpace_head_of_isInteger ht),
    sign_append hnil, htake, if_neg (append_ne_nil_of_left_ne_nil hnil s), if_neg hds]
  rfl

theorem sscanfString_word (width : ℕ) (ht : t ≠ []) (hspace : ∀ c ∈ t, isSpace c = false)
    (hs : ∀ c ∈ s.head?, isSpace c = true) :
    sscanfString width (t ++ s) = (1, some (t.take width)) := by
  have htake : (t ++ s).takeWhile (fun c => !isSpace c) = t := by
    rw [takeWhile_append_of_pos fun c hc => by rw [hspace c hc]; rfl]
    cases s with
    | nil => simp
    | cons c s => simp [hs c rfl]
  have hdrop := dropWhile_isSpace_append ht
    (fun c hc => hspace c (mem_of_mem_head? hc)) s
  simp only [sscanfString, hdrop, htake, if_neg (append_ne_nil_of_left_ne_nil ht s)]

theorem sscanfString_ne_zero (width : ℕ) (s : Bytes) : (sscanfString width s).1 ≠ 0 := by
  unfold sscanfString
  dsimp only
  split_ifs <;> simp

theorem isSpace_of_sscanfString (width : ℕ) (s : Bytes) :
    ∀ v ∈ (sscanfString width s).2, ∀ c ∈ v, isSpace c = false := by
  unfold sscanfString
  dsimp only
  split_ifs
  · exact fun v hv => nomatch hv
  · intro v hv c hc
    cases hv
    simpa using mem_takeWhile_imp (mem_of_mem_take hc)

theorem scanUnsigned_dec (v : UInt64) (hs : NoDigit s) :
    scanUnsigned (32 :: (dec v.toNat ++ s)) = some (v, s) := by
  have hskip : (32 :: (dec v.toNat ++ s)).dropWhile isSpace = dec v.toNat ++ s := by
    rw [dropWhile_cons_of_pos rfl, dropWhile_isSpace_dec]
  have hread := strtoull_dec v.toNat_lt hs
  rw [UInt64.ofNat_toNat] at hread
  rw [scanUnsigned, hskip, sign_dec, takeWhile_dec hs, if_neg (dec_ne_nil _), ← hread]
  unfold strtoull
  simp only [hskip, dropWhile_isSpace_dec, sign_dec, takeWhile_dec hs, if_neg (dec_ne_nil v.toNat)]

def blankDecs (vs : List UInt64) : Bytes := vs.flatMap fun v => 32 :: dec v.toNat

theorem noDigit_blankDecs (vs : List UInt64) (hs : NoDigit s) : NoDigit (blankDecs vs ++ s) := by
  cases vs with
  | nil => exact hs
  | cons v vs =>
    intro c hc
    cases hc
    rfl

theorem scanUnsigneds_blankDecs {k : ℕ} {vs : List UInt64} (hk : vs.length ≤ k) (hs : NoDigit s)
    (hend : scanUnsigned s = none) : scanUnsigneds k (blankDecs vs ++ s) = vs := by
  induction vs generalizing k with
  | nil =>
    cases k with
    | zero => rfl
    | succ k => simp only [scanUnsigneds, blankDecs, flatMap_nil, nil_append, hend]
  | cons v vs ih =>
    cases k with
    | zero => simp at hk
    | succ k =>
      have htext : blankDecs (v :: vs) ++ s = 32 :: (dec v.toNat ++ (blankDecs vs ++ s)) := by
        unfold blankDecs
        simp
      simp only [scanUnsigneds, htext, scanUnsigned_dec v (noDigit_blankDecs vs hs)]
      rw [ih (Nat.le_of_succ_le_succ hk)]

end Sysak.Lib
