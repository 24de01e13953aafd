/-
# Numbers and their texts
-/

import Mathlib.Data.Bool.AllAny
import Mathlib.Data.List.DropRight
import Mathlib.Data.Nat.Log
import Sysak.Lib.Decimal

namespace Sysak.Lib
namespace LuaNumber

open List

variable (z : ℤ) (n : ℕ)

def roundEven (n d : ℕ) : ℕ :=
  if 2 * (n % d) < d then n / d
  else if d < 2 * (n % d) then n / d + 1
  else if n / d % 2 = 0 then n / d
  else n / d + 1

def roundDouble (n : ℕ) : ℕ :=
  if n < 9007199254740992 then n
  else roundEven n (2 ^ (Nat.log 2 n - 52)) * 2 ^ (Nat.log 2 n - 52)

def IsDouble (z : ℤ) : Prop := roundDouble z.natAbs = z.natAbs ∧ Nat.log 2 z.natAbs < 1024

abbrev LuaInt : Type := {z : ℤ // IsDouble z}

def sci (n : ℕ) : ℕ × ℕ :=
  let e := Nat.log 10 n
  let q := roundEven n (10 ^ (e - 13))
  if q = 100000000000000 then (10000000000000, e + 1) else (q, e)

def round14 (n : ℕ) : ℕ :=
  if n < 100000000000000 then n else (sci n).1 * 10 ^ ((sci n).2 - 13)

def stripZeros (ds : Bytes) : Bytes := ds.rdropWhile (· == 48)

def withPoint (ds : Bytes) : Bytes := ds.take 1 ++ (if ds.length ≤ 1 then [] else 46 :: ds.drop 1)

def tostringNat (n : ℕ) : Bytes :=
  if n < 100000000000000 then dec n
  else withPoint (stripZeros (dec (sci n).1)) ++ (bytes "e+" ++ dec (sci n).2)

def tostring : ℤ → Bytes
  | .ofNat n => tostringNat n
  | .negSucc n => 45 :: tostringNat (n + 1)

def digits (s : Bytes) : Option ℕ := if s ≠ [] ∧ s.all isDigit then some (decimal s) else none

def exponent : Bytes → Option ℕ
  | [] => some 0
  | c :: s => if c = 101 ∨ c = 69 then (match s with
      | 43 :: s => digits s
      | s => digits s) else none

def fraction : Bytes → Bytes × Bytes
  | 46 :: s => (s.takeWhile isDigit, s.dropWhile isDigit)
  | s => ([], s)

def numeral (s : Bytes) : Option ℕ :=
  let a := s.takeWhile isDigit
  let b := fraction (s.dropWhile isDigit)
  if a ++ b.1 = [] then none
  else
    match exponent b.2 with
    | none => none
    | some x =>
      if b.1.length ≤ x then
        some (roundDouble (decimal (a ++ b.1) * 10 ^ (x - b.1.length)))
      else none

def tonumber (s : Bytes) : Option ℤ :=
  let t := sign ((s.dropWhile isSpace).rdropWhile isSpace)
  (numeral t.2).map fun n => if t.1 then -(n : ℤ) else n

def readBack : ℤ → ℤ
  | .ofNat n => roundDouble (round14 n)
  | .negSucc n => -(roundDouble (round14 (n + 1)) : ℤ)

theorem isDouble_of_lt {z : ℤ} (h : z.natAbs < 9007199254740992) : IsDouble z := by
  have hlog : Nat.log 2 9007199254740992 < 1024 := by decide
  exact ⟨if_pos h, (Nat.log_mono_right h.le).trans_lt hlog⟩

theorem roundEven_cases (d : ℕ) : roundEven n d = n / d ∨ roundEven n d = n / d + 1 := by
  rw [roundEven]
  split_ifs
  · exact .inl rfl
  · exact .inr rfl
  · exact .inl rfl
  · exact .inr rfl

theorem sci_bounds {n : ℕ} (h : 100000000000000 ≤ n) :
    10000000000000 ≤ (sci n).1 ∧ (sci n).1 < 100000000000000 ∧ 14 ≤ (sci n).2 := by
  have hn : n ≠ 0 := by omega
  have hlo : 10 ^ Nat.log 10 n ≤ n := Nat.pow_log_le_self 10 hn
  have hhi : n < 10 ^ (Nat.log 10 n + 1) := Nat.lt_pow_succ_log_self (by decide) n
  have he : 14 ≤ Nat.log 10 n := Nat.le_log_of_pow_le (by decide) h
  obtain ⟨d, hd⟩ : ∃ d, Nat.log 10 n = 13 + d := ⟨Nat.log 10 n - 13, by omega⟩
  have hpos : 0 < 10 ^ d := by positivity
  have hq : 10000000000000 ≤ n / 10 ^ d ∧ n / 10 ^ d < 100000000000000 := by
    constructor
    · rw [Nat.le_div_iff_mul_le hpos]
      calc 10000000000000 * 10 ^ d = 10 ^ (13 + d) := by ring
        _ ≤ n := hd ▸ hlo
    · rw [Nat.div_lt_iff_lt_mul hpos]
      calc n < 10 ^ (13 + d + 1) := hd ▸ hhi
        _ = 100000000000000 * 10 ^ d := by ring
  have hr := roundEven_cases n (10 ^ d)
  simp only [sci, hd, Nat.add_sub_cancel_left]
  split_ifs with hcarry
  · exact ⟨le_rfl, by norm_num, by omega⟩
  · exact ⟨by omega, by omega, by omega⟩

theorem stripZeros_spec (ds : Bytes) : ∃ k, ds = stripZeros ds ++ replicate k 48 := by
  refine ⟨(ds.rtakeWhile (· == 48)).length, ?_⟩
  have hzeros : ds.rtakeWhile (· == 48) = replicate (ds.rtakeWhile (· == 48)).length 48 :=
    eq_replicate_of_mem fun c hc => by simpa using mem_rtakeWhile_imp hc
  rw [← hzeros, stripZeros, rdropWhile_append_rtakeWhile]

theorem decimal_append_zeros (s : Bytes) (k : ℕ) :
    decimal (s ++ replicate k 48) = decimal s * 10 ^ k := by
  induction k with
  | zero => simp
  | succ k ih =>
    rw [replicate_succ', ← append_assoc, decimal_append_singleton, ih, pow_succ]
    show 10 * (decimal s * 10 ^ k) + 0 = _
    ring

theorem length_dec_le_iff {n k : ℕ} (hk : 0 < k) : (dec n).length ≤ k ↔ n < 10 ^ k := by
  rw [dec, length_map]
  exact Nat.length_toDigits_le_iff (by decide) hk

theorem digits_spec {n : ℕ} (h : 100000000000000 ≤ n) :
    ∃ c ds, stripZeros (dec (sci n).1) = c :: ds ∧ (∀ c' ∈ c :: ds, isDigit c' = true) ∧
      ds.length ≤ (sci n).2 ∧ decimal (c :: ds) * 10 ^ ((sci n).2 - ds.length) = round14 n := by
  obtain ⟨hlo, hhi, he⟩ := sci_bounds h
  obtain ⟨k, hk⟩ := stripZeros_spec (dec (sci n).1)
  have hlen : (dec (sci n).1).length = 14 := by
    have hle : (dec (sci n).1).length ≤ 14 := (length_dec_le_iff (by decide)).mpr hhi
    have hlt : ¬ (dec (sci n).1).length ≤ 13 := by
      rw [length_dec_le_iff (by decide)]
      omega
    omega
  have hval : decimal (stripZeros (dec (sci n).1)) * 10 ^ k = (sci n).1 := by
    rw [← decimal_append_zeros, ← hk, decimal_dec]
  have hlen' := congrArg List.length hk
  rw [hlen, length_append, length_replicate] at hlen'
  obtain ⟨c, ds, hds⟩ : ∃ c ds, stripZeros (dec (sci n).1) = c :: ds := by
    refine exists_cons_of_ne_nil fun hnil => ?_
    rw [hnil] at hval
    have hzero : decimal [] = 0 := rfl
    rw [hzero] at hval
    omega
  have hdigit : ∀ c' ∈ c :: ds, isDigit c' = true := by
    intro c' hc'
    refine isDigit_of_mem_dec (n := (sci n).1) ?_
    rw [hk, hds]
    exact mem_append_left _ hc'
  rw [hds] at hval hlen'
  rw [length_cons] at hlen'
  refine ⟨c, ds, hds, hdigit, by omega, ?_⟩
  rw [round14, if_neg (Nat.not_lt.mpr h), ← hval, Nat.mul_assoc, ← pow_add]
  congr 2
  omega

theorem digits_dec : digits (dec n) = some n := by
  have hall : (dec n).all isDigit = true := all_eq_true.mpr fun c hc => isDigit_of_mem_dec hc
  rw [digits, if_pos ⟨dec_ne_nil n, hall⟩, decimal_dec]

theorem exponent_dec : exponent (bytes "e+" ++ dec n) = some n := digits_dec n

theorem fraction_point {ds : Bytes} (hds : ∀ c ∈ ds, isDigit c = true) (n : ℕ) :
    fraction ((if ds = [] then [] else 46 :: ds) ++ (bytes "e+" ++ dec n)) =
      (ds, bytes "e+" ++ dec n) := by
  have he : isDigit 101 = false := by decide
  by_cases hnil : ds = []
  · rw [if_pos hnil, hnil]
    rfl
  · rw [if_neg hnil]
    show (takeWhile isDigit (ds ++ 101 :: (43 :: dec n)),
      dropWhile isDigit (ds ++ 101 :: (43 :: dec n))) = _
    rw [takeWhile_append_of_pos hds, dropWhile_append_of_pos hds,
      takeWhile_cons_of_neg (by simp [he]), dropWhile_cons_of_neg (by simp [he]),
      append_nil]
    rfl

theorem tostringNat_of_le {n : ℕ} (h : 100000000000000 ≤ n) {c : UInt8} {ds : Bytes}
    (hds : stripZeros (dec (sci n).1) = c :: ds) : tostringNat n =
      c :: ((if ds = [] then [] else 46 :: ds) ++ (bytes "e+" ++ dec (sci n).2)) := by
  rw [tostringNat, if_neg (Nat.not_lt.mpr h), hds, withPoint]
  cases ds <;> rfl

theorem numeral_tostringNat : numeral (tostringNat n) = some (roundDouble (round14 n)) := by
  rcases Nat.lt_or_ge n 100000000000000 with hlt | hge
  · have htake : (dec n).takeWhile isDigit = dec n := by
      simpa using takeWhile_dec (n := n) (s := []) (by simp [NoDigit])
    have hdrop : (dec n).dropWhile isDigit = [] := by
      simpa using dropWhile_dec (n := n) (s := []) (by simp [NoDigit])
    have hfrac : fraction [] = ([], []) := rfl
    have hexp : exponent [] = some 0 := rfl
    rw [tostringNat, if_pos hlt, round14, if_pos hlt]
    simp [numeral, htake, hdrop, hfrac, hexp, dec_ne_nil, decimal_dec]
  · obtain ⟨c, ds, hds, hdigit, hlen, hval⟩ := digits_spec hge
    obtain ⟨hc, hdigits⟩ := forall_mem_cons.mp hdigit
    have hfrac := fraction_point hdigits (sci n).2
    rw [tostringNat_of_le hge hds]
    -- behind the first digit there is a point or the exponent
    generalize hrest : (if ds = [] then [] else 46 :: ds) ++ (bytes "e+" ++ dec (sci n).2) = rest
    rw [hrest] at hfrac
    obtain ⟨d, rest', rfl, hd⟩ : ∃ d rest', rest = d :: rest' ∧ isDigit d = false := by
      rw [← hrest]
      by_cases hnil : ds = []
      · rw [if_pos hnil]
        exact ⟨101, _, rfl, by decide⟩
      · rw [if_neg hnil]
        exact ⟨46, _, rfl, by decide⟩
    have htake : (c :: d :: rest').takeWhile isDigit = [c] := by
      rw [takeWhile_cons_of_pos hc, takeWhile_cons_of_neg (by simp [hd])]
    have hdrop : (c :: d :: rest').dropWhile isDigit = d :: rest' := by
      rw [dropWhile_cons_of_pos hc, dropWhile_cons_of_neg (by simp [hd])]
    simp only [numeral, htake, hdrop, hfrac, exponent_dec, if_pos hlen, singleton_append,
      cons_ne_nil, if_false, hval]

def IsNumByte (c : UInt8) : Prop := isDigit c = true ∨ c ∈ bytes "+-.e"

theorem IsNumByte.spec {c : UInt8} (h : IsNumByte c) :
    isSpace c = false ∧ c ≠ 34 ∧ c ≠ 44 ∧ c ≠ 61 := by
  rcases h with h | h
  · refine ⟨isSpace_of_isDigit h, ?_, ?_, ?_⟩ <;>
    · rintro rfl
      exact absurd h (by decide)
  · have hall : ∀ c ∈ bytes "+-.e", isSpace c = false ∧ c ≠ 34 ∧ c ≠ 44 ∧ c ≠ 61 :=
      all_iff_forall_prop.mp (by decide)
    exact hall c h

theorem isNumByte_tostringNat : ∀ c ∈ tostringNat n, IsNumByte c := by
  intro c hc
  rcases Nat.lt_or_ge n 100000000000000 with hlt | hge
  · rw [tostringNat, if_pos hlt] at hc
    exact .inl (isDigit_of_mem_dec hc)
  · obtain ⟨d, ds, hds, hdigit, -, -⟩ := digits_spec hge
    rw [tostringNat_of_le hge hds, mem_cons, mem_append, mem_append] at hc
    rcases hc with rfl | hc | hc | hc
    · exact .inl (hdigit _ mem_cons_self)
    · split_ifs at hc with hnil
      · exact absurd hc not_mem_nil
      · rcases mem_cons.mp hc with rfl | hc
        · exact .inr (by decide)
        · exact .inl (hdigit c (mem_cons_of_mem _ hc))
    · refine .inr ?_
      have hall : ∀ c ∈ bytes "e+", c ∈ bytes "+-.e" := all_iff_forall_prop.mp (by decide)
      exact hall c hc
    · exact .inl (isDigit_of_mem_dec hc)

theorem isNumByte_tostring : ∀ c ∈ tostring z, IsNumByte c := by
  cases z with
  | ofNat n => exact isNumByte_tostringNat n
  | negSucc n => exact forall_mem_cons.mpr ⟨.inr (by decide), isNumByte_tostringNat (n + 1)⟩

theorem head_tostringNat : ∃ c s, tostringNat n = c :: s ∧ isDigit c = true := by
  rcases Nat.lt_or_ge n 100000000000000 with hlt | hge
  · rw [tostringNat, if_pos hlt]
    obtain ⟨c, s, hs⟩ := exists_cons_of_ne_nil (dec_ne_nil n)
    exact ⟨c, s, hs, isDigit_of_mem_dec (n := n) (hs ▸ mem_cons_self)⟩
  · obtain ⟨c, ds, hds, hdigit, -, -⟩ := digits_spec hge
    exact ⟨c, _, tostringNat_of_le hge hds, hdigit c mem_cons_self⟩

theorem tostring_ne_nil : tostring z ≠ [] := by
  cases z with
  | ofNat n =>
    obtain ⟨c, s, hs, -⟩ := head_tostringNat n
    rw [tostring, hs]
    exact cons_ne_nil _ _
  | negSucc n => exact cons_ne_nil _ _

theorem strip_tostring : ((tostring z).dropWhile isSpace).rdropWhile isSpace = tostring z := by
  have hblank : ∀ c ∈ tostring z, isSpace c = false := fun c hc =>
    (isNumByte_tostring z c hc).spec.1
  obtain ⟨c, s, hs⟩ := exists_cons_of_ne_nil (tostring_ne_nil z)
  have hdrop : (tostring z).dropWhile isSpace = tostring z := by
    rw [hs, dropWhile_cons_of_neg]
    simp [hblank c (hs ▸ mem_cons_self)]
  rw [hdrop, rdropWhile_eq_self_iff]
  intro hne
  simp [hblank _ (getLast_mem hne)]

theorem tonumber_tostring : tonumber (tostring z) = some (readBack z) := by
  rw [tonumber, strip_tostring]
  cases z with
  | ofNat n =>
    obtain ⟨c, s, hs, hc⟩ := head_tostringNat n
    have hsign : sign (tostringNat n) = (false, tostringNat n) := by
      rw [hs]
      have h45 : c ≠ 45 := by
        rintro rfl
        exact absurd hc (by decide)
      have h43 : c ≠ 43 := by
        rintro rfl
        exact absurd hc (by decide)
      simp [sign, h45, h43]
    simp only [tostring, hsign, numeral_tostringNat]
    rfl
  | negSucc n =>
    have hsign : sign (45 :: tostringNat (n + 1)) = (true, tostringNat (n + 1)) := rfl
    simp only [tostring, hsign, numeral_tostringNat]
    rfl

theorem readBack_of_lt {z : ℤ} (h : z.natAbs < 100000000000000) : readBack z = z := by
  have hround : ∀ n < 100000000000000, roundDouble (round14 n) = n := by
    intro n hn
    rw [round14, if_pos hn, roundDouble, if_pos (by omega)]
  cases z with
  | ofNat n =>
    rw [readBack, hround n h]
    rfl
  | negSucc n =>
    rw [readBack, hround (n + 1) h]
    rfl

end LuaNumber
end Sysak.Lib
