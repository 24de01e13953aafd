/-
# Strings of bytes and their patterns
-/

import Mathlib.Data.UInt

namespace Sysak.Lib

open List Option

abbrev Bytes : Type := List UInt8

def bytes (s : String) : Bytes := s.toList.map fun c => UInt8.ofNat c.toNat

def isSpace (c : UInt8) : Bool := c == 32 || (9 ≤ c && c ≤ 13)

def isDigit (c : UInt8) : Bool := 48 ≤ c && c ≤ 57

def lower (s : Bytes) : Bytes := s.map fun c => if 65 ≤ c ∧ c ≤ 90 then c + 32 else c

def decimal (s : Bytes) : ℕ := s.foldl (fun n c => 10 * n + (c.toNat - 48)) 0

def tonumber (s : Bytes) : Option ℕ :=
  let t := ((s.dropWhile isSpace).reverse.dropWhile isSpace).reverse
  if t ≠ [] ∧ t.all isDigit then some (decimal t) else none

variable {c : UInt8}

theorem append_cons_inj {c : UInt8} {s t u v : Bytes} (hs : c ∉ s) (ht : c ∉ t)
    (h : s ++ c :: u = t ++ c :: v) : s = t ∧ u = v := by
  induction s generalizing t with
  | nil =>
    cases t with
    | nil => exact ⟨rfl, tail_eq_of_cons_eq h⟩
    | cons b t => exact absurd (head_eq_of_cons_eq h ▸ mem_cons_self) ht
  | cons a s ih =>
    cases t with
    | nil => exact absurd (head_eq_of_cons_eq h ▸ mem_cons_self) hs
    | cons b t =>
      obtain ⟨rfl, htail⟩ := List.cons.inj h
      obtain ⟨rfl, rfl⟩ := ih (fun hc => hs (mem_cons_of_mem _ hc))
        (fun hc => ht (mem_cons_of_mem _ hc)) htail
      exact ⟨rfl, rfl⟩

abbrev Pattern : Type := List (UInt8 → Bool)

def literal (s : Bytes) : Pattern := s.map fun c => (· == c)

def matchHere : Pattern → Bytes → Bool
  | [], _ => true
  | _ :: _, [] => false
  | p :: pat, c :: s => p c && matchHere pat s

def find (pat : Pattern) : Bytes → Option (Bytes × Bytes)
  | [] => if matchHere pat [] then some ([], []) else none
  | c :: s =>
    if matchHere pat (c :: s) then some ([], (c :: s).drop pat.length)
    else (find pat s).map fun r => (c :: r.1, r.2)

variable {pat : Pattern}

theorem length_le_of_matchHere : ∀ {s : Bytes}, matchHere pat s = true →
    pat.length ≤ s.length := by
  induction pat with
  | nil => exact fun _ => Nat.zero_le _
  | cons p pat ih =>
    rintro (_ | ⟨c, s⟩) h
    · cases h
    · exact Nat.succ_le_succ (ih (Bool.and_eq_true_iff.mp h).2)

theorem matchHere_append : ∀ {s : Bytes} (t : Bytes), pat.length ≤ s.length →
    matchHere pat (s ++ t) = matchHere pat s := by
  induction pat with
  | nil =>
    intro s t _
    cases s <;> cases t <;> rfl
  | cons p pat ih =>
    rintro (_ | ⟨c, s⟩) t h
    · cases h
    · show (p c && matchHere pat (s ++ t)) = (p c && matchHere pat s)
      rw [ih t (Nat.le_of_succ_le_succ h)]

theorem matchHere_literal (s t : Bytes) : matchHere (literal s) (s ++ t) = true := by
  induction s with
  | nil =>
    cases t <;> rfl
  | cons c s ih =>
    show ((c == c) && matchHere (literal s) (s ++ t)) = true
    rw [beq_self_eq_true, ih, Bool.true_and]

theorem matchHere_literal_iff {s t : Bytes} : matchHere (literal s) t = true ↔ s <+: t := by
  constructor
  · induction s generalizing t with
    | nil => exact fun _ => ⟨t, rfl⟩
    | cons c s ih =>
      cases t with
      | nil => exact fun h => absurd h Bool.false_ne_true
      | cons d t =>
        intro h
        obtain ⟨hc, hs⟩ := Bool.and_eq_true_iff.mp h
        rw [beq_iff_eq.mp hc, cons_prefix_cons]
        exact ⟨rfl, ih hs⟩
  · rintro ⟨r, rfl⟩
    exact matchHere_literal s r

variable {s a b : Bytes}

theorem length_of_find (h : find pat s = some (a, b)) :
    a.length + pat.length + b.length = s.length := by
  induction s generalizing a with
  | nil =>
    rw [find] at h
    split_ifs at h with hm
    cases h
    have := length_le_of_matchHere hm
    simpa using this
  | cons c s ih =>
    rw [find] at h
    split_ifs at h with hm
    · cases h
      have := length_le_of_matchHere hm
      simp only [length_nil, length_drop] at this ⊢
      omega
    · obtain ⟨⟨a', b'⟩, hr, heq⟩ := map_eq_some_iff.mp h
      cases heq
      have := ih hr
      simp only [length_cons] at this ⊢
      omega

theorem find_append_right (t : Bytes) (h : find pat s = some (a, b)) :
    find pat (s ++ t) = some (a, b ++ t) := by
  induction s generalizing a with
  | nil =>
    rw [find] at h
    split_ifs at h with hm
    cases h
    have hnil : pat = [] :=
      eq_nil_of_length_eq_zero (Nat.le_zero.mp (length_le_of_matchHere hm))
    subst hnil
    cases t <;> rfl
  | cons c s ih =>
    have hlen := length_of_find h
    rw [cons_append, find, ← cons_append,
      matchHere_append t (by omega)]
    rw [find] at h
    split_ifs at h ⊢ with hm
    · cases h
      rw [drop_append_of_le_length (length_le_of_matchHere hm)]
    · obtain ⟨⟨a', b'⟩, hr, heq⟩ := map_eq_some_iff.mp h
      cases heq
      rw [ih hr]
      rfl

def NoMatch (pat : Pattern) (a s : Bytes) : Prop :=
  ∀ x y, a = x ++ y → y ≠ [] → matchHere pat (y ++ s) = false

theorem find_append {a s : Bytes} (h : NoMatch pat a s) (hm : matchHere pat s = true) :
    find pat (a ++ s) = some (a, s.drop pat.length) := by
  induction a with
  | nil =>
    cases s with
    | nil =>
      rw [append_nil, find, if_pos hm, drop_nil]
    | cons c s => rw [nil_append, find, if_pos hm]
  | cons c a ih =>
    have hhere := h [] (c :: a) rfl (cons_ne_nil _ _)
    have hrest : NoMatch pat a s := fun x y heq hy => h (c :: x) y (by rw [heq]; rfl) hy
    rw [cons_append, find, ← cons_append, hhere, ih hrest]
    rfl

theorem find_append_left {a s : Bytes} (h : NoMatch pat a s) :
    find pat (a ++ s) = (find pat s).map fun r => (a ++ r.1, r.2) := by
  induction a with
  | nil => simp
  | cons c a ih =>
    have hhere := h [] (c :: a) rfl (cons_ne_nil _ _)
    have hrest : NoMatch pat a s := fun x y heq hy => h (c :: x) y (by rw [heq]; rfl) hy
    rw [cons_append, find, ← cons_append, hhere, ih hrest, if_neg Bool.false_ne_true,
      Option.map_map]
    rfl

theorem matchHere_take {s : Bytes} (h : matchHere pat s = true) :
    matchHere pat (s.take pat.length) = true := by
  have hlen := length_le_of_matchHere h
  rw [← matchHere_append (s.drop pat.length) (by rw [length_take]; omega),
    take_append_drop]
  exact h

theorem find_spec (h : find pat s = some (a, b)) :
    ∃ m, s = a ++ (m ++ b) ∧ m.length = pat.length ∧ matchHere pat m = true ∧
      NoMatch pat a (m ++ b) := by
  induction s generalizing a with
  | nil =>
    rw [find] at h
    split_ifs at h with hm
    cases h
    exact ⟨[], rfl, (Nat.le_zero.mp (length_le_of_matchHere hm)).symm, hm,
      fun x y heq hy => absurd (append_eq_nil_iff.mp heq.symm).2 hy⟩
  | cons c s ih =>
    rw [find] at h
    split_ifs at h with hm
    · cases h
      refine ⟨(c :: s).take pat.length, (take_append_drop ..).symm,
        length_take_of_le (length_le_of_matchHere hm), matchHere_take hm,
        fun x y heq hy => absurd (append_eq_nil_iff.mp heq.symm).2 hy⟩
    · obtain ⟨⟨a', b'⟩, hr, heq⟩ := map_eq_some_iff.mp h
      cases heq
      obtain ⟨m, rfl, hlen, hmatch, hno⟩ := ih hr
      refine ⟨m, rfl, hlen, hmatch, fun x y heq hy => ?_⟩
      cases x with
      | nil =>
        obtain rfl : _ = y := heq
        exact Bool.eq_false_iff.mpr hm
      | cons d x =>
        obtain ⟨rfl, rfl⟩ := List.cons.inj heq
        exact hno x y rfl hy

theorem isSome_find_append (a : Bytes) {s : Bytes} (h : matchHere pat s = true) :
    (find pat (a ++ s)).isSome = true := by
  induction a with
  | nil => cases s <;> rw [nil_append, find, if_pos h] <;> rfl
  | cons c a ih =>
    rw [cons_append, find]
    split_ifs
    · rfl
    · rw [isSome_map]
      exact ih

theorem noMatch_of_head {p : UInt8 → Bool} {a : Bytes} (pat : Pattern) (s : Bytes)
    (h : ∀ c ∈ a, p c = false) : NoMatch (p :: pat) a s := by
  rintro x (_ | ⟨c, y⟩) rfl hy
  · exact absurd rfl hy
  · show (p c && matchHere pat (y ++ s)) = false
    rw [h c (by simp), Bool.false_and]

theorem find_eq_none_of_head {p : UInt8 → Bool} {s : Bytes} (pat : Pattern)
    (h : ∀ c ∈ s, p c = false) : find (p :: pat) s = none := by
  induction s with
  | nil => rfl
  | cons c s ih =>
    have hhere : matchHere (p :: pat) (c :: s) = false := by
      rw [matchHere, h c (mem_cons_self ..), Bool.false_and]
    rw [find, hhere, ih fun c hc => h c (mem_cons_of_mem _ hc)]
    rfl

theorem NoMatch.append {a b s : Bytes} (ha : NoMatch pat a (b ++ s)) (hb : NoMatch pat b s) :
    NoMatch pat (a ++ b) s := by
  intro x y heq hy
  rcases append_eq_append_iff.mp heq with ⟨z, rfl, rfl⟩ | ⟨z, rfl, rfl⟩
  · exact hb z y rfl hy
  · by_cases hz : z = []
    · subst hz
      exact hb [] b rfl (by simpa using hy)
    · rw [append_assoc]
      exact ha x z rfl hz

theorem isSpace_of_lt (h : 32 < c.toNat) : isSpace c = false := by
  simp only [isSpace, Bool.or_eq_false_iff, beq_eq_false_iff_ne, Bool.and_eq_false_iff,
    decide_eq_false_iff_not, UInt8.le_iff_toNat_le, ne_eq, ← UInt8.toNat_inj]
  have h13 : (13 : UInt8).toNat = 13 := rfl
  have h32 : (32 : UInt8).toNat = 32 := rfl
  omega

theorem isSpace_of_isDigit (h : isDigit c = true) : isSpace c = false := by
  simp only [isDigit, Bool.and_eq_true, decide_eq_true_eq, UInt8.le_iff_toNat_le] at h
  exact isSpace_of_lt (lt_of_lt_of_le (by decide) h.1)

theorem dropWhile_blanks {l s : Bytes} (hl : ∀ c ∈ l, isSpace c = true)
    (hs : ∀ c ∈ s.head?, isSpace c = false) : (l ++ s).dropWhile isSpace = s := by
  rw [dropWhile_append_of_pos hl]
  cases s with
  | nil => rfl
  | cons c s => rw [dropWhile_cons_of_neg (by simp [hs c rfl])]

theorem tonumber_numeral {l ds r : Bytes} (hl : ∀ c ∈ l, isSpace c = true) (hds : ds ≠ [])
    (hdigit : ∀ c ∈ ds, isDigit c = true) (hr : ∀ c ∈ r, isSpace c = true) :
    tonumber (l ++ (ds ++ r)) = some (decimal ds) := by
  have hleft : (l ++ (ds ++ r)).dropWhile isSpace = ds ++ r := by
    refine dropWhile_blanks hl fun c hc => isSpace_of_isDigit (hdigit c ?_)
    rw [head?_append_of_ne_nil _ hds] at hc
    exact mem_of_mem_head? hc
  have hright : (ds ++ r).reverse.dropWhile isSpace = ds.reverse := by
    rw [reverse_append]
    refine dropWhile_blanks (fun c hc => hr c (mem_reverse.mp hc)) fun c hc => ?_
    exact isSpace_of_isDigit (hdigit c (mem_reverse.mp (mem_of_mem_head? hc)))
  simp only [tonumber, hleft, hright, reverse_reverse]
  exact if_pos ⟨hds, all_eq_true.mpr hdigit⟩

end Sysak.Lib
