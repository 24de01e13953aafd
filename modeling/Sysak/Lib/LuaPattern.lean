/-
# Lua patterns from their text
-/

import Mathlib.Data.List.TakeWhile
import Sysak.Lib.LuaString

namespace Sysak.Lib

open List

variable (pat : Pattern) (p : UInt8 → Bool) (s : Bytes)

structure PatItem where
  cls : UInt8 → Bool
  more : Bool

structure LuaPattern where
  anchored : Bool
  items : List PatItem
  atEnd : Bool

def isAlnum (c : UInt8) : Bool :=
  isDigit c || (65 ≤ c && c ≤ 90) || (97 ≤ c && c ≤ 122)

def percentClass (x : UInt8) : Option (UInt8 → Bool) :=
  if x = 115 then some isSpace
  else if x = 100 then some isDigit
  else if isAlnum x || x == 0 then none
  else some (· == x)

def setItems : Bytes → Option (List (UInt8 → Bool) × Bytes)
  | [] => none
  | 93 :: s => some ([], s)
  | 37 :: x :: s => (percentClass x).bind fun p => (setItems s).map fun r => (p :: r.1, r.2)
  | c :: s =>
    if c = 0 ∨ c = 37 ∨ s.head? = some 45 then none
    else (setItems s).map fun r => ((· == c) :: r.1, r.2)

def firstClass : Bytes → Option ((UInt8 → Bool) × Bytes)
  | [] => none
  | 37 :: s => s.head?.bind fun x => (percentClass x).map fun p => (p, s.tail)
  | 91 :: s =>
    if s.head? = some 94 ∨ s.head? = some 93 then none
    else (setItems s).map fun r => (fun c => r.1.any fun p => p c, r.2)
  | 46 :: s => some (fun _ => true, s)
  | c :: s => if c = 40 ∨ c = 41 then none else some ((· == c), s)

def patternEnd (s : Bytes) : Option Bool :=
  if s = [] ∨ s.head? = some 0 then some false
  else if s.head? = some 36 ∧ (s.tail = [] ∨ s.tail.head? = some 0) then some true
  else none

def compileItems : ℕ → Bytes → Option (List PatItem × Bool)
  | 0, _ => none
  | fuel + 1, s =>
    match patternEnd s with
    | some atEnd => some ([], atEnd)
    | none =>
      (firstClass s).bind fun r =>
        if r.2.head? = some 43 then
          (compileItems fuel r.2.tail).map fun t => (⟨r.1, true⟩ :: t.1, t.2)
        else if r.2.head? = some 42 ∨ r.2.head? = some 45 ∨ r.2.head? = some 63 then none
        else (compileItems fuel r.2).map fun t => (⟨r.1, false⟩ :: t.1, t.2)

def compile (pat : Bytes) : Option LuaPattern :=
  if pat.head? = some 94 then
    (compileItems (pat.length + 1) pat.tail).map fun t => ⟨true, t.1, t.2⟩
  else (compileItems (pat.length + 1) pat).map fun t => ⟨false, t.1, t.2⟩

def hasPattern (pat : Bytes) : Bool := pat.any fun c => (bytes "^$*+?.([%-").contains c

def patternOf (pat : Bytes) : Option LuaPattern :=
  if hasPattern pat then compile pat
  else some ⟨false, pat.map fun c => ⟨(· == c), false⟩, false⟩

def matchItems (atEnd : Bool) : List PatItem → Bytes → Option ℕ
  | [], s => if atEnd && !s.isEmpty then none else some 0
  | _ :: _, [] => none
  | i :: is, c :: s =>
    if i.cls c then
      if i.more then
        ((range ((s.takeWhile i.cls).length + 1)).reverse.findSome? fun k =>
          (matchItems atEnd is (s.drop k)).map (k + ·)).map (1 + ·)
      else (matchItems atEnd is s).map (1 + ·)
    else none

def search (m : Bytes → Option ℕ) : Bytes → Option (ℕ × ℕ)
  | [] => (m []).map fun l => (0, l)
  | c :: s =>
    match m (c :: s) with
    | some l => some (0, l)
    | none => (search m s).map fun r => (1 + r.1, r.2)

def luaFind (s pat : Bytes) (init : ℕ) : Option (Option (ℕ × ℕ)) :=
  (patternOf pat).map fun p =>
    (if p.anchored then (matchItems p.atEnd p.items (s.drop (init - 1))).map fun l => (0, l)
      else search (matchItems p.atEnd p.items) (s.drop (init - 1))).map
      fun r => (init + r.1, init + r.1 + r.2 - 1)

def luaSub (s : Bytes) (i j : ℤ) : Bytes :=
  let i := if i < 0 then i + s.length + 1 else i
  let j := if j < 0 then j + s.length + 1 else j
  (s.take (min j s.length).toNat).drop ((max i 1).toNat - 1)

theorem luaSub_natCast {i : ℕ} (hi : 0 < i) (j : ℕ) : luaSub s i j = (s.take j).drop (i - 1) := by
  have htake : s.take (min (j : ℤ) s.length).toNat = s.take j := by
    rcases Nat.le_total j s.length with h | h
    · rw [show (min (j : ℤ) s.length).toNat = j by omega]
    · rw [show (min (j : ℤ) s.length).toNat = s.length by omega, take_length,
        take_of_length_le h]
  simp only [luaSub]
  rw [if_neg (by omega), if_neg (by omega), htake, show (max (i : ℤ) 1).toNat = i by omega]

def ones (pat : Pattern) : List PatItem := pat.map fun p => ⟨p, false⟩

theorem matchItems_ones :
    matchItems false (ones pat) s = if matchHere pat s then some pat.length else none := by
  induction pat generalizing s with
  | nil => rw [ones, map_nil, matchItems, matchHere]; rfl
  | cons p pat ih =>
    cases s with
    | nil => rfl
    | cons c s =>
      simp only [ones, map_cons, matchItems, matchHere] at ih ⊢
      rw [ih]
      by_cases hp : p c <;> by_cases hm : matchHere pat s <;> simp [hp, hm, Nat.add_comm]

theorem search_ones :
    search (matchItems false (ones pat)) s =
      (find pat s).map fun r => (r.1.length, pat.length) := by
  induction s with
  | nil =>
    rw [search, find, matchItems_ones]
    split_ifs <;> rfl
  | cons c s ih =>
    rw [search, find, matchItems_ones]
    split_ifs with h
    · rfl
    · simp only [ih, Option.map_map]
      congr 1
      funext r
      simp [Nat.add_comm]

theorem luaSub_neg_one (i : ℕ) : luaSub s (i + 1) (-1) = s.drop i := by
  simp only [luaSub]
  rw [if_neg (by omega), if_pos (by decide), show (-1 : ℤ) + s.length + 1 = s.length by omega,
    Int.min_self, Int.toNat_natCast, take_length]
  congr 1
  omega

def runItems (pat : Pattern) (p : UInt8 → Bool) : List PatItem := ones pat ++ [⟨p, true⟩]

theorem findSome?_range_reverse {α : Type*} {f : ℕ → Option α} {n : ℕ} {a : α} (h : f n = some a) :
    (range (n + 1)).reverse.findSome? f = some a := by
  rw [range_succ, reverse_append, reverse_singleton, singleton_append,
    findSome?_cons_of_isSome (by rw [h]; rfl), h]

theorem matchItems_more (c : UInt8) (s : Bytes) :
    matchItems false [⟨p, true⟩] (c :: s) =
      if p c then some (((c :: s).takeWhile p).length) else none := by
  simp only [matchItems, if_true]
  split_ifs with hc
  · rw [findSome?_range_reverse (a := (s.takeWhile p).length) (by simp), Option.map_some,
      takeWhile_cons_of_pos hc, length_cons, Nat.add_comm]
  · rfl

theorem matchItems_more_end (c : UInt8) (s : Bytes) :
    matchItems true [⟨p, true⟩] (c :: s) =
      if (c :: s).all p then some (c :: s).length else none := by
  simp only [matchItems, if_true, all_cons, Bool.and_eq_true]
  by_cases hc : p c
  · by_cases hs : s.all p
    · have htake : s.takeWhile p = s := takeWhile_eq_self_iff.mpr (all_eq_true.mp hs)
      rw [if_pos hc, if_pos ⟨hc, hs⟩, htake,
        findSome?_range_reverse (a := s.length) (by simp), Option.map_some, length_cons,
        Nat.add_comm]
    · rw [if_pos hc, if_neg fun h => hs h.2, Option.map_eq_none_iff, findSome?_eq_none_iff]
      intro k hk
      rw [mem_reverse, mem_range] at hk
      -- Less than the whole text is taken.
      have hshort : (s.takeWhile p).length < s.length := by
        refine lt_of_le_of_ne ( takeWhile_prefix p).length_le fun hlen => hs ?_
        rw [all_eq_true, ← takeWhile_eq_self_iff]
        exact ( takeWhile_prefix p).eq_of_length hlen
      have hne : s.drop k ≠ [] := by
        rw [Ne, drop_eq_nil_iff]
        omega
      simp [hne]
  · rw [if_neg hc, if_neg fun h => hc h.1]

theorem matchItems_run :
    matchItems false (runItems pat p) s =
      if matchHere (pat ++ [p]) s then some (pat.length + ((s.drop pat.length).takeWhile p).length)
      else none := by
  induction pat generalizing s with
  | nil =>
    cases s with
    | nil => rfl
    | cons c s =>
      rw [runItems, ones, map_nil, nil_append, matchItems_more]
      simp [matchHere]
  | cons q pat ih =>
    cases s with
    | nil => rfl
    | cons c s =>
      simp only [runItems, ones, map_cons, cons_append, matchItems, matchHere] at ih ⊢
      rw [ih, length_cons, drop_succ_cons]
      by_cases hq : q c <;> by_cases hm : matchHere (pat ++ [p]) s <;>
        simp [hq, hm, Nat.add_comm _ 1, Nat.add_assoc]

theorem matchItems_run_end :
    matchItems true (runItems pat p) s =
      if matchHere (pat ++ [p]) s && (s.drop pat.length).all p then some s.length else none := by
  induction pat generalizing s with
  | nil =>
    cases s with
    | nil => rfl
    | cons c s =>
      rw [runItems, ones, map_nil, nil_append, matchItems_more_end]
      by_cases hc : p c <;> simp [matchHere, hc]
  | cons q pat ih =>
    cases s with
    | nil => rfl
    | cons c s =>
      simp only [runItems, ones, map_cons, cons_append, matchItems, matchHere] at ih ⊢
      rw [ih, length_cons, length_cons, drop_succ_cons]
      by_cases hq : q c <;> by_cases hm : matchHere (pat ++ [p]) s <;>
        by_cases ha : (s.drop pat.length).all p <;> simp [hq, hm, ha, Nat.add_comm]

theorem search_append {m : Bytes → Option ℕ} {a t : Bytes}
    (h : ∀ x y, a = x ++ y → y ≠ [] → m (y ++ t) = none) :
    search m (a ++ t) = (search m t).map fun r => (a.length + r.1, r.2) := by
  induction a with
  | nil => simp
  | cons c a ih =>
    have hhere := h [] (c :: a) rfl (cons_ne_nil _ _)
    rw [cons_append] at hhere
    rw [cons_append, search, hhere, ih fun x y heq hy => h (c :: x) y (by rw [heq]; rfl) hy]
    simp only [Option.map_map]
    congr 1
    funext r
    simp only [Function.comp, length_cons, Nat.add_comm 1, Nat.add_right_comm]

theorem search_eq_none {m : Bytes → Option ℕ} {s : Bytes} (h : ∀ x y, s = x ++ y → m y = none) :
    search m s = none := by
  have happ := search_append (m := m) (a := s) (t := []) fun x y heq _ => by
    rw [append_nil]
    exact h x y heq
  rw [append_nil, search, h s [] (append_nil s).symm] at happ
  exact happ

end Sysak.Lib
