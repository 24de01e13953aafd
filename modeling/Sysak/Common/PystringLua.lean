/-
# Splitting and stripping as the code does it
-/

import Mathlib.Data.List.GetD
import Sysak.Common.Pystring
import Sysak.Lib.LuaPattern

namespace Sysak.Pystring
namespace Lua

open Lib List

def magic : Bytes := bytes "().%+-*?[]^$"

def checkDelimiter (ch : UInt8) : Bytes :=
  if ch = 32 then bytes "%s"
  else if ch ∈ magic then [37, ch]
  else [ch]

def setupDelimiter (delimiter : Bytes) : Bytes := delimiter.flatMap checkDelimiter

def setupPatten : Option Bytes → Bytes
  | none => bytes "[%s\t\n]"
  | some s => setupDelimiter s

def gsubSpaces : Bytes → Bytes
  | [] => []
  | [c] => if isSpace c then [32] else [c]
  | c :: d :: s =>
    if isSpace c then if isSpace d then gsubSpaces (d :: s) else 32 :: gsubSpaces (d :: s)
    else c :: gsubSpaces (d :: s)

def splitLoop (s pat : Bytes) (n : Option ℕ) : ℕ → ℕ → ℕ → Option (List Bytes)
  | 0, _, _ => none
  | fuel + 1, nums, beg =>
    (luaFind s pat beg).bind fun
      | some (iBeg, iEnd) =>
        let piece := luaSub s beg (iBeg - 1)
        if n.any (· ≤ nums + 1) then some [piece, luaSub s (iEnd + 1 : ℕ) s.length]
        else (splitLoop s pat n fuel (nums + 1) (iEnd + 1)).map (piece :: ·)
      | none => some [luaSub s beg s.length]

def split (s : Bytes) (delimiter : Option Bytes) (n : Option ℕ) : Option (List Bytes) :=
  let s := if delimiter = none ∨ delimiter = some [] then gsubSpaces s else s
  splitLoop s (setupDelimiter (delimiter.getD [32])) n (s.length + n.getD 0 + 1) 0 1

def swap (t : List Bytes) (i j : ℕ) : List Bytes := (t.set i (t.getD j [])).set j (t.getD i [])

def reverseTable (t : List Bytes) : List Bytes :=
  (range (t.length / 2)).foldl (fun u i => swap u i (t.length - 1 - i)) t

def rsplitLoop (s pat : Bytes) (n : Option ℕ) : ℕ → ℕ → ℕ → Option (List Bytes)
  | 0, _, _ => none
  | fuel + 1, nums, beg =>
    let len : ℤ := s.length + 1
    (luaFind s.reverse pat beg).bind fun
      | some (iBeg, iEnd) =>
        let piece := luaSub s (len - (iBeg - 1)) (len - beg)
        if n.any (· ≤ nums + 1) then some [piece, luaSub s 1 (len - (iEnd + 1))]
        else (rsplitLoop s pat n fuel (nums + 1) (iEnd + 1)).map (piece :: ·)
      | none => some [luaSub s 1 (len - beg)]

def rsplit (s : Bytes) (delimiter : Option Bytes) (n : Option ℕ) : Option (List Bytes) :=
  (rsplitLoop s (setupDelimiter (delimiter.getD [32]).reverse) n (s.length + n.getD 0 + 1) 0 1).map
    reverseTable

def lstrip (s : Bytes) (chars : Option Bytes) : Option Bytes :=
  (luaFind s (94 :: (setupPatten chars ++ [43])) 1).map fun
    | some (_, ends) => luaSub s (ends + 1) (-1)
    | none => s

def rstrip (s : Bytes) (chars : Option Bytes) : Option Bytes :=
  (luaFind s (setupPatten chars ++ [43, 36]) 1).map fun
    | some (last, _) => luaSub s 1 (last - 1)
    | none => s

def strip (s : Bytes) (chars : Option Bytes) : Option Bytes :=
  (lstrip s chars).bind fun res => rstrip res chars

variable {d : Bytes}

section Compile

theorem ne_of_not_mem_magic {c m : UInt8} (hc : c ∉ magic) (hm : m ∈ magic) : c ≠ m := by
  rintro rfl
  exact hc hm

theorem mem_magic_of_repetition {m : UInt8} (hm : m ∈ bytes "*+-?") : m ∈ magic ∧ m ≠ 37 := by
  have hall : (bytes "*+-?").all (fun m => magic.contains m && m != 37) = true := rfl
  obtain ⟨hmagic, h37⟩ := Bool.and_eq_true_iff.mp (all_eq_true.mp hall m hm)
  exact ⟨contains_iff_mem.mp hmagic, bne_iff_ne.mp h37⟩

variable {c : UInt8}

theorem percentClass_of_mem_magic (hc : c ∈ magic) : percentClass c = some (· == c) := by
  have hall : magic.all (fun c => c != 115 && c != 100 && !(isAlnum c || c == 0)) = true := rfl
  obtain ⟨h, hother⟩ := Bool.and_eq_true_iff.mp (all_eq_true.mp hall c hc)
  obtain ⟨hs, hd⟩ := Bool.and_eq_true_iff.mp h
  rw [percentClass, if_neg (bne_iff_ne.mp hs), if_neg (bne_iff_ne.mp hd),
    if_neg (by simpa using hother)]

theorem firstClass_checkDelimiter (c : UInt8) (t : Bytes) :
    firstClass (checkDelimiter c ++ t) = some (Pystring.checkDelimiter c, t) := by
  unfold checkDelimiter Pystring.checkDelimiter
  split_ifs with hblank hmagic
  · rfl
  · have hclass := percentClass_of_mem_magic hmagic
    simp [firstClass, hclass]
  · have hne : ∀ m ∈ magic, c ≠ m := fun m => ne_of_not_mem_magic hmagic
    have h40 := hne 40 (by decide)
    have h41 := hne 41 (by decide)
    rw [singleton_append, firstClass]
    · simp only [h40, h41, or_self, if_false]
    · exact hne 37 (by decide)
    · exact hne 91 (by decide)
    · exact hne 46 (by decide)

theorem patternEnd_checkDelimiter (hc : c ≠ 0) (t : Bytes) :
    patternEnd (checkDelimiter c ++ t) = none := by
  unfold checkDelimiter
  split_ifs with hblank hmagic
  · rfl
  · rfl
  · have h36 : c ≠ 36 := ne_of_not_mem_magic hmagic (by decide)
    simp [patternEnd, hc, h36]

theorem head?_checkDelimiter {c m : UInt8} (hm : m ∈ magic) (h37 : m ≠ 37) (t : Bytes) :
    (checkDelimiter c ++ t).head? ≠ some m := by
  unfold checkDelimiter
  split_ifs with hblank hmagic
  · exact fun h => h37 (Option.some.inj h).symm
  · exact fun h => h37 (Option.some.inj h).symm
  · exact fun h => ne_of_not_mem_magic hmagic hm (Option.some.inj h)

variable {t : Bytes}

theorem compileItems_checkDelimiter (hc : c ≠ 0) (fuel : ℕ)
    (ht : ∀ m ∈ bytes "*+-?", t.head? ≠ some m) :
    compileItems (fuel + 1) (checkDelimiter c ++ t) = (compileItems fuel t).map fun r =>
      (⟨Pystring.checkDelimiter c, false⟩ :: r.1, r.2) := by
  have h43 := ht 43 (by decide)
  have h42 := ht 42 (by decide)
  have h45 := ht 45 (by decide)
  have h63 := ht 63 (by decide)
  rw [compileItems, patternEnd_checkDelimiter hc, firstClass_checkDelimiter]
  simp only [Option.bind_some, if_neg h43, h42, h45, h63, or_self, if_false]

theorem compileItems_checkDelimiter_plus (hc : c ≠ 0) (fuel : ℕ) (t : Bytes) :
    compileItems (fuel + 1) (checkDelimiter c ++ 43 :: t) = (compileItems fuel t).map fun r =>
      (⟨Pystring.checkDelimiter c, true⟩ :: r.1, r.2) := by
  rw [compileItems, patternEnd_checkDelimiter hc, firstClass_checkDelimiter]
  simp only [Option.bind_some, head?_cons, if_true, tail_cons]

theorem setupDelimiter_cons (c : UInt8) (d : Bytes) :
    setupDelimiter (c :: d) = checkDelimiter c ++ setupDelimiter d := flatMap_cons ..

theorem head?_setupDelimiter {m : UInt8} (hm : m ∈ magic) (h37 : m ≠ 37) (ht : t.head? ≠ some m) :
    (setupDelimiter d ++ t).head? ≠ some m := by
  cases d with
  | nil => exact ht
  | cons c d =>
    rw [setupDelimiter_cons, append_assoc]
    exact head?_checkDelimiter hm h37 _

theorem compileItems_setupDelimiter (hd : 0 ∉ d) (fuel : ℕ)
    (ht : ∀ m ∈ bytes "*+-?", t.head? ≠ some m) :
    compileItems (d.length + fuel) (setupDelimiter d ++ t) = (compileItems fuel t).map fun r =>
      (ones (Pystring.setupDelimiter d) ++ r.1, r.2) := by
  induction d with
  | nil =>
    rw [length_nil, Nat.zero_add]
    exact Option.map_id'.symm
  | cons c d ih =>
    obtain ⟨hc, hd⟩ := not_or.mp (mt mem_cons.mpr hd)
    have hnext : ∀ m ∈ bytes "*+-?", (setupDelimiter d ++ t).head? ≠ some m := by
      intro m hm
      obtain ⟨hmagic, h37⟩ := mem_magic_of_repetition hm
      exact head?_setupDelimiter hmagic h37 (ht m hm)
    rw [show (c :: d).length + fuel = (d.length + fuel) + 1 by rw [length_cons]; omega,
      setupDelimiter_cons, append_assoc, compileItems_checkDelimiter (Ne.symm hc) _ hnext,
      ih hd, Option.map_map]
    rfl

theorem length_setupDelimiter (d : Bytes) : d.length ≤ (setupDelimiter d).length := by
  induction d with
  | nil => exact Nat.zero_le _
  | cons c d ih =>
    have hpos : 1 ≤ (checkDelimiter c).length := by
      unfold checkDelimiter
      split_ifs <;> exact Nat.succ_le_succ (Nat.zero_le _)
    rw [setupDelimiter_cons, length_append, length_cons]
    omega

theorem setupDelimiter_of_not_hasPattern (h : hasPattern (setupDelimiter d) = false) :
    setupDelimiter d = d ∧ Pystring.setupDelimiter d = literal d := by
  induction d with
  | nil => exact ⟨rfl, rfl⟩
  | cons c d ih =>
    rw [setupDelimiter_cons, hasPattern, any_append, Bool.or_eq_false_iff] at h
    obtain ⟨hc, hd⟩ := h
    obtain ⟨htext, hclass⟩ := ih hd
    have hplain : c ≠ 32 ∧ c ∉ magic := by
      unfold checkDelimiter at hc
      split_ifs at hc with hblank hmagic
      · exact absurd hc (by decide)
      · have hpercent : (bytes "^$*+?.([%-").contains 37 = true := rfl
        rw [any_cons, hpercent, Bool.true_or] at hc
        exact absurd hc (by decide)
      · exact ⟨hblank, hmagic⟩
    constructor
    · rw [setupDelimiter_cons, htext, checkDelimiter, if_neg hplain.1, if_neg hplain.2]
      rfl
    · unfold Pystring.setupDelimiter literal at hclass ⊢
      rw [map_cons, map_cons, hclass, Pystring.checkDelimiter, if_neg hplain.1]

theorem patternOf_setupDelimiter (hd : 0 ∉ d) :
    patternOf (setupDelimiter d) = some ⟨false, ones (Pystring.setupDelimiter d), false⟩ := by
  unfold patternOf
  split_ifs with hpat
  · have hanchor : (setupDelimiter d).head? ≠ some 94 := by
      have := head?_setupDelimiter (d := d) (m := 94) (t := []) (by decide) (by decide) (by decide)
      rwa [append_nil] at this
    obtain ⟨k, hk⟩ := Nat.exists_eq_add_of_le (length_setupDelimiter d)
    have hitems := compileItems_setupDelimiter hd (k + 1) (t := [])
      fun _ _ h => nomatch h
    rw [append_nil] at hitems
    rw [compile, if_neg hanchor, hk, Nat.add_assoc, hitems]
    simp [compileItems, patternEnd]
  · obtain ⟨htext, hclass⟩ := setupDelimiter_of_not_hasPattern (Bool.eq_false_iff.mpr hpat)
    rw [htext, hclass, ones, literal, map_map]
    rfl

theorem luaFind_setupDelimiter (hd : 0 ∉ d) (s : Bytes) (init : ℕ) :
    luaFind s (setupDelimiter d) init =
      some ((find (Pystring.setupDelimiter d) (s.drop (init - 1))).map fun r =>
        (init + r.1.length, init + r.1.length + d.length - 1)) := by
  have hlen : (Pystring.setupDelimiter d).length = d.length := length_map ..
  rw [luaFind, patternOf_setupDelimiter hd, Option.map_some]
  simp only [Bool.false_eq_true, if_false, search_ones, Option.map_map, hlen]
  rfl

end Compile

section Loops

variable {s d : Bytes} {n : Option ℕ}

theorem splitLoop_eq (hd : d ≠ []) (hnul : 0 ∉ d) {fuel : ℕ} :
    ∀ {nums beg : ℕ}, 0 < beg → beg ≤ s.length + 1 → s.length + 1 < beg + fuel →
      splitLoop s (setupDelimiter d) n fuel nums beg =
        some (Pystring.splitLoop (Pystring.setupDelimiter d) n fuel nums (s.drop (beg - 1))) := by
  induction fuel with
  | zero => exact fun _ hle hlt => absurd hlt (by omega)
  | succ fuel ih =>
    intro nums beg hbeg hle hlt
    have hpos := length_pos_iff.mpr hd
    have hrest : luaSub s beg s.length = s.drop (beg - 1) := by
      rw [luaSub_natCast s hbeg, take_length]
    rw [splitLoop, luaFind_setupDelimiter hnul, Option.bind_some, Pystring.splitLoop]
    cases hfind : find (Pystring.setupDelimiter d) (s.drop (beg - 1)) with
    | none => simp only [Option.map_none, hrest]
    | some r =>
      obtain ⟨a, b⟩ := r
      obtain ⟨m, hs, hm, -, -⟩ := find_spec hfind
      have hlen : m.length = d.length := hm.trans (length_map ..)
      have htotal := congrArg List.length hs
      simp only [length_drop, length_append] at htotal
      have hpiece : luaSub s beg ((beg + a.length : ℕ) - 1) = a := by
        rw [show ((beg + a.length : ℕ) : ℤ) - 1 = ((beg + a.length - 1 : ℕ) : ℤ) by omega,
          luaSub_natCast s hbeg, drop_take, hs, take_left' (by omega)]
      have hnext : beg + a.length + d.length - 1 + 1 = beg + a.length + d.length := by omega
      have hdrop : s.drop (beg + a.length + d.length - 1) = b := by
        rw [show beg + a.length + d.length - 1 = (beg - 1) + (a.length + m.length) by omega,
          ← drop_drop, hs, ← append_assoc, drop_left' (length_append ..)]
      have htail : luaSub s (beg + a.length + d.length : ℕ) s.length = b := by
        rw [luaSub_natCast s (by omega), take_length, hdrop]
      simp only [Option.map_some, hpiece, hnext, htail]
      split_ifs
      · rfl
      · rw [ih (by omega) (by omega) (by omega), hdrop]
        rfl

theorem split_eq (hd : d ≠ []) (hnul : 0 ∉ d) (s : Bytes) (n : Option ℕ) :
    split s (some d) n = some (Pystring.splitLoop (Pystring.setupDelimiter d) n
      (s.length + n.getD 0 + 1) 0 s) := by
  unfold split
  rw [if_neg (by simpa using hd)]
  exact splitLoop_eq hd hnul (by decide) (by omega) (by omega)

theorem luaSub_reverse (s : Bytes) {i j : ℕ} (hi : 0 < i) (hi' : i ≤ s.length + 1)
    (hj : j ≤ s.length) :
    luaSub s ((s.length : ℤ) + 1 - j) ((s.length : ℤ) + 1 - i) =
      (luaSub s.reverse i j).reverse := by
  rw [show (s.length : ℤ) + 1 - j = ((s.length + 1 - j : ℕ) : ℤ) by omega,
    show (s.length : ℤ) + 1 - i = ((s.length + 1 - i : ℕ) : ℤ) by omega,
    luaSub_natCast s (by omega), luaSub_natCast _ hi, reverse_drop, reverse_take,
    reverse_reverse, length_take, length_reverse, drop_take]
  congr 1
  · omega
  · congr 1
    omega

theorem rsplitLoop_eq (hd : d ≠ []) (hnul : 0 ∉ d) {fuel : ℕ} :
    ∀ {nums beg : ℕ}, 0 < beg → beg ≤ s.length + 1 →
      rsplitLoop s (setupDelimiter d) n fuel nums beg =
        (splitLoop s.reverse (setupDelimiter d) n fuel nums beg).map (List.map reverse) := by
  induction fuel with
  | zero => exact fun _ _ => rfl
  | succ fuel ih =>
    intro nums beg hbeg hle
    have hpos := length_pos_iff.mpr hd
    have hrest : ∀ beg : ℕ, 0 < beg → beg ≤ s.length + 1 →
        luaSub s 1 ((s.length : ℤ) + 1 - beg) = (luaSub s.reverse beg s.length).reverse :=
      fun beg hbeg hle => by
        rw [← luaSub_reverse s hbeg hle le_rfl, show (s.length : ℤ) + 1 - s.length = 1 by omega]
    rw [rsplitLoop, splitLoop, luaFind_setupDelimiter hnul, Option.bind_some, Option.bind_some]
    cases hfind : find (Pystring.setupDelimiter d) (s.reverse.drop (beg - 1)) with
    | none =>
      simp only [Option.map_none, hrest beg hbeg hle, length_reverse]
      rfl
    | some r =>
      obtain ⟨a, b⟩ := r
      have htotal := length_of_find hfind
      have hlen : (Pystring.setupDelimiter d).length = d.length := length_map ..
      rw [hlen, length_drop, length_reverse] at htotal
      have hnext : beg + a.length + d.length - 1 + 1 = beg + a.length + d.length := by omega
      have hpiece : luaSub s ((s.length : ℤ) + 1 - ((beg + a.length : ℕ) - 1))
          ((s.length : ℤ) + 1 - beg) =
            (luaSub s.reverse beg ((beg + a.length : ℕ) - 1)).reverse := by
        rw [show ((beg + a.length : ℕ) : ℤ) - 1 = ((beg + a.length - 1 : ℕ) : ℤ) by omega]
        exact luaSub_reverse s hbeg hle (by omega)
      have htail : luaSub s 1 ((s.length : ℤ) + 1 - ((beg + a.length + d.length - 1 : ℕ) + 1)) =
          (luaSub s.reverse (beg + a.length + d.length : ℕ) s.length).reverse := by
        rw [← hrest _ (by omega) (by omega),
          show ((beg + a.length + d.length - 1 : ℕ) : ℤ) + 1 =
            ((beg + a.length + d.length : ℕ) : ℤ) by omega]
      simp only [Option.map_some, hpiece, htail, hnext, length_reverse]
      split_ifs
      · rfl
      · rw [ih (by omega) (by omega), Option.map_map, Option.map_map]
        rfl

end Loops

section ReverseTable

variable {t u : List Bytes}

theorem length_swap (t : List Bytes) (i j : ℕ) : (swap t i j).length = t.length := by
  rw [swap, length_set, length_set]

theorem getD_swap {i j : ℕ} (hi : i < t.length) (hj : j < t.length) (k : ℕ) :
    (swap t i j).getD k [] =
      if k = j then t.getD i [] else if k = i then t.getD j [] else t.getD k [] := by
  simp only [swap, getD_eq_getElem?_getD, getElem?_set, length_set]
  by_cases hkj : k = j
  · subst hkj
    simp [hj]
  · by_cases hki : k = i
    · subst hki
      simp [hi, hkj, Ne.symm hkj]
    · simp [hkj, hki, Ne.symm hkj, Ne.symm hki]

theorem foldl_swap (t : List Bytes) {k : ℕ} (hk : k ≤ t.length / 2) :
    ((range k).foldl (fun u i => swap u i (t.length - 1 - i)) t).length = t.length ∧
      ∀ j < t.length, ((range k).foldl (fun u i => swap u i (t.length - 1 - i)) t).getD j [] =
        if j < k ∨ t.length ≤ j + k then t.getD (t.length - 1 - j) [] else t.getD j [] := by
  induction k with
  | zero => exact ⟨rfl, fun j hj => by rw [if_neg (by omega)]; rfl⟩
  | succ k ih =>
    obtain ⟨hlen, hget⟩ := ih (by omega)
    rw [range_succ, foldl_append, foldl_cons, foldl_nil]
    refine ⟨by rw [length_swap, hlen], fun j hj => ?_⟩
    have hleft := hget k (by omega)
    have hright := hget (t.length - 1 - k) (by omega)
    rw [if_neg (by omega)] at hleft hright
    rw [getD_swap (by omega) (by omega), hleft, hright, hget j hj]
    by_cases hjk : j = t.length - 1 - k
    · rw [if_pos hjk, if_pos (by omega), show t.length - 1 - j = k by omega]
    · by_cases hjk' : j = k
      · rw [if_neg hjk, if_pos hjk', if_pos (by omega), hjk']
      · rw [if_neg hjk, if_neg hjk']
        exact if_congr (by omega) rfl rfl

theorem reverseTable_eq (t : List Bytes) : reverseTable t = t.reverse := by
  obtain ⟨hlen, hget⟩ := foldl_swap t (Nat.le_refl _)
  refine ext_getElem (by rw [reverseTable, hlen, length_reverse]) fun j hj hj' => ?_
  rw [length_reverse] at hj'
  have hj₂ : t.length - 1 - j < t.length := by omega
  have := hget j hj'
  rw [getElem_reverse, ← getD_eq_getElem _ [] hj, ← getD_eq_getElem _ [] hj₂,
    reverseTable, this]
  by_cases hout : j < t.length / 2 ∨ t.length ≤ j + t.length / 2
  · rw [if_pos hout]
  · -- The element in the middle stays.
    rw [if_neg hout, show t.length - 1 - j = j by omega]

end ReverseTable

theorem rsplit_eq (hd : d ≠ []) (hnul : 0 ∉ d) (s : Bytes) (n : Option ℕ) :
    rsplit s (some d) n =
      (split s.reverse (some d.reverse) n).map fun qs => (qs.map reverse).reverse := by
  have hd' : d.reverse ≠ [] := by simpa using hd
  have hnul' : 0 ∉ d.reverse := by simpa using hnul
  unfold rsplit split
  rw [if_neg (by simpa using hd), Option.getD_some, Option.getD_some,
    rsplitLoop_eq hd' hnul' (by decide) (by omega), Option.map_map]
  dsimp only
  rw [length_reverse]
  congr 1
  funext qs
  exact reverseTable_eq _

end Lua
end Sysak.Pystring
