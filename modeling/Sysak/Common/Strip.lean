/-
# Stripping
-/

import Mathlib.Data.List.DropRight
import Sysak.Common.SplitJoin

namespace Sysak.Pystring

open Lib List Option

def setStrip (p : UInt8 → Bool) (s : Bytes) : Bytes := (s.dropWhile p).rdropWhile p

namespace Lua

structure Strips (chars : Option Bytes) (pat : Pattern) (p : UInt8 → Bool) : Prop where
  left : patternOf (94 :: (setupPatten chars ++ [43])) = some ⟨true, runItems pat p, false⟩
  right : patternOf (setupPatten chars ++ [43, 36]) = some ⟨false, runItems pat p, true⟩

section Patterns

variable {d : Bytes} {x : UInt8}

theorem compileItems_run (hd : 0 ∉ d) (hx : x ≠ 0) (fuel : ℕ) (t : Bytes) :
    compileItems (d.length + (fuel + 1)) (setupDelimiter (d ++ [x]) ++ 43 :: t) =
      (compileItems fuel t).map fun r =>
        (runItems (Pystring.setupDelimiter d) (Pystring.checkDelimiter x) ++ r.1, r.2) := by
  have hhead : ∀ m ∈ bytes "*+-?", (checkDelimiter x ++ 43 :: t).head? ≠ some m := by
    intro m hm
    obtain ⟨hmagic, h37⟩ := mem_magic_of_repetition hm
    exact head?_checkDelimiter hmagic h37 _
  have hsetup : setupDelimiter (d ++ [x]) = setupDelimiter d ++ checkDelimiter x := by
    unfold setupDelimiter
    rw [flatMap_append, flatMap_singleton]
  rw [hsetup, append_assoc, compileItems_setupDelimiter hd _ hhead,
    compileItems_checkDelimiter_plus hx, Option.map_map]
  congr 1
  funext r
  simp only [Function.comp, runItems, append_assoc, singleton_append]

theorem hasPattern_of_mem {s : Bytes} (h : 43 ∈ s) : hasPattern s = true :=
  any_eq_true.mpr ⟨43, h, by decide⟩

theorem strips_some (hd : 0 ∉ d) (hx : x ≠ 0) :
    Strips (some (d ++ [x])) (Pystring.setupDelimiter d) (Pystring.checkDelimiter x) := by
  have hlen := length_setupDelimiter (d ++ [x])
  rw [length_append, length_singleton] at hlen
  obtain ⟨k, hk⟩ := Nat.exists_eq_add_of_le hlen
  constructor
  · have hfuel : (94 :: (setupDelimiter (d ++ [x]) ++ [43])).length + 1 =
        d.length + ((k + 2 + 1) + 1) := by
      rw [length_cons, length_append, length_singleton, hk]
      omega
    rw [patternOf, if_pos (hasPattern_of_mem (by simp)), compile, if_pos (head?_cons ..),
      setupPatten, hfuel,
      tail_cons, compileItems_run hd hx]
    simp [compileItems, patternEnd]
  · have hfuel : (setupDelimiter (d ++ [x]) ++ [43, 36]).length + 1 =
        d.length + ((k + 2 + 1) + 1) := by
      rw [length_append, length_cons, length_singleton, hk]
      omega
    have hanchor : (setupDelimiter (d ++ [x]) ++ [43, 36]).head? ≠ some 94 :=
      head?_setupDelimiter (by decide) (by decide) (by decide)
    rw [patternOf, if_pos (hasPattern_of_mem (by simp [setupPatten])), compile, setupPatten,
      if_neg hanchor, hfuel, compileItems_run hd hx]
    simp [compileItems, patternEnd]

theorem strips_none : Strips none [] isSpace := by
  have hset : (fun c : UInt8 => [isSpace, (· == 9), (· == 10)].any fun p => p c) = isSpace := by
    funext c
    by_cases h9 : c = 9
    · subst h9
      rfl
    · by_cases h10 : c = 10
      · subst h10
        rfl
      · simp [h9, h10]
  have hitems : runItems [] isSpace =
      [⟨fun c : UInt8 => [isSpace, (· == 9), (· == 10)].any fun p => p c, true⟩] := by
    rw [hset]
    rfl
  exact ⟨by rw [hitems]; rfl, by rw [hitems]; rfl⟩

end Patterns

section Strips

variable {chars : Option Bytes} {pat : Pattern} {p : UInt8 → Bool}

theorem drop_length_takeWhile (p : UInt8 → Bool) (t : Bytes) :
    t.drop (t.takeWhile p).length = t.dropWhile p := by
  have h := takeWhile_append_dropWhile (p := p) (l := t)
  exact (congrArg (List.drop (t.takeWhile p).length) h).symm.trans (drop_left ..)

theorem Strips.lstrip_eq (h : Strips chars pat p) (s : Bytes) :
    lstrip s chars =
      some (if matchHere (pat ++ [p]) s then (s.drop pat.length).dropWhile p else s) := by
  rw [lstrip, luaFind, h.left]
  simp only [map_some, if_true, Nat.sub_self, drop_zero, matchItems_run]
  split_ifs with hm
  · have hend : ((1 + 0 + (pat.length + ((s.drop pat.length).takeWhile p).length) - 1 : ℕ) : ℤ) =
        ((pat.length + ((s.drop pat.length).takeWhile p).length : ℕ) : ℤ) := by omega
    simp only [map_some, hend, luaSub_neg_one]
    rw [← drop_drop, drop_length_takeWhile]
  · rfl

def upTo (s : Bytes) : Option (ℕ × ℕ) → Bytes
  | some r => s.take r.1
  | none => s

theorem Strips.rstrip_eq (h : Strips chars pat p) (s : Bytes) :
    rstrip s chars = some (upTo s (search (matchItems true (runItems pat p)) s)) := by
  rw [rstrip, luaFind, h.right]
  simp only [map_some, Bool.false_eq_true, if_false, Nat.sub_self, drop_zero]
  cases search (matchItems true (runItems pat p)) s with
  | none => rfl
  | some r =>
    have hlast : ((1 + r.1 : ℕ) : ℤ) - 1 = (r.1 : ℤ) := by omega
    have hsub := luaSub_natCast s Nat.one_pos r.1
    simp only [map_some, hlast]
    rw [show (1 : ℤ) = ((1 : ℕ) : ℤ) from rfl, hsub]
    rfl

theorem Strips.strip_of_not_occurs (h : Strips chars pat p) {s : Bytes}
    (hs : ¬ Occurs (pat ++ [p]) s) : strip s chars = some s := by
  have hno : ∀ x y, s = x ++ y → matchHere (pat ++ [p]) y = false := fun x y heq =>
    Bool.eq_false_iff.mpr fun hy => hs ⟨x, y, heq, hy⟩
  have hsearch : search (matchItems true (runItems pat p)) s = none := by
    refine search_eq_none fun x y heq => ?_
    rw [matchItems_run_end, hno x y heq]
    rfl
  rw [strip, h.lstrip_eq, hno [] s rfl, bind_some]
  simp only [Bool.false_eq_true, if_false]
  rw [h.rstrip_eq, hsearch]
  rfl

theorem rdropWhile_cons (c : UInt8) {s : Bytes} (h : ¬ (c :: s).all p = true) :
    (c :: s).rdropWhile p = c :: s.rdropWhile p := by
  induction s using reverseRecOn with
  | nil =>
    rw [rdropWhile_singleton, if_neg (by simpa using h), rdropWhile_nil]
  | append_singleton s y ih =>
    rw [← cons_append]
    by_cases hy : p y
    · rw [rdropWhile_concat_pos _ _ _ hy, rdropWhile_concat_pos _ _ _ hy]
      refine ih fun hall => h ?_
      rw [← cons_append, all_append, hall]
      simpa using hy
    · rw [rdropWhile_concat_neg _ _ _ hy, rdropWhile_concat_neg _ _ _ hy]
      rfl

theorem upTo_search_run (p : UInt8 → Bool) (s : Bytes) :
    upTo s (search (matchItems true (runItems [] p)) s) = s.rdropWhile p := by
  induction s with
  | nil => rfl
  | cons c s ih =>
    have hmatch : matchItems true (runItems [] p) (c :: s) =
        if (c :: s).all p then some (c :: s).length else none := matchItems_more_end p c s
    rw [search, hmatch]
    by_cases hall : (c :: s).all p
    · rw [if_pos hall, rdropWhile_eq_nil_iff.mpr (all_eq_true.mp hall)]
      rfl
    · rw [if_neg hall, rdropWhile_cons c hall, ← ih]
      cases search (matchItems true (runItems [] p)) s with
      | none => rfl
      | some r =>
        show (c :: s).take (1 + r.1) = c :: s.take r.1
        rw [Nat.add_comm, take_succ_cons]

theorem Strips.strip_eq_setStrip (h : Strips chars [] p) (s : Bytes) :
    strip s chars = some (setStrip p s) := by
  have hleft : (if matchHere ([] ++ [p]) s then (s.drop ([] : Pattern).length).dropWhile p else s) =
      s.dropWhile p := by
    cases s with
    | nil => rfl
    | cons c s =>
      by_cases hc : p c <;> simp [matchHere, hc]
  rw [strip, h.lstrip_eq, hleft, bind_some, h.rstrip_eq, upTo_search_run]
  rfl

end Strips

section Text

variable {d m : Bytes} {x : UInt8}

theorem strips_literal (hnul : 0 ∉ d ++ [x]) (hblank : 32 ∉ d ++ [x]) :
    Strips (some (d ++ [x])) (literal d) (· == x) := by
  simp only [mem_append, mem_singleton, not_or] at hnul hblank
  have h := strips_some hnul.1 (Ne.symm hnul.2)
  rwa [setupDelimiter_eq_literal hblank.1, Pystring.checkDelimiter,
    if_neg (Ne.symm hblank.2)] at h

theorem literal_append (d : Bytes) (x : UInt8) : literal d ++ [(· == x)] = literal (d ++ [x]) := by
  unfold literal
  rw [map_append, map_singleton]

theorem all_eq_of_run {v : Bytes}
    (h : matchItems true (runItems (literal d) (· == x)) (v ++ (d ++ [x])) ≠ none) :
    ∀ c ∈ v, c = x := by
  rw [matchItems_run_end, literal_append] at h
  obtain ⟨hmatch, hall⟩ := Bool.and_eq_true_iff.mp (of_not_not fun hnot => h (if_neg hnot))
  obtain ⟨r, hr⟩ := matchHere_literal_iff.mp hmatch
  have hlen : (literal d).length = d.length := length_map ..
  rw [← hr, hlen, append_assoc, drop_left] at hall
  -- On both sides the bytes other than `x` are counted.
  have hcount := congrArg (countP (· != x)) hr
  have hnone : ∀ l : Bytes, l.all (· == x) = true → l.countP (· != x) = 0 := fun l hl =>
    countP_eq_zero.mpr fun c hc => by simpa using all_eq_true.mp hl c hc
  have hleft : (d ++ [x] ++ r).countP (· != x) = d.countP (· != x) := by
    rw [append_assoc, countP_append, hnone _ hall, Nat.add_zero]
  have hright : (v ++ (d ++ [x])).countP (· != x) = v.countP (· != x) + d.countP (· != x) := by
    rw [countP_append, countP_append, hnone [x] (by simp), Nat.add_zero]
  rw [hleft, hright] at hcount
  have hzero : v.countP (· != x) = 0 := by omega
  intro c hc
  simpa using countP_eq_zero.mp hzero c hc

theorem strip_between (hnul : 0 ∉ d ++ [x]) (hblank : 32 ∉ d ++ [x]) (hm : m ≠ [])
    (hhead : m.head? ≠ some x) (hlast : m.getLast? ≠ some x) :
    strip (d ++ [x] ++ (m ++ (d ++ [x]))) (some (d ++ [x])) = some m := by
  have h := strips_literal hnul hblank
  have hlen : (literal d).length = d.length := length_map ..
  have hleft : lstrip (d ++ [x] ++ (m ++ (d ++ [x]))) (some (d ++ [x])) =
      some (m ++ (d ++ [x])) := by
    rw [h.lstrip_eq, literal_append, matchHere_literal, if_pos rfl, hlen, append_assoc,
      drop_left, singleton_append, dropWhile_cons_of_pos (by simp)]
    obtain ⟨c, u, rfl⟩ := exists_cons_of_ne_nil hm
    rw [cons_append, dropWhile_cons_of_neg (by simpa using hhead)]
  have hsearch : search (matchItems true (runItems (literal d) (· == x))) (m ++ (d ++ [x])) =
      some (m.length, (d ++ [x]).length) := by
    rw [search_append]
    · have hmatch : matchItems true (runItems (literal d) (· == x)) (d ++ [x]) =
          some (d ++ [x]).length := by
        have hself := matchHere_literal (d ++ [x]) []
        rw [append_nil] at hself
        rw [matchItems_run_end, literal_append, hself, hlen, drop_left]
        simp
      obtain ⟨c, u, hcu⟩ : ∃ c u, d ++ [x] = c :: u :=
        exists_cons_of_ne_nil (concat_ne_nil x d)
      rw [hcu] at hmatch ⊢
      rw [search, hmatch]
      rfl
    · intro u v heq hv
      by_contra hrun
      have hall := all_eq_of_run hrun
      refine hlast ?_
      rw [heq, getLast?_append_of_ne_nil _ hv, getLast?_eq_getLast_of_ne_nil hv,
        hall _ (getLast_mem hv)]
  rw [strip, hleft, bind_some, h.rstrip_eq, hsearch]
  show some ((m ++ (d ++ [x])).take m.length) = some m
  rw [take_left]

end Text

end Lua

theorem setStrip_setStrip (p : UInt8 → Bool) (s : Bytes) :
    setStrip p (setStrip p s) = setStrip p s := by
  have hdrop : (setStrip p s).dropWhile p = setStrip p s := by
    unfold setStrip
    cases hu : (s.dropWhile p).rdropWhile p with
    | nil => rfl
    | cons c u =>
      -- The first byte is that of the text without the beginning.
      obtain ⟨v, hv⟩ := rdropWhile_prefix p (l := s.dropWhile p)
      rw [hu] at hv
      have hhead := head?_dropWhile_not p s
      rw [← hv] at hhead
      exact dropWhile_cons_of_neg (by simpa using hhead)
  rw [setStrip, hdrop]
  exact rdropWhile_idempotent ..

def stripClass : Option UInt8 → UInt8 → Bool
  | none => isSpace
  | some c => checkDelimiter c

theorem Lua.strip_one {c : Option UInt8} (hc : c ≠ some 0) (s : Bytes) :
    Lua.strip s (c.map fun c => [c]) = some (setStrip (stripClass c) s) := by
  cases c with
  | none => exact Lua.strips_none.strip_eq_setStrip s
  | some c =>
    have hstrips := Lua.strips_some (d := []) (x := c) not_mem_nil fun h => hc (by rw [h])
    exact hstrips.strip_eq_setStrip s

end Sysak.Pystring
