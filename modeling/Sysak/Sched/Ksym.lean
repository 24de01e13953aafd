/-
# Symbols of a stack trace
-/

import Sysak.Lib.BinarySearch
import Sysak.Lib.LuaString
import Mathlib.Data.List.Permutation

namespace Sysak.Sched

open Lib List

structure Ksym where
  addr : ℤ
  name : Bytes
  deriving DecidableEq

def maxSyms : ℕ := 300000

def toInt (x : ℤ) : ℤ := x.bmod 4294967296

def ksymCmp (p1 p2 : Ksym) : ℤ := toInt (p1.addr - p2.addr)

def Consistent {α : Type*} (cmp : α → α → ℤ) (l : List α) : Prop :=
  (∀ a ∈ l, ∀ b ∈ l, cmp a b < 0 ↔ 0 < cmp b a) ∧
    ∀ a ∈ l, ∀ b ∈ l, ∀ c ∈ l, cmp a b ≤ 0 → cmp b c ≤ 0 → cmp a c ≤ 0

structure Qsort (α : Type*) where
  sort : (α → α → ℤ) → List α → List α
  perm : ∀ cmp l, (sort cmp l).Perm l
  sorted : ∀ {cmp l}, Consistent cmp l → (sort cmp l).Pairwise fun a b => cmp a b ≤ 0

def mergeQsort (α : Type*) : Qsort α where
  sort cmp l := (l.attach.mergeSort fun a b => cmp a b ≤ 0).map Subtype.val
  perm cmp l := by
    have h := (mergeSort_perm l.attach fun a b => cmp a b ≤ 0).map Subtype.val
    rwa [attach_map_subtype_val] at h
  sorted {cmp l} h := by
    refine pairwise_map.mpr ((pairwise_mergeSort (fun a b c hab hbc => ?_) (fun a b => ?_)
      l.attach).imp fun h => of_decide_eq_true h)
    · simp only [decide_eq_true_eq] at hab hbc ⊢
      exact h.2 a a.2 b b.2 c c.2 hab hbc
    · have := h.1 b b.2 a a.2
      simp only [Bool.or_eq_true, decide_eq_true_eq]
      omega

def symbols (lines : List Ksym) : List Ksym := lines.filter fun s => s.addr ≠ 0

def loadKallsyms (q : Qsort Ksym) (lines : List Ksym) : Option (List Ksym) :=
  if (symbols lines).length ≤ maxSyms then some (q.sort ksymCmp (symbols lines)) else none

def ksymSearch (key : ℤ) (syms : List Ksym) : Option (Option ℕ) :=
  if syms.length = 0 then some none
  else
    (bsearchLoop (syms.map fun s => -toInt (key - s.addr)) 0 syms.length 0 syms.length).bind fun
      | .inl mid => some (some mid)
      | .inr (start, _) =>
        if 1 ≤ start then
          syms[start - 1]?.bind fun l =>
            if l.addr < key then
              syms[start]?.map fun r => some (if key < r.addr then start - 1 else 0)
            else some (some 0)
        else some (some 0)

def Finds (syms : List Ksym) (key : ℤ) : Prop :=
  ∃ i s, ksymSearch key syms = some (some i) ∧ syms[i]? = some s ∧ s.addr ≤ key ∧
    ∀ t ∈ syms, t.addr ≤ key → t.addr ≤ s.addr

def IsInt (x : ℤ) : Prop := -2147483648 ≤ x ∧ x < 2147483648

def Near (syms : List Ksym) (key : ℤ) : Prop :=
  ∀ s ∈ syms, IsInt (key - s.addr) ∧ ∀ t ∈ syms, IsInt (s.addr - t.addr)

theorem toInt_eq {x : ℤ} (h : IsInt x) : toInt x = x := by
  obtain ⟨hlo, hhi⟩ := h
  exact Int.bmod_eq_of_le (by omega) (by omega)

section Tables

variable {syms : List Ksym} {key : ℤ}

theorem consistent_of_near (h : Near syms key) : Consistent ksymCmp syms := by
  have hcmp : ∀ a ∈ syms, ∀ b ∈ syms, ksymCmp a b = a.addr - b.addr := fun a ha b hb =>
    toInt_eq ((h a ha).2 b hb)
  refine ⟨fun a ha b hb => ?_, fun a ha b hb c hc hab hbc => ?_⟩
  · rw [hcmp a ha b hb, hcmp b hb a ha]
    omega
  · rw [hcmp a ha b hb] at hab
    rw [hcmp b hb c hc] at hbc
    rw [hcmp a ha c hc]
    omega

theorem Near.perm {l : List Ksym} (h : Near syms key) (hp : l.Perm syms) : Near l key :=
  fun s hs => ⟨(h s (hp.subset hs)).1, fun t ht => (h s (hp.subset hs)).2 t (hp.subset ht)⟩

theorem map_distance (h : Near syms key) :
    (syms.map fun s => -toInt (key - s.addr)) = syms.map fun s => s.addr - key := by
  refine map_congr_left fun s hs => ?_
  rw [toInt_eq (h s hs).1]
  omega

theorem ksymSearch_cases (hne : syms ≠ []) (hsort : syms.Pairwise fun a b => a.addr ≤ b.addr)
    (hnear : Near syms key) :
    Finds syms key ∧ (∃ s ∈ syms, key ≤ s.addr) ∨ (∀ s ∈ syms, key < s.addr) ∨
      ksymSearch key syms = none ∧ ∀ s ∈ syms, s.addr < key := by
  have hpos := length_pos_iff.mpr hne
  have hsorted : syms.Pairwise fun a b => a.addr - key ≤ b.addr - key :=
    hsort.imp fun h => by omega
  have hloop := bsearchLoop_spec (pairwise_map.mpr hsorted) (window_all _ 0)
    (n := syms.length) (by simp)
  unfold Finds ksymSearch
  rw [if_neg hpos.ne', map_distance hnear]
  rw [length_map] at hloop
  rcases hloop with ⟨i, hrun, hi⟩ | ⟨m, hrun, hm⟩
  · rw [getElem?_map] at hi
    obtain ⟨s, hs, hzero⟩ := Option.map_eq_some_iff.mp hi
    have hkey : s.addr = key := by omega
    exact .inl ⟨⟨i, s, by rw [hrun]; rfl, hs, hkey.le, fun t _ ht => ht.trans hkey.ge⟩,
      s, mem_of_getElem? hs, hkey.ge⟩
  · have hle : m ≤ syms.length := by simpa using hm.stop_le
    rw [hrun]
    rcases Nat.eq_zero_or_pos m with rfl | hmpos
    · exact .inr (.inl fun s hs => by have := hm.all_above s hs; omega)
    obtain ⟨l, hl, hlkey, hgreatest⟩ := hm.floor hsorted hmpos
    replace hlkey : l.addr < key := by omega
    simp only [Option.bind_some, if_pos (show 1 ≤ m from hmpos), hl, if_pos hlkey]
    rcases Nat.lt_or_eq_of_le hle with hlt | rfl
    · obtain ⟨r, hr⟩ : ∃ r, syms[m]? = some r := ⟨_, getElem?_eq_getElem hlt⟩
      have hkr : key < r.addr := by
        have := hm.lt_key hr le_rfl
        omega
      exact .inl ⟨⟨m - 1, l, by rw [hr, Option.map_some, if_pos hkr], hl, hlkey.le,
        fun t ht htkey => by have := hgreatest t ht (by omega); omega⟩,
        r, mem_of_getElem? hr, hkr.le⟩
    · exact .inr (.inr ⟨by rw [getElem?_eq_none le_rfl, Option.map_none],
        fun s hs => by have := hm.all_below s hs; omega⟩)

end Tables

theorem ksymSearch_finds_iff (q : Qsort Ksym) (lines : List Ksym) (key : ℤ)
    (hmax : (symbols lines).length ≤ maxSyms) (hfirst : ∃ s ∈ symbols lines, s.addr ≤ key)
    (hnear : Near (symbols lines) key) :
    (∃ syms, loadKallsyms q lines = some syms ∧ Finds syms key) ↔
      ∃ s ∈ symbols lines, key ≤ s.addr := by
  have hperm := q.perm ksymCmp (symbols lines)
  have hnear' := hnear.perm hperm
  have hsort : (q.sort ksymCmp (symbols lines)).Pairwise fun a b => a.addr ≤ b.addr := by
    refine (q.sorted (consistent_of_near hnear)).imp_of_mem fun {a b} ha hb hab => ?_
    have hcmp : ksymCmp a b = a.addr - b.addr := toInt_eq ((hnear' a ha).2 b hb)
    omega
  obtain ⟨f, hf, hfkey⟩ := hfirst
  have hf' := hperm.mem_iff.mpr hf
  rw [loadKallsyms, if_pos hmax]
  constructor
  · rintro ⟨_, ⟨⟩, hfinds⟩
    rcases ksymSearch_cases (ne_nil_of_mem hf') hsort hnear' with
      ⟨-, s, hs, hle⟩ | hall | ⟨hnone, -⟩
    · exact ⟨s, hperm.mem_iff.mp hs, hle⟩
    · exact absurd (hall f hf') (not_lt.mpr hfkey)
    · obtain ⟨i, s, hrun, -⟩ := hfinds
      rw [hnone] at hrun
      cases hrun
  · rintro ⟨s, hs, hle⟩
    rcases ksymSearch_cases (ne_nil_of_mem hf') hsort hnear' with ⟨hfinds, -⟩ | hall | ⟨-, hall⟩
    · exact ⟨_, rfl, hfinds⟩
    · exact absurd (hall f hf') (not_lt.mpr hfkey)
    · exact absurd (hall s (hperm.mem_iff.mpr hs)) (not_lt.mpr hle)

def nearSymbols : List Ksym :=
  [⟨-2130706432, bytes "_stext"⟩, ⟨-2130706400, bytes "do_one_initcall"⟩]

theorem ksymSearch_finds_near :
    ∃ syms, loadKallsyms (mergeQsort Ksym) nearSymbols = some syms ∧ Finds syms (-2130706410) := by
  have hlong : (symbols nearSymbols).length ≤ maxSyms := by decide
  refine (ksymSearch_finds_iff _ _ _ hlong (by decide) ?_).mpr (by decide)
  unfold Near IsInt
  decide

def farSymbols : List Ksym := [⟨1, bytes "_stext"⟩, ⟨3000000000, bytes "nf_nat"⟩]

theorem ksymSearch_far :
    ¬∃ (q : Qsort Ksym) (syms : List Ksym), loadKallsyms q farSymbols = some syms ∧
      Finds syms 1000000000 := by
  rintro ⟨q, syms, hload, i, s, hrun, -⟩
  have hsorted : (q.sort ksymCmp farSymbols).Pairwise fun a b => ksymCmp a b ≤ 0 :=
    q.sorted ⟨by decide, by decide⟩
  obtain rfl : q.sort ksymCmp farSymbols = syms := Option.some.inj hload
  rcases perm_pair.mp (q.perm ksymCmp farSymbols) with h | h
  · rw [h] at hsorted
    exact absurd (rel_of_pairwise_cons hsorted (mem_singleton_self _)) (by decide)
  · have hnone : ksymSearch 1000000000 [⟨3000000000, bytes "nf_nat"⟩, ⟨1, bytes "_stext"⟩] =
        none := by decide
    rw [h, hnone] at hrun
    cases hrun

end Sysak.Sched
