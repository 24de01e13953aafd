/-
# The last lines of a data file
-/

import Sysak.Lib.Decimal

namespace Sysak.Mservice

open Lib List

structure TailState where
  totalNum : ℕ
  len : ℤ → Int32
  accessed : List ℤ

namespace TailState

def start (len : ℤ → Int32) : TailState := ⟨0, len, []⟩

@[simp] theorem start_totalNum (len : ℤ → Int32) : (start len).totalNum = 0 := rfl

variable (n : ℕ)

def newline (s : TailState) : TailState where
  totalNum := s.totalNum + 1
  len := Function.update s.len (n - (s.totalNum + 1 : ℕ)) 0
  accessed := s.accessed ++ [(n : ℤ) - (s.totalNum + 1 : ℕ)]

def other (s : TailState) : TailState where
  totalNum := s.totalNum
  len := Function.update s.len (n - s.totalNum) (s.len (n - s.totalNum) + 1)
  accessed := s.accessed ++ [(n : ℤ) - s.totalNum]

def read (c : UInt8) (s : TailState) : TailState := if c = 10 then s.newline n else s.other n

def line (s : TailState) (k : ℕ) : TailState where
  totalNum := s.totalNum + 1
  len := Function.update s.len (n - (s.totalNum + 1 : ℕ)) (Int32.ofNat k)
  accessed := s.accessed ++ replicate (k + 1) ((n : ℤ) - (s.totalNum + 1 : ℕ))

end TailState

def seekLoop (n : ℕ) : Bytes → TailState → ℕ × TailState
  | [], s => (0, s)
  | c :: before, s =>
    if n < (s.read n c).totalNum then (before.length + 1, s.read n c)
    else seekLoop n before (s.read n c)

def seekTailLines (content : Bytes) (n : ℕ) (len : ℤ → Int32) : Option (ℕ × TailState) :=
  if content = [] then none else some (seekLoop n content.reverse (.start len))

structure LastLines (content : Bytes) (n : ℕ) (head : Bytes) (ls : List Bytes) : Prop where
  content_eq : content = head ++ ls.flatMap (· ++ [10])
  length_eq : ls.length = n
  newline_free : ∀ l ∈ ls, 10 ∉ l
  head_eq : head = [] ∨ ∃ h, head = h ++ [10]

def TailState.InBounds (n : ℕ) (s : TailState) : Prop := ∀ i ∈ s.accessed, 0 ≤ i ∧ i < n

def AtLines (content : Bytes) (n : ℕ) (r : ℕ × TailState) : Prop :=
  ∀ head ls, LastLines content n head ls → r.1 = head.length ∧
    ∀ i (h : i < ls.length), (r.2.len i).toInt = ls[i].length

section Line

variable {n : ℕ} {s : TailState}

theorem totalNum_read (n : ℕ) (s : TailState) (c : UInt8) :
    (s.read n c).totalNum = s.totalNum + List.count 10 [c] := by
  by_cases hc : c = 10
  · subst hc
    rfl
  · rw [TailState.read, if_neg hc, count_singleton, if_neg (by simpa using hc)]
    rfl

theorem line_other (s : TailState) (k : ℕ) : (s.line n k).other n = s.line n (k + 1) := by
  simp only [TailState.line, TailState.other, Function.update_self, Function.update_idem,
    Int32.ofNat_add, append_assoc, replicate_succ' (n := k + 1)]
  rfl

theorem seekLoop_chars {l : Bytes} (hl : 10 ∉ l) (hs : s.totalNum < n) (before : Bytes) (k : ℕ) :
    seekLoop n (l ++ before) (s.line n k) = seekLoop n before (s.line n (k + l.length)) := by
  induction l generalizing k with
  | nil => rfl
  | cons c l ih =>
    rw [mem_cons, not_or] at hl
    have hread : (s.line n k).read n c = s.line n (k + 1) := by
      rw [TailState.read, if_neg (Ne.symm hl.1), line_other]
    have hgo : ¬ n < (s.line n (k + 1)).totalNum := Nat.not_lt.mpr hs
    rw [cons_append, seekLoop, hread, if_neg hgo, ih hl.2, length_cons]
    congr 2
    omega

theorem seekLoop_line {l : Bytes} (hl : 10 ∉ l) (hs : s.totalNum < n) (before : Bytes) :
    seekLoop n ((l ++ [10]).reverse ++ before) s = seekLoop n before (s.line n l.length) := by
  have hread : s.read n 10 = s.line n 0 := rfl
  have hgo : ¬ n < (s.line n 0).totalNum := Nat.not_lt.mpr hs
  have hl' : 10 ∉ l.reverse := fun h => hl (mem_reverse.mp h)
  rw [reverse_append, reverse_singleton, singleton_append, cons_append,
    seekLoop, hread, if_neg hgo, seekLoop_chars hl' hs, length_reverse, Nat.zero_add]

end Line

def afterLines (n : ℕ) (s : TailState) (ls : List Bytes) : TailState :=
  ls.foldr (fun l s => s.line n l.length) s

section Lines

variable {n : ℕ} {s : TailState} {ls : List Bytes}

theorem afterLines_totalNum : (afterLines n s ls).totalNum = s.totalNum + ls.length := by
  induction ls with
  | nil => rfl
  | cons l ls ih =>
    have hcons : (afterLines n s (l :: ls)).totalNum = (afterLines n s ls).totalNum + 1 := rfl
    rw [hcons, ih, length_cons, Nat.add_assoc]

theorem afterLines_len (i : ℕ) (hi : i < ls.length) :
    (afterLines n s ls).len ((n : ℤ) - (s.totalNum + (ls.length - i) : ℕ)) =
      Int32.ofNat ls[i].length := by
  induction ls generalizing i with
  | nil => exact absurd hi (Nat.not_lt_zero i)
  | cons l ls ih =>
    have hcons : (afterLines n s (l :: ls)).len = Function.update (afterLines n s ls).len
        (n - ((afterLines n s ls).totalNum + 1 : ℕ)) (Int32.ofNat l.length) := rfl
    rw [hcons, afterLines_totalNum]
    cases i with
    | zero => exact Function.update_self ..
    | succ i =>
      have hi' : i < ls.length := Nat.lt_of_succ_lt_succ hi
      have hsub : (l :: ls).length - (i + 1) = ls.length - i := by
        rw [length_cons]
        omega
      rw [hsub, Function.update_of_ne (by omega), ih i hi']
      rfl

theorem seekLoop_lines (hls : ∀ l ∈ ls, 10 ∉ l) (hn : s.totalNum + ls.length ≤ n)
    (before : Bytes) :
    seekLoop n ((ls.flatMap (· ++ [10])).reverse ++ before) s =
      seekLoop n before (afterLines n s ls) := by
  induction ls generalizing before with
  | nil => rfl
  | cons l ls ih =>
    rw [length_cons] at hn
    have hlt : (afterLines n s ls).totalNum < n := by
      rw [afterLines_totalNum]
      omega
    rw [flatMap_cons, reverse_append, append_assoc,
      ih (fun l hl => hls l (mem_cons_of_mem _ hl)) (by omega),
      seekLoop_line (hls l mem_cons_self) hlt]
    rfl

end Lines

section Position

variable {content head : Bytes} {n : ℕ} {ls : List Bytes}

theorem LastLines.seekLoop_eq (h : LastLines content n head ls) (len : ℤ → Int32) :
    (seekLoop n content.reverse (.start len)).1 = head.length ∧
      ∀ i (hi : i < ls.length),
        (seekLoop n content.reverse (.start len)).2.len i = Int32.ofNat ls[i].length := by
  obtain ⟨rfl, rfl, hls, hhead⟩ := h
  have hslot : ∀ i (hi : i < ls.length),
      (afterLines ls.length (.start len) ls).len i = Int32.ofNat ls[i].length := by
    intro i hi
    rw [← afterLines_len i hi, TailState.start_totalNum]
    congr 1
    omega
  have htotal : (afterLines ls.length (.start len) ls).totalNum = ls.length := by
    rw [afterLines_totalNum, TailState.start_totalNum, Nat.zero_add]
  rw [reverse_append, seekLoop_lines hls (Nat.zero_add _).le]
  rcases hhead with rfl | ⟨h, rfl⟩
  · exact ⟨rfl, hslot⟩
  · -- the newline before the first line is counted in `len[-1]`
    have hstop : ls.length <
        ((afterLines ls.length (.start len) ls).read ls.length 10).totalNum := by
      rw [totalNum_read, htotal, count_singleton_self]
      exact Nat.lt_succ_self _
    rw [reverse_append, reverse_singleton, singleton_append, seekLoop, if_pos hstop,
      length_reverse, length_append, length_singleton]
    refine ⟨rfl, fun i hi => ?_⟩
    rw [← hslot i hi]
    refine Function.update_of_ne ?_ _ _
    rw [htotal]
    omega

theorem toInt_ofNat_eq_iff (k : ℕ) : (Int32.ofNat k).toInt = k ↔ k < 2147483648 := by
  constructor
  · intro h
    have := (Int32.ofNat k).toInt_lt
    omega
  · exact Int32.toInt_ofNat_of_lt

theorem atLines_iff (content : Bytes) (n : ℕ) (len : ℤ → Int32) :
    AtLines content n (seekLoop n content.reverse (.start len)) ↔
      ∀ head ls, LastLines content n head ls → ∀ l ∈ ls, l.length < 2147483648 := by
  refine forall_congr' fun head => forall_congr' fun ls => forall_congr' fun h => ?_
  obtain ⟨hpos, hlen⟩ := h.seekLoop_eq len
  rw [forall_mem_iff_forall_getElem]
  refine (and_iff_right hpos).trans (forall_congr' fun i => forall_congr' fun hi => ?_)
  rw [hlen i hi, toInt_ofNat_eq_iff]

end Position

section Slots

variable {n : ℕ}

theorem accessed_subset (before : Bytes) (s : TailState) :
    ∀ i ∈ s.accessed, i ∈ (seekLoop n before s).2.accessed := by
  induction before generalizing s with
  | nil => exact fun i hi => hi
  | cons c before ih =>
    intro i hi
    have hread : i ∈ (s.read n c).accessed := by
      rw [TailState.read]
      split_ifs <;> exact mem_append_left _ hi
    rw [seekLoop]
    split_ifs
    · exact hread
    · exact ih _ i hread

theorem neg_one_mem {before : Bytes} {s : TailState} (hs : s.totalNum ≤ n)
    (h : n < s.totalNum + before.count 10) : -1 ∈ (seekLoop n before s).2.accessed := by
  induction before generalizing s with
  | nil =>
    rw [count_nil] at h
    omega
  | cons c before ih =>
    have hcount : (c :: before).count 10 = [c].count 10 + before.count 10 := by
      rw [← count_append, singleton_append]
    have hread := totalNum_read n s c
    rw [seekLoop]
    split_ifs with hstop
    · have hc : c = 10 := by
        by_contra hne
        rw [count_singleton, if_neg (by simpa using hne)] at hread
        omega
      subst hc
      have hlast : s.totalNum = n := by
        have : (s.read n 10).totalNum = s.totalNum + 1 := rfl
        omega
      refine mem_append_right _ (mem_singleton.mpr ?_)
      rw [hlast]
      omega
    · exact ih (Nat.not_lt.mp hstop) (by omega)

theorem inBounds_seekLoop {before : Bytes} {s : TailState} (hs : 1 ≤ s.totalNum)
    (h : s.totalNum + before.count 10 ≤ n) (hin : s.InBounds n) :
    (seekLoop n before s).2.InBounds n := by
  induction before generalizing s with
  | nil => exact hin
  | cons c before ih =>
    have hcount : (c :: before).count 10 = [c].count 10 + before.count 10 := by
      rw [← count_append, singleton_append]
    have hread := totalNum_read n s c
    have hbounds : (s.read n c).InBounds n := by
      have hslot : ∃ t, 1 ≤ t ∧ t ≤ n ∧
          (s.read n c).accessed = s.accessed ++ [(n : ℤ) - (t : ℕ)] := by
        by_cases hc : c = 10
        · subst hc
          exact ⟨s.totalNum + 1, by omega, by rw [count_cons_self] at h; omega, rfl⟩
        · exact ⟨s.totalNum, hs, by omega, by rw [TailState.read, if_neg hc]; rfl⟩
      obtain ⟨t, ht, htn, heq⟩ := hslot
      intro i hi
      rw [heq, mem_append, mem_singleton] at hi
      rcases hi with hi | rfl
      · exact hin i hi
      · omega
    rw [seekLoop, if_neg (by omega)]
    exact ih (by omega) (by omega) hbounds

theorem inBounds_iff {content : Bytes} (hne : content ≠ []) (hn : 1 ≤ n) (len : ℤ → Int32) :
    (seekLoop n content.reverse (.start len)).2.InBounds n ↔
      (∃ c, content = c ++ [10]) ∧ content.count 10 ≤ n := by
  constructor
  · intro hin
    refine ⟨?_, ?_⟩
    · obtain ⟨c, x, rfl⟩ := (eq_nil_or_concat' content).resolve_left hne
      by_cases hx : x = 10
      · exact ⟨c, by rw [hx]⟩
      · -- the last character is counted in `len[n]`
        have hmem : (n : ℤ) ∈ (TailState.read n x (.start len)).accessed := by
          rw [TailState.read, if_neg hx]
          exact mem_append_right _ (mem_singleton.mpr (Int.sub_zero _).symm)
        rw [reverse_append, reverse_singleton, singleton_append, seekLoop] at hin
        split_ifs at hin
        · exact absurd (hin _ hmem).2 (lt_irrefl _)
        · exact absurd (hin _ (accessed_subset _ _ _ hmem)).2 (lt_irrefl _)
    · by_contra hmany
      have hmore : n < (TailState.start len).totalNum + content.reverse.count 10 := by
        rw [TailState.start_totalNum, count_reverse]
        omega
      have hneg := (hin _ (neg_one_mem (Nat.zero_le n) hmore)).1
      omega
  · rintro ⟨⟨c, rfl⟩, hcount⟩
    rw [count_append, count_singleton_self] at hcount
    have hfirst : (TailState.read n 10 (.start len)).totalNum = 1 := rfl
    have hgo : ¬ n < (TailState.read n 10 (.start len)).totalNum := by omega
    rw [reverse_append, reverse_singleton, singleton_append, seekLoop, if_neg hgo]
    refine inBounds_seekLoop hfirst.ge ?_ ?_
    · rw [hfirst, count_reverse]
      omega
    · intro i hi
      have hslot : i = n - 1 := mem_singleton.mp hi
      omega

end Slots

theorem LastLines.length_lt {content head : Bytes} {n : ℕ} {ls : List Bytes}
    (h : LastLines content n head ls) : ∀ l ∈ ls, l.length < content.length := by
  intro l hl
  have hsub : (l ++ [10]).Sublist content := by
    rw [h.content_eq]
    have hmem : l ++ [10] ∈ ls.map (· ++ [10]) := mem_map_of_mem hl
    exact (sublist_flatten_of_mem hmem).trans (sublist_append_right _ _)
  have hle := hsub.length_le
  rw [length_append, length_singleton] at hle
  exact hle

theorem seekTailLines_iff {content : Bytes} {n : ℕ} (hne : content ≠ []) (hn : 1 ≤ n)
    (len : ℤ → Int32) :
    (∃ r, seekTailLines content n len = some r ∧ r.2.InBounds n ∧ AtLines content n r) ↔
      content.getLast? = some 10 ∧ content.count 10 ≤ n ∧
        ∀ head ls, LastLines content n head ls → ∀ l ∈ ls, l.length < 2147483648 := by
  rw [getLast?_eq_some_iff, ← and_assoc, ← inBounds_iff hne hn len,
    ← atLines_iff content n len]
  simp only [seekTailLines, if_neg hne, Option.some.injEq, exists_eq_left']

theorem seekTailLines_one_line : ∃ r, seekTailLines [97, 10] 1 (fun _ => 7) = some r ∧
    r.2.InBounds 1 ∧ AtLines [97, 10] 1 r := by
  refine (seekTailLines_iff (by decide) (by decide) _).mpr ⟨rfl, by decide, ?_⟩
  intro head ls h l hl
  exact (h.length_lt l hl).trans (by decide)

theorem seekTailLines_outside :
    (∃ r, seekTailLines [97, 10, 98, 10] 1 (fun _ => 7) = some r ∧ -1 ∈ r.2.accessed) ∧
      ∃ r, seekTailLines [97] 1 (fun _ => 7) = some r ∧ 1 ∈ r.2.accessed :=
  ⟨⟨_, rfl, by decide⟩, ⟨_, rfl, by decide⟩⟩

end Sysak.Mservice
