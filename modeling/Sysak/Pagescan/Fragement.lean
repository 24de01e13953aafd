/-
# The fragment scan
-/

import Mathlib.Algebra.BigOperators.Fin
import Mathlib.Data.List.GetD
import Mathlib.NumberTheory.Padics.PadicVal.Basic
import Sysak.Lib.Buddy
import Sysak.Lib.Runs

namespace Sysak.Pagescan

open Lib Lib.Buddy Lib.Runs List

structure BuddyInfo where
  bitmap : List (BitVec 64)
  bitmapSize : ℕ
  fits : bitmapSize ≤ 64 * bitmap.length

structure BuddyStat where
  nr : Fin 11 → ℕ
  used : ℕ

def BuddyStat.zero : BuddyStat := ⟨fun _ => 0, 0⟩

def BuddyStat.incr (stat : BuddyStat) (order : ℕ) : Option BuddyStat :=
  if h : order < 11 then
    some { stat with nr := Function.update stat.nr ⟨order, h⟩ (stat.nr ⟨order, h⟩ + 1) }
  else none

def wordAt (addr1 : List (BitVec 64)) (addr2 : Option (List (BitVec 64))) (invert : BitVec 64)
    (i : ℕ) : Option (BitVec 64) := do
  let tmp ← addr1[i]?
  let tmp ← match addr2 with
    | none => some tmp
    | some addr2 => (addr2[i]?).map (tmp &&& ·)
  return tmp ^^^ invert

def findLoop (addr1 : List (BitVec 64)) (addr2 : Option (List (BitVec 64))) (nbits : ℕ)
    (invert : BitVec 64) : ℕ → BitVec 64 → ℕ → Option ℕ
  | 0, _, _ => none
  | fuel + 1, tmp, start =>
    if tmp ≠ 0 then some (min (start + tmp.ctz.toNat) nbits)
    else if nbits ≤ start + 64 then some nbits
    else (wordAt addr1 addr2 invert ((start + 64) / 64)).bind fun tmp =>
      findLoop addr1 addr2 nbits invert fuel tmp (start + 64)

def findNextBitIn (fuel : ℕ) (addr1 : List (BitVec 64)) (addr2 : Option (List (BitVec 64)))
    (nbits start : ℕ) (invert : BitVec 64) : Option ℕ :=
  if nbits ≤ start then some nbits
  else (wordAt addr1 addr2 invert (start / 64)).bind fun tmp =>
    findLoop addr1 addr2 nbits invert fuel (tmp &&& BitVec.allOnes 64 <<< (start % 64))
      (start - start % 64)

def findNextBit (fuel : ℕ) (addr : List (BitVec 64)) (size offset : ℕ) : Option ℕ :=
  findNextBitIn fuel addr none size offset 0

def findNextZeroBit (fuel : ℕ) (addr : List (BitVec 64)) (size offset : ℕ) : Option ℕ :=
  findNextBitIn fuel addr none size offset (BitVec.allOnes 64)

def ffsll (x : ℕ) : ℕ := if x = 0 then 0 else padicValNat 2 x + 1

def fls64 (x : ℕ) : ℕ := if x = 0 then 0 else x.log2 + 1

def nextOrder (first len : ℕ) : ℕ :=
  let border := 1024
  let max := ffsll (first ||| border) - 1
  let min := fls64 len - 1
  if max < min then max else min

def markUsed : ℕ → ℕ → ℕ → BuddyStat → Option BuddyStat
  | 0, _, _, _ => none
  | fuel + 1, first, len, stat =>
    if 0 < len then
      let min := nextOrder first len
      let chunk := 2 ^ min
      (stat.incr min).bind fun stat => markUsed fuel (first + chunk) (len - chunk) stat
    else some stat

def markRun (fuel first len : ℕ) (stat : BuddyStat) : Option BuddyStat :=
  if 1 < len then markUsed fuel first len stat else stat.incr 0

def nextRun (fuel : ℕ) (info : BuddyInfo) (i : ℕ) : Option ℕ :=
  if i < info.bitmapSize then findNextBit fuel info.bitmap info.bitmapSize i else some i

def generateLoop (n : ℕ) (info : BuddyInfo) : ℕ → ℕ → BuddyStat → Option BuddyStat
  | 0, _, _ => none
  | fuel + 1, i, stat =>
    if i < info.bitmapSize then do
      let first := i
      let i ← findNextZeroBit n info.bitmap info.bitmapSize i
      let len := i - first
      let stat := { stat with used := stat.used + len }
      let stat ← markRun n first len stat
      let i ← nextRun n info i
      generateLoop n info fuel i stat
    else some stat

def buddyStatGenerate (fuel : ℕ) (info : BuddyInfo) (stat : BuddyStat) : Option BuddyStat := do
  let i ← findNextBit fuel info.bitmap info.bitmapSize 0
  generateLoop fuel info fuel i stat

def BuddyInfo.bit (info : BuddyInfo) (i : ℕ) : Bool :=
  (info.bitmap.getD (i / 64) 0).getLsbD (i % 64)

def BuddyInfo.bitInverted (info : BuddyInfo) (invert : BitVec 64) (i : ℕ) : Bool :=
  info.bit i ^^ invert.getLsbD (i % 64)

section Find

variable (info : BuddyInfo) {invert : BitVec 64}

theorem wordAt_bitmap {i : ℕ} (hi : i < info.bitmapSize) (invert : BitVec 64) :
    ∃ tmp, wordAt info.bitmap none invert (i / 64) = some tmp ∧
      ∀ k < 64, tmp.getLsbD k = info.bitInverted invert (i - i % 64 + k) := by
  have hfits := info.fits
  have hword : i / 64 < info.bitmap.length := by omega
  refine ⟨info.bitmap.getD (i / 64) 0 ^^^ invert, ?_, fun k hk => ?_⟩
  · rw [wordAt, getElem?_eq_getElem hword, getD_eq_getElem _ _ hword]
    rfl
  · have hdiv : (i - i % 64 + k) / 64 = i / 64 := by omega
    have hmod : (i - i % 64 + k) % 64 = k := by omega
    rw [BitVec.getLsbD_xor, BuddyInfo.bitInverted, BuddyInfo.bit, hdiv, hmod]

structure Searching (invert : BitVec 64) (low start : ℕ) (tmp : BitVec 64) : Prop where
  before : ∀ i, low ≤ i → i < start → info.bitInverted invert i = false
  word : ∀ k < 64,
    tmp.getLsbD k = (decide (low ≤ start + k) && info.bitInverted invert (start + k))

variable {info}

theorem Searching.getLsbD {low start i : ℕ} {tmp : BitVec 64}
    (h : Searching info invert low start tmp) (hlow : low ≤ i) (hs : start ≤ i)
    (hi : i < start + 64) :
    tmp.getLsbD (i - start) = info.bitInverted invert i := by
  rw [h.word (i - start) (by omega), Nat.add_sub_cancel' hs, decide_eq_true hlow, Bool.true_and]

theorem Searching.of_zero {low start : ℕ} (h : Searching info invert low start 0) :
    ∀ i, low ≤ i → i < start + 64 → info.bitInverted invert i = false := by
  intro i hi hi'
  rcases Nat.lt_or_ge i start with hs | hs
  · exact h.before i hi hs
  · rw [← h.getLsbD hi hs hi']
    exact BitVec.getLsbD_zero

theorem Searching.isNext {low start : ℕ} {tmp : BitVec 64}
    (h : Searching info invert low start tmp) (hne : tmp ≠ 0) (hsize : low < info.bitmapSize) :
    IsNext (fun i => info.bitInverted invert i = true) low info.bitmapSize
      (min (start + tmp.ctz.toNat) info.bitmapSize) := by
  have hctz := BitVec.getLsbD_true_ctz_of_ne_zero hne
  have hc : tmp.ctz.toNat < 64 := BitVec.lt_of_getLsbD hctz
  rw [h.word _ hc, Bool.and_eq_true, decide_eq_true_eq] at hctz
  refine ⟨Nat.le_min.mpr ⟨hctz.1, hsize.le⟩, Nat.min_le_right _ _, fun i hi hi' => ?_,
    fun hlt => ?_⟩
  · have hi'' := Nat.lt_of_lt_of_le hi' (Nat.min_le_left _ _)
    rcases Nat.lt_or_ge i start with hs | hs
    · rw [h.before i hi hs]
      exact Bool.false_ne_true
    · rw [← h.getLsbD hi hs (by omega), BitVec.getLsbD_false_of_lt_ctz (by omega)]
      exact Bool.false_ne_true
  · have heq : min (start + tmp.ctz.toNat) info.bitmapSize = start + tmp.ctz.toNat := by omega
    rw [heq]
    exact hctz.2

theorem findLoop_spec {low : ℕ} {fuel : ℕ} : ∀ {start : ℕ} {tmp : BitVec 64},
    start % 64 = 0 → start < info.bitmapSize → low < start + 64 →
    Searching info invert low start tmp → low < info.bitmapSize →
    info.bitmapSize ≤ start + fuel →
    ∃ j, findLoop info.bitmap none info.bitmapSize invert fuel tmp start = some j ∧
      IsNext (fun i => info.bitInverted invert i = true) low info.bitmapSize j := by
  induction fuel with
  | zero =>
    intro start tmp _ hlt _ _ _ hfuel
    omega
  | succ fuel ih =>
    intro start tmp hmod hlt hlow hsearch hsize hfuel
    rw [findLoop]
    by_cases hz : tmp = 0
    · subst hz
      have hnone := hsearch.of_zero
      rw [if_neg (not_not.mpr rfl)]
      rcases Nat.lt_or_ge (start + 64) info.bitmapSize with hnext | hend
      · rw [if_neg (Nat.not_le.mpr hnext)]
        obtain ⟨tmp', hword, hbits⟩ := wordAt_bitmap info hnext invert
        rw [hword, Option.bind_some]
        refine ih (by omega) hnext (by omega) ⟨hnone, fun k hk => ?_⟩ hsize (by omega)
        rw [hbits k hk, decide_eq_true (by omega), Bool.true_and]
        congr 1
        omega
      · rw [if_pos hend]
        refine ⟨_, rfl, by omega, le_rfl, fun i hi hi' => ?_, fun h => absurd h (lt_irrefl _)⟩
        rw [hnone i hi (by omega)]
        exact Bool.false_ne_true
    · rw [if_pos hz]
      exact ⟨_, rfl, hsearch.isNext hz hsize⟩

variable (info)

theorem findNextBitIn_spec (invert : BitVec 64) {start fuel : ℕ} (hstart : start ≤ info.bitmapSize)
    (hfuel : info.bitmapSize + 64 ≤ fuel) :
    ∃ j, findNextBitIn fuel info.bitmap none info.bitmapSize start invert = some j ∧
      IsNext (fun i => info.bitInverted invert i = true) start info.bitmapSize j := by
  rw [findNextBitIn]
  rcases Nat.eq_or_lt_of_le hstart with rfl | hlt
  · rw [if_pos le_rfl]
    exact ⟨_, rfl, le_rfl, le_rfl, fun i hi hi' => by omega, fun h => absurd h (lt_irrefl _)⟩
  · rw [if_neg (Nat.not_le.mpr hlt)]
    obtain ⟨tmp, hword, hbits⟩ := wordAt_bitmap info hlt invert
    rw [hword, Option.bind_some]
    refine findLoop_spec (by omega) (by omega) (by omega)
      ⟨fun i hi hi' => by omega, fun k hk => ?_⟩ hlt (by omega)
    rw [BitVec.getLsbD_and, hbits k hk, BitVec.getLsbD_shiftLeft, BitVec.getLsbD_allOnes,
      Bool.and_comm]
    congr 1
    have hk' : k - start % 64 < 64 := by omega
    rw [decide_eq_true hk, decide_eq_true hk', Bool.true_and, Bool.and_true]
    rcases Nat.lt_or_ge k (start % 64) with h | h
    · rw [decide_eq_true h, decide_eq_false (by omega)]
      rfl
    · rw [decide_eq_false (by omega), decide_eq_true (by omega)]
      rfl

theorem findNextBit_spec {start fuel : ℕ} (hstart : start ≤ info.bitmapSize)
    (hfuel : info.bitmapSize + 64 ≤ fuel) :
    ∃ j, findNextBit fuel info.bitmap info.bitmapSize start = some j ∧
      IsNext (fun i => info.bit i = true) start info.bitmapSize j := by
  have hbit : info.bitInverted 0 = info.bit := by
    funext i
    simp [BuddyInfo.bitInverted]
  have h := findNextBitIn_spec info 0 hstart hfuel
  rw [hbit] at h
  exact h

theorem findNextZeroBit_spec {start fuel : ℕ} (hstart : start ≤ info.bitmapSize)
    (hfuel : info.bitmapSize + 64 ≤ fuel) :
    ∃ j, findNextZeroBit fuel info.bitmap info.bitmapSize start = some j ∧
      IsNext (fun i => ¬ info.bit i = true) start info.bitmapSize j := by
  have hbit : (fun i => info.bitInverted (BitVec.allOnes 64) i = true) =
      fun i => ¬ info.bit i = true := by
    funext i
    have hmod : i % 64 < 64 := Nat.mod_lt _ (by decide)
    simp only [BuddyInfo.bitInverted, BitVec.getLsbD_allOnes, hmod, decide_true, Bool.xor_true,
      Bool.not_eq_true', Bool.not_eq_true]
  have h := findNextBitIn_spec info (BitVec.allOnes 64) hstart hfuel
  rw [hbit] at h
  exact h

end Find

theorem isGreatest_nextOrder (first : ℕ) {len : ℕ} (hlen : 0 < len) :
    IsGreatest {o | o ≤ 10 ∧ 2 ^ o ∣ first ∧ 2 ^ o ≤ len} (nextOrder first len) := by
  have hne : first ||| 1024 ≠ 0 := fun h => absurd (Nat.or_eq_zero_iff.mp h).2 (by decide)
  -- with the border, the lowest set bit is at 10 at most
  have hdvd : ∀ o, o ≤ padicValNat 2 (first ||| 1024) ↔ o ≤ 10 ∧ 2 ^ o ∣ first := by
    intro o
    have hborder : 1024 % 2 ^ o = 0 ↔ o ≤ 10 := by
      rw [← Nat.dvd_iff_mod_eq_zero]
      exact Nat.pow_dvd_pow_iff_le_right (x := 2) (l := 10) (by decide)
    rw [← padicValNat_dvd_iff_le hne, Nat.dvd_iff_mod_eq_zero, Nat.or_mod_two_pow,
      Nat.or_eq_zero_iff, hborder, ← Nat.dvd_iff_mod_eq_zero, and_comm]
  have hlog : ∀ o, o ≤ len.log2 ↔ 2 ^ o ≤ len := fun o => Nat.le_log2 hlen.ne'
  have hmin : nextOrder first len = min (padicValNat 2 (first ||| 1024)) len.log2 := by
    simp only [nextOrder, ffsll, fls64, if_neg hne, if_neg hlen.ne', Nat.add_sub_cancel]
    split_ifs with h
    · exact (Nat.min_eq_left h.le).symm
    · exact (Nat.min_eq_right (Nat.not_lt.mp h)).symm
  have hiff : ∀ o, o ≤ nextOrder first len ↔ o ≤ 10 ∧ 2 ^ o ∣ first ∧ 2 ^ o ≤ len := by
    intro o
    rw [hmin, Nat.le_min, hdvd, hlog, and_assoc]
  exact ⟨(hiff _).mp le_rfl, fun o ho => (hiff o).mpr ho⟩

def BuddyStat.Counts (stat stat' : BuddyStat) (os : List ℕ) : Prop :=
  ∀ o : Fin 11, stat'.nr o = stat.nr o + os.count o.val

theorem incr_spec (stat : BuddyStat) {o : ℕ} (ho : o ≤ 10) :
    ∃ stat', stat.incr o = some stat' ∧ stat'.used = stat.used ∧ stat.Counts stat' [o] := by
  have hlt : o < 11 := Nat.lt_succ_of_le ho
  refine ⟨_, dif_pos hlt, rfl, fun k => ?_⟩
  rcases eq_or_ne k ⟨o, hlt⟩ with rfl | hne
  · show Function.update _ _ _ _ = _
    rw [Function.update_self, count_singleton_self]
  · have hval : o ≠ k.val := fun h => hne (Fin.ext h.symm)
    show Function.update _ _ _ _ = _
    rw [Function.update_of_ne hne, count_singleton, beq_eq_false_iff_ne.mpr hval]
    rfl

theorem markUsed_spec {fuel : ℕ} : ∀ (first len : ℕ) (stat : BuddyStat), len < fuel →
    ∃ os stat', markUsed fuel first len stat = some stat' ∧ Greedy 10 first len os ∧
      stat'.used = stat.used ∧ stat.Counts stat' os := by
  induction fuel with
  | zero => exact fun _ _ _ h => absurd h (Nat.not_lt_zero _)
  | succ fuel ih =>
    intro first len stat hfuel
    rw [markUsed]
    rcases Nat.eq_zero_or_pos len with rfl | hpos
    · exact ⟨[], stat, if_neg (lt_irrefl 0), Greedy.nil first, rfl, fun o => rfl⟩
    · have ho := isGreatest_nextOrder first hpos
      have hchunk : 0 < 2 ^ nextOrder first len := Nat.two_pow_pos _
      have hle := ho.1.2.2
      obtain ⟨stat₁, hincr, hused, hcount⟩ := incr_spec stat ho.1.1
      obtain ⟨os, stat', hrest, hgreedy, hused', hcount'⟩ := ih (first + 2 ^ nextOrder first len)
        (len - 2 ^ nextOrder first len) stat₁ (by omega)
      refine ⟨nextOrder first len :: os, stat', ?_, Greedy.cons ho hgreedy,
        hused'.trans hused, fun o => ?_⟩
      · simp only [if_pos hpos, hincr, Option.bind_some]
        exact hrest
      · rw [hcount' o, hcount o, Nat.add_assoc]
        exact congrArg (stat.nr o + ·) count_append.symm

theorem greedy_one (first : ℕ) : Greedy 10 first 1 [0] := by
  refine Greedy.cons ⟨⟨Nat.zero_le _, one_dvd _, le_rfl⟩, fun o ho => ?_⟩ (Greedy.nil _)
  by_contra hpos
  have := Nat.one_lt_two_pow (n := o) (by omega)
  have := ho.2.2
  omega

theorem markRun_spec {n : ℕ} (first : ℕ) {len : ℕ} (stat : BuddyStat) (hpos : 0 < len)
    (hn : len < n) :
    ∃ os stat', markRun n first len stat = some stat' ∧ Greedy 10 first len os ∧
      stat'.used = stat.used ∧ stat.Counts stat' os := by
  rw [markRun]
  rcases Nat.lt_or_ge 1 len with hlt | hge
  · rw [if_pos hlt]
    exact markUsed_spec first len stat hn
  · obtain rfl : len = 1 := by omega
    obtain ⟨stat', hincr, hused, hcount⟩ := incr_spec stat (Nat.zero_le 10)
    exact ⟨[0], stat', hincr, greedy_one first, hused, hcount⟩

theorem nextRun_spec (info : BuddyInfo) {n stop : ℕ} (hn : info.bitmapSize + 64 ≤ n)
    (hle : stop ≤ info.bitmapSize) :
    ∃ next, nextRun n info stop = some next ∧
      IsNext (fun i => info.bit i = true) stop info.bitmapSize next := by
  rw [nextRun]
  rcases Nat.lt_or_ge stop info.bitmapSize with hlt | hge
  · rw [if_pos hlt]
    exact findNextBit_spec info hle hn
  · rw [if_neg (Nat.not_lt.mpr hge)]
    exact ⟨stop, rfl, le_rfl, hle, fun i hi hi' => absurd hi' (Nat.not_lt.mpr hi),
      fun h => absurd h (Nat.not_lt.mpr hge)⟩

theorem generateLoop_spec (info : BuddyInfo) {n fuel : ℕ} (hn : info.bitmapSize + 64 ≤ n) :
    ∀ (i : ℕ) (stat : BuddyStat), i ≤ info.bitmapSize → info.bitmapSize < i + fuel →
      Begins (fun i => info.bit i = true) info.bitmapSize i →
      ∃ rs oss stat', generateLoop n info fuel i stat = some stat' ∧
        RunsFrom (fun i => info.bit i = true) info.bitmapSize i rs ∧
        Forall₂ (fun r os => Greedy 10 r.1 r.2 os) rs oss ∧
        stat'.used = stat.used + (rs.map Prod.snd).sum ∧ stat.Counts stat' oss.flatten := by
  induction fuel with
  | zero =>
    intro i _ hi hfuel
    omega
  | succ fuel ih =>
    intro i stat hi hfuel hb
    rw [generateLoop]
    rcases Nat.eq_or_lt_of_le hi with rfl | hlt
    · exact ⟨[], [], stat, if_neg (lt_irrefl _), RunsFrom.done, .nil, rfl, fun o => rfl⟩
    · obtain ⟨stop, hzero, hstop⟩ := findNextZeroBit_spec info hi hn
      have hgt := lt_stop hb hlt hstop
      have hlim := hstop.le_limit
      obtain ⟨os, stat₁, hmark, hgreedy, hused, hcount⟩ := markRun_spec (n := n) i
        { stat with used := stat.used + (stop - i) } (Nat.sub_pos_of_lt hgt) (by omega)
      obtain ⟨next, hfind, hnext⟩ := nextRun_spec info hn hlim
      have hle := hnext.start_le
      obtain ⟨rs, oss, stat', hloop, hruns, hall, hused', hcount'⟩ :=
        ih next stat₁ hnext.le_limit (by omega) (begins_next hstop hnext)
      refine ⟨(i, stop - i) :: rs, os :: oss, stat', ?_, RunsFrom.step hlt hstop hnext hruns,
        .cons hgreedy hall, ?_, fun o => ?_⟩
      · simp only [if_pos hlt, hzero, hmark, hfind, Option.bind_eq_bind, Option.bind_some]
        exact hloop
      · rw [hused', hused, map_cons, sum_cons, Nat.add_assoc]
      · rw [hcount' o, hcount o, flatten_cons, count_append, Nat.add_assoc]

theorem sum_count {os : List ℕ} (hos : ∀ o ∈ os, o ≤ 10) :
    ∑ o : Fin 11, os.count o.val * 2 ^ o.val = (os.map fun o => 2 ^ o).sum := by
  induction os with
  | nil => simp
  | cons a os ih =>
    have ha : a < 11 := Nat.lt_succ_of_le (hos a mem_cons_self)
    have hrest := ih fun o ho => hos o (mem_cons_of_mem _ ho)
    have hone : ∀ o : Fin 11, (a :: os).count o.val * 2 ^ o.val =
        os.count o.val * 2 ^ o.val + if (⟨a, ha⟩ : Fin 11) = o then 2 ^ o.val else 0 := by
      intro o
      rw [count_cons, Nat.add_mul]
      congr 1
      by_cases h : a = o.val
      · rw [if_pos (beq_iff_eq.mpr h), if_pos (Fin.ext h), Nat.one_mul]
      · rw [if_neg (by simpa using h), if_neg fun heq => h (congrArg Fin.val heq), Nat.zero_mul]
    simp only [hone, Finset.sum_add_distrib, hrest, Finset.sum_ite_eq, Finset.mem_univ, if_true,
      map_cons, sum_cons]
    exact Nat.add_comm _ _

theorem sum_flatten {rs : List (ℕ × ℕ)} {oss : List (List ℕ)}
    (h : Forall₂ (fun r os => Greedy 10 r.1 r.2 os) rs oss) :
    (oss.flatten.map fun o => 2 ^ o).sum = (rs.map Prod.snd).sum ∧ ∀ o ∈ oss.flatten, o ≤ 10 := by
  induction h with
  | nil => exact ⟨rfl, fun o ho => absurd ho not_mem_nil⟩
  | cons hr _ ih =>
    refine ⟨?_, fun o ho => ?_⟩
    · rw [flatten_cons, map_append, sum_append, hr.sum_eq, ih.1, map_cons,
        sum_cons]
    · rcases mem_append.mp ho with ho | ho
      · exact hr.le o ho
      · exact ih.2 o ho

structure Decomposes (info : BuddyInfo) (runs : List ((ℕ × ℕ) × List ℕ)) (stat : BuddyStat) :
    Prop where
  isRun_iff : ∀ first len, (first, len) ∈ runs.map Prod.fst ↔
    IsRun (fun i => info.bit i = true) info.bitmapSize first len
  once : (runs.map Prod.fst).Nodup
  covers : ∀ r ∈ runs, Covers 10 (placed r.1.1 r.2) r.1.1 (r.1.1 + r.1.2)
  minimal : ∀ r ∈ runs, ∀ bs, Covers 10 bs r.1.1 (r.1.1 + r.1.2) → r.2.length ≤ bs.length
  nr : ∀ o : Fin 11, stat.nr o = (runs.map fun r => r.2.count o.val).sum

theorem buddyStatGenerate_spec (info : BuddyInfo) :
    ∃ n, ∀ fuel, n ≤ fuel → ∃ stat runs,
      buddyStatGenerate fuel info BuddyStat.zero = some stat ∧
      stat.used = Nat.count (fun i => info.bit i = true) info.bitmapSize ∧
      ∑ o : Fin 11, stat.nr o * 2 ^ o.val = stat.used ∧
      Decomposes info runs stat := by
  refine ⟨info.bitmapSize + 64, fun fuel hfuel => ?_⟩
  obtain ⟨i, hfind, hi⟩ := findNextBit_spec info (Nat.zero_le _) hfuel
  have hb := begins_of_isNext hi
  have hlt : info.bitmapSize < i + fuel := by omega
  obtain ⟨rs, oss, stat, hloop, hruns, hall, hused, hcount⟩ :=
    generateLoop_spec info hfuel i BuddyStat.zero hi.le_limit hlt hb
  have hgreedy : ∀ r ∈ rs.zip oss, Greedy 10 r.1.1 r.1.2 r.2 :=
    fun r hr => (forall₂_iff_zip.mp hall).2 hr
  have hfst : (rs.zip oss).map Prod.fst = rs := map_fst_zip hall.length_eq.le
  have hsnd : (rs.zip oss).map Prod.snd = oss := map_snd_zip hall.length_eq.ge
  have hnr : ∀ o : Fin 11, stat.nr o = oss.flatten.count o.val :=
    fun o => (hcount o).trans (Nat.zero_add _)
  have hlen : stat.used = (rs.map Prod.snd).sum := hused.trans (Nat.zero_add _)
  refine ⟨stat, rs.zip oss, ?_, ?_, ?_, ?_, ?_, ?_, ?_, ?_⟩
  · rw [buddyStatGenerate, hfind]
    exact hloop
  · rw [hlen, hruns.count_eq, count_of_none (Nat.zero_le i) hi.before, Nat.count_zero,
      Nat.zero_add]
  · obtain ⟨hsum, horder⟩ := sum_flatten hall
    simp only [hnr]
    rw [sum_count horder, hsum, hlen]
  · intro first len
    rw [hfst, hruns.mem_iff hb, and_iff_left_iff_imp]
    intro hrun
    -- the first run begins at `i`
    by_contra hbefore
    exact hi.before first (Nat.zero_le _) (Nat.not_le.mp hbefore)
      (hrun.inside first le_rfl (Nat.lt_add_of_pos_right hrun.pos))
  · rw [hfst]
    exact Nodup.of_map _ ((hruns.pairwise hb).imp Nat.ne_of_lt)
  · exact fun r hr => (hgreedy r hr).covers
  · exact fun r hr bs hbs => (hgreedy r hr).length_le hbs
  · intro o
    rw [hnr, count_flatten, ← hsnd, map_map, hsnd]
    rfl

end Sysak.Pagescan
