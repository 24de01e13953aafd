/-
# The dynamic threshold of an indicator
-/

import Mathlib.Algebra.Order.Ring.Rat
import Mathlib.Algebra.Field.Rat
import Sysak.Lib.MovingWindow

namespace Sysak.IoMon

open Lib List Option

def maxsize : ℚ := 9223372036854775807

structure BaseThresh where
  nrSample : ℕ
  moveWinData : List ℚ
  curWinMinVal : ℚ
  curWinMaxVal : ℚ
  moveAvg : ℚ
  thresh : ℚ
deriving DecidableEq, Repr

structure Compensation where
  thresh : ℚ
  shouldUpdThreshComp : Bool
  decRangeThreshAvg : ℚ
  decRangeCnt : ℕ
  minStableThresh : ℚ
  maxStableThresh : ℚ
  stableThreshAvg : ℚ
  nrStableThreshSample : ℕ
deriving DecidableEq, Repr

structure ExceptChkItem where
  baseThresh : BaseThresh
  compensation : Compensation
  dynTresh : ℚ
  usedWin : ℕ
deriving DecidableEq, Repr

def ExceptChkItem.new : ExceptChkItem where
  baseThresh := ⟨0, [], maxsize, 0, 0, 0⟩
  compensation := ⟨0, true, 0, 0, maxsize, 0, 0, 0⟩
  dynTresh := maxsize
  usedWin := 0

def calcBaseThresh (window : ℕ) (item : ExceptChkItem) (e : ℚ) : ExceptChkItem × Option ℚ :=
  let bt := item.baseThresh
  let nrSample := bt.nrSample + 1
  if window ≤ nrSample then
    let moveWinData :=
      if bt.moveWinData.length < window then bt.moveWinData ++ [e]
      else bt.moveWinData.set (item.usedWin % window) e
    let moveAvg := moveWinData.sum / window
    let maxVal := max bt.curWinMaxVal e
    let minVal := min bt.curWinMinVal e
    let nrThreshSample : ℚ := (nrSample : ℚ) + 1 - window
    let thresh := max (maxVal - moveAvg) (moveAvg - minVal)
    let threshAvg := (bt.thresh * (nrThreshSample - 1) + thresh) / nrThreshSample
    let usedWin := item.usedWin + 1
    if window ≤ usedWin then
      ({ item with
          baseThresh := ⟨nrSample, moveWinData, maxsize, 0, moveAvg, threshAvg⟩, usedWin := 0 },
        some thresh)
    else
      ({ item with
          baseThresh := ⟨nrSample, moveWinData, minVal, maxVal, moveAvg, threshAvg⟩,
          usedWin := usedWin },
        some thresh)
  else
    ({ item with
        baseThresh := ⟨nrSample, bt.moveWinData ++ [e], min bt.curWinMinVal e,
          max bt.curWinMaxVal e, bt.moveAvg, bt.thresh⟩,
        usedWin := item.usedWin + 1 },
      none)

def Compensation.resetStable (ct : Compensation) : Compensation :=
  { ct with
    minStableThresh := maxsize, maxStableThresh := 0, stableThreshAvg := 0, decRangeThreshAvg := 0,
    nrStableThreshSample := 0, decRangeCnt := 0 }

def calcStableThresh (window : ℕ) (ct : Compensation) (curBaseThresh curThresh : ℚ) :
    Compensation :=
  let avg := ct.decRangeThreshAvg
  if curThresh - avg < (curBaseThresh - avg) / 10 then
    let tSum := ct.stableThreshAvg * ct.nrStableThreshSample + curThresh
    let nrStableThreshSample := ct.nrStableThreshSample + 1
    let ct := { ct with
      nrStableThreshSample := nrStableThreshSample
      stableThreshAvg := tSum / nrStableThreshSample
      minStableThresh := min ct.minStableThresh curThresh
      maxStableThresh := max ct.maxStableThresh curThresh }
    if (window : ℚ) * (3 / 2) ≤ ct.nrStableThreshSample then
      { ct with
        thresh := max (ct.stableThreshAvg - ct.minStableThresh)
          (ct.maxStableThresh - ct.stableThreshAvg)
        shouldUpdThreshComp := false }.resetStable
    else ct
  else ct

def calcCompThresh (window : ℕ) (item : ExceptChkItem) (lastBaseThresh curThresh : ℚ) :
    ExceptChkItem :=
  let curBaseThresh := item.baseThresh.thresh
  let ct := item.compensation
  let ct :=
    if ct.shouldUpdThreshComp ∧ (ct.thresh < curBaseThresh ∨ item.usedWin = 0) then
      { ct with thresh := curBaseThresh }
    else ct
  if curBaseThresh < lastBaseThresh then
    let tSum := ct.decRangeThreshAvg * ct.decRangeCnt + curThresh
    let decRangeCnt := ct.decRangeCnt + 1
    let ct := { ct with decRangeCnt := decRangeCnt, decRangeThreshAvg := tSum / decRangeCnt }
    if (window : ℚ) * (3 / 2) ≤ ct.decRangeCnt then
      { item with compensation := calcStableThresh window ct curBaseThresh curThresh }
    else { item with compensation := ct }
  else
    { item with compensation := ct.resetStable }

def updateDynThresh (window : ℕ) (item : ExceptChkItem) (e : ℚ) : ExceptChkItem :=
  let lastBaseThresh := item.baseThresh.thresh
  match calcBaseThresh window item e with
  | (item, none) => item
  | (item, some curThresh) =>
    let item := calcCompThresh window item lastBaseThresh curThresh
    { item with
      dynTresh := item.baseThresh.thresh + item.baseThresh.moveAvg + item.compensation.thresh }

def disableThreshComp (item : ExceptChkItem) : ExceptChkItem :=
  if item.compensation.shouldUpdThreshComp then
    { item with
      dynTresh := item.baseThresh.thresh + item.baseThresh.moveAvg
      compensation :=
        { item.compensation with shouldUpdThreshComp := false, thresh := 1 / 1000000 } }
  else item

def afterSamples (window : ℕ) (xs : List ℚ) : ExceptChkItem :=
  xs.foldl (updateDynThresh window) .new

def curThresh (window : ℕ) (xs : List ℚ) : Option ℚ :=
  xs.getLast?.bind fun e => (calcBaseThresh window (afterSamples window xs.dropLast) e).2

def threshs (window : ℕ) (xs : List ℚ) : List ℚ := xs.inits.filterMap (curThresh window)

section Step

variable {window : ℕ} {item : ExceptChkItem} {xs : List ℚ} {e : ℚ}

theorem updateDynThresh_base (window : ℕ) (item : ExceptChkItem) (e : ℚ) :
    (updateDynThresh window item e).baseThresh = (calcBaseThresh window item e).1.baseThresh ∧
      (updateDynThresh window item e).usedWin = (calcBaseThresh window item e).1.usedWin := by
  have hcomp : ∀ (item : ExceptChkItem) (last cur : ℚ),
      (calcCompThresh window item last cur).baseThresh = item.baseThresh ∧
        (calcCompThresh window item last cur).usedWin = item.usedWin := by
    intro item last cur
    simp only [calcCompThresh]
    split_ifs <;> exact ⟨rfl, rfl⟩
  rw [updateDynThresh]
  rcases hcalc : calcBaseThresh window item e with ⟨item', _ | cur⟩
  · exact ⟨rfl, rfl⟩
  · exact hcomp item' _ cur

structure State (window : ℕ) (xs : List ℚ) (item : ExceptChkItem) : Prop where
  nrSample : item.baseThresh.nrSample = xs.length
  usedWin : item.usedWin = xs.length % window
  ring : IsRing window item.baseThresh.moveWinData xs
  curWinMaxVal : item.baseThresh.curWinMaxVal = (inBlock window xs).foldl max 0
  curWinMinVal : item.baseThresh.curWinMinVal = (inBlock window xs).foldl min maxsize

theorem State.new (window : ℕ) : State window [] .new where
  nrSample := rfl
  usedWin := (Nat.zero_mod window).symm
  ring := IsRing.nil
  curWinMaxVal := by rw [inBlock, drop_nil]; rfl
  curWinMinVal := by rw [inBlock, drop_nil]; rfl

def computed (window : ℕ) (xs : List ℚ) : ℚ :=
  max ((lastBlock window xs).foldl max 0 - mean (lastN window xs))
    (mean (lastN window xs) - (lastBlock window xs).foldl min maxsize)

theorem State.ring_put (hw : 0 < window) (h : State window xs item) (e : ℚ) :
    IsRing window (if item.baseThresh.moveWinData.length < window
      then item.baseThresh.moveWinData ++ [e]
      else item.baseThresh.moveWinData.set (item.usedWin % window) e) (xs ++ [e]) := by
  rw [h.ring.length_eq, h.usedWin, Nat.mod_mod]
  rcases Nat.lt_or_ge xs.length window with hlt | hge
  · rw [if_pos (by omega)]
    exact h.ring.append e hlt
  · rw [if_neg (by omega)]
    exact h.ring.set e hw hge

theorem State.extremes (h : State window xs item) (e : ℚ) :
    max item.baseThresh.curWinMaxVal e = (lastBlock window (xs ++ [e])).foldl max 0 ∧
      min item.baseThresh.curWinMinVal e = (lastBlock window (xs ++ [e])).foldl min maxsize := by
  rw [lastBlock_concat, foldl_append, foldl_append, h.curWinMaxVal, h.curWinMinVal]
  exact ⟨rfl, rfl⟩

theorem inBlock_concat (hw : 0 < window) (xs : List ℚ) (e : ℚ) :
    inBlock window (xs ++ [e]) =
      if window ≤ xs.length % window + 1 then [] else lastBlock window (xs ++ [e]) := by
  rw [inBlock, lastBlock, length_append, length_singleton, Nat.add_sub_cancel]
  rcases div_mod_succ xs.length hw with ⟨hlt, hdiv, -⟩ | ⟨heq, hdiv, hmod⟩
  · rw [if_neg (by omega), hdiv]
  · rw [if_pos heq.ge, drop_eq_nil_iff, length_append, length_singleton]
    exact (Nat.eq_mul_of_div_eq_right (Nat.dvd_of_mod_eq_zero hmod) rfl).le

theorem State.step (hw : 0 < window) (h : State window xs item) (e : ℚ) :
    State window (xs ++ [e]) (calcBaseThresh window item e).1 := by
  obtain ⟨hmax, hmin⟩ := h.extremes e
  have hblock := inBlock_concat hw xs e
  have hring := h.ring_put hw e
  have hlen : (xs ++ [e]).length = xs.length + 1 := length_append
  have hnr : item.baseThresh.nrSample + 1 = (xs ++ [e]).length := by rw [h.nrSample, hlen]
  rw [← h.usedWin] at hblock
  rcases div_mod_succ xs.length hw with ⟨hlt, -, hmod⟩ | ⟨heq, -, hmod⟩
  · -- the block is not full: the counter goes on
    rw [← h.usedWin] at hlt
    have hused : item.usedWin + 1 = (xs ++ [e]).length % window := by rw [hlen, hmod, h.usedWin]
    rw [if_neg (by omega)] at hblock
    rw [← hblock] at hmax hmin
    simp only [calcBaseThresh, if_neg (Nat.not_le.mpr hlt)]
    split_ifs with hfirst hroom
    · exact ⟨hnr, hused, by rwa [if_pos hroom] at hring, hmax, hmin⟩
    · exact ⟨hnr, hused, by rwa [if_neg hroom] at hring, hmax, hmin⟩
    · refine ⟨hnr, hused, h.ring.append e ?_, hmax, hmin⟩
      rw [h.nrSample] at hfirst
      omega
  · -- the block is full
    rw [← h.usedWin] at heq
    have hused : 0 = (xs ++ [e]).length % window := by rw [hlen, hmod]
    rw [if_pos heq.ge] at hblock
    have hle : xs.length % window ≤ xs.length := Nat.mod_le _ _
    have hfirst : window ≤ item.baseThresh.nrSample + 1 := by
      rw [h.nrSample, ← heq, h.usedWin]
      omega
    simp only [calcBaseThresh, if_pos hfirst, if_pos heq.ge]
    exact ⟨hnr, hused, hring, by rw [hblock]; rfl, by rw [hblock]; rfl⟩

theorem State.calcBaseThresh_of_le (hw : 0 < window) (h : State window xs item) (e : ℚ)
    (hle : window ≤ xs.length + 1) :
    (calcBaseThresh window item e).2 = some (computed window (xs ++ [e])) ∧
      (calcBaseThresh window item e).1.baseThresh.moveAvg = mean (lastN window (xs ++ [e])) ∧
      (calcBaseThresh window item e).1.baseThresh.thresh =
        (item.baseThresh.thresh * (xs.length + 1 - window : ℕ) + computed window (xs ++ [e])) /
          ((xs.length + 1 - window : ℕ) + 1) := by
  obtain ⟨hmax, hmin⟩ := h.extremes e
  have hlen : (lastN window (xs ++ [e])).length = window := by
    rw [length_lastN, length_append, length_singleton]
    omega
  have havg : (if item.baseThresh.moveWinData.length < window
      then item.baseThresh.moveWinData ++ [e]
      else item.baseThresh.moveWinData.set (item.usedWin % window) e).sum / (window : ℚ) =
        mean (lastN window (xs ++ [e])) := by
    rw [(h.ring_put hw e).sum_eq, mean, hlen]
  have hcount : ((item.baseThresh.nrSample + 1 : ℕ) : ℚ) + 1 - window =
      (xs.length + 1 - window : ℕ) + 1 := by
    rw [h.nrSample, Nat.cast_sub hle, add_sub_right_comm]
  have hfirst : window ≤ item.baseThresh.nrSample + 1 := by rwa [h.nrSample]
  simp only [calcBaseThresh, if_pos hfirst, havg, hmax, hmin, hcount, add_sub_cancel_right]
  split_ifs <;> exact ⟨rfl, rfl, rfl⟩

theorem State.calcBaseThresh_of_lt (h : State window xs item) (e : ℚ)
    (hlt : xs.length + 1 < window) :
    (calcBaseThresh window item e).2 = none ∧
      (calcBaseThresh window item e).1.baseThresh.thresh = item.baseThresh.thresh := by
  have hfirst : ¬ window ≤ item.baseThresh.nrSample + 1 := by
    rw [h.nrSample]
    omega
  simp only [calcBaseThresh, if_neg hfirst, and_self]

end Step

section Run

variable {window : ℕ} {xs : List ℚ}

theorem afterSamples_concat (window : ℕ) (xs : List ℚ) (e : ℚ) :
    afterSamples window (xs ++ [e]) = updateDynThresh window (afterSamples window xs) e := by
  rw [afterSamples, afterSamples, foldl_append, foldl_cons, foldl_nil]

theorem curThresh_concat (window : ℕ) (xs : List ℚ) (e : ℚ) :
    curThresh window (xs ++ [e]) = (calcBaseThresh window (afterSamples window xs) e).2 := by
  rw [curThresh, getLast?_concat, dropLast_concat]
  rfl

theorem threshs_nil (window : ℕ) : threshs window [] = [] := rfl

theorem threshs_concat (window : ℕ) (xs : List ℚ) (e : ℚ) :
    threshs window (xs ++ [e]) = threshs window xs ++ (curThresh window (xs ++ [e])).toList := by
  rw [threshs, inits_append, filterMap_append, ← threshs]
  cases h : curThresh window (xs ++ [e]) <;> simp [h]

theorem state_afterSamples (hw : 0 < window) (xs : List ℚ) :
    State window xs (afterSamples window xs) := by
  induction xs using reverseRecOn with
  | nil => exact State.new window
  | append_singleton xs e ih =>
    obtain ⟨hbase, hused⟩ := updateDynThresh_base window (afterSamples window xs) e
    have hstep := ih.step hw e
    rw [afterSamples_concat]
    constructor
    · rw [hbase]
      exact hstep.nrSample
    · rw [hused]
      exact hstep.usedWin
    · rw [hbase]
      exact hstep.ring
    · rw [hbase]
      exact hstep.curWinMaxVal
    · rw [hbase]
      exact hstep.curWinMinVal

theorem exists_concat_of_le (hw : 0 < window) (hle : window ≤ xs.length) :
    ∃ ys e, xs = ys ++ [e] ∧ window ≤ ys.length + 1 := by
  rcases eq_nil_or_concat' xs with rfl | ⟨ys, e, rfl⟩
  · exact absurd hle (Nat.not_le.mpr hw)
  · rw [length_append, length_singleton] at hle
    exact ⟨ys, e, rfl, hle⟩

theorem curThresh_of_le (hw : 0 < window) (hle : window ≤ xs.length) :
    curThresh window xs = some (computed window xs) := by
  obtain ⟨ys, e, rfl, hys⟩ := exists_concat_of_le hw hle
  rw [curThresh_concat]
  exact ((state_afterSamples hw ys).calcBaseThresh_of_le hw e hys).1

theorem curThresh_of_lt (hw : 0 < window) (hlt : xs.length < window) :
    curThresh window xs = none := by
  rcases eq_nil_or_concat' xs with rfl | ⟨ys, e, rfl⟩
  · rfl
  · rw [length_append, length_singleton] at hlt
    rw [curThresh_concat]
    exact ((state_afterSamples hw ys).calcBaseThresh_of_lt e hlt).1

theorem moveAvg_afterSamples (hw : 0 < window) (hle : window ≤ xs.length) :
    (afterSamples window xs).baseThresh.moveAvg = mean (lastN window xs) := by
  obtain ⟨ys, e, rfl, hys⟩ := exists_concat_of_le hw hle
  rw [afterSamples_concat, (updateDynThresh_base window _ e).1]
  exact ((state_afterSamples hw ys).calcBaseThresh_of_le hw e hys).2.1

theorem length_threshs (hw : 0 < window) (xs : List ℚ) :
    (threshs window xs).length = xs.length + 1 - window := by
  induction xs using reverseRecOn with
  | nil =>
    rw [threshs_nil]
    exact (Nat.sub_eq_zero_of_le hw).symm
  | append_singleton xs e ih =>
    rw [threshs_concat, length_append, ih, length_append, length_singleton]
    rcases Nat.lt_or_ge (xs.length + 1) window with hlt | hge
    · rw [curThresh_of_lt hw (by rw [length_append]; exact hlt)]
      simp only [toList_none, length_nil]
      omega
    · rw [curThresh_of_le hw (by rw [length_append]; exact hge)]
      simp only [toList_some, length_singleton]
      omega

theorem thresh_afterSamples (hw : 0 < window) (xs : List ℚ) :
    (afterSamples window xs).baseThresh.thresh = mean (threshs window xs) := by
  induction xs using reverseRecOn with
  | nil =>
    rw [threshs_nil, mean, sum_nil, zero_div]
    rfl
  | append_singleton xs e ih =>
    have hstate := state_afterSamples hw xs
    rw [afterSamples_concat, (updateDynThresh_base window _ e).1, threshs_concat]
    rcases Nat.lt_or_ge (xs.length + 1) window with hlt | hge
    · obtain ⟨hnone, hsame⟩ := hstate.calcBaseThresh_of_lt e hlt
      rw [curThresh_concat, hnone, hsame, ih, toList_none, append_nil]
    · obtain ⟨hsome, -, hnext⟩ := hstate.calcBaseThresh_of_le hw e hge
      rw [curThresh_concat, hsome, hnext, ih, toList_some, mean_concat, length_threshs hw]

end Run

def IsThresh (win : List ℚ) (t : ℚ) : Prop :=
  ∃ hi lo, IsGreatest {x | x ∈ win} hi ∧ IsLeast {x | x ∈ win} lo ∧
    t = max (hi - mean win) (mean win - lo)

structure Documented (window : ℕ) (xs : List ℚ) : Prop where
  moveAvg : (afterSamples window xs).baseThresh.moveAvg = mean (lastN window xs)
  thresh : ∃ t, curThresh window xs = some t ∧ IsThresh (lastN window xs) t
  base : (afterSamples window xs).baseThresh.thresh = mean (threshs window xs)

def counted (window : ℕ) (xs : List ℚ) : List ℚ :=
  if ∀ x ∈ lastBlock window xs, maxsize < x then maxsize :: lastBlock window xs
  else lastBlock window xs

structure Reached (window : ℕ) (xs : List ℚ) : Prop where
  reached : ∃ x ∈ counted window xs, ∀ y ∈ lastN window xs,
    |y - mean (lastN window xs)| ≤ |x - mean (lastN window xs)|
  within : ∀ x ∈ counted window xs, ∃ y ∈ lastN window xs,
    |x - mean (lastN window xs)| ≤ |y - mean (lastN window xs)|

section Documented

variable {window : ℕ} {xs : List ℚ}

theorem extremes_counted (window : ℕ) (hxs : xs ≠ []) (hpos : ∀ x ∈ xs, 0 ≤ x) :
    IsGreatest {x | x ∈ counted window xs} ((lastBlock window xs).foldl max 0) ∧
      IsLeast {x | x ∈ counted window xs} ((lastBlock window xs).foldl min maxsize) := by
  obtain ⟨b, hb⟩ := exists_mem_of_ne_nil _ (lastBlock_ne_nil (w := window) hxs)
  have hposb : ∀ x ∈ lastBlock window xs, 0 ≤ x := fun x hx => hpos x (mem_of_mem_drop hx)
  obtain ⟨hmax, hmaxle⟩ := isGreatest_foldl_max 0 (lastBlock window xs)
  obtain ⟨hmin, hminle⟩ := isLeast_foldl_min maxsize (lastBlock window xs)
  -- the `0` is not above the samples, which are not negative
  have hmem : (lastBlock window xs).foldl max 0 ∈ lastBlock window xs := by
    rcases mem_cons.mp hmax with hzero | hmem
    · have hbz : b = 0 :=
        le_antisymm ((hmaxle (mem_cons_of_mem _ hb)).trans hzero.le) (hposb b hb)
      rwa [hzero, ← hbz]
    · exact hmem
  rw [counted]
  split_ifs with hall
  · refine ⟨⟨mem_cons_of_mem _ hmem, ?_⟩, hmin, hminle⟩
    intro x hx
    rcases mem_cons.mp hx with rfl | hx
    · exact (hall _ hmem).le
    · exact hmaxle (mem_cons_of_mem _ hx)
  · refine ⟨⟨hmem, fun x hx => hmaxle (mem_cons_of_mem _ hx)⟩, ?_,
      fun x hx => hminle (mem_cons_of_mem _ hx)⟩
    obtain ⟨c, hc, hlt⟩ := not_forall₂.mp hall
    have hle := not_lt.mp hlt
    rcases mem_cons.mp hmin with heq | hmem'
    · have hcm : c = maxsize :=
        le_antisymm hle (heq.ge.trans (hminle (mem_cons_of_mem _ hc)))
      show _ ∈ lastBlock window xs
      rwa [heq, ← hcm]
    · exact hmem'

theorem IsThresh.isGreatest {win : List ℚ} {t : ℚ} (h : IsThresh win t) :
    IsGreatest ((fun x => |x - mean win|) '' {x | x ∈ win}) t := by
  obtain ⟨hi, lo, hhi, hlo, rfl⟩ := h
  exact isGreatest_abs_sub hhi hlo (mean win)

theorem exists_isThresh {win : List ℚ} (hwin : win ≠ []) : ∃ t, IsThresh win t := by
  obtain ⟨x, rest, rfl⟩ := exists_cons_of_ne_nil hwin
  exact ⟨_, _, _, isGreatest_foldl_max x rest, isLeast_foldl_min x rest, rfl⟩

theorem isThresh_computed_iff (hw : 0 < window) (hxs : xs ≠ []) (hpos : ∀ x ∈ xs, 0 ≤ x) :
    IsThresh (lastN window xs) (computed window xs) ↔ Reached window xs := by
  have hwin : lastN window xs ≠ [] := by
    rw [← length_pos_iff, length_lastN]
    exact Nat.lt_min.mpr ⟨length_pos_iff.mpr hxs, hw⟩
  obtain ⟨hmax, hmin⟩ := extremes_counted window hxs hpos
  obtain ⟨t, ht⟩ := exists_isThresh hwin
  have heq := eq_iff_of_isGreatest (isGreatest_abs_sub hmax hmin (mean (lastN window xs)))
    ht.isGreatest
  simp only [Set.exists_mem_image, Set.forall_mem_image] at heq
  constructor
  · intro h
    obtain ⟨hreached, hwithin⟩ := heq.mp (h.isGreatest.unique ht.isGreatest)
    exact ⟨hreached, hwithin⟩
  · intro h
    rw [computed, heq.mpr ⟨h.reached, h.within⟩]
    exact ht

theorem documented_iff (window : ℕ) (hw : 2 ≤ window) (xs : List ℚ) (hpos : ∀ x ∈ xs, 0 ≤ x)
    (hle : window ≤ xs.length) : Documented window xs ↔ Reached window xs := by
  have hw' : 0 < window := Nat.zero_lt_of_lt hw
  have hxs : xs ≠ [] := length_pos_iff.mp (hw'.trans_le hle)
  rw [← isThresh_computed_iff hw' hxs hpos]
  constructor
  · intro h
    obtain ⟨t, ht, hthr⟩ := h.thresh
    rw [curThresh_of_le hw' hle] at ht
    cases ht
    exact hthr
  · intro h
    exact ⟨moveAvg_afterSamples hw' hle, ⟨_, curThresh_of_le hw' hle, h⟩,
      thresh_afterSamples hw' xs⟩

theorem documented_first_window : Documented 3 [0, 0, 9] := by
  refine (documented_iff 3 (by decide) [0, 0, 9] ?_ (by decide)).mpr ⟨?_, ?_⟩
  · decide
  · decide +kernel
  · decide +kernel

theorem curThresh_after_reset :
    curThresh 3 [0, 0, 9, 0] = some 3 ∧ IsThresh (lastN 3 [0, 0, 9, 0]) 6 ∧
      ¬ Documented 3 [0, 0, 9, 0] := by
  have hcur : curThresh 3 [0, 0, 9, 0] = some 3 := by decide +kernel
  have hthresh : IsThresh (lastN 3 [0, 0, 9, 0]) 6 := by
    refine ⟨9, 0, ⟨?_, ?_⟩, ⟨?_, ?_⟩, ?_⟩
    · exact (by decide +kernel : (9 : ℚ) ∈ lastN 3 [0, 0, 9, 0])
    · exact (by decide +kernel : ∀ x ∈ lastN 3 [0, 0, 9, 0], x ≤ (9 : ℚ))
    · exact (by decide +kernel : (0 : ℚ) ∈ lastN 3 [0, 0, 9, 0])
    · exact (by decide +kernel : ∀ x ∈ lastN 3 [0, 0, 9, 0], (0 : ℚ) ≤ x)
    · decide +kernel
  refine ⟨hcur, hthresh, fun h => ?_⟩
  obtain ⟨t, ht, hdoc⟩ := h.thresh
  rw [hcur] at ht
  cases ht
  exact absurd (hdoc.isGreatest.unique hthresh.isGreatest) (by decide)

end Documented

structure ExceptCheckClass (κ : Type*) where
  window : ℕ
  exceptChkDicts : κ → Option ExceptChkItem

inductive Call (κ : Type*) where
  | addItem (key : κ)
  | updateDynThresh (key : κ) (e : ℚ)
  | disableThreshComp (key : κ)

def Call.sample {κ : Type*} [DecidableEq κ] (key : κ) : Call κ → Option ℚ
  | .updateDynThresh k e => if k = key then some e else none
  | _ => none

def ExceptChkItem.SameBase (item item' : ExceptChkItem) : Prop :=
  item.baseThresh = item'.baseThresh ∧ item.usedWin = item'.usedWin

theorem disableThreshComp_base (item : ExceptChkItem) : (disableThreshComp item).SameBase item := by
  rw [disableThreshComp]
  split_ifs <;> exact ⟨rfl, rfl⟩

theorem ExceptChkItem.SameBase.updateDynThresh {item item' : ExceptChkItem}
    (h : item.SameBase item') (window : ℕ) (e : ℚ) :
    (IoMon.updateDynThresh window item e).SameBase (IoMon.updateDynThresh window item' e) := by
  obtain ⟨hbase, hused⟩ := updateDynThresh_base window item e
  obtain ⟨hbase', hused'⟩ := updateDynThresh_base window item' e
  rw [SameBase, hbase, hbase', hused, hused']
  simp only [calcBaseThresh, h.1, h.2]
  split_ifs <;> exact ⟨rfl, rfl⟩

namespace ExceptCheckClass

variable {κ : Type*} [DecidableEq κ]

def init (κ : Type*) (window : Option ℕ) : ExceptCheckClass κ := ⟨window.getD 100, fun _ => none⟩

def put (c : ExceptCheckClass κ) (key : κ) (item : ExceptChkItem) : ExceptCheckClass κ :=
  { c with exceptChkDicts := Function.update c.exceptChkDicts key (some item) }

def call (c : ExceptCheckClass κ) : Call κ → Option (ExceptCheckClass κ)
  | .addItem key => some (c.put key ((c.exceptChkDicts key).getD .new))
  | .updateDynThresh key e =>
    (c.exceptChkDicts key).map fun item => c.put key (IoMon.updateDynThresh c.window item e)
  | .disableThreshComp key =>
    (c.exceptChkDicts key).map fun item => c.put key (IoMon.disableThreshComp item)

def getNrDataSample (c : ExceptCheckClass κ) (key : κ) : Option ℕ :=
  (c.exceptChkDicts key).map fun item => item.baseThresh.nrSample

def getDynThresh (c : ExceptCheckClass κ) (key : κ) : Option ℚ :=
  (c.exceptChkDicts key).map fun item => item.dynTresh

section Calls

variable {c c' : ExceptCheckClass κ} {key : κ} {item : ExceptChkItem}

theorem call_cases {x : Call κ} (h : c.call x = some c') :
    (∃ k, c.exceptChkDicts k = none ∧ (∀ key, x.sample key = none) ∧ c' = c.put k .new) ∨
      (∃ k item item', c.exceptChkDicts k = some item ∧ c' = c.put k item' ∧
        (∀ key, x.sample key = none) ∧ item'.SameBase item) ∨
      ∃ k e item, c.exceptChkDicts k = some item ∧ x = .updateDynThresh k e ∧
        c' = c.put k (IoMon.updateDynThresh c.window item e) := by
  cases x with
  | addItem k =>
    cases h
    cases hk : c.exceptChkDicts k with
    | none => exact .inl ⟨k, hk, fun _ => rfl, rfl⟩
    | some item => exact .inr (.inl ⟨k, item, item, hk, rfl, fun _ => rfl, rfl, rfl⟩)
  | updateDynThresh k e =>
    obtain ⟨item, hk, rfl⟩ := map_eq_some_iff.mp h
    exact .inr (.inr ⟨k, e, item, hk, rfl, rfl⟩)
  | disableThreshComp k =>
    obtain ⟨item, hk, rfl⟩ := map_eq_some_iff.mp h
    exact .inr (.inl ⟨k, item, _, hk, rfl, fun _ => rfl, disableThreshComp_base item⟩)

structure Follows (window : ℕ) (calls : List (Call κ)) (c : ExceptCheckClass κ) : Prop where
  window_eq : c.window = window
  absent : ∀ key, c.exceptChkDicts key = none → calls.filterMap (Call.sample key) = []
  present : ∀ key item, c.exceptChkDicts key = some item →
    item.SameBase (afterSamples window (calls.filterMap (Call.sample key)))

theorem put_same (c : ExceptCheckClass κ) (k : κ) (item : ExceptChkItem) :
    (c.put k item).exceptChkDicts k = some item :=
  Function.update_self ..

theorem put_of_ne (c : ExceptCheckClass κ) {k key : κ} (item : ExceptChkItem) (h : key ≠ k) :
    (c.put k item).exceptChkDicts key = c.exceptChkDicts key :=
  Function.update_of_ne h ..

theorem Follows.put {window : ℕ} {calls calls' : List (Call κ)} {k : κ}
    (h : Follows window calls c)
    (hother : ∀ key, key ≠ k →
      calls'.filterMap (Call.sample key) = calls.filterMap (Call.sample key))
    (hsame : item.SameBase (afterSamples window (calls'.filterMap (Call.sample k)))) :
    Follows window calls' (c.put k item) := by
  refine ⟨h.window_eq, fun key hnone => ?_, fun key item' hsome => ?_⟩
  · rcases eq_or_ne key k with rfl | hne
    · rw [put_same] at hnone
      cases hnone
    · rw [put_of_ne c item hne] at hnone
      rw [hother key hne, h.absent key hnone]
  · rcases eq_or_ne key k with rfl | hne
    · rw [put_same] at hsome
      cases hsome
      exact hsame
    · rw [put_of_ne c item hne] at hsome
      rw [hother key hne]
      exact h.present key item' hsome

theorem Follows.call {window : ℕ} {calls : List (Call κ)} {x : Call κ}
    (h : Follows window calls c) (hcall : c.call x = some c') :
    Follows window (calls ++ [x]) c' := by
  have hsamples : ∀ key, (calls ++ [x]).filterMap (Call.sample key) =
      calls.filterMap (Call.sample key) ++ (x.sample key).toList := by
    intro key
    rw [filterMap_append]
    cases hx : x.sample key <;> simp [hx]
  rcases call_cases hcall with ⟨k, hk, hx, rfl⟩ | ⟨k, item, item', hk, rfl, hx, hsame⟩ |
    ⟨k, e, item, hk, rfl, rfl⟩
  · refine h.put (fun key _ => ?_) ?_
    · rw [hsamples, hx, toList_none, append_nil]
    · rw [hsamples, hx, h.absent k hk]
      exact ⟨rfl, rfl⟩
  · refine h.put (fun key _ => ?_) ?_
    · rw [hsamples, hx, toList_none, append_nil]
    · obtain ⟨hbase, hused⟩ := h.present k item hk
      rw [hsamples, hx, toList_none, append_nil]
      exact ⟨hsame.1.trans hbase, hsame.2.trans hused⟩
  · refine h.put (fun key hne => ?_) ?_
    · rw [hsamples, Call.sample, if_neg hne.symm, toList_none, append_nil]
    · rw [hsamples, Call.sample, if_pos rfl, toList_some, afterSamples_concat, h.window_eq]
      exact (h.present k item hk).updateDynThresh window e

end Calls

end ExceptCheckClass

end Sysak.IoMon
