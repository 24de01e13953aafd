/-
# The averages of the delays

`latencyCalculate` of `iosdiag/data_analysis/iosdiag_data_analysis.py`.  The number of requests of a
disk is half the number of its lines, rounded down, and a division by it or by the average total
delay may fail.  `/` is that of Python 3, with exact quotients.
-/

import Sysak.Iosdiag.Attribution
import Sysak.Lib.LuaTable
import Sysak.Lib.MovingWindow

namespace Sysak.Iosdiag

open Lib Lib.Json List Option

structure ComponentReport where
  component : Bytes
  percent : Bytes
  max : ℤ
  min : ℤ
  avg : ℚ

namespace LatencyAnalysis

def totalIos (a : LatencyAnalysis) (disk : Bytes) : ℕ := a.lineCount disk / 2

def avgTotalDelay (a : LatencyAnalysis) (disk : Bytes) : ℚ := a.totalDelay disk / a.totalIos disk

end LatencyAnalysis

section Calculate

variable (text : ℚ → Bytes)

def componentReport (totalIos : ℕ) (avgTotalDelay : ℚ) (st : ComponentStat) : ComponentReport :=
  let avgDelay : ℚ := st.avg / totalIos
  { component := st.component
    percent := text (avgDelay * 100 / avgTotalDelay) ++ bytes "%"
    max := st.max
    min := st.min
    avg := avgDelay }

def latencyCalculate (a : LatencyAnalysis) : Option (Bytes → List ComponentReport) :=
  if a.diskIdxDicts.any fun p => a.totalIos p.1 = 0 ∨ a.avgTotalDelay p.1 = 0 then none
  else some fun disk =>
    (a.stats disk).map (componentReport text (a.totalIos disk) (a.avgTotalDelay disk))

end Calculate

abbrev Dict : Type := List (Bytes × Json)

def diskOf (s : Dict) : Option Bytes := (pyGet s (bytes "diskname") >>= asStr).toOption

def parsed (lines : List Bytes) : List Dict :=
  lines.filterMap fun line => (loads line).bind fun v => (asDict v).toOption

def linesOf (ss : List Dict) (disk : Bytes) : List Dict := ss.filter fun s => diskOf s = some disk

def delayLines (ss : List Dict) (disk : Bytes) : List Dict :=
  (linesOf ss disk).filter fun s => (s.lookup (bytes "abnormal")).isNone

def componentDelays (ss : List Dict) (disk : Bytes) (idx : ℕ) : List ℤ :=
  (delayLines ss disk).filterMap fun s => (delayAt s idx).toOption

def totalDelays (ss : List Dict) (disk : Bytes) : List ℤ :=
  (delayLines ss disk).filterMap fun s => (pyGet s (bytes "totaldelay") >>= asInt).toOption

def LatencyCorrect (ms : ℤ → Bytes) (text : ℚ → Bytes) (lines : List Bytes) : Prop :=
  ∃ a report, readLines ms lines = .ok a ∧ latencyCalculate text a = some report ∧
    ∀ disk, delayLines (parsed lines) disk ≠ [] → ∀ idx < 4,
      ∃ r, (report disk)[idx]? = some r ∧
        IsGreatest {x | x ∈ componentDelays (parsed lines) disk idx} r.max ∧
        IsLeast {x | x ∈ componentDelays (parsed lines) disk idx} r.min ∧
        r.avg = mean ((componentDelays (parsed lines) disk idx).map (Int.cast : ℤ → ℚ))

open LatencyAnalysis

structure Took (a : LatencyAnalysis) (ss : List Dict) (a' : LatencyAnalysis) : Prop where
  wellFormed : a'.WellFormed
  met : ∀ d, (a'.diskIdxDicts.lookup d).isSome ↔
    (a.diskIdxDicts.lookup d).isSome ∨ linesOf ss d ≠ []
  lineCount : ∀ d, a'.lineCount d = a.lineCount d + (linesOf ss d).length
  totalDelay : ∀ d, a'.totalDelay d = a.totalDelay d + (totalDelays ss d).sum
  read : ∀ s ∈ ss, (s.lookup (bytes "abnormal")).isNone →
    ∀ idx < 4, ∃ delay, delayAt s idx = .ok delay
  stats : ∀ d idx, (a'.stats d)[idx]? =
    ((a.stats d)[idx]?).map fun st => (componentDelays ss d idx).foldl addDelay st

variable {a a' b c : LatencyAnalysis} {s : Dict} {ss ss' : List Dict} {ms : ℤ → Bytes}
  {lines : List Bytes} {disk line : Bytes}

theorem Took.refl (h : a.WellFormed) : Took a [] a where
  wellFormed := h
  met d := by simp [linesOf]
  lineCount d := rfl
  totalDelay d := (add_zero _).symm
  read s hs := by cases hs
  stats d idx := by simp [componentDelays, delayLines, linesOf]

theorem Took.trans (h : Took a ss b) (h' : Took b ss' c) : Took a (ss ++ ss') c where
  wellFormed := h'.wellFormed
  met d := by
    have happend : linesOf (ss ++ ss') d ≠ [] ↔ linesOf ss d ≠ [] ∨ linesOf ss' d ≠ [] := by
      rw [linesOf, filter_append, ne_eq, append_eq_nil_iff, not_and_or]
      rfl
    rw [h'.met, h.met, happend]
    exact or_assoc
  lineCount d := by
    rw [h'.lineCount, h.lineCount, linesOf, linesOf, linesOf, filter_append, length_append,
      Nat.add_assoc]
  totalDelay d := by
    rw [h'.totalDelay, h.totalDelay]
    simp [totalDelays, delayLines, linesOf, add_assoc]
  read s hs := by
    rcases mem_append.mp hs with hs | hs
    · exact h.read s hs
    · exact h'.read s hs
  stats d idx := by
    rw [h'.stats, h.stats, Option.map_map]
    simp [componentDelays, delayLines, linesOf, Function.comp_def]

section Line

variable (hdisk : diskOf s = some disk) (d : Bytes)
include hdisk

theorem linesOf_singleton : linesOf [s] d = if d = disk then [s] else [] := by
  rw [linesOf, filter_singleton, hdisk]
  simp [eq_comm (a := d)]

theorem delayLines_singleton : delayLines [s] d =
    if d = disk ∧ (s.lookup (bytes "abnormal")).isNone then [s] else [] := by
  rw [delayLines, linesOf_singleton hdisk]
  by_cases hd : d = disk
  · simp only [hd, true_and, if_true, filter_cons, filter_nil]
  · simp only [hd, false_and, if_false, filter_nil]

theorem LatencyAnalysis.Met.met_lines (h : Met a disk c) : (c.diskIdxDicts.lookup d).isSome ↔
    (a.diskIdxDicts.lookup d).isSome ∨ linesOf [s] d ≠ [] := by
  rw [h.met, linesOf_singleton hdisk]
  split_ifs with hd <;> simp [hd]

theorem LatencyAnalysis.Met.lineCount_lines (h : Met a disk c) :
    c.lineCount d = a.lineCount d + (linesOf [s] d).length := by
  rw [h.lineCount, linesOf_singleton hdisk]
  split_ifs <;> rfl

end Line

theorem LatencyAnalysis.Met.took_summary (h : Met a disk c) (hdisk : diskOf s = some disk)
    (habn : (s.lookup (bytes "abnormal")).isSome = true)
    (hok : processLatencySummary ms c s = .ok a') : Took a [s] a' := by
  have hwf := wellFormed_processLatencySummary h.wellFormed hok
  obtain ⟨l, -, rfl⟩ := processLatencySummary_eq_ok hok
  have hno : ∀ d, delayLines [s] d = [] := by
    intro d
    rw [delayLines_singleton hdisk, ← not_isSome, habn]
    exact if_neg fun h => by cases h.2
  refine ⟨hwf, h.met_lines hdisk, h.lineCount_lines hdisk, fun d => ?_, fun s' hs' hnone => ?_,
    fun d idx => ?_⟩
  · rw [totalDelays, hno]
    exact (h.totalDelay d).trans (add_zero _).symm
  · rw [mem_singleton.mp hs', ← not_isSome, habn] at hnone
    cases hnone
  · rw [componentDelays, hno, filterMap_nil, ← h.stats]
    exact Option.map_id'.symm

theorem LatencyAnalysis.Met.took_delays (h : Met a disk c)
    (hdisk : (pyGet s (bytes "diskname") >>= asStr) = .ok disk)
    (habn : (s.lookup (bytes "abnormal")).isSome = false)
    (hok : processLatencyDelays c s = .ok a') : Took a [s] a' := by
  have hdiskOf : diskOf s = some disk := congrArg Except.toOption hdisk
  obtain ⟨total, delay, htotal, hdelay, hdelayed⟩ := delayed_of_processLatencyDelays h.wellFormed
    hdisk ((h.met disk).mpr (.inr rfl)) hok
  have hlines : ∀ d, delayLines [s] d = if d = disk then [s] else [] := by
    intro d
    simp only [delayLines_singleton hdiskOf, ← not_isSome, habn, Bool.not_false, and_true]
  refine ⟨hdelayed.wellFormed, fun d => ?_, fun d => ?_, fun d => ?_,
    fun s' hs' _ idx hidx => ?_, fun d idx => ?_⟩
  · rw [hdelayed.diskIdxDicts]
    exact h.met_lines hdiskOf d
  · rw [LatencyAnalysis.lineCount, hdelayed.totalIosDicts]
    exact h.lineCount_lines hdiskOf d
  · rw [hdelayed.totalDelay, h.totalDelay, totalDelays, hlines]
    split_ifs with hd
    · simp only [filterMap_cons, filterMap_nil, htotal, Except.toOption, sum_singleton]
    · rfl
  · rw [mem_singleton.mp hs']
    exact ⟨delay idx, hdelay idx hidx⟩
  · rw [hdelayed.stats, ← h.stats, componentDelays, hlines]
    split_ifs with hd
    · rw [withDelays, getElem?_mapIdx]
      rcases Nat.lt_or_ge idx 4 with hlt | hge
      · simp only [filterMap_cons, filterMap_nil, hdelay idx hlt, Except.toOption, foldl_cons,
          foldl_nil]
      · -- there are only four components
        have hlen := congrArg List.length (h.wellFormed.map_stats d)
        rw [length_map] at hlen
        rw [getElem?_eq_none (hlen.trans_le hge)]
        rfl
    · exact Option.map_id'.symm

theorem took_readLine (h : a.WellFormed) (hok : readLine ms a line = .ok a') :
    Took a (parsed [line]) a' := by
  rcases readLine_cases h hok with ⟨hnone, rfl⟩ | ⟨v, s, disk, c, hv, hs, hdisk, hmet, hline⟩
  · rw [parsed, filterMap_cons_none (by rw [hnone]; rfl), filterMap_nil]
    exact .refl h
  · rw [parsed, filterMap_cons_some (by rw [hv]; exact congrArg Except.toOption hs), filterMap_nil]
    rcases hline with ⟨habn, hok⟩ | ⟨habn, hok⟩
    · exact hmet.took_summary (congrArg Except.toOption hdisk) habn hok
    · exact hmet.took_delays hdisk habn hok

theorem took_foldlM (h : a.WellFormed) (hok : lines.foldlM (readLine ms) a = .ok a') :
    Took a (parsed lines) a' := by
  induction lines generalizing a with
  | nil =>
    cases hok
    exact .refl h
  | cons line lines ih =>
    rw [foldlM_cons] at hok
    obtain ⟨b, hb, hok⟩ := bind_eq_ok_iff.mp hok
    have htook := (took_readLine h hb).trans (ih (wellFormed_readLine h hb) hok)
    rwa [parsed, parsed, ← filterMap_append] at htook

theorem foldl_addDelay (xs : List ℤ) (st : ComponentStat) : xs.foldl addDelay st =
    { st with max := xs.foldl max st.max, min := xs.foldl min st.min, avg := st.avg + xs.sum } := by
  induction xs generalizing st with
  | nil => rw [sum_nil, add_zero]; rfl
  | cons x xs ih =>
    rw [foldl_cons, ih, sum_cons, ← add_assoc]
    simp only [addDelay, foldl_cons, max_def_lt, min_comm _ x, min_def_lt]

theorem Took.stat_init (h : Took .init ss a) {idx : ℕ} (hidx : idx < 4) (disk : Bytes) :
    ∃ name, (a.stats disk)[idx]? = some ⟨name, [], (componentDelays ss disk idx).foldl max 0,
      (componentDelays ss disk idx).foldl min 1000000000, (componentDelays ss disk idx).sum⟩ := by
  have hblank : ∃ name, (LatencyAnalysis.init.stats disk)[idx]? =
      some ⟨name, [], 0, 1000000000, 0⟩ := by
    rcases idx with _ | _ | _ | _ | idx
    · exact ⟨_, rfl⟩
    · exact ⟨_, rfl⟩
    · exact ⟨_, rfl⟩
    · exact ⟨_, rfl⟩
    · omega
  obtain ⟨name, hname⟩ := hblank
  refine ⟨name, ?_⟩
  rw [h.stats, hname, map_some, foldl_addDelay, zero_add]

theorem Took.componentDelays_ne_nil (h : Took a ss a') {idx : ℕ} (hidx : idx < 4)
    (hne : delayLines ss disk ≠ []) : componentDelays ss disk idx ≠ [] := by
  obtain ⟨s, hs⟩ := exists_mem_of_ne_nil _ hne
  obtain ⟨hline, hnone⟩ := mem_filter.mp hs
  obtain ⟨delay, hdelay⟩ := h.read s (mem_filter.mp hline).1 hnone idx hidx
  exact ne_nil_of_mem (mem_filterMap.mpr ⟨s, hs, by rw [hdelay]; rfl⟩)

theorem Took.totalIos_init (h : Took .init ss a) (disk : Bytes) :
    a.totalIos disk = (linesOf ss disk).length / 2 := by
  rw [LatencyAnalysis.totalIos, h.lineCount]
  exact congrArg (· / 2) (Nat.zero_add _)

theorem Took.divides_iff (h : Took .init ss a) :
    (a.diskIdxDicts.any fun p => a.totalIos p.1 = 0 ∨ a.avgTotalDelay p.1 = 0) = false ↔
      ∀ disk, linesOf ss disk ≠ [] →
        (linesOf ss disk).length / 2 ≠ 0 ∧ (totalDelays ss disk).sum ≠ 0 := by
  have hmet : ∀ disk, (∃ p ∈ a.diskIdxDicts, p.1 = disk) ↔ linesOf ss disk ≠ [] := by
    intro disk
    have hiff := h.met disk
    simp only [lookup_isSome_iff, beq_iff_eq, eq_comm (a := disk)] at hiff
    rw [hiff]
    exact or_iff_right (by rintro ⟨p, hp, -⟩; cases hp)
  have hzero : ∀ disk, ¬(a.totalIos disk = 0 ∨ a.avgTotalDelay disk = 0) ↔
      (linesOf ss disk).length / 2 ≠ 0 ∧ (totalDelays ss disk).sum ≠ 0 := by
    intro disk
    have hdelay : a.totalDelay disk = (totalDelays ss disk).sum :=
      (h.totalDelay disk).trans (zero_add _)
    rw [avgTotalDelay, hdelay, h.totalIos_init, div_eq_zero_iff, Int.cast_eq_zero,
      Nat.cast_eq_zero]
    tauto
  simp only [List.any_eq_false, decide_eq_true_eq, hzero, ← hmet]
  constructor
  · rintro hall disk ⟨p, hp, rfl⟩
    exact hall p hp
  · exact fun hall p hp => hall p.1 ⟨p, hp, rfl⟩

theorem mean_cast_iff {xs : List ℤ} (hne : xs ≠ []) {n : ℕ} (hn : n ≠ 0) :
    (xs.sum : ℚ) / n = mean (xs.map (Int.cast : ℤ → ℚ)) ↔ n = xs.length ∨ xs.sum = 0 := by
  have hlen : (xs.length : ℚ) ≠ 0 := Nat.cast_ne_zero.mpr (length_pos_iff.mpr hne).ne'
  have hsum : (xs.map (Int.cast : ℤ → ℚ)).sum = xs.sum := (map_list_sum (Int.castRingHom ℚ) xs).symm
  rw [mean, hsum, length_map, div_eq_div_iff (Nat.cast_ne_zero.mpr hn) hlen, mul_eq_mul_left_iff,
    Nat.cast_inj, Int.cast_eq_zero, eq_comm]

def orderedReq : IosdiagReq := sdaReq ![1000000, 2000000, 3000000, 4000000, 5000000]

def cutLog : List Bytes :=
  [delayConvertToJson (setCheckTimeDate someTime) orderedReq, bytes "\x7b"]

end Sysak.Iosdiag
