/-
# Statistics of the delays

`latencyAnalysis` of `iosdiag/data_analysis/iosdiag_data_analysis.py`, up to the end of the loop of
`latencyDataAnalysis`.  A line that is no JSON is passed over; one with a key `abnormal` is the
summary of a request, any other its delays.  `processLatencyDelays` finds a component's delay by its
place in the list, not by its name.  Other exceptions end the program.
-/

import Sysak.Iosdiag.FormatJson
import Sysak.Lib.LuaTable
import Sysak.Lib.Python

namespace Sysak.Iosdiag

open Lib Lib.Json List Option

structure ComponentStat where
  component : Bytes
  percent : Bytes
  max : ℤ
  min : ℤ
  avg : ℤ

structure DiskStat where
  diskname : Bytes
  delays : List ComponentStat

structure DiskIos where
  diskname : Bytes
  slowIos : List (List (Bytes × Json))

structure LatencyAnalysis where
  delayStatDicts : List DiskStat
  delayDicts : List DiskIos
  summaryDicts : List DiskIos
  totalIosDicts : List (Bytes × ℕ)
  totalDelayDicts : List (Bytes × ℤ)
  diskIdxDicts : List (Bytes × ℕ)
  totalDiskCnt : ℕ

def componentDicts : List (Bytes × ℕ) :=
  [(bytes "os(block)", 0), (bytes "os(driver)", 1), (bytes "disk", 2), (bytes "os(complete)", 3)]

def blankDelays : List ComponentStat :=
  [⟨bytes "os(block)", [], 0, 1000000000, 0⟩, ⟨bytes "os(driver)", [], 0, 1000000000, 0⟩,
    ⟨bytes "disk", [], 0, 1000000000, 0⟩, ⟨bytes "os(complete)", [], 0, 1000000000, 0⟩]

def blankStat : DiskStat := ⟨[], blankDelays⟩

def blankIos : DiskIos := ⟨[], []⟩

namespace LatencyAnalysis

def init : LatencyAnalysis := ⟨[blankStat], [blankIos], [blankIos], [], [], [], 0⟩

def grow (a : LatencyAnalysis) : LatencyAnalysis :=
  if a.totalDiskCnt ≠ 0 then
    { a with
      delayStatDicts := a.delayStatDicts ++ [blankStat]
      summaryDicts := a.summaryDicts ++ [blankIos]
      delayDicts := a.delayDicts ++ [blankIos] }
  else a

def newDiskDict (a : LatencyAnalysis) (disk : Bytes) : Py LatencyAnalysis := do
  let stats ← pyUpdate a.grow.delayStatDicts a.totalDiskCnt fun d => .ok { d with diskname := disk }
  let summaries ← pyUpdate a.grow.summaryDicts a.totalDiskCnt fun d =>
    .ok { d with diskname := disk }
  let delays ← pyUpdate a.grow.delayDicts a.totalDiskCnt fun d => .ok { d with diskname := disk }
  return {
    delayStatDicts := stats
    summaryDicts := summaries
    delayDicts := delays
    totalDelayDicts := pySetdefault a.totalDelayDicts disk 0
    totalIosDicts := pySetdefault a.totalIosDicts disk 0
    diskIdxDicts := pySetdefault a.diskIdxDicts disk a.totalDiskCnt
    totalDiskCnt := a.totalDiskCnt + 1 }

end LatencyAnalysis

def orderedDict (l : List (Bytes × Json)) : List (Bytes × Json) :=
  l.foldl (fun d p => pySet d p.1 p.2) []

def asDict : Json → Py (List (Bytes × Json))
  | .obj l => .ok (orderedDict l)
  | _ => .error .typeError

def asList : Json → Py (List Json)
  | .arr l => .ok l
  | _ => .error .typeError

def asStr : Json → Py Bytes
  | .str t => .ok t
  | _ => .error .typeError

def asInt : Json → Py ℤ
  | .int z => .ok z
  | _ => .error .typeError

def del (s : List (Bytes × Json)) (k : Bytes) : List (Bytes × Json) := s.filter fun p => p.1 != k

def addDelay (st : ComponentStat) (delay : ℤ) : ComponentStat :=
  { st with
    max := if st.max < delay then delay else st.max
    min := if delay < st.min then delay else st.min
    avg := st.avg + delay }

def delayAt (sDict : List (Bytes × Json)) (idx : ℕ) : Py ℤ := do
  let delays ← pyGet sDict (bytes "delays") >>= asList
  let entry ← pyIndex delays idx >>= asDict
  pyGet entry (bytes "delay") >>= asInt

def addDelayAt (sDict : List (Bytes × Json)) (diskIdx : ℕ) (a : LatencyAnalysis) (idx : ℕ) :
    Py LatencyAnalysis := do
  let delay ← delayAt sDict idx
  let stats ← pyUpdate a.delayStatDicts diskIdx fun d => do
    let delays ← pyUpdate d.delays idx fun st => .ok (addDelay st delay)
    return { d with delays := delays }
  return { a with delayStatDicts := stats }

def processLatencyDelays (a : LatencyAnalysis) (s : List (Bytes × Json)) : Py LatencyAnalysis := do
  let disk ← pyGet s (bytes "diskname") >>= asStr
  let sDict := del s (bytes "diskname")
  let total ← pyGet a.totalDelayDicts disk
  let totaldelay ← pyGet sDict (bytes "totaldelay") >>= asInt
  let diskIdx ← pyGet a.diskIdxDicts disk
  let ios ← pyUpdate a.delayDicts diskIdx fun d => .ok { d with slowIos := d.slowIos ++ [sDict] }
  (componentDicts.map Prod.snd).foldlM (addDelayAt sDict diskIdx)
    { a with
      totalDelayDicts := pySet a.totalDelayDicts disk (total + totaldelay)
      delayDicts := ios }

def pyInt (t : Bytes) : Py ℤ :=
  let b := ((t.dropWhile isSpace).reverse.dropWhile isSpace).reverse
  let ds := (sign b).2
  if ds ≠ [] ∧ ds.all isDigit then .ok (if (sign b).1 then -decimal ds else decimal ds)
  else .error .valueError

def stripParen (t : Bytes) : Bytes := ((t.dropWhile (· == 40)).reverse.dropWhile (· == 40)).reverse

section Summary

variable (ms : ℤ → Bytes)

def abnormalText (abnormal : Bytes) : Py Bytes := do
  let listAbnormal := (abnormal.splitOn 32).filter (· ≠ [])
  -- `listAbnormal[-2]`
  let times ← pyIndex listAbnormal.reverse 1
  let parts := (stripParen times).splitOn 58
  let delay ← pyIndex parts 0 >>= pyInt
  let totalDelay ← pyIndex parts 1 >>= pyInt
  let w₀ ← pyIndex listAbnormal 0
  let w₁ ← pyIndex listAbnormal 1
  return w₀ ++ bytes " " ++ w₁ ++ bytes " (" ++ ms delay ++ bytes ":" ++ ms totalDelay ++
    bytes " ms)"

def processLatencySummary (a : LatencyAnalysis) (s : List (Bytes × Json)) : Py LatencyAnalysis := do
  let disk ← pyGet s (bytes "diskname") >>= asStr
  let diskIdx ← pyGet a.diskIdxDicts disk
  let sDict := del s (bytes "diskname")
  let abnormal ← pyGet sDict (bytes "abnormal") >>= asStr
  let text ← abnormalText ms abnormal
  let ios ← pyUpdate a.summaryDicts diskIdx fun d =>
    .ok { d with slowIos := d.slowIos ++ [pySet sDict (bytes "abnormal") (.str text)] }
  return { a with summaryDicts := ios }

def meetDisk (a : LatencyAnalysis) (disk : Bytes) : Py LatencyAnalysis :=
  if (a.totalIosDicts.lookup disk).isSome then .ok a else a.newDiskDict disk

def countIo (a : LatencyAnalysis) (disk : Bytes) : Py LatencyAnalysis := do
  let n ← pyGet a.totalIosDicts disk
  return { a with totalIosDicts := pySet a.totalIosDicts disk (n + 1) }

def processOneLatencySeq (a : LatencyAnalysis) (v : Json) : Py LatencyAnalysis := do
  let s ← asDict v
  let disk ← pyGet s (bytes "diskname") >>= asStr
  let b ← meetDisk a disk
  let c ← countIo b disk
  if (s.lookup (bytes "abnormal")).isSome then processLatencySummary ms c s
  else processLatencyDelays c s

def readLine (a : LatencyAnalysis) (line : Bytes) : Py LatencyAnalysis :=
  (loads line).elim (.ok a) (processOneLatencySeq ms a)

def readLines (lines : List Bytes) : Py LatencyAnalysis := lines.foldlM (readLine ms) .init

end Summary

variable {a : LatencyAnalysis}

namespace LatencyAnalysis

def stats (a : LatencyAnalysis) (disk : Bytes) : List ComponentStat :=
  match a.diskIdxDicts.lookup disk with
  | none => blankDelays
  | some i => (a.delayStatDicts[i]?).elim [] DiskStat.delays

def lineCount (a : LatencyAnalysis) (disk : Bytes) : ℕ := (a.totalIosDicts.lookup disk).getD 0

def totalDelay (a : LatencyAnalysis) (disk : Bytes) : ℤ := (a.totalDelayDicts.lookup disk).getD 0

def stat (a : LatencyAnalysis) (disk component : Bytes) : Option ComponentStat :=
  (a.stats disk).find? fun st => st.component == component

structure WellFormed (a : LatencyAnalysis) : Prop where
  ios_iff : ∀ d, (a.totalIosDicts.lookup d).isSome = (a.diskIdxDicts.lookup d).isSome
  delay_iff : ∀ d, (a.totalDelayDicts.lookup d).isSome = (a.diskIdxDicts.lookup d).isSome
  idx_lt : ∀ d i, a.diskIdxDicts.lookup d = some i → i < a.totalDiskCnt
  idx_inj : ∀ d d' i, a.diskIdxDicts.lookup d = some i → a.diskIdxDicts.lookup d' = some i → d = d'
  length_stat : a.delayStatDicts.length = max 1 a.totalDiskCnt
  length_delay : a.delayDicts.length = max 1 a.totalDiskCnt
  length_summary : a.summaryDicts.length = max 1 a.totalDiskCnt
  names : ∀ s ∈ a.delayStatDicts,
    s.delays.map ComponentStat.component = componentDicts.map Prod.fst
  fresh : a.totalDiskCnt = 0 → a.delayStatDicts = [blankStat]

theorem wellFormed_init : init.WellFormed where
  ios_iff := fun _ => rfl
  delay_iff := fun _ => rfl
  idx_lt := fun _ _ h => by cases h
  idx_inj := fun _ _ _ h => by cases h
  length_stat := rfl
  length_delay := rfl
  length_summary := rfl
  names := fun s hs => by
    rw [mem_singleton.mp hs]
    rfl
  fresh := fun _ => rfl

theorem WellFormed.grow_eq (h : a.WellFormed) :
    ∃ l, a.grow.delayStatDicts = l ++ [blankStat] ∧ l.length = a.totalDiskCnt ∧
      (∀ s ∈ l, s ∈ a.delayStatDicts) ∧ ∀ i < a.totalDiskCnt, l[i]? = a.delayStatDicts[i]? := by
  by_cases hcnt : a.totalDiskCnt = 0
  · refine ⟨[], ?_, hcnt.symm, fun s hs => (by cases hs), fun i hi => by omega⟩
    rw [grow, if_neg (not_not.mpr hcnt), h.fresh hcnt]
    rfl
  · refine ⟨a.delayStatDicts, ?_, ?_, fun s hs => hs, fun i _ => rfl⟩
    · rw [grow, if_pos hcnt]
    · rw [h.length_stat]
      omega

theorem WellFormed.length_grow (h : a.WellFormed) :
    a.grow.delayDicts.length = a.totalDiskCnt + 1 ∧
      a.grow.summaryDicts.length = a.totalDiskCnt + 1 := by
  have hd := h.length_delay
  have hs := h.length_summary
  rw [grow]
  split_ifs with hcnt
  · simp only [length_append, length_singleton]
    omega
  · omega

variable {disk : Bytes}

theorem stats_of_lookup {i : ℕ} {s : DiskStat} (hi : a.diskIdxDicts.lookup disk = some i)
    (hs : a.delayStatDicts[i]? = some s) : a.stats disk = s.delays := by
  rw [stats, hi]
  show (a.delayStatDicts[i]?).elim [] DiskStat.delays = _
  rw [hs]
  rfl

theorem stats_of_none (h : a.diskIdxDicts.lookup disk = none) : a.stats disk = blankDelays := by
  rw [stats, h]

theorem stats_congr {a b : LatencyAnalysis} {disk : Bytes}
    (hidx : b.diskIdxDicts.lookup disk = a.diskIdxDicts.lookup disk)
    (hstat : ∀ i, a.diskIdxDicts.lookup disk = some i →
      b.delayStatDicts[i]? = a.delayStatDicts[i]?) : b.stats disk = a.stats disk := by
  cases hi : a.diskIdxDicts.lookup disk with
  | none => rw [stats_of_none hi, stats_of_none (hidx.trans hi)]
  | some i =>
    rw [stats, stats, hidx, hi]
    show (b.delayStatDicts[i]?).elim [] _ = (a.delayStatDicts[i]?).elim [] _
    rw [hstat i hi]

theorem WellFormed.lookup_eq_none (h : a.WellFormed) (hnew : a.totalIosDicts.lookup disk = none) :
    a.diskIdxDicts.lookup disk = none ∧ a.totalDelayDicts.lookup disk = none := by
  have hidx : a.diskIdxDicts.lookup disk = none := by
    have hiff := h.ios_iff disk
    rw [hnew] at hiff
    exact not_isSome_iff_eq_none.mp (by rw [← hiff]; decide)
  have hiff := h.delay_iff disk
  rw [hidx] at hiff
  exact ⟨hidx, not_isSome_iff_eq_none.mp (by rw [hiff]; decide)⟩

structure Adds (a : LatencyAnalysis) (disk : Bytes) (l : List DiskStat) (a' : LatencyAnalysis) :
    Prop where
  stat : a'.delayStatDicts = l ++ [⟨disk, blankDelays⟩]
  length : l.length = a.totalDiskCnt
  mem : ∀ s ∈ l, s ∈ a.delayStatDicts
  get : ∀ i < a.totalDiskCnt, l[i]? = a.delayStatDicts[i]?
  length_delay : a'.delayDicts.length = a.totalDiskCnt + 1
  length_summary : a'.summaryDicts.length = a.totalDiskCnt + 1
  ios : a'.totalIosDicts = pySetdefault a.totalIosDicts disk 0
  delay : a'.totalDelayDicts = pySetdefault a.totalDelayDicts disk 0
  idx : a'.diskIdxDicts = pySetdefault a.diskIdxDicts disk a.totalDiskCnt
  cnt : a'.totalDiskCnt = a.totalDiskCnt + 1

theorem WellFormed.newDiskDict_adds (h : a.WellFormed) (disk : Bytes) :
    ∃ a' l, a.newDiskDict disk = .ok a' ∧ Adds a disk l a' := by
  obtain ⟨l, hl, hlen, hmem, hget⟩ := h.grow_eq
  obtain ⟨hlenD, hlenS⟩ := h.length_grow
  have hstat : a.grow.delayStatDicts[a.totalDiskCnt]? = some blankStat := by
    rw [hl, ← hlen, getElem?_concat_length]
  obtain ⟨d, hd⟩ : ∃ d, a.grow.delayDicts[a.totalDiskCnt]? = some d :=
    ⟨_, getElem?_eq_getElem (by omega)⟩
  obtain ⟨s, hs⟩ : ∃ s, a.grow.summaryDicts[a.totalDiskCnt]? = some s :=
    ⟨_, getElem?_eq_getElem (by omega)⟩
  refine ⟨_, l, bind_eq_ok_iff.mpr ⟨_, pyUpdate_eq_ok_iff.mpr ⟨_, _, hstat, rfl, rfl⟩,
    bind_eq_ok_iff.mpr ⟨_, pyUpdate_eq_ok_iff.mpr ⟨_, _, hs, rfl, rfl⟩,
      bind_eq_ok_iff.mpr ⟨_, pyUpdate_eq_ok_iff.mpr ⟨_, _, hd, rfl, rfl⟩, rfl⟩⟩⟩,
    ⟨?_, hlen, hmem, hget, ?_, ?_, rfl, rfl, rfl, rfl⟩⟩
  · rw [hl, ← hlen, set_append_right _ _ le_rfl, Nat.sub_self]
    rfl
  · rw [length_set, hlenD]
  · rw [length_set, hlenS]

section Adds

variable {a a' : LatencyAnalysis} {disk : Bytes} {l : List DiskStat}

theorem Adds.lookup_self (hadd : Adds a disk l a') (hnew : a.diskIdxDicts.lookup disk = none) :
    a'.diskIdxDicts.lookup disk = some a.totalDiskCnt := by
  rw [hadd.idx, lookup_pySetdefault_self hnew]

theorem Adds.lookup_of_ne (hadd : Adds a disk l a') {d : Bytes} (hd : d ≠ disk) :
    a'.diskIdxDicts.lookup d = a.diskIdxDicts.lookup d := by
  rw [hadd.idx, lookup_pySetdefault_of_ne hd]

theorem Adds.idx_cases (hadd : Adds a disk l a') (h : a.WellFormed)
    (hnew : a.diskIdxDicts.lookup disk = none) {d : Bytes} {i : ℕ}
    (hi : a'.diskIdxDicts.lookup d = some i) :
    (d = disk ∧ i = a.totalDiskCnt) ∨ (a.diskIdxDicts.lookup d = some i ∧ i < a.totalDiskCnt) := by
  rcases eq_or_ne d disk with rfl | hd
  · rw [hadd.lookup_self hnew] at hi
    cases hi
    exact .inl ⟨rfl, rfl⟩
  · rw [hadd.lookup_of_ne hd] at hi
    exact .inr ⟨hi, h.idx_lt d i hi⟩

theorem Adds.isSome_lookup {α : Type} (hadd : Adds a disk l a')
    (hnew : a.diskIdxDicts.lookup disk = none) {t : List (Bytes × α)} {v : α}
    (ht : t.lookup disk = none)
    (hiff : ∀ d, (t.lookup d).isSome = (a.diskIdxDicts.lookup d).isSome) (d : Bytes) :
    ((pySetdefault t disk v).lookup d).isSome = (a'.diskIdxDicts.lookup d).isSome := by
  rcases eq_or_ne d disk with rfl | hd
  · rw [hadd.lookup_self hnew, lookup_pySetdefault_self ht]
    rfl
  · rw [hadd.lookup_of_ne hd, lookup_pySetdefault_of_ne hd, hiff]

theorem Adds.wellFormed (hadd : Adds a disk l a') (h : a.WellFormed)
    (hnew : a.totalIosDicts.lookup disk = none) : a'.WellFormed := by
  obtain ⟨hidx, hdelay⟩ := h.lookup_eq_none hnew
  have hlenS := hadd.length_summary
  have hlenD := hadd.length_delay
  have hcnt := hadd.cnt
  refine ⟨fun d => ?_, fun d => ?_, fun d i hi => ?_, fun d d' i hi hi' => ?_, ?_, by omega,
    by omega, fun s hs => ?_, fun h0 => by omega⟩
  · rw [hadd.ios, hadd.isSome_lookup hidx hnew h.ios_iff]
  · rw [hadd.delay, hadd.isSome_lookup hidx hdelay h.delay_iff]
  · rcases hadd.idx_cases h hidx hi with ⟨-, rfl⟩ | ⟨-, hlt⟩
    · omega
    · omega
  · rcases hadd.idx_cases h hidx hi with ⟨rfl, rfl⟩ | ⟨hd, hlt⟩
    · rcases hadd.idx_cases h hidx hi' with ⟨rfl, -⟩ | ⟨-, hlt⟩
      · rfl
      · omega
    · rcases hadd.idx_cases h hidx hi' with ⟨-, rfl⟩ | ⟨hd', -⟩
      · omega
      · exact h.idx_inj d d' i hd hd'
  · rw [hadd.stat, hcnt, length_append, length_singleton, hadd.length]
    omega
  · rw [hadd.stat, mem_append, mem_singleton] at hs
    rcases hs with hs | rfl
    · exact h.names s (hadd.mem s hs)
    · rfl

theorem Adds.stats_eq (hadd : Adds a disk l a') (h : a.WellFormed)
    (hnew : a.diskIdxDicts.lookup disk = none) (d : Bytes) : a'.stats d = a.stats d := by
  rcases eq_or_ne d disk with rfl | hd
  · rw [stats_of_none hnew, stats_of_lookup (hadd.lookup_self hnew) (s := ⟨d, blankDelays⟩)]
    rw [hadd.stat, ← hadd.length, getElem?_concat_length]
  · refine stats_congr (hadd.lookup_of_ne hd) fun i hi => ?_
    have hlt := h.idx_lt d i hi
    rw [hadd.stat, getElem?_append_left (by rw [hadd.length]; exact hlt), hadd.get i hlt]

end Adds

theorem WellFormed.congr {a b : LatencyAnalysis} (h : a.WellFormed)
    (hios : ∀ d, (b.totalIosDicts.lookup d).isSome = (a.totalIosDicts.lookup d).isSome)
    (hdelay : ∀ d, (b.totalDelayDicts.lookup d).isSome = (a.totalDelayDicts.lookup d).isSome)
    (hidx : b.diskIdxDicts = a.diskIdxDicts) (hcnt : b.totalDiskCnt = a.totalDiskCnt)
    (hlenD : b.delayDicts.length = a.delayDicts.length)
    (hlenS : b.summaryDicts.length = a.summaryDicts.length)
    (hstat : b.delayStatDicts = a.delayStatDicts) : b.WellFormed where
  ios_iff := fun d => by rw [hios, hidx, h.ios_iff]
  delay_iff := fun d => by rw [hdelay, hidx, h.delay_iff]
  idx_lt := by rw [hidx, hcnt]; exact h.idx_lt
  idx_inj := by rw [hidx]; exact h.idx_inj
  length_stat := by rw [hstat, hcnt, h.length_stat]
  length_delay := by rw [hlenD, hcnt, h.length_delay]
  length_summary := by rw [hlenS, hcnt, h.length_summary]
  names := by rw [hstat]; exact h.names
  fresh := by rw [hstat, hcnt]; exact h.fresh

theorem isSome_lookup_pySet {α : Type} {d : List (Bytes × α)} {k : Bytes} {v w : α}
    (h : d.lookup k = some v) (k' : Bytes) :
    ((pySet d k w).lookup k').isSome = (d.lookup k').isSome := by
  rcases eq_or_ne k' k with rfl | hne
  · rw [lookup_pySet_self, h]
    rfl
  · rw [lookup_pySet_of_ne hne]

theorem WellFormed.map_stats (h : a.WellFormed) (disk : Bytes) :
    (a.stats disk).map ComponentStat.component = componentDicts.map Prod.fst := by
  cases hi : a.diskIdxDicts.lookup disk with
  | none => rw [stats_of_none hi]; rfl
  | some i =>
    have hlt := h.idx_lt disk i hi
    obtain ⟨d, hd⟩ : ∃ d, a.delayStatDicts[i]? = some d :=
      ⟨_, getElem?_eq_getElem (by rw [h.length_stat]; omega)⟩
    rw [stats_of_lookup hi hd, h.names d (mem_of_getElem? hd)]

/-- What a line does before its kind is looked at. -/
structure Met (a : LatencyAnalysis) (disk : Bytes) (c : LatencyAnalysis) : Prop where
  wellFormed : c.WellFormed
  met : ∀ d, (c.diskIdxDicts.lookup d).isSome ↔ (a.diskIdxDicts.lookup d).isSome ∨ d = disk
  lineCount : ∀ d, c.lineCount d = a.lineCount d + if d = disk then 1 else 0
  totalDelay : ∀ d, c.totalDelay d = a.totalDelay d
  stats : ∀ d, c.stats d = a.stats d

theorem meetDisk_spec (h : a.WellFormed) (disk : Bytes) :
    ∃ b, meetDisk a disk = .ok b ∧ b.WellFormed ∧
      (∀ d, (b.diskIdxDicts.lookup d).isSome ↔ (a.diskIdxDicts.lookup d).isSome ∨ d = disk) ∧
      (∀ d, b.lineCount d = a.lineCount d) ∧ (∀ d, b.totalDelay d = a.totalDelay d) ∧
      ∀ d, b.stats d = a.stats d := by
  rw [meetDisk]
  split_ifs with hmet
  · refine ⟨a, rfl, h, fun d => ⟨.inl, ?_⟩, fun _ => rfl, fun _ => rfl, fun _ => rfl⟩
    rintro (hd | rfl)
    · exact hd
    · exact h.ios_iff d ▸ hmet
  · have hnew := not_isSome_iff_eq_none.mp hmet
    obtain ⟨b, l, hb, hadd⟩ := h.newDiskDict_adds disk
    obtain ⟨hidx, -⟩ := h.lookup_eq_none hnew
    refine ⟨b, hb, hadd.wellFormed h hnew, fun d => ?_, fun d => ?_, fun d => ?_,
      hadd.stats_eq h hidx⟩
    · rcases eq_or_ne d disk with rfl | hd
      · simp [hadd.lookup_self hidx]
      · simp [hadd.lookup_of_ne hd, hd]
    · rw [lineCount, hadd.ios, getD_lookup_pySetdefault, lineCount]
    · rw [totalDelay, hadd.delay, getD_lookup_pySetdefault, totalDelay]

theorem WellFormed.meets (h : a.WellFormed) (disk : Bytes) :
    ∃ b c, meetDisk a disk = .ok b ∧ countIo b disk = .ok c ∧ Met a disk c := by
  obtain ⟨b, hb, hwf, hmet, hcount, htotal, hstats⟩ := meetDisk_spec h disk
  obtain ⟨n, hn⟩ := isSome_iff_exists.mp ((hwf.ios_iff disk).trans ((hmet disk).mpr (.inr rfl)))
  refine ⟨b, _, hb, bind_eq_ok_iff.mpr ⟨n, pyGet_eq_ok_iff.mpr hn, rfl⟩, ?_, hmet, fun d => ?_,
    htotal, hstats⟩
  · exact hwf.congr (isSome_lookup_pySet hn) (fun _ => rfl) rfl rfl rfl rfl rfl
  · rw [← hcount, lineCount, getD_lookup_pySet]
    split_ifs with hd
    · rw [hd, lineCount, hn, getD_some]
    · rfl

end LatencyAnalysis

/-! ### A summary -/

section Run

open LatencyAnalysis

variable {a a' c : LatencyAnalysis} {s : List (Bytes × Json)} {ms : ℤ → Bytes} {i : ℕ}
  {d : DiskStat} {l : List ComponentStat}

theorem processLatencySummary_eq_ok (hok : processLatencySummary ms a s = .ok a') :
    ∃ l, l.length = a.summaryDicts.length ∧ a' = { a with summaryDicts := l } := by
  obtain ⟨disk, -, hok⟩ := bind_eq_ok_iff.mp hok
  obtain ⟨i, -, hok⟩ := bind_eq_ok_iff.mp hok
  obtain ⟨abnormal, -, hok⟩ := bind_eq_ok_iff.mp hok
  obtain ⟨text, -, hok⟩ := bind_eq_ok_iff.mp hok
  obtain ⟨ios, hios, hok⟩ := bind_eq_ok_iff.mp hok
  obtain ⟨d, d', -, -, rfl⟩ := pyUpdate_eq_ok_iff.mp hios
  cases hok
  exact ⟨_, length_set, rfl⟩

theorem wellFormed_processLatencySummary (h : a.WellFormed)
    (hok : processLatencySummary ms a s = .ok a') : a'.WellFormed := by
  obtain ⟨l, hl, rfl⟩ := processLatencySummary_eq_ok hok
  exact h.congr (fun _ => rfl) (fun _ => rfl) rfl rfl rfl hl rfl

/-! ### The delays of a request -/

theorem pyGet_del {k : Bytes} (hk : k ≠ bytes "diskname") (s : List (Bytes × Json)) :
    pyGet (del s (bytes "diskname")) k = pyGet s k := by
  rw [pyGet, del, lookup_filter_of_ne hk, pyGet]

theorem delayAt_del (s : List (Bytes × Json)) (idx : ℕ) :
    delayAt (del s (bytes "diskname")) idx = delayAt s idx := by
  rw [delayAt, pyGet_del (by decide), delayAt]

theorem addDelayAt_eq_ok_iff {sDict : List (Bytes × Json)} {idx : ℕ} :
    addDelayAt sDict i a idx = .ok a' ↔ ∃ delay d st, delayAt sDict idx = .ok delay ∧
      a.delayStatDicts[i]? = some d ∧ d.delays[idx]? = some st ∧
      a' = { a with delayStatDicts :=
        a.delayStatDicts.set i { d with delays := d.delays.set idx (addDelay st delay) } } := by
  rw [addDelayAt, bind_eq_ok_iff]
  constructor
  · rintro ⟨delay, hdelay, h⟩
    obtain ⟨stats, hstats, h⟩ := bind_eq_ok_iff.mp h
    obtain ⟨d, d', hd, hd', rfl⟩ := pyUpdate_eq_ok_iff.mp hstats
    obtain ⟨delays, hdelays, hd'⟩ := bind_eq_ok_iff.mp hd'
    obtain ⟨st, st', hst, hst', rfl⟩ := pyUpdate_eq_ok_iff.mp hdelays
    cases hst'
    cases hd'
    cases h
    exact ⟨delay, d, st, hdelay, hd, hst, rfl⟩
  · rintro ⟨delay, d, st, hdelay, hd, hst, rfl⟩
    exact ⟨delay, hdelay, bind_eq_ok_iff.mpr ⟨_, pyUpdate_eq_ok_iff.mpr ⟨d, _, hd,
      bind_eq_ok_iff.mpr ⟨_, pyUpdate_eq_ok_iff.mpr ⟨st, _, hst, rfl, rfl⟩, rfl⟩, rfl⟩, rfl⟩⟩

def setDelays (a : LatencyAnalysis) (i : ℕ) (d : DiskStat) (l : List ComponentStat) :
    LatencyAnalysis :=
  { a with delayStatDicts := a.delayStatDicts.set i { d with delays := l } }

theorem addDelayAt_setDelays {sDict : List (Bytes × Json)} {idx : ℕ}
    (hd : a.delayStatDicts[i]? = some d) {delay : ℤ} (hdelay : delayAt sDict idx = .ok delay)
    {st : ComponentStat} (hst : l[idx]? = some st) :
    addDelayAt sDict i (setDelays a i d l) idx =
      .ok (setDelays a i d (l.set idx (addDelay st delay))) := by
  obtain ⟨hlt, -⟩ := List.getElem?_eq_some_iff.mp hd
  refine addDelayAt_eq_ok_iff.mpr ⟨delay, { d with delays := l }, st, hdelay,
    getElem?_set_self hlt, hst, ?_⟩
  simp only [setDelays, set_set]

theorem setDelays_self (hd : a.delayStatDicts[i]? = some d) : setDelays a i d d.delays = a := by
  obtain ⟨hlt, rfl⟩ := List.getElem?_eq_some_iff.mp hd
  have hset : a.delayStatDicts.set i a.delayStatDicts[i] = a.delayStatDicts :=
    set_getElem_self hlt
  show { a with delayStatDicts := a.delayStatDicts.set i a.delayStatDicts[i] } = a
  rw [hset]

def withDelays (delay : ℕ → ℤ) (l : List ComponentStat) : List ComponentStat :=
  l.mapIdx fun idx st => addDelay st (delay idx)

theorem map_component_withDelays (delay : ℕ → ℤ) (l : List ComponentStat) :
    (withDelays delay l).map ComponentStat.component = l.map ComponentStat.component := by
  refine ext_getElem? fun k => ?_
  simp [withDelays, addDelay, Function.comp_def]

theorem exists_four (h : l.map ComponentStat.component = componentDicts.map Prod.fst) :
    ∃ s₀ s₁ s₂ s₃, l = [s₀, s₁, s₂, s₃] := by
  have hlen := congrArg List.length h
  rw [length_map] at hlen
  obtain ⟨s₀, s₁, s₂, s₃, hl⟩ := length_eq_four.mp (hlen.trans rfl)
  exact ⟨s₀, s₁, s₂, s₃, hl⟩

theorem foldlM_addDelayAt {sDict : List (Bytes × Json)} (hd : a.delayStatDicts[i]? = some d)
    (hnames : d.delays.map ComponentStat.component = componentDicts.map Prod.fst) {delay : ℕ → ℤ}
    (hdelay : ∀ idx < 4, delayAt sDict idx = .ok (delay idx)) :
    (componentDicts.map Prod.snd).foldlM (addDelayAt sDict i) a =
      .ok (setDelays a i d (withDelays delay d.delays)) := by
  obtain ⟨s₀, s₁, s₂, s₃, hfour⟩ := exists_four hnames
  have hplaces : componentDicts.map Prod.snd = [0, 1, 2, 3] := rfl
  have p₀ := addDelayAt_setDelays hd (hdelay 0 (by decide)) (l := d.delays) (by rw [hfour]; rfl)
  have p₁ := addDelayAt_setDelays hd (hdelay 1 (by decide))
    (l := [addDelay s₀ (delay 0), s₁, s₂, s₃]) rfl
  have p₂ := addDelayAt_setDelays hd (hdelay 2 (by decide))
    (l := [addDelay s₀ (delay 0), addDelay s₁ (delay 1), s₂, s₃]) rfl
  have p₃ := addDelayAt_setDelays hd (hdelay 3 (by decide))
    (l := [addDelay s₀ (delay 0), addDelay s₁ (delay 1), addDelay s₂ (delay 2), s₃]) rfl
  rw [setDelays_self hd, hfour] at p₀
  rw [hplaces, hfour, foldlM_cons, bind_eq_ok_iff]
  refine ⟨_, p₀, ?_⟩
  rw [foldlM_cons, bind_eq_ok_iff]
  refine ⟨_, p₁, ?_⟩
  rw [foldlM_cons, bind_eq_ok_iff]
  refine ⟨_, p₂, ?_⟩
  rw [foldlM_cons, bind_eq_ok_iff]
  exact ⟨_, p₃, rfl⟩

theorem wellFormed_setDelays (h : a.WellFormed) (hi : i < a.totalDiskCnt)
    (hl : l.map ComponentStat.component = componentDicts.map Prod.fst) :
    (setDelays a i d l).WellFormed where
  ios_iff := h.ios_iff
  delay_iff := h.delay_iff
  idx_lt := h.idx_lt
  idx_inj := h.idx_inj
  length_stat := length_set.trans h.length_stat
  length_delay := h.length_delay
  length_summary := h.length_summary
  names s hs := by
    rcases mem_or_eq_of_mem_set hs with hs | rfl
    · exact h.names s hs
    · exact hl
  fresh h0 := by
    have h0 : a.totalDiskCnt = 0 := h0
    omega

theorem stats_setDelays (h : a.WellFormed) {disk : Bytes} (hi : a.diskIdxDicts.lookup disk = some i)
    (hd : a.delayStatDicts[i]? = some d) (l : List ComponentStat) (disk' : Bytes) :
    (setDelays a i d l).stats disk' = if disk' = disk then l else a.stats disk' := by
  obtain ⟨hlt, -⟩ := List.getElem?_eq_some_iff.mp hd
  split_ifs with hdisk
  · rw [hdisk]
    exact stats_of_lookup (s := { d with delays := l }) hi (getElem?_set_self hlt)
  · refine stats_congr rfl fun j hj => getElem?_set_ne ?_
    rintro rfl
    exact hdisk (h.idx_inj disk' disk i hj hi)

/-- What the delays of a request do to the statistics. -/
structure Delayed (a : LatencyAnalysis) (disk : Bytes) (total : ℤ) (delay : ℕ → ℤ)
    (a' : LatencyAnalysis) : Prop where
  wellFormed : a'.WellFormed
  diskIdxDicts : a'.diskIdxDicts = a.diskIdxDicts
  totalIosDicts : a'.totalIosDicts = a.totalIosDicts
  totalDelay : ∀ d, a'.totalDelay d = a.totalDelay d + if d = disk then total else 0
  stats : ∀ d, a'.stats d = if d = disk then withDelays delay (a.stats d) else a.stats d

theorem reads_of_processLatencyDelays (hok : processLatencyDelays a s = .ok a') :
    ∃ (total : ℤ) (delay : ℕ → ℤ), (pyGet s (bytes "totaldelay") >>= asInt) = .ok total ∧
      ∀ idx < 4, delayAt s idx = .ok (delay idx) := by
  obtain ⟨disk, -, hok⟩ := bind_eq_ok_iff.mp hok
  obtain ⟨total, -, hok⟩ := bind_eq_ok_iff.mp hok
  obtain ⟨totaldelay, htotal, hok⟩ := bind_eq_ok_iff.mp hok
  obtain ⟨i, -, hok⟩ := bind_eq_ok_iff.mp hok
  obtain ⟨ios, -, hok⟩ := bind_eq_ok_iff.mp hok
  rw [pyGet_del (by decide)] at htotal
  have hread : ∀ idx < 4, ∃ delay, delayAt s idx = .ok delay := by
    intro idx hidx
    obtain ⟨b, b', hb⟩ := exists_of_foldlM_eq_ok hok idx (mem_range.mpr hidx)
    obtain ⟨delay, -, -, hdelay, -⟩ := addDelayAt_eq_ok_iff.mp hb
    exact ⟨delay, delayAt_del s idx ▸ hdelay⟩
  choose! delay hdelay using hread
  exact ⟨totaldelay, delay, htotal, hdelay⟩

theorem processLatencyDelays_spec (h : a.WellFormed) {disk : Bytes} {total : ℤ} {delay : ℕ → ℤ}
    (hdisk : (pyGet s (bytes "diskname") >>= asStr) = .ok disk)
    (hmet : (a.diskIdxDicts.lookup disk).isSome = true)
    (htotal : (pyGet s (bytes "totaldelay") >>= asInt) = .ok total)
    (hdelay : ∀ idx < 4, delayAt s idx = .ok (delay idx)) :
    ∃ a', processLatencyDelays a s = .ok a' ∧ Delayed a disk total delay a' := by
  obtain ⟨i, hi⟩ := isSome_iff_exists.mp hmet
  obtain ⟨sum, hsum⟩ := isSome_iff_exists.mp ((h.delay_iff _).trans hmet)
  have hlt := h.idx_lt _ i hi
  obtain ⟨d, hd⟩ : ∃ d, a.delayStatDicts[i]? = some d :=
    ⟨_, getElem?_eq_getElem (by rw [h.length_stat]; omega)⟩
  obtain ⟨e, he⟩ : ∃ e, a.delayDicts[i]? = some e :=
    ⟨_, getElem?_eq_getElem (by rw [h.length_delay]; omega)⟩
  have hnames := h.names d (mem_of_getElem? hd)
  -- the state in which the loop begins
  let b : LatencyAnalysis := { a with
    totalDelayDicts := pySet a.totalDelayDicts disk (sum + total)
    delayDicts := a.delayDicts.set i
      { e with slowIos := e.slowIos ++ [del s (bytes "diskname")] } }
  have hb : b.WellFormed := h.congr (fun _ => rfl) (isSome_lookup_pySet hsum) rfl rfl length_set
    rfl rfl
  have hloop := foldlM_addDelayAt (a := b) hd hnames fun idx hidx =>
    (delayAt_del s idx).trans (hdelay idx hidx)
  refine ⟨_, bind_eq_ok_iff.mpr ⟨disk, hdisk, bind_eq_ok_iff.mpr ⟨sum, pyGet_eq_ok_iff.mpr hsum,
    bind_eq_ok_iff.mpr ⟨total, (by rw [pyGet_del (by decide), htotal]),
      bind_eq_ok_iff.mpr ⟨i, pyGet_eq_ok_iff.mpr hi, bind_eq_ok_iff.mpr
        ⟨_, pyUpdate_eq_ok_iff.mpr ⟨e, _, he, rfl, rfl⟩, hloop⟩⟩⟩⟩⟩,
    wellFormed_setDelays hb hlt ((map_component_withDelays delay _).trans hnames), rfl, rfl,
    fun d' => ?_, fun d' => ?_⟩
  · show ((pySet a.totalDelayDicts disk (sum + total)).lookup d').getD 0 = _
    rw [getD_lookup_pySet]
    split_ifs with hd'
    · rw [hd', totalDelay, hsum, getD_some]
    · exact (add_zero _).symm
  · rw [stats_setDelays hb hi hd]
    split_ifs with hd'
    · rw [hd', stats_of_lookup hi hd]
    · rfl

theorem delayed_of_processLatencyDelays (h : a.WellFormed) {disk : Bytes}
    (hdisk : (pyGet s (bytes "diskname") >>= asStr) = .ok disk)
    (hmet : (a.diskIdxDicts.lookup disk).isSome = true) (hok : processLatencyDelays a s = .ok a') :
    ∃ (total : ℤ) (delay : ℕ → ℤ), (pyGet s (bytes "totaldelay") >>= asInt) = .ok total ∧
      (∀ idx < 4, delayAt s idx = .ok (delay idx)) ∧ Delayed a disk total delay a' := by
  obtain ⟨total, delay, htotal, hdelay⟩ := reads_of_processLatencyDelays hok
  obtain ⟨b, hb, hdelayed⟩ := processLatencyDelays_spec h hdisk hmet htotal hdelay
  cases hok.symm.trans hb
  exact ⟨total, delay, htotal, hdelay, hdelayed⟩

/-! ### A run over lines keeps the invariant -/

theorem readLine_cases {line : Bytes} (h : a.WellFormed) (hok : readLine ms a line = .ok a') :
    loads line = none ∧ a' = a ∨ ∃ v s disk c, loads line = some v ∧ asDict v = .ok s ∧
      (pyGet s (bytes "diskname") >>= asStr) = .ok disk ∧ Met a disk c ∧
      ((s.lookup (bytes "abnormal")).isSome = true ∧ processLatencySummary ms c s = .ok a' ∨
        (s.lookup (bytes "abnormal")).isSome = false ∧ processLatencyDelays c s = .ok a') := by
  rw [readLine] at hok
  cases hv : loads line with
  | none =>
    rw [hv] at hok
    cases hok
    exact .inl ⟨rfl, rfl⟩
  | some v =>
    rw [hv] at hok
    obtain ⟨s, hs, hok⟩ := bind_eq_ok_iff.mp hok
    obtain ⟨disk, hdisk, hok⟩ := bind_eq_ok_iff.mp hok
    obtain ⟨b, c, hb, hc, hmet⟩ := h.meets disk
    obtain ⟨b', hb', hok⟩ := bind_eq_ok_iff.mp hok
    cases hb.symm.trans hb'
    obtain ⟨c', hc', hok⟩ := bind_eq_ok_iff.mp hok
    cases hc.symm.trans hc'
    refine .inr ⟨v, s, disk, c, rfl, hs, hdisk, hmet, ?_⟩
    split_ifs at hok with habn
    · exact .inl ⟨habn, hok⟩
    · exact .inr ⟨eq_false_of_ne_true habn, hok⟩

theorem wellFormed_readLine {line : Bytes} (h : a.WellFormed)
    (hok : readLine ms a line = .ok a') : a'.WellFormed := by
  rcases readLine_cases h hok with ⟨-, rfl⟩ | ⟨v, s, disk, c, -, -, hdisk, hmet, hline⟩
  · exact h
  · rcases hline with ⟨-, hok⟩ | ⟨-, hok⟩
    · exact wellFormed_processLatencySummary hmet.wellFormed hok
    · obtain ⟨total, delay, -, -, hdelayed⟩ := delayed_of_processLatencyDelays hmet.wellFormed hdisk
        ((hmet.met disk).mpr (.inr rfl)) hok
      exact hdelayed.wellFormed

theorem wellFormed_readLines {lines : List Bytes} (h : readLines ms lines = .ok a) : a.WellFormed :=
  foldlM_induction (fun _ _ _ _ hb hok => wellFormed_readLine hb hok) wellFormed_init h

end Run

end Sysak.Iosdiag
