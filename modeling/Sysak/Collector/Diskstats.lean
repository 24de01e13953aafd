/-
# Disk rates
-/

import Mathlib.Data.Bool.AllAny
import Sysak.Collector.Procffi
import Sysak.Common.ProtoData
import Sysak.Lib.SampleDiff

namespace Sysak.Collector

open Lib List Option

structure DiskRow where
  reads : ℕ
  rmerge : ℕ
  rsect : ℕ
  rmsec : ℕ
  writes : ℕ
  wmerge : ℕ
  wsect : ℕ
  wmsec : ℕ
  inflight : ℕ
  time : ℕ
  backlog : ℕ
  deriving DecidableEq, Repr

structure DiskNow where
  reads : ℚ
  rmerge : ℚ
  rkb : ℚ
  rmsec : ℚ
  writes : ℚ
  wmerge : ℚ
  wkb : ℚ
  wmsec : ℚ
  inflight : ℚ
  time : ℚ
  backlog : ℚ
  xfers : ℚ
  bsize : ℚ
  deriving DecidableEq, Repr

def diskRow (data : List Bytes) : Option DiskRow := do
  let reads ← tonumber (data.getD 3 [])
  let rmerge ← tonumber (data.getD 4 [])
  let rsect ← tonumber (data.getD 5 [])
  let rmsec ← tonumber (data.getD 6 [])
  let writes ← tonumber (data.getD 7 [])
  let wmerge ← tonumber (data.getD 8 [])
  let wsect ← tonumber (data.getD 9 [])
  let wmsec ← tonumber (data.getD 10 [])
  let inflight ← tonumber (data.getD 11 [])
  let time ← tonumber (data.getD 12 [])
  let backlog ← tonumber (data.getD 13 [])
  return ⟨reads, rmerge, rsect, rmsec, writes, wmerge, wsect, wmsec, inflight, time, backlog⟩

structure CprocDiskstats where
  lastData : List (Bytes × DiskNow)
  lastDisk : List (Bytes × Unit)
  lines : List (NumLine ℚ)

namespace CprocDiskstats

def init : CprocDiskstats := ⟨[], [], []⟩

def getNewValue (r : DiskRow) : DiskNow :=
  let rkb : ℚ := r.rsect / 2
  let wkb : ℚ := r.wsect / 2
  let xfers : ℚ := r.reads + r.writes
  { reads := r.reads, rmerge := r.rmerge, rkb := rkb, rmsec := r.rmsec, writes := r.writes
    wmerge := r.wmerge, wkb := wkb, wmsec := r.wmsec, inflight := r.inflight
    time := r.time / 10, backlog := r.backlog, xfers := xfers
    bsize := if xfers = 0 then 0 else (rkb + wkb) * 1024 / xfers }

def diffIndex : List (String × (DiskNow → ℚ)) :=
  [("reads", DiskNow.reads), ("rmerge", DiskNow.rmerge), ("rkb", DiskNow.rkb),
    ("rmsec", DiskNow.rmsec), ("writes", DiskNow.writes), ("wmerge", DiskNow.wmerge),
    ("wkb", DiskNow.wkb), ("wmsec", DiskNow.wmsec), ("backlog", DiskNow.backlog),
    ("xfers", DiskNow.xfers)]

def calcDiff (elapsed : ℚ) (diskName : Bytes) (now last : DiskNow) : NumLine ℚ where
  line := "disks"
  ls := [("disk_name", diskName)]
  vs := (diffIndex.map fun p => (p.1, (p.2 now - p.2 last) / elapsed)) ++
    [("inflight", now.inflight), ("bsize", now.bsize), ("busy", (now.time - now.time) / elapsed)]

def calcDisk (self : CprocDiskstats) (diskName : Bytes) (r : DiskRow) (elapsed : ℚ) :
    CprocDiskstats :=
  let now := getNewValue r
  { lastData := luaAssign self.lastData diskName (some now)
    lastDisk := luaAssign self.lastDisk diskName (some ())
    lines := self.lines ++
      ((self.lastData.lookup diskName).map (calcDiff elapsed diskName now)).toList }

def checkLastDisks (self : CprocDiskstats) : CprocDiskstats :=
  { self with
    lastData := self.lastData.filter fun q => (self.lastDisk.lookup q.1).isSome
    lastDisk := [] }

def procLine (elapsed : ℚ) (self : CprocDiskstats) (line : Bytes) : Option CprocDiskstats :=
  let data := varInputString line
  if 14 ≤ data.length then
    (diskRow data).map fun r => self.calcDisk (data.getD 2 []) r elapsed
  else none

def proc (self : CprocDiskstats) (elapsed : ℚ) (lines : List Bytes) :
    Option (CprocDiskstats × List (NumLine ℚ)) :=
  (lines.foldlM (procLine elapsed) { self with lines := [] }).map fun self =>
    let self := self.checkLastDisks
    ({ self with lines := [] }, self.lines)

end CprocDiskstats

def readDisk (line : Bytes) : Option (Bytes × DiskRow) :=
  let data := varInputString line
  if 14 ≤ data.length then (diskRow data).map fun r => (data.getD 2 [], r) else none

structure DiskFile where
  lines : List Bytes
  rows : List (Bytes × DiskRow)
  reads : lines.map readDisk = rows.map some
  nodup : (rows.map Prod.fst).Nodup

def DiskRow.fields (r : DiskRow) : List ℕ :=
  [r.reads, r.rmerge, r.rsect, r.rmsec, r.writes, r.wmerge, r.wsect, r.wmsec, r.inflight, r.time,
    r.backlog]

theorem readDisk_spaced {major minor name : Bytes} {r : DiskRow} (more : List Bytes)
    {ws : List (ℕ × Bytes)} (hwords : ws.map Prod.snd = minor :: name :: (r.fields.map dec ++ more))
    (hws : ∀ p ∈ ws, 0 < p.1 ∧ IsWord p.2 ∧ p.2.length ≤ 31) (gap : ℕ) (hmajor : IsWord major)
    (hlen : major.length ≤ 31) (hmax : ws.length < varIndexMax) :
    readDisk (spaced ((gap, major) :: ws)) = some (name, r) := by
  have hdec : ∀ n, tonumber (dec n) = some n := by
    intro n
    have hnum := tonumber_numeral (l := []) (r := []) (by simp) (dec_ne_nil n)
      (fun c hc => isDigit_of_mem_dec hc) (by simp)
    rwa [nil_append, append_nil, decimal_dec] at hnum
  have hcount : 14 ≤ (major :: minor :: name :: (r.fields.map dec ++ more)).length := by
    simp only [length_cons, length_append, length_map, DiskRow.fields]
    omega
  have hrow : diskRow (major :: minor :: name :: (r.fields.map dec ++ more)) = some r := by
    simp only [DiskRow.fields, map_cons, map_nil, cons_append, diskRow,
      getD_cons_succ, getD_cons_zero, hdec]
    rfl
  have hread := varInputString_spaced hws gap hmajor hlen hmax
  rw [hwords] at hread
  simp only [readDisk, hread, if_pos hcount, hrow]
  rfl

theorem DiskFile.nodup_keptRows (file : DiskFile) :
    ((keptRows CprocDiskstats.getNewValue file.rows).map Prod.fst).Nodup := by
  rw [map_fst_keptRows]
  exact file.nodup

namespace CprocDiskstats

def tables (self : CprocDiskstats) : SampleDiff Bytes DiskNow := ⟨self.lastData, self.lastDisk⟩

theorem procLine_eq (elapsed : ℚ) (self : CprocDiskstats) (line : Bytes) (r : Bytes × DiskRow)
    (h : readDisk line = some r) :
    ∃ self', procLine elapsed self line = some self' ∧
      (self'.tables, self'.lines) = SampleDiff.row (calcDiff elapsed) (self.tables, self.lines)
        (r.1, getNewValue r.2) := by
  rw [readDisk] at h
  split_ifs at h with hlen
  obtain ⟨row, hrow, rfl⟩ := map_eq_some_iff.mp h
  refine ⟨self.calcDisk ((varInputString line).getD 2 []) row elapsed, ?_, rfl⟩
  rw [procLine, if_pos hlen, hrow]
  rfl

theorem proc_eq (self : CprocDiskstats) (elapsed : ℚ) (file : DiskFile) :
    ∃ self' out, self.proc elapsed file.lines = some (self', out) ∧
      (self'.tables, out) =
        self.tables.sample (calcDiff elapsed) (keptRows getNewValue file.rows) := by
  obtain ⟨self', hfold, heq⟩ := SampleDiff.foldlM_row (procLine_eq elapsed) file.reads
    { self with lines := [] }
  rw [proc, hfold]
  refine ⟨_, _, rfl, ?_⟩
  rw [SampleDiff.sample, show (self.tables, ([] : List (NumLine ℚ))) =
    (tables { self with lines := [] }, []) from rfl, ← heq]
  rfl

def run (history : List (ℚ × DiskFile)) : Option CprocDiskstats :=
  history.foldlM (fun self c => (self.proc c.1 c.2.lines).map Prod.fst) init

def before (history : List (ℚ × DiskFile)) : List (Bytes × DiskRow) :=
  (history.getLast?.map fun c => c.2.rows).getD []

theorem follows_run (history : List (ℚ × DiskFile)) :
    ∃ self, run history = some self ∧
      SampleDiff.Follows (keptRows getNewValue (before history)) self.tables := by
  have hproc (self) (c : ℚ × DiskFile) := proc_eq self c.1 c.2
  exact SampleDiff.follows_foldlM _ tables rfl (fun c => c.2.nodup) hproc history

theorem proc_run (history : List (ℚ × DiskFile)) (elapsed : ℚ) (file : DiskFile) :
    ∃ self self', run history = some self ∧ self.proc elapsed file.lines = some (self',
      SampleDiff.differences (calcDiff elapsed) (keptRows getNewValue (before history))
        (keptRows getNewValue file.rows)) := by
  obtain ⟨self, hrun, hfollows⟩ := follows_run history
  obtain ⟨self', out, hproc, heq⟩ := proc_eq self elapsed file
  have hout := (hfollows.sample (f := calcDiff elapsed) (file.nodup_keptRows)).1
  rw [← heq] at hout
  subst hout
  exact ⟨self, self', hrun, hproc⟩

end CprocDiskstats

def diskCounters : List (String × (DiskRow → ℚ)) :=
  [("reads", fun r => r.reads), ("rmerge", fun r => r.rmerge), ("rkb", fun r => r.rsect / 2),
    ("rmsec", fun r => r.rmsec), ("writes", fun r => r.writes), ("wmerge", fun r => r.wmerge),
    ("wkb", fun r => r.wsect / 2), ("wmsec", fun r => r.wmsec), ("backlog", fun r => r.backlog),
    ("xfers", fun r => r.reads + r.writes)]

structure IsDiskLine (elapsed : ℚ) (now prev : DiskRow) (vs : List (String × ℚ)) : Prop where
  counters : ∀ p ∈ diskCounters, vs.lookup p.1 = some ((p.2 now - p.2 prev) / elapsed)
  busy : vs.lookup "busy" = some (((now.time : ℚ) - prev.time) / 1000 / elapsed * 100)

structure DiskRates (elapsed : ℚ) (prev now : List (Bytes × DiskRow)) (out : List (NumLine ℚ)) :
    Prop where
  once : (out.map NumLine.ls).Nodup
  all : ∀ name v w, now.lookup name = some v → prev.lookup name = some w →
    ∃ l ∈ out, l.ls = [("disk_name", name)]
  rates : ∀ l ∈ out, ∃ name v w, now.lookup name = some v ∧ prev.lookup name = some w ∧
    l.line = "disks" ∧ l.ls = [("disk_name", name)] ∧ IsDiskLine elapsed v w l.vs

theorem lookup_calcDiff (elapsed : ℚ) (name : Bytes) (v w : DiskRow) :
    ∀ p ∈ diskCounters, (CprocDiskstats.calcDiff elapsed name (CprocDiskstats.getNewValue v)
      (CprocDiskstats.getNewValue w)).vs.lookup p.1 = some ((p.2 v - p.2 w) / elapsed) := by
  simp only [diskCounters, forall_mem_cons, not_mem_nil, false_imp_iff, forall_const]
  exact ⟨rfl, rfl, rfl, rfl, rfl, rfl, rfl, rfl, rfl, rfl, trivial⟩

theorem lookup_calcDiff_busy (elapsed : ℚ) (name : Bytes) (v w : DiskNow) :
    (CprocDiskstats.calcDiff elapsed name v w).vs.lookup "busy" = some 0 := by
  have h : (CprocDiskstats.calcDiff elapsed name v w).vs.lookup "busy" =
    some ((v.time - v.time) / elapsed) := rfl
  rw [h, sub_self, zero_div]

theorem isDiskLine_calcDiff_iff {elapsed : ℚ} (helapsed : 0 < elapsed) (name : Bytes)
    (v w : DiskRow) :
    IsDiskLine elapsed v w (CprocDiskstats.calcDiff elapsed name (CprocDiskstats.getNewValue v)
      (CprocDiskstats.getNewValue w)).vs ↔ v.time = w.time := by
  constructor
  · intro h
    have hbusy := h.busy
    rw [lookup_calcDiff_busy, some_inj] at hbusy
    have hzero : (v.time : ℚ) - w.time = 0 := by
      simpa [helapsed.ne'] using hbusy.symm
    exact_mod_cast sub_eq_zero.mp hzero
  · intro h
    refine ⟨lookup_calcDiff elapsed name v w, ?_⟩
    rw [lookup_calcDiff_busy, h, sub_self, zero_div, zero_div, zero_mul]

theorem disk_rates_iff (history : List (ℚ × DiskFile)) (elapsed : ℚ) (helapsed : 0 < elapsed)
    (file : DiskFile) :
    ∃ self self' out, CprocDiskstats.run history = some self ∧
      self.proc elapsed file.lines = some (self', out) ∧
      (DiskRates elapsed (CprocDiskstats.before history) file.rows out ↔
        ∀ name v w, file.rows.lookup name = some v →
          (CprocDiskstats.before history).lookup name = some w → v.time = w.time) := by
  obtain ⟨self, self', hrun, hproc⟩ := CprocDiskstats.proc_run history elapsed file
  refine ⟨self, self', _, hrun, hproc, ?_⟩
  constructor
  · intro h name v w hv hw
    have hmem := (SampleDiff.mem_differences (f := CprocDiskstats.calcDiff elapsed)
      (g := CprocDiskstats.getNewValue) file.nodup).mpr ⟨name, v, w, hv, hw, rfl⟩
    obtain ⟨name', v', w', hv', hw', -, hname, hline⟩ := h.rates _ hmem
    obtain rfl : name = name' := by simpa [CprocDiskstats.calcDiff] using hname
    cases hv.symm.trans hv'
    cases hw.symm.trans hw'
    exact (isDiskLine_calcDiff_iff helapsed name v w).mp hline
  · intro h
    refine ⟨?_, fun name v w hv hw => ?_, fun l hl => ?_⟩
    · exact SampleDiff.nodup_differences file.nodup_keptRows
        (fun name => [("disk_name", name)]) (fun _ _ h => by simpa using h) fun _ _ _ => rfl
    · exact ⟨_, (SampleDiff.mem_differences file.nodup).mpr ⟨name, v, w, hv, hw, rfl⟩, rfl⟩
    · obtain ⟨name, v, w, hv, hw, rfl⟩ := (SampleDiff.mem_differences file.nodup).mp hl
      exact ⟨name, v, w, hv, hw, rfl, rfl,
        (isDiskLine_calcDiff_iff helapsed name v w).mpr (h name v w hv hw)⟩

def sdaRow (time : ℕ) : DiskRow := ⟨1, 0, 8, 3, 2, 0, 16, 4, 0, time, 7⟩

def sdaFile (time : ℕ) (htime : (dec time).length ≤ 31) : DiskFile where
  lines := [spaced ((3, dec 8) :: (7, dec 0) :: (1, bytes "sda") ::
    (sdaRow time).fields.map fun n => (1, dec n))]
  rows := [(bytes "sda", sdaRow time)]
  reads := by
    refine congrArg (fun x => [x]) (readDisk_spaced [] rfl ?_ 3 (isWord_dec 8) (by decide)
      (show 13 < varIndexMax by decide))
    have hnum : ∀ n ∈ (sdaRow time).fields, (dec n).length ≤ 31 := by
      simp only [sdaRow, DiskRow.fields, forall_mem_cons, not_mem_nil, false_imp_iff,
        forall_const, htime]
      decide
    intro p hp
    rcases mem_cons.mp hp with rfl | hp
    · exact ⟨by decide, isWord_dec 0, by decide⟩
    rcases mem_cons.mp hp with rfl | hp
    · exact ⟨by decide, ⟨by decide, all_iff_forall_prop.mp (by decide)⟩, by decide⟩
    obtain ⟨n, hn, rfl⟩ := mem_map.mp hp
    exact ⟨Nat.one_pos, isWord_dec n, hnum n hn⟩
  nodup := nodup_singleton _

theorem disk_rates_idle :
    ∃ self self' out, CprocDiskstats.run [(1, sdaFile 100 (by decide))] = some self ∧
      self.proc 1 (sdaFile 100 (by decide)).lines = some (self', out) ∧
      DiskRates 1 [(bytes "sda", sdaRow 100)] [(bytes "sda", sdaRow 100)] out := by
  obtain ⟨self, self', out, hrun, hproc, hiff⟩ :=
    disk_rates_iff [(1, sdaFile 100 (by decide))] 1 (by decide) (sdaFile 100 (by decide))
  refine ⟨self, self', out, hrun, hproc, hiff.mpr fun name v w hv hw => ?_⟩
  cases hv.symm.trans hw
  rfl

theorem disk_busy_zero :
    ∃ self self' l, CprocDiskstats.run [(1, sdaFile 100 (by decide))] = some self ∧
      self.proc 1 (sdaFile 300 (by decide)).lines = some (self', [l]) ∧
      l.vs.lookup "busy" = some 0 ∧
      ¬ DiskRates 1 [(bytes "sda", sdaRow 100)] [(bytes "sda", sdaRow 300)] [l] := by
  obtain ⟨self, self', hrun, hproc⟩ := CprocDiskstats.proc_run [(1, sdaFile 100 (by decide))] 1
    (sdaFile 300 (by decide))
  refine ⟨self, self', CprocDiskstats.calcDiff 1 (bytes "sda")
    (CprocDiskstats.getNewValue (sdaRow 300)) (CprocDiskstats.getNewValue (sdaRow 100)),
    hrun, hproc, lookup_calcDiff_busy .., fun h => ?_⟩
  obtain ⟨name, v, w, hv, hw, -, hname, hline⟩ := h.rates _ mem_cons_self
  obtain rfl : bytes "sda" = name := by simpa [CprocDiskstats.calcDiff] using hname
  cases hv
  cases hw
  exact absurd ((isDiskLine_calcDiff_iff (by decide) _ _ _).mp hline) (by decide)

end Sysak.Collector
