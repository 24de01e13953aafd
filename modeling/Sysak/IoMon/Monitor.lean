/-
# The monitored disks
-/

import Mathlib.Data.List.DropRight
import Mathlib.Data.Rat.Floor
import Sysak.Lib.MovingWindow
import Sysak.Lib.Reads

namespace Sysak.IoMon

open Lib List

inductive Indicator where
  | iops | bps | qusize | await | util
  deriving DecidableEq

def pyRound (x : ℚ) (n : ℕ) : ℚ :=
  (if 0 ≤ x then ⌊x * 10 ^ n + 1 / 2⌋ else ⌈x * 10 ^ n - 1 / 2⌉) / 10 ^ n

def calcIoIndex (field : ℕ → ℕ × ℕ) (secs : ℚ) : Indicator → ℚ :=
  let diff (i : ℕ) : ℚ := (field i).2 - (field i).1
  let iops := pyRound ((diff 1 + diff 5) / secs) 1
  fun
  | .iops => iops
  | .bps => (diff 3 + diff 7) / secs * 512
  | .qusize => pyRound (diff 11 / secs / 1000) 2
  | .await => if iops ≠ 0 then pyRound ((diff 4 + diff 8) / (iops * secs)) 2 else 0
  | .util => min (pyRound (diff 10 * 100 / (secs * 1000)) 2) 100

def uploads (secs : ℚ) (uploadInter : ℕ) : Bool := (uploadInter * secs / 60).den == 1

structure DiskLine (D : Type*) where
  name : D
  inSys : Bool
  stat : ℕ → ℕ

structure Reading (D : Type*) where
  lines : List (DiskLine D)
  nodup : (lines.map DiskLine.name).Nodup

structure Monitor (D : Type*) where
  fieldDicts : List D
  field : D → ℕ → ℕ × ℕ
  dataStat : D → Option (Indicator → ℚ)
  exceptChkDicts : D → Bool
  exceptionStat : D → Bool
  diagnoseDicts : D → Bool
  uploadInter : ℕ

structure Sample (D : Type*) where
  io : D → Option (Indicator → ℚ)
  uploaded : Bool

def Reading.Whole {D : Type*} (r : Reading D) (d : D) : Prop := ∃ l ∈ r.lines, l.name = d ∧ l.inSys

namespace Monitor

variable {D : Type*}

def start : Monitor D := ⟨[], fun _ _ => (0, 0), fun _ => none, fun _ => false, fun _ => false,
  fun _ => false, 0⟩

def reported (m : Monitor D) (d : D) (v : Indicator) : ℚ :=
  ((m.dataStat d).getD fun _ => 0) v / if v = .bps then 1024 else 1

variable [DecidableEq D]

def addMonitorAttrForDisk (m : Monitor D) (d : D) : Monitor D where
  fieldDicts := m.fieldDicts ++ [d]
  field := Function.update m.field d fun _ => (0, 0)
  dataStat := Function.update m.dataStat d ((m.dataStat d).or (some fun _ => 0))
  exceptChkDicts := Function.update m.exceptChkDicts d true
  exceptionStat := Function.update m.exceptionStat d true
  diagnoseDicts := Function.update m.diagnoseDicts d true
  uploadInter := m.uploadInter

def readLine (known : Monitor D → DiskLine D → Monitor D) (m : Monitor D) (l : DiskLine D) :
    Option (Monitor D) :=
  if l.inSys then some (known m l) else if l.name ∈ m.fieldDicts then none else some m

def setField (m : Monitor D) (d : D) (f : ℕ → ℕ × ℕ) : Monitor D :=
  { m with field := Function.update m.field d f }

def beginLine (m : Monitor D) (l : DiskLine D) : Monitor D :=
  let m := if l.name ∈ m.fieldDicts then m else m.addMonitorAttrForDisk l.name
  m.setField l.name fun i => (l.stat (i + 2), (m.field l.name i).2)

def endLine (m : Monitor D) (l : DiskLine D) : Monitor D :=
  if l.name ∈ m.fieldDicts then
    m.setField l.name fun i => ((m.field l.name i).1, l.stat (i + 2))
  else m

def collectBegin (m : Monitor D) (r : Reading D) : Option (Monitor D) :=
  r.lines.foldlM (readLine beginLine) m

def collectEnd (secs : ℚ) (m : Monitor D) (r : Reading D) : Option (Monitor D × Sample D) :=
  let u := if uploads secs m.uploadInter then 1 else m.uploadInter + 1
  (r.lines.foldlM (readLine endLine) { m with uploadInter := u }).bind fun m =>
    if m.fieldDicts.all fun d => (m.dataStat d).isSome && m.exceptChkDicts d &&
        m.exceptionStat d && m.diagnoseDicts d then
      let io (d : D) := if d ∈ m.fieldDicts then some (calcIoIndex (m.field d) secs) else none
      let mean (d : D) (ds : Indicator → ℚ) :=
        (io d).elim ds fun x v => (ds v * (u - 1) + x v) / u
      some ({ m with dataStat := fun d => (m.dataStat d).map (mean d) }, ⟨io, uploads secs u⟩)
    else none

def cycle (secs : ℚ) (m : Monitor D) (c : Reading D × Reading D) : Option (Monitor D × Sample D) :=
  (m.collectBegin c.1).bind fun m => m.collectEnd secs c.2

structure Disks (m : Monitor D) (S : D → Prop) : Prop where
  field : ∀ d, d ∈ m.fieldDicts ↔ S d
  data : ∀ d, (m.dataStat d).isSome ↔ S d
  threshold : ∀ d, m.exceptChkDicts d ↔ S d
  exception : ∀ d, m.exceptionStat d ↔ S d
  diagnose : ∀ d, m.diagnoseDicts d ↔ S d

def Follows (secs : ℚ) : Monitor D → List (Reading D × Reading D) → Prop
  | _, [] => True
  | m, c :: cs => ∃ r, m.cycle secs c = some r ∧ r.1.Disks c.2.Whole ∧ Follows secs r.1 cs

def Steady : (D → Prop) → List (Reading D × Reading D) → Prop
  | _, [] => True
  | S, c :: cs => (∀ l ∈ c.1.lines, l.inSys = false → ¬S l.name) ∧
      (∀ d, c.2.Whole d ↔ S d ∨ c.1.Whole d) ∧ Steady c.2.Whole cs

variable {m : Monitor D} {S : D → Prop}

theorem Disks.add (h : m.Disks S) (d : D) :
    (m.addMonitorAttrForDisk d).Disks fun e => S e ∨ e = d := by
  constructor <;> intro e <;> by_cases he : e = d
  all_goals
    simp [addMonitorAttrForDisk, he, h.field, h.data, h.threshold, h.exception, h.diagnose]

theorem foldlM_readLine {known : Monitor D → DiskLine D → Monitor D} {adds : Prop}
    (hknown : ∀ {m : Monitor D} {S : D → Prop} (l : DiskLine D), m.Disks S →
      (known m l).Disks fun d => S d ∨ adds ∧ d = l.name)
    {ls : List (DiskLine D)} (hnodup : (ls.map DiskLine.name).Nodup) (hm : m.Disks S) :
    (∀ l ∈ ls, l.inSys = false → ¬S l.name) ∧ (∃ m', ls.foldlM (readLine known) m = some m' ∧
      m'.Disks fun d => S d ∨ adds ∧ ∃ l ∈ ls, l.name = d ∧ l.inSys) ∨
    (∃ l ∈ ls, l.inSys = false ∧ S l.name) ∧ ls.foldlM (readLine known) m = none := by
  induction ls generalizing m S with
  | nil => exact .inl ⟨by simp, m, rfl, by simpa using hm⟩
  | cons l ls ih =>
    obtain ⟨hl, hnodup⟩ := nodup_cons.mp hnodup
    rw [foldlM_cons, readLine]
    by_cases hsys : l.inSys
    · -- the names behind the line are others
      have hother : ∀ l' ∈ ls, (S l'.name ∨ adds ∧ l'.name = l.name) ↔ S l'.name := fun l' hl' =>
        or_iff_left fun ⟨_, heq⟩ => hl (heq ▸ mem_map_of_mem hl')
      rw [if_pos hsys]
      rcases ih hnodup (hknown l hm) with ⟨hok, m', hrun, hm'⟩ | ⟨⟨l', hl', hbad, hS⟩, hrun⟩
      · refine .inl ⟨?_, m', hrun, ?_⟩
        · simpa [hsys] using fun l' hl' hbad => mt (hother l' hl').mpr (hok l' hl' hbad)
        · have hset : (fun d => (S d ∨ adds ∧ d = l.name) ∨ adds ∧ ∃ l ∈ ls, l.name = d ∧ l.inSys) =
              fun d => S d ∨ adds ∧ ∃ l' ∈ l :: ls, l'.name = d ∧ l'.inSys := by
            funext d
            simp only [mem_cons, exists_eq_or_imp, hsys, and_true, eq_comm (a := d), and_or_left,
              or_assoc]
          rwa [← hset]
      · exact .inr ⟨⟨l', mem_cons_of_mem _ hl', hbad, (hother l' hl').mp hS⟩, hrun⟩
    · rw [if_neg hsys]
      by_cases hS : S l.name
      · rw [if_pos ((hm.field _).mpr hS)]
        exact .inr ⟨⟨l, mem_cons_self, by simpa using hsys, hS⟩, rfl⟩
      · rw [if_neg (mt (hm.field _).mp hS)]
        simpa [hsys, hS] using ih hnodup hm

theorem Disks.setField (h : m.Disks S) (d : D) (f : ℕ → ℕ × ℕ) : (m.setField d f).Disks S :=
  ⟨h.field, h.data, h.threshold, h.exception, h.diagnose⟩

theorem Disks.beginLine (h : m.Disks S) (l : DiskLine D) :
    (m.beginLine l).Disks fun d => S d ∨ True ∧ d = l.name := by
  simp only [true_and]
  refine Disks.setField ?_ _ _
  split_ifs with hin
  · have hset : (fun d => S d ∨ d = l.name) = S :=
      funext fun d => propext (or_iff_left_of_imp fun heq => heq ▸ (h.field _).mp hin)
    rwa [hset]
  · exact h.add _

theorem Disks.endLine (h : m.Disks S) (l : DiskLine D) :
    (m.endLine l).Disks fun d => S d ∨ False ∧ d = l.name := by
  simp only [false_and, or_false]
  rw [Monitor.endLine]
  split_ifs
  · exact h.setField _ _
  · exact h

theorem collectEnd_cases (secs : ℚ) (hm : m.Disks S) (r : Reading D) :
    (∃ r', m.collectEnd secs r = some r' ∧ r'.1.Disks S) ∨
    (∃ l ∈ r.lines, l.inSys = false ∧ S l.name) ∧ m.collectEnd secs r = none := by
  rw [collectEnd]
  rcases foldlM_readLine (fun l h => Disks.endLine h l) r.nodup
    (m := { m with uploadInter := if uploads secs m.uploadInter then 1 else m.uploadInter + 1 })
    ⟨hm.field, hm.data, hm.threshold, hm.exception, hm.diagnose⟩ with
      ⟨-, m', hrun, hm'⟩ | ⟨hbad, hrun⟩
  · simp only [false_and, or_false] at hm'
    have hall : m'.fieldDicts.all fun d => (m'.dataStat d).isSome && m'.exceptChkDicts d &&
        m'.exceptionStat d && m'.diagnoseDicts d := by
      refine all_eq_true.mpr fun d hd => ?_
      have hS := (hm'.field d).mp hd
      simp [(hm'.data d).mpr hS, (hm'.threshold d).mpr hS, (hm'.exception d).mpr hS,
        (hm'.diagnose d).mpr hS]
    simp only [hrun, Option.bind_some, if_pos hall]
    exact .inl ⟨_, rfl, hm'.field, fun d => by simpa using hm'.data d, hm'.threshold, hm'.exception,
      hm'.diagnose⟩
  · simp only [hrun]
    exact .inr ⟨hbad, rfl⟩

theorem follows_iff (secs : ℚ) (hm : m.Disks S) (cs : List (Reading D × Reading D)) :
    Follows secs m cs ↔ Steady S cs := by
  induction cs generalizing m S with
  | nil => exact Iff.rfl
  | cons c cs ih =>
    rw [Follows, Steady, cycle]
    rcases foldlM_readLine (fun l h => Disks.beginLine h l) c.1.nodup hm with
      ⟨hok, m', hbegin, hm'⟩ | ⟨⟨l, hl, hbad, hS⟩, hbegin⟩
    · simp only [true_and] at hm'
      rw [collectBegin, hbegin, Option.bind_some, and_iff_right hok]
      rcases collectEnd_cases secs hm' c.2 with ⟨r, hend, hr⟩ | ⟨⟨l, hl, hbad, hS⟩, hend⟩
      · have hset : r.1.Disks c.2.Whole ↔ ∀ d, c.2.Whole d ↔ S d ∨ c.1.Whole d :=
          ⟨fun h d => (h.field d).symm.trans (hr.field d),
            fun h => funext (fun d => propext (h d)) ▸ hr⟩
        rw [← hset]
        simp only [hend, Option.some.injEq, exists_eq_left']
        exact and_congr_right fun hw => ih hw
      · -- a disk that is listed without its directory is not listed whole
        rw [hend]
        refine iff_of_false (by simp) fun ⟨hset, _⟩ => ?_
        obtain ⟨l', hl', hname, hsys⟩ := (hset l.name).mpr hS
        rw [inj_on_of_nodup_map c.2.nodup hl' hl hname, hbad] at hsys
        cases hsys
    · rw [collectBegin, hbegin]
      exact iff_of_false (by simp) fun ⟨hok, _⟩ => hok l hl hbad hS

omit [DecidableEq D] in
theorem disks_start : (start : Monitor D).Disks fun _ => False := by
  constructor <;> simp [start]

theorem follows_iff_steady (secs : ℚ) (cs : List (Reading D × Reading D)) :
    Follows secs start cs ↔ Steady (fun _ => False) cs :=
  follows_iff secs disks_start cs

def oneDisk (n : ℕ) : Reading String := ⟨[⟨"sda", true, fun _ => n⟩], by simp⟩

def noDisk : Reading String := ⟨[], by simp⟩

theorem not_follows_unplugged :
    ¬Follows 1 start [(oneDisk 0, oneDisk 0), (noDisk, noDisk)] := by
  rw [follows_iff 1 disks_start]
  rintro ⟨-, -, -, hset, -⟩
  obtain ⟨l, hl, -⟩ := (hset "sda").mpr (.inl ⟨_, mem_singleton_self _, rfl, rfl⟩)
  exact absurd hl not_mem_nil

section Means

def run (secs : ℚ) (cs : List (Reading D × Reading D)) : Option (Monitor D × List (Sample D)) :=
  cs.foldlM (fun r c => (r.1.cycle secs c).map fun r' => (r'.1, r.2 ++ [r'.2])) (start, [])

def pending (L : List (Sample D)) : List (Sample D) := L.rtakeWhile fun s => !s.uploaded

def values (L : List (Sample D)) (d : D) (v : Indicator) : List ℚ :=
  L.filterMap fun s => (s.io d).map fun x => x v

structure Averages (secs : ℚ) (m : Monitor D) (L : List (Sample D)) : Prop where
  keys : ∀ d, (m.dataStat d).isSome ↔ d ∈ m.fieldDicts
  counter : (pending L).length = if uploads secs m.uploadInter then 0 else m.uploadInter
  sums : ∀ d ds v, m.dataStat d = some ds → ds v * (pending L).length = (values (pending L) d v).sum
  fresh : ∀ d, m.dataStat d = none → ∀ s ∈ L, s.io d = none

variable {secs : ℚ} {L : List (Sample D)} {s : Sample D} {m' : Monitor D} {d : D} {v : Indicator}

omit [DecidableEq D] in
theorem values_concat (L : List (Sample D)) (s : Sample D) :
    values (L ++ [s]) d v = values L d v ++ ((s.io d).map fun x => x v).toList := by
  rw [values, filterMap_append, values]
  cases h : s.io d <;> simp [h]

omit [DecidableEq D] in
theorem values_eq_nil (h : ∀ s ∈ L, s.io d = none) : values L d v = [] :=
  filterMap_eq_nil_iff.mpr fun s hs => by rw [h s hs]; rfl

theorem Averages.add (h : Averages secs m L) (hd : m.dataStat d = none) :
    Averages secs (m.addMonitorAttrForDisk d) L := by
  refine ⟨fun e => ?_, h.counter, fun e ds v hds => ?_, fun e he => h.fresh e ?_⟩ <;>
    by_cases hed : e = d
  · simp [addMonitorAttrForDisk, hed, hd]
  · simp [addMonitorAttrForDisk, hed, h.keys e]
  · subst hed
    obtain rfl : (fun _ => 0) = ds := by simpa [addMonitorAttrForDisk, hd] using hds
    have hnil : values (pending L) e v = [] :=
      values_eq_nil fun s hs => h.fresh e hd s ((rtakeWhile_suffix _ _).subset hs)
    rw [hnil, sum_nil, zero_mul]
  · exact h.sums e ds v (by simpa [addMonitorAttrForDisk, hed] using hds)
  · exact hed ▸ hd
  · simpa [addMonitorAttrForDisk, hed] using he

theorem Averages.collectBegin (h : Averages secs m L) {r : Reading D}
    (hrun : m.collectBegin r = some m') : Averages secs m' L := by
  refine foldlM_keeps (P := fun m => Averages secs m L) (fun m l m' hstep h => ?_) hrun h
  rw [readLine] at hstep
  split_ifs at hstep with hsys
  · obtain rfl := Option.some.inj hstep
    have hin : Averages secs (if l.name ∈ m.fieldDicts then m
        else m.addMonitorAttrForDisk l.name) L := by
      split_ifs with hin
      · exact h
      · exact h.add (by simpa using mt (h.keys _).mp hin)
    exact ⟨hin.keys, hin.counter, hin.sums, hin.fresh⟩
  · exact Option.some.inj hstep ▸ h

omit [DecidableEq D] in
theorem pending_concat (L : List (Sample D)) (s : Sample D) :
    pending (L ++ [s]) = if s.uploaded then [] else pending L ++ [s] := by
  cases hs : s.uploaded
  · exact rtakeWhile_concat_pos _ _ _ (by simp [hs])
  · exact rtakeWhile_concat_neg _ _ _ (by simp [hs])

theorem endLines_keep {ls : List (DiskLine D)} (h : ls.foldlM (readLine endLine) m = some m') :
    m'.fieldDicts = m.fieldDicts ∧ m'.dataStat = m.dataStat ∧ m'.uploadInter = m.uploadInter := by
  refine foldlM_keeps (P := fun m' => m'.fieldDicts = m.fieldDicts ∧ m'.dataStat = m.dataStat ∧
    m'.uploadInter = m.uploadInter) (fun b l b' hstep h => ?_) h ⟨rfl, rfl, rfl⟩
  rw [readLine] at hstep
  split_ifs at hstep
  · obtain rfl := Option.some.inj hstep
    rw [endLine]
    split_ifs <;> exact h
  · exact Option.some.inj hstep ▸ h

omit [DecidableEq D] in
theorem mean_mul_length {x : Indicator → ℚ} {a : ℚ} {u : ℕ} (hx : s.io d = some x)
    (hu : (pending L ++ [s]).length = u)
    (ha : a * (pending L).length = (values (pending L) d v).sum) :
    (a * (u - 1) + x v) / u * (pending L ++ [s]).length =
      (values (pending L ++ [s]) d v).sum := by
  rw [length_append, length_singleton] at hu
  have hu0 : (u : ℚ) ≠ 0 := Nat.cast_ne_zero.mpr (by omega)
  have hu1 : (u : ℚ) - 1 = (pending L).length := by
    rw [← hu]
    push_cast
    ring
  rw [values_concat, sum_append, ← ha, length_append, length_singleton, hu, hx,
    div_mul_cancel₀ _ hu0, hu1]
  simp

theorem Averages.collectEnd (h : Averages secs m L) {r : Reading D}
    (hend : m.collectEnd secs r = some (m', s)) : Averages secs m' (L ++ [s]) ∧
      ∀ d ds, m'.dataStat d = some ds → (s.io d).isSome ∧ ∀ v,
        ds v * (pending L ++ [s]).length = (values (pending L ++ [s]) d v).sum := by
  rw [Monitor.collectEnd] at hend
  obtain ⟨m₂, hlines, hend⟩ := Option.bind_eq_some_iff.mp hend
  set u := if uploads secs m.uploadInter then 1 else m.uploadInter + 1 with hu
  obtain ⟨hfield, hdata, hinter⟩ := endLines_keep hlines
  have hlen : (pending L ++ [s]).length = u := by
    rw [length_append, length_singleton, h.counter, hu]
    split_ifs <;> rfl
  split_ifs at hend with hall
  obtain ⟨rfl, rfl⟩ := Prod.mk.inj (Option.some.inj hend)
  have hin (d : D) : (m₂.dataStat d).isSome ↔ d ∈ m₂.fieldDicts := by
    rw [hdata, hfield]
    exact h.keys d
  set s : Sample D := ⟨_, uploads secs u⟩
  have hkey (d : D) (ds : Indicator → ℚ)
      (hds : (m₂.dataStat d).map (fun ds => (s.io d).elim ds fun x v =>
        (ds v * (u - 1) + x v) / u) = some ds) : (s.io d).isSome ∧ ∀ v,
        ds v * (pending L ++ [s]).length = (values (pending L ++ [s]) d v).sum := by
    obtain ⟨ds₀, hds₀, rfl⟩ := Option.map_eq_some_iff.mp hds
    have hio : s.io d = some (calcIoIndex (m₂.field d) secs) :=
      if_pos ((hin d).mp (Option.isSome_of_eq_some hds₀))
    refine ⟨Option.isSome_of_eq_some hio, fun v => ?_⟩
    rw [hio, Option.elim_some]
    exact mean_mul_length hio hlen (h.sums d ds₀ v (hdata ▸ hds₀))
  refine ⟨⟨fun d => by simpa using hin d, ?_, fun d ds v hds => ?_, fun d hd t ht => ?_⟩, hkey⟩
  · rw [pending_concat, hinter, apply_ite length, hlen]
    rfl
  · rw [pending_concat]
    split_ifs
    · simp [values]
    · exact (hkey d ds hds).2 v
  · have hnone : m₂.dataStat d = none := by simpa using hd
    rcases mem_append.mp ht with ht | ht
    · exact h.fresh d (hdata ▸ hnone) t ht
    · rw [mem_singleton.mp ht]
      exact if_neg (mt (hin d).mpr (by simp [hnone]))

theorem Averages.cycle (h : Averages secs m L) {c : Reading D × Reading D}
    (hc : m.cycle secs c = some (m', s)) : Averages secs m' (L ++ [s]) ∧
      ∀ d ds, m'.dataStat d = some ds → (s.io d).isSome ∧ ∀ v,
        ds v * (pending L ++ [s]).length = (values (pending L ++ [s]) d v).sum := by
  obtain ⟨m₁, hbegin, hend⟩ := Option.bind_eq_some_iff.mp hc
  exact (h.collectBegin hbegin).collectEnd hend

theorem reported_eq_mean_iff (secs : ℚ) (cs : List (Reading D × Reading D))
    (hrun : run secs cs = some (m, L)) {c : Reading D × Reading D}
    (hc : m.cycle secs c = some (m', s)) (hd : d ∈ m'.fieldDicts) (v : Indicator) :
    m'.reported d v = mean (values (pending L ++ [s]) d v) / (if v = .bps then 1024 else 1) ↔
      (∀ t ∈ pending L ++ [s], (t.io d).isSome) ∨ (values (pending L ++ [s]) d v).sum = 0 := by
  have h : Averages secs m L := by
    refine foldlM_keeps (P := fun r => Averages secs r.1 r.2) (fun r c r' hstep h => ?_) hrun ?_
    · obtain ⟨⟨m₁, t⟩, hcycle, rfl⟩ := Option.map_eq_some_iff.mp hstep
      exact (h.cycle hcycle).1
    · constructor <;> simp [start, pending, uploads]
  obtain ⟨h', hsum⟩ := h.cycle hc
  obtain ⟨ds, hds⟩ := Option.isSome_iff_exists.mp ((h'.keys d).mpr hd)
  obtain ⟨hio, hsum⟩ := hsum d ds hds
  set I := pending L ++ [s] with hI
  have hcount : (values I d v).length = I.countP fun t => (t.io d).isSome := by
    rw [values, length_filterMap_eq_countP]
    simp
  have hpos : (0 : ℚ) < (values I d v).length := by
    rw [hcount]
    exact_mod_cast countP_pos_iff.mpr ⟨s, mem_append_right _ (mem_singleton_self _), hio⟩
  have hlen : (0 : ℚ) < I.length := Nat.cast_pos.mpr (by simp [hI])
  have hdata : ds v = (values I d v).sum / I.length := (eq_div_iff hlen.ne').mpr (hsum v)
  rw [reported, hds, Option.getD_some, hdata, mean, div_left_inj' (by split_ifs <;> decide),
    div_eq_div_iff hlen.ne' hpos.ne', mul_eq_mul_left_iff, Nat.cast_inj, hcount, countP_eq_length]

theorem reported_eq_mean_steady :
    ∃ m L m' s, run 30 [(oneDisk 0, oneDisk 300)] = some (m, L) ∧
      m.cycle 30 (oneDisk 300, oneDisk 900) = some (m', s) ∧ s.uploaded = true ∧
      m'.reported "sda" .iops = mean (values (pending L ++ [s]) "sda" .iops) / 1 :=
  ⟨_, _, _, _, rfl, rfl, by decide +kernel,
    (reported_eq_mean_iff 30 [(oneDisk 0, oneDisk 300)] rfl (c := (oneDisk 300, oneDisk 900)) rfl
      (by decide +kernel) .iops).mpr (.inl (by decide +kernel))⟩

theorem reported_late :
    ∃ m L m' s, run 30 [(noDisk, noDisk)] = some (m, L) ∧
      m.cycle 30 (oneDisk 0, oneDisk 300) = some (m', s) ∧ s.uploaded = true ∧
      values (pending L ++ [s]) "sda" .iops = [20] ∧ m'.reported "sda" .iops = 10 :=
  ⟨_, _, _, _, rfl, rfl, by decide +kernel, by decide +kernel, by decide +kernel⟩

end Means

end Monitor

end Sysak.IoMon
