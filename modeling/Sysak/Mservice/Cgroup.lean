/-
# The columns of the cgroup module
-/

import Sysak.Lib.Rows
import Sysak.Mservice.Items
import Mathlib.Data.Fin.VecNotation
import Mathlib.Data.List.GetD

namespace Sysak.Mservice
namespace Cgroup

open Lib List Option

structure CgLoadInfo where
  loadAvg1 : Int32
  loadAvg5 : Int32
  loadAvg15 : Int32
  nrRunning : Int32
  nrUninterrupt : Int32

structure CgCpuInfo where
  cpuUser : UInt64
  cpuNice : UInt64
  cpuSys : UInt64
  cpuIdle : UInt64
  cpuIowait : UInt64
  cpuHirq : UInt64
  cpuSirq : UInt64
  cpuSteal : UInt64
  cpuGuest : UInt64
  nrThrottled : UInt64
  throttledTime : UInt64

structure CgMemlatInfo where
  lat1 : UInt64
  lat5 : UInt64
  lat10 : UInt64
  lat100 : UInt64
  lat500 : UInt64
  lat1s : UInt64
  latOver1s : UInt64
  totalLatCnt : UInt64
  totalLatTime : UInt64

structure CgMemInfo where
  cache : UInt64
  used : UInt64
  limit : UInt64
  free : UInt64
  util : UInt64
  pgfault : UInt64
  pgmjfault : UInt64
  failcnt : UInt64
  drgl : CgMemlatInfo
  drml : CgMemlatInfo
  dcl : CgMemlatInfo

structure CgBlkioInfo where
  rdIos : UInt64
  rdBytes : UInt64
  rdWait : UInt64
  rdTime : UInt64
  rdQios : UInt64
  rdQbytes : UInt64
  wrIos : UInt64
  wrBytes : UInt64
  wrWait : UInt64
  wrTime : UInt64
  wrQios : UInt64
  wrQbytes : UInt64

structure CgHwresInfo where
  cycles : Int64
  instructions : Int64
  llcRef : Int64
  llcMiss : Int64
  cpi : Int64
  deltaCpi : Int64

structure JitLastN where
  delay : UInt64
  con : Bytes

structure JitterShm where
  nosched : List JitLastN
  irqoff : List JitLastN
  rqslow : List JitLastN

structure JitterInfo where
  num : UInt64
  time : UInt64

structure Sample where
  name : Bytes
  load : CgLoadInfo
  cpu : CgCpuInfo
  mem : CgMemInfo
  blkio : CgBlkioInfo
  hwres : CgHwresInfo
  shms : List JitterShm

def jitterCgroupMatched (name : Bytes) (lasti : JitLastN) : Bool :=
  name.take 13 == lasti.con.take 13

def countJitter (name : Bytes) (jit : JitterInfo) (lasti : JitLastN) : JitterInfo :=
  if jitterCgroupMatched name lasti then ⟨jit.num + 1, jit.time + lasti.delay⟩ else jit

def jitsum (j : Fin 3) (shm : JitterShm) : List JitLastN := ![shm.nosched, shm.irqoff, shm.rqslow] j

def getJitterStats (name : Bytes) (jits : Fin 3 → JitterInfo) (shm : JitterShm) :
    Fin 3 → JitterInfo :=
  fun j => (jitsum j shm).foldl (countJitter name) (jits j)

namespace Sample

def info (s : Sample) : Fin 3 → JitterInfo := s.shms.foldl (getJitterStats s.name) fun _ => ⟨0, 0⟩

def total (s : Sample) (kind : JitterShm → List JitLastN) : JitterInfo :=
  (s.shms.flatMap kind).foldl (countJitter s.name) ⟨0, 0⟩

end Sample

inductive Group where
  | load | cpu | mem | io | hw | jitter
deriving Repr, DecidableEq

namespace Group

def all : List Group := [.load, .cpu, .mem, .io, .hw, .jitter]

def width : Group → ℕ
  | .load => 5
  | .cpu => 11
  | .mem => 35
  | .io => 14
  | .hw => 6
  | .jitter => 6

def offset : Group → ℕ
  | .load => 0
  | .cpu => 5
  | .mem => 16
  | .io => 51
  | .hw => 65
  | .jitter => 71

def modInfo : Group → List (String × (Sample → ℤ))
  | .load =>
    [(" load1", (·.load.loadAvg1.toInt)), (" load5", (·.load.loadAvg5.toInt)),
      ("load15", (·.load.loadAvg15.toInt)), ("  nrun", (·.load.nrRunning.toInt)),
      ("nunint", (·.load.nrUninterrupt.toInt))]
  | .cpu =>
    [("  user", (·.cpu.cpuUser.toNat)), ("  nice", (·.cpu.cpuNice.toNat)),
      ("   sys", (·.cpu.cpuSys.toNat)), ("  idle", (·.cpu.cpuIdle.toNat)),
      ("  wait", (·.cpu.cpuIowait.toNat)), ("  hirq", (·.cpu.cpuHirq.toNat)),
      ("  sirq", (·.cpu.cpuSirq.toNat)), (" steal", (·.cpu.cpuSteal.toNat)),
      (" guest", (·.cpu.cpuGuest.toNat)), ("nr_throttled", (·.cpu.nrThrottled.toNat)),
      ("throttled_time", (·.cpu.throttledTime.toNat))]
  | .mem =>
    [("  cach", (·.mem.cache.toNat)), ("  used", (·.mem.used.toNat)),
      ("mtotal", (·.mem.limit.toNat)), ("  free", (·.mem.free.toNat)),
      (" mutil", (·.mem.util.toNat)), ("pgfault", (·.mem.pgfault.toNat)),
      ("pgmajfault", (·.mem.pgmjfault.toNat)), ("mfailcnt", (·.mem.failcnt.toNat)),
      (" drgl1", (·.mem.drgl.lat1.toNat)), (" drgl5", (·.mem.drgl.lat5.toNat)),
      ("drgl10", (·.mem.drgl.lat10.toNat)), ("drgl100", (·.mem.drgl.lat100.toNat)),
      ("drgl500", (·.mem.drgl.lat500.toNat)), ("drgl1s", (·.mem.drgl.lat1s.toNat)),
      ("drgl1se", (·.mem.drgl.latOver1s.toNat)), ("drglcnt", (·.mem.drgl.totalLatCnt.toNat)),
      ("drgltime", (·.mem.drgl.totalLatTime.toNat)),
      (" drml1", (·.mem.drml.lat1.toNat)), (" drml5", (·.mem.drml.lat5.toNat)),
      ("drml10", (·.mem.drml.lat10.toNat)), ("drml100", (·.mem.drml.lat100.toNat)),
      ("drml500", (·.mem.drml.lat500.toNat)), ("drml1s", (·.mem.drml.lat1s.toNat)),
      ("drml1se", (·.mem.drml.latOver1s.toNat)), ("drmlcnt", (·.mem.drml.totalLatCnt.toNat)),
      ("drmltime", (·.mem.drml.totalLatTime.toNat)),
      ("  dcl1", (·.mem.dcl.lat1.toNat)), ("  dcl5", (·.mem.dcl.lat5.toNat)),
      (" dcl10", (·.mem.dcl.lat10.toNat)), ("dcl100", (·.mem.dcl.lat100.toNat)),
      ("dcl500", (·.mem.dcl.lat500.toNat)), (" dcl1s", (·.mem.dcl.lat1s.toNat)),
      ("dcl1se", (·.mem.dcl.latOver1s.toNat)), ("dclcnt", (·.mem.dcl.totalLatCnt.toNat)),
      ("dcltime", (·.mem.dcl.totalLatTime.toNat))]
  | .io =>
    [(" riops", (·.blkio.rdIos.toNat)), (" wiops", (·.blkio.wrIos.toNat)),
      ("  rbps", (·.blkio.rdBytes.toNat)), ("  wbps", (·.blkio.wrBytes.toNat)),
      (" rwait", (·.blkio.rdWait.toNat)), (" wwait", (·.blkio.wrWait.toNat)),
      ("  rsrv", (·.blkio.rdTime.toNat)), ("  wsrv", (·.blkio.wrTime.toNat)),
      ("  rioq", (·.blkio.rdQios.toNat)), ("  wioq", (·.blkio.wrQios.toNat)),
      ("rioqsz", (·.blkio.rdQbytes.toNat)), ("wioqsz", (·.blkio.wrQbytes.toNat)),
      ("rarqsz", fun _ => 0), ("warqsz", fun _ => 0)]
  | .hw =>
    [("cycle", (·.hwres.cycles.toInt)), ("instr", (·.hwres.instructions.toInt)),
      ("llcref", (·.hwres.llcRef.toInt)), ("llcmis", (·.hwres.llcMiss.toInt)),
      ("CPI", (·.hwres.cpi.toInt)), ("dltCPI", (·.hwres.deltaCpi.toInt))]
  | .jitter =>
    [("numrsw", fun s => (s.total (·.rqslow)).num.toNat),
      (" tmrsw", fun s => (s.total (·.rqslow)).time.toNat),
      ("numnsc", fun s => (s.total (·.nosched)).num.toNat),
      (" tmnsc", fun s => (s.total (·.nosched)).time.toNat),
      ("numirq", fun s => (s.total (·.irqoff)).num.toNat),
      (" tmirq", fun s => (s.total (·.irqoff)).time.toNat)]

def printed (s : Sample) : Group → List ℤ
  | .load =>
    [s.load.loadAvg1.toInt, s.load.loadAvg5.toInt, s.load.loadAvg15.toInt,
      s.load.nrRunning.toInt, s.load.nrUninterrupt.toInt]
  | .cpu =>
    [s.cpu.cpuUser, s.cpu.cpuNice, s.cpu.cpuSys, s.cpu.cpuIdle, s.cpu.cpuIowait, s.cpu.cpuHirq,
      s.cpu.cpuSirq, s.cpu.cpuSteal, s.cpu.cpuGuest, s.cpu.nrThrottled,
      s.cpu.throttledTime].map fun v => (v.toNat : ℤ)
  | .mem =>
    ([s.mem.cache, s.mem.used, s.mem.limit, s.mem.free, s.mem.util, s.mem.pgfault,
        s.mem.pgmjfault, s.mem.failcnt] ++
      [s.mem.drgl, s.mem.drml, s.mem.dcl].flatMap fun i =>
        [i.lat1, i.lat5, i.lat10, i.lat100, i.lat500, i.lat1s, i.latOver1s, i.totalLatCnt,
          i.totalLatTime]).map fun v => (v.toNat : ℤ)
  | .io =>
    [s.blkio.rdIos, s.blkio.wrIos, s.blkio.rdBytes, s.blkio.wrBytes, s.blkio.rdWait,
      s.blkio.wrWait, s.blkio.rdTime, s.blkio.wrTime, s.blkio.rdQios, s.blkio.wrQios,
      s.blkio.rdQbytes, s.blkio.wrQbytes, 0, 0].map fun v => (v.toNat : ℤ)
  | .hw =>
    [s.hwres.cycles, s.hwres.instructions, s.hwres.llcRef, s.hwres.llcMiss, s.hwres.cpi,
      s.hwres.deltaCpi].map fun v => v.toInt
  | .jitter =>
    [s.info 0, s.info 1, s.info 2].flatMap fun i => [(i.num.toNat : ℤ), (i.time.toNat : ℤ)]

def print (s : Sample) (g : Group) : Bytes :=
  match g with
  | .jitter =>
    ((g.printed s).take 5).flatMap (fun v => decInt v ++ [dataSplit]) ++
      ((g.printed s).drop 5).flatMap decInt
  | _ => (g.printed s).flatMap fun v => decInt v ++ [dataSplit]

end Group

structure Enable where
  load : Bool
  cpu : Bool
  mem : Bool
  io : Bool
  hw : Bool
  jitter : Bool
deriving Repr, DecidableEq

namespace Enable

def on (en : Enable) : Group → Bool
  | .load => en.load
  | .cpu => en.cpu
  | .mem => en.mem
  | .io => en.io
  | .hw => en.hw
  | .jitter => en.jitter

def concat {α : Type*} (en : Enable) (f : Group → List α) : List α :=
  Group.all.flatMap fun g => if en.on g then f g else []

def cgInfo (en : Enable) : List String := en.concat fun g => g.modInfo.map Prod.fst

def full : Enable := ⟨true, true, true, true, true, true⟩

def nrCgInfo (en : Enable) : ℕ := ((Group.all.filter en.on).map Group.width).sum

def print (en : Enable) (s : Sample) : Bytes := en.concat (Group.print s)

def col (en : Enable) (g : Group) : ℕ :=
  (((Group.all.takeWhile (· ≠ g)).filter en.on).map Group.width).sum

def Contiguous (en : Enable) : Prop :=
  ∀ g ∈ Group.all, ∀ h ∈ Group.all, h.offset < g.offset → en.on g = true → en.on h = true

instance (en : Enable) : Decidable en.Contiguous :=
  inferInstanceAs (Decidable (∀ g ∈ Group.all, _))

end Enable

structure Double (D : Type*) where
  ofU64 : UInt64 → D
  ofInt : ℤ → D
  mul : D → D → D
  div : D → D → D

variable {D : Type*}

def setLoadRecord (f : Double D) (cur : Fin 5 → UInt64) (i : Fin 5) : D :=
  if i < 3 then f.div (f.ofU64 (cur i)) (f.ofInt 100) else f.ofU64 (cur i)

def cpuTotal (a : Fin 11 → UInt64) : UInt64 :=
  (ofFn fun i : Fin 9 => a (i.castLE (by decide))).sum

def setCpuRecord (f : Double D) (st : Fin 11 → D) (pre cur : Fin 11 → UInt64) (i : Fin 11) : D :=
  if ∃ j, cur j < pre j then f.ofInt (-1)
  else if cpuTotal cur ≤ cpuTotal pre then
    -- no tick changes, or tick overflows
    if i < 9 then f.ofInt (-1) else st i
  else if i < 9 then
    f.div (f.mul (f.ofU64 (cur i - pre i)) (f.ofInt 100)) (f.ofU64 (cpuTotal cur - cpuTotal pre))
  else f.ofU64 (cur i - pre i)

def setMemoryRecord (f : Double D) (pre cur : Fin 35 → UInt64) (i : Fin 35) : D :=
  if i < 4 then f.ofU64 (cur i)
  else if i = 4 then f.div (f.mul (f.ofU64 (cur 1)) (f.ofInt 100)) (f.ofU64 (cur 2))
  else f.ofU64 (cur i - pre i)

def setBlkioRecord (f : Double D) (inter : ℤ) (pre cur : Fin 14 → UInt64) (i : Fin 14) : D :=
  if ∃ j, j < 11 ∧ cur j < pre j then f.ofInt (-1)
  else
    let d := fun j => cur j - pre j
    let rate := fun j => f.div (f.ofU64 (d j)) (f.mul (f.ofInt inter) (f.ofInt 1))
    let per := fun j ios =>
      if d ios = 0 then f.ofInt 0
      else f.div (f.ofU64 (d j)) (f.mul (f.ofU64 (d ios)) (f.ofInt 1))
    ![rate 0, rate 1, rate 2, rate 3, per 4 0, per 5 1, per 6 0, per 7 1, rate 8, rate 9, rate 10,
      rate 11, per 2 0, per 3 1] i

def divide (a b : UInt64) : Option UInt64 := if b = 0 then none else some (a / b)

def setHwresRecord (f : Double D) (pre cur : Fin 6 → UInt64) :
    Option ((Fin 6 → D) × (Fin 6 → UInt64)) := do
  let cpi ← if pre 0 = 0 then some (f.ofInt 0) else (divide (100 * cur 0) (cur 1)).map f.ofU64
  let deltaCpi ← if cur 0 - pre 0 = 0 then some (f.ofInt 0)
    else (divide (100 * (cur 0 - pre 0)) (cur 1 - pre 1)).map f.ofU64
  some (![f.ofU64 (cur 0), f.ofU64 (cur 1), f.ofU64 (cur 2), f.ofU64 (cur 3), cpi, deltaCpi],
    ![cur 0, cur 1, pre 2, pre 3, pre 4, pre 5])

def setCgJitRecord (f : Double D) (pre cur : Fin 6 → UInt64) (i : Fin 6) : D :=
  f.ofU64 (cur i - pre i)

def Group.setRecord (f : Double D) (inter : ℤ) : (g : Group) → (Fin g.width → D) →
    (Fin g.width → UInt64) → (Fin g.width → UInt64) →
    Option ((Fin g.width → D) × (Fin g.width → UInt64))
  | .load, _, pre, cur => some (setLoadRecord f cur, pre)
  | .cpu, st, pre, cur => some (setCpuRecord f st pre cur, pre)
  | .mem, _, pre, cur => some (setMemoryRecord f pre cur, pre)
  | .io, _, pre, cur => some (setBlkioRecord f inter pre cur, pre)
  | .hw, _, pre, cur => setHwresRecord f pre cur
  | .jitter, _, pre, cur => some (setCgJitRecord f pre cur, pre)

def setGroup (f : Double D) (en : Enable) (inter : ℤ) (cur : ℕ → UInt64)
    (a : (ℕ → D) × (ℕ → UInt64)) (g : Group) : Option ((ℕ → D) × (ℕ → UInt64)) :=
  if en.on g then
    (g.setRecord f inter (cells a.1 g.offset) (cells a.2 g.offset) (cells cur g.offset)).map
      fun r => (putCells a.1 g.offset r.1, putCells a.2 g.offset r.2)
  else
    some a

def setCgroupRecord (f : Double D) (en : Enable) (inter : ℤ) (st : ℕ → D) (pre cur : ℕ → UInt64) :
    Option ((ℕ → D) × (ℕ → UInt64)) :=
  Group.all.foldlM (setGroup f en inter cur) (st, pre)

theorem Group.mem_all (g : Group) : g ∈ Group.all := by
  cases g <;> decide

theorem Group.length_printed (s : Sample) (g : Group) : (g.printed s).length = g.width := by
  cases g <;> rfl

theorem Group.length_modInfo (g : Group) : g.modInfo.length = g.width := by
  cases g <;> rfl

theorem Group.offset_disjoint {g h : Group} (hne : g ≠ h) :
    g.offset + g.width ≤ h.offset ∨ h.offset + h.width ≤ g.offset := by
  revert hne
  cases g <;> cases h <;> decide

theorem Enable.length_flatMap (en : Enable) {α : Type*} {f : Group → List α}
    (hf : ∀ g, (f g).length = g.width) (gs : List Group) :
    (gs.flatMap fun g => if en.on g then f g else []).length =
      ((gs.filter en.on).map Group.width).sum := by
  induction gs with
  | nil => rfl
  | cons g gs ih =>
    by_cases hg : en.on g = true
    · rw [flatMap_cons, if_pos hg, length_append, ih, hf, filter_cons_of_pos hg,
        map_cons, sum_cons]
    · rw [flatMap_cons, if_neg hg, nil_append, ih, filter_cons_of_neg hg]

variable {g : Group}

theorem Enable.getElem?_concat (en : Enable) {α : Type*} {f : Group → List α}
    (hf : ∀ g, (f g).length = g.width) (hg : en.on g = true) {i : ℕ} (hi : i < g.width) :
    (en.concat f)[en.col g + i]? = (f g)[i]? := by
  obtain ⟨after, hall⟩ : ∃ after, Group.all = Group.all.takeWhile (· ≠ g) ++ g :: after := by
    cases g <;> exact ⟨_, rfl⟩
  rw [Enable.concat, hall, flatMap_append, Enable.col, ← en.length_flatMap hf,
    getElem?_append_right (Nat.le_add_right _ _), Nat.add_sub_cancel_left, flatMap_cons,
    if_pos hg, getElem?_append_left (by rwa [hf])]

variable {en : Enable}

theorem Enable.Contiguous.col_eq (h : en.Contiguous) (hg : en.on g = true) :
    en.col g = g.offset := by
  obtain ⟨a, b, c, d, e, k⟩ := en
  revert a b c d e k
  cases g <;> decide

theorem Enable.exists_unwritten (h : ¬ en.Contiguous) :
    ∃ g ∈ Group.all, en.on g = true ∧ ∀ k ∈ Group.all, en.on k = true →
      ¬ (k.offset ≤ en.col g ∧ en.col g < k.offset + k.width) := by
  obtain ⟨a, b, c, d, e, k⟩ := en
  revert a b c d e k
  decide

def Fits (v : ℤ) : Prop := -9223372036854775808 ≤ v ∧ v < 18446744073709551616

theorem fits_uint64 (v : UInt64) : Fits v.toNat := by
  have := v.toNat_lt
  exact ⟨by omega, by omega⟩

theorem fits_int64 (v : Int64) : Fits v.toInt := by
  have := v.le_toInt
  have := v.toInt_lt
  exact ⟨by omega, by omega⟩

theorem fits_int32 (v : Int32) : Fits v.toInt := by
  have := v.le_toInt
  have := v.toInt_lt
  exact ⟨by omega, by omega⟩

theorem Group.fits_printed (s : Sample) (g : Group) : ∀ v ∈ g.printed s, Fits v := by
  cases g with
  | load => simp [Group.printed, fits_int32]
  | cpu => exact forall_mem_map.mpr fun v _ => fits_uint64 v
  | mem => exact forall_mem_map.mpr fun v _ => fits_uint64 v
  | io => exact forall_mem_map.mpr fun v _ => fits_uint64 v
  | hw => exact forall_mem_map.mpr fun v _ => fits_int64 v
  | jitter => simp [Group.printed, fits_uint64]

def commaText (v : ℤ) : Bytes := decInt v ++ [dataSplit]

theorem convertLoop_commaText {vs : List ℤ} (hvs : ∀ v ∈ vs, Fits v) (n : ℕ) (rest : Bytes) :
    convertLoop (vs.length + n) (vs.flatMap commaText ++ rest) =
      vs.map UInt64.ofInt ++ convertLoop n rest := by
  induction vs with
  | nil => rw [length_nil, Nat.zero_add]; rfl
  | cons v vs ih =>
    obtain ⟨hv, hvs⟩ := forall_mem_cons.mp hvs
    have htext : (v :: vs).flatMap commaText ++ rest =
        decInt v ++ dataSplit :: (vs.flatMap commaText ++ rest) := by
      simp [commaText]
    have hno : NoDigit (dataSplit :: (vs.flatMap commaText ++ rest)) := by
      rintro c hc
      obtain rfl : dataSplit = c := by simpa using hc
      rfl
    rw [htext, length_cons, Nat.add_right_comm, convertLoop, strtoull_decInt hv.1 hv.2 hno]
    simp only [mem_cons, true_or, if_true, drop_succ_cons, drop_zero]
    rw [ih hvs]
    rfl

theorem flatMap_print (en : Enable) (s : Sample) {gs : List Group} (hgs : Group.jitter ∉ gs) :
    (gs.flatMap fun g => if en.on g then g.print s else []) =
      (gs.flatMap fun g => if en.on g then g.printed s else []).flatMap commaText := by
  rw [flatMap_assoc]
  refine flatMap_congr fun g hg => ?_
  split_ifs
  · cases g with
    | jitter => exact absurd hg hgs
    | _ => rfl
  · rfl

theorem Enable.exists_print (en : Enable) (s : Sample) :
    ∃ vs tl, en.concat (Group.printed s) = vs ++ tl ∧ tl.length ≤ 1 ∧
      en.print s = vs.flatMap commaText ++ tl.flatMap decInt := by
  let five : List Group := [.load, .cpu, .mem, .io, .hw]
  let vs := five.flatMap fun g => if en.on g then g.printed s else []
  have hconcat : ∀ {α : Type} (f : Group → List α), en.concat f =
      (five.flatMap fun g => if en.on g then f g else []) ++
        if en.jitter then f .jitter else [] := by
    intro α f
    rw [Enable.concat, show Group.all = five ++ [.jitter] from rfl, flatMap_append,
      flatMap_singleton]
    rfl
  have hprint := hconcat (Group.print s)
  rw [flatMap_print en s (by decide : Group.jitter ∉ five)] at hprint
  by_cases hj : en.jitter = true
  · refine ⟨vs ++ (Group.jitter.printed s).take 5, (Group.jitter.printed s).drop 5, ?_, ?_, ?_⟩
    · rw [hconcat, if_pos hj, append_assoc, take_append_drop]
    · rw [length_drop, Group.length_printed]
      exact le_rfl
    · rw [Enable.print, hprint, if_pos hj, flatMap_append, append_assoc]
      rfl
  · refine ⟨vs, [], ?_, Nat.zero_le 1, ?_⟩
    · rw [hconcat, if_neg hj]
    · rw [Enable.print, hprint, if_neg hj]
      rfl

theorem convertRecordToArray_print (en : Enable) (s : Sample) (rest : Bytes) :
    convertRecordToArray en.nrCgInfo (en.print s ++ itemSplit :: rest) =
      (en.concat (Group.printed s)).map UInt64.ofInt := by
  have hlen : en.nrCgInfo = (en.concat (Group.printed s)).length :=
    (en.length_flatMap (Group.length_printed s) Group.all).symm
  have hfits : ∀ v ∈ en.concat (Group.printed s), Fits v := by
    intro v hv
    obtain ⟨g, -, hv⟩ := mem_flatMap.mp hv
    split_ifs at hv
    · exact g.fits_printed s v hv
    · exact absurd hv not_mem_nil
  obtain ⟨vs, tl, hconcat, htl, hprint⟩ := en.exists_print s
  rw [hconcat] at hfits hlen ⊢
  obtain ⟨hvs, htail⟩ := forall_mem_append.mp hfits
  rw [hlen, hprint, convertRecordToArray, if_neg (by simp), length_append, append_assoc,
    convertLoop_commaText hvs, map_append]
  congr 1
  rcases tl with _ | ⟨v, _ | ⟨w, tl⟩⟩
  · rfl
  · obtain ⟨hv, -⟩ := forall_mem_cons.mp htail
    have hno : NoDigit (itemSplit :: rest) := by
      rintro c hc
      obtain rfl : itemSplit = c := by simpa using hc
      rfl
    rw [flatMap_singleton, length_singleton, convertLoop, strtoull_decInt hv.1 hv.2 hno]
    simp [convertLoop]
  · exact absurd htl (by simp)

variable {f : Double D}

theorem foldlM_setGroup {inter : ℤ} {cur : ℕ → UInt64} {gs : List Group} (hnd : gs.Nodup) :
    ∀ {st st' : ℕ → D} {pre pre' : ℕ → UInt64},
    gs.foldlM (setGroup f en inter cur) (st, pre) = some (st', pre') →
      (∀ g ∈ gs, en.on g = true → ∃ r, g.setRecord f inter (cells st g.offset)
        (cells pre g.offset) (cells cur g.offset) = some r ∧ cells st' g.offset = r.1) ∧
      ∀ o n, (∀ g ∈ gs, en.on g = true → o + n ≤ g.offset ∨ g.offset + g.width ≤ o) →
        (cells st' o : Fin n → D) = cells st o := by
  induction gs with
  | nil =>
    rintro st st' pre pre' h
    obtain ⟨rfl, rfl⟩ := Prod.mk.inj (some.inj h)
    exact ⟨fun g hg => absurd hg not_mem_nil, fun o n _ => rfl⟩
  | cons g gs ih =>
    rintro st st' pre pre' h
    obtain ⟨hg, hnd⟩ := nodup_cons.mp hnd
    rw [foldlM_cons] at h
    obtain ⟨⟨st₁, pre₁⟩, h₁, h⟩ := bind_eq_some_iff.mp h
    obtain ⟨hrest, hframe⟩ := ih hnd h
    by_cases hon : en.on g = true
    · rw [setGroup, if_pos hon] at h₁
      obtain ⟨r, hr, h₁⟩ := map_eq_some_iff.mp h₁
      obtain ⟨rfl, rfl⟩ := Prod.mk.inj h₁
      have hother : ∀ k ∈ gs, g.offset + g.width ≤ k.offset ∨ k.offset + k.width ≤ g.offset :=
        fun k hk => Group.offset_disjoint fun heq => hg (heq ▸ hk)
      refine ⟨forall_mem_cons.mpr ⟨fun _ => ⟨r, hr, ?_⟩, fun k hk hk' => ?_⟩,
        fun o n ho => ?_⟩
      · rw [hframe _ _ fun k hk _ => hother k hk, cells_putCells_self]
      · have := hrest k hk hk'
        rwa [cells_putCells_of_disjoint _ _ (hother k hk),
          cells_putCells_of_disjoint _ _ (hother k hk)] at this
      · obtain ⟨hog, ho⟩ := forall_mem_cons.mp ho
        rw [hframe o n ho, cells_putCells_of_disjoint _ _ (hog hon).symm]
    · rw [setGroup, if_neg hon] at h₁
      obtain ⟨rfl, rfl⟩ := Prod.mk.inj (some.inj h₁)
      refine ⟨forall_mem_cons.mpr ⟨fun h => absurd h hon, hrest⟩, fun o n ho => ?_⟩
      exact hframe o n (forall_mem_cons.mp ho).2

def NoCounters (a : ℕ → UInt64) : Prop := (cells a 65 : Fin 6 → UInt64) = fun _ => 0

theorem setHwresRecord_zero (f : Double D) : setHwresRecord f (fun _ => 0) (fun _ => 0) =
    some (![f.ofU64 0, f.ofU64 0, f.ofU64 0, f.ofU64 0, f.ofInt 0, f.ofInt 0], fun _ => 0) := by
  have hzero : ![0, 0, 0, 0, 0, 0] = fun _ : Fin 6 => (0 : UInt64) := by
    funext i
    revert i
    decide
  simp only [setHwresRecord, sub_self, if_true]
  rw [← hzero]
  rfl

theorem setGroup_of_noCounters (f : Double D) (en : Enable) (inter : ℤ) {cur : ℕ → UInt64}
    (hcur : NoCounters cur) {a : (ℕ → D) × (ℕ → UInt64)} (ha : NoCounters a.2) (g : Group) :
    ∃ a', setGroup f en inter cur a g = some a' ∧ NoCounters a'.2 := by
  have hkeep : ∀ {o n : ℕ} (v : Fin n → UInt64), o + n ≤ 65 ∨ 71 ≤ o →
      NoCounters (putCells a.2 o v) := fun v ho => by
    rw [NoCounters, cells_putCells_of_disjoint a.2 v (by omega), ha]
  rw [setGroup]
  split_ifs
  · cases g with
    | hw =>
      have hr := setHwresRecord_zero f
      have hcells : setHwresRecord f (cells a.2 65) (cells cur 65) =
          setHwresRecord f (fun _ => 0) fun _ => 0 := by
        rw [hcur, ha]
      exact ⟨_, congrArg (Option.map _) (hcells.trans hr), cells_putCells_self a.2 65 _⟩
    | load => exact ⟨_, rfl, hkeep _ (Or.inl (by decide))⟩
    | cpu => exact ⟨_, rfl, hkeep _ (Or.inl (by decide))⟩
    | mem => exact ⟨_, rfl, hkeep _ (Or.inl (by decide))⟩
    | io => exact ⟨_, rfl, hkeep _ (Or.inl (by decide))⟩
    | jitter => exact ⟨_, rfl, hkeep _ (Or.inr (by decide))⟩
  · exact ⟨a, rfl, ha⟩

theorem exists_setCgroupRecord (f : Double D) (en : Enable) (inter : ℤ) (st : ℕ → D)
    {pre cur : ℕ → UInt64} (hpre : NoCounters pre) (hcur : NoCounters cur) :
    ∃ st' pre', setCgroupRecord f en inter st pre cur = some (st', pre') := by
  have hrun : ∀ (gs : List Group) {a : (ℕ → D) × (ℕ → UInt64)}, NoCounters a.2 →
      ∃ r, gs.foldlM (setGroup f en inter cur) a = some r := by
    intro gs
    induction gs with
    | nil => exact fun {a} _ => ⟨a, rfl⟩
    | cons g gs ih =>
      intro a ha
      obtain ⟨a', ha', hzero⟩ := setGroup_of_noCounters f en inter hcur ha g
      rw [foldlM_cons, ha']
      exact ih hzero
  obtain ⟨⟨st', pre'⟩, h⟩ := @hrun Group.all (st, pre) hpre
  exact ⟨st', pre', h⟩

def printedVals (s : Sample) (g : Group) (i : Fin g.width) : UInt64 :=
  UInt64.ofInt ((g.printed s).getD i 0)

def namedVals (s : Sample) (g : Group) (i : Fin g.width) : UInt64 :=
  UInt64.ofInt ((g.modInfo.map fun h => h.2 s).getD i 0)

def ColumnsMean (f : Double D) (en : Enable)
    (vals : Sample → (g : Group) → Fin g.width → UInt64) : Prop :=
  ∀ (inter : ℤ) (old new : Sample) (rest rest' : Bytes) (st st' : ℕ → D)
    (pre pre' cur : ℕ → UInt64),
    row pre en.nrCgInfo 0 = convertRecordToArray en.nrCgInfo (en.print old ++ itemSplit :: rest) →
    row cur en.nrCgInfo 0 = convertRecordToArray en.nrCgInfo (en.print new ++ itemSplit :: rest') →
    setCgroupRecord f en inter st pre cur = some (st', pre') →
    ∀ g, en.on g = true →
      ∃ r, g.setRecord f inter (cells st (en.col g)) (vals old g) (vals new g) = some r ∧
        cells st' (en.col g) = r.1

theorem cells_of_row {s : Sample} {rest : Bytes} {a : ℕ → UInt64}
    (h : row a en.nrCgInfo 0 = convertRecordToArray en.nrCgInfo (en.print s ++ itemSplit :: rest))
    (hg : en.on g = true) : cells a (en.col g) = printedVals s g := by
  rw [convertRecordToArray_print] at h
  funext i
  have hget := congrArg (·[en.col g + i]?) h
  have hprinted : (g.printed s)[i.val]? = some ((g.printed s).getD i 0) := by
    have hi : i.val < (g.printed s).length := by
      rw [g.length_printed]
      exact i.isLt
    rw [getElem?_eq_getElem hi, getD_eq_getElem _ _ hi]
  simp only [getElem?_map, en.getElem?_concat (Group.length_printed s) hg i.isLt, hprinted,
    row, map_some, map_eq_some_iff] at hget
  obtain ⟨j, hj, hget⟩ := hget
  obtain ⟨hlt, rfl⟩ := List.getElem?_eq_some_iff.mp hj
  rw [getElem_range, Nat.zero_mul, Nat.zero_add] at hget
  exact hget

theorem Enable.Contiguous.columnsMean (hen : en.Contiguous) (f : Double D) :
    ColumnsMean f en printedVals := by
  intro inter old new rest rest' st st' pre pre' cur hpre hcur h g hg
  obtain ⟨hcomp, -⟩ := foldlM_setGroup (by decide : Group.all.Nodup) h
  obtain ⟨r, hr, hst⟩ := hcomp g g.mem_all hg
  rw [← hen.col_eq hg] at hr hst
  rw [cells_of_row hpre hg, cells_of_row hcur hg] at hr
  exact ⟨r, hr, hst⟩

theorem setCpuRecord_first {st₁ st₂ : Fin 11 → D} {pre cur : Fin 11 → UInt64} {i : Fin 11}
    (hi : i.val = 0) : setCpuRecord f st₁ pre cur i = setCpuRecord f st₂ pre cur i := by
  have hlt : i < 9 := by
    rw [Fin.lt_def, hi]
    decide
  simp only [setCpuRecord, if_pos hlt]

theorem Group.setRecord_first {inter : ℤ} {st₁ st₂ : Fin g.width → D}
    {pre cur : Fin g.width → UInt64} {r₁ r₂ : (Fin g.width → D) × (Fin g.width → UInt64)}
    (h₁ : g.setRecord f inter st₁ pre cur = some r₁)
    (h₂ : g.setRecord f inter st₂ pre cur = some r₂) {i : Fin g.width} (hi : i.val = 0) :
    r₁.1 i = r₂.1 i := by
  cases g with
  | cpu =>
    obtain rfl := some.inj h₁
    obtain rfl := some.inj h₂
    exact setCpuRecord_first hi
  | _ => rw [some.inj (h₁.symm.trans h₂)]

def idle (shms : List JitterShm) : Sample :=
  ⟨[], ⟨0, 0, 0, 0, 0⟩, ⟨0, 0, 0, 0, 0, 0, 0, 0, 0, 0, 0⟩,
    ⟨0, 0, 0, 0, 0, 0, 0, 0, ⟨0, 0, 0, 0, 0, 0, 0, 0, 0⟩, ⟨0, 0, 0, 0, 0, 0, 0, 0, 0⟩,
      ⟨0, 0, 0, 0, 0, 0, 0, 0, 0⟩⟩, ⟨0, 0, 0, 0, 0, 0, 0, 0, 0, 0, 0, 0⟩, ⟨0, 0, 0, 0, 0, 0⟩, shms⟩

def rowOf (en : Enable) (s : Sample) (j : ℕ) : UInt64 :=
  ((en.concat (Group.printed s)).map UInt64.ofInt).getD j 0

theorem row_rowOf (en : Enable) (s : Sample) (rest : Bytes) : row (rowOf en s) en.nrCgInfo 0 =
    convertRecordToArray en.nrCgInfo (en.print s ++ itemSplit :: rest) := by
  rw [convertRecordToArray_print]
  have hlen : (en.concat (Group.printed s)).length = en.nrCgInfo :=
    en.length_flatMap (Group.length_printed s) Group.all
  refine ext_getElem (by rw [length_row, length_map, hlen]) fun j hj hj' => ?_
  simp only [row, getElem_map, getElem_range, Nat.zero_mul, Nat.zero_add, rowOf]
  rw [getD_eq_getElem _ _ hj', getElem_map]

theorem noCounters_idle (en : Enable) : NoCounters (rowOf en (idle [])) := by
  have hidle : ∀ g ∈ Group.all, ∀ z ∈ g.printed (idle []), z = 0 := by decide
  have hzero : ∀ v ∈ (en.concat (Group.printed (idle []))).map UInt64.ofInt, v = 0 := by
    intro v hv
    obtain ⟨z, hz, rfl⟩ := mem_map.mp hv
    obtain ⟨g, hg, hz⟩ := mem_flatMap.mp hz
    split_ifs at hz
    · rw [hidle g hg z hz]
      rfl
    · exact absurd hz not_mem_nil
  funext i
  rw [cells, rowOf, getD_eq_getElem?_getD]
  cases h : ((en.concat (Group.printed (idle []))).map UInt64.ofInt)[65 + i.val]? with
  | none => rfl
  | some v => exact hzero v (mem_of_getElem? h)

theorem ColumnsMean.contiguous (h01 : f.ofU64 0 ≠ f.ofU64 1)
    {vals : Sample → (g : Group) → Fin g.width → UInt64} (h : ColumnsMean f en vals) :
    en.Contiguous := by
  by_contra hen
  obtain ⟨g, -, hg, hout⟩ := Enable.exists_unwritten hen
  have hpos : 0 < g.width := by cases g <;> decide
  -- the first column of `g` keeps any value
  have hkeep : ∀ d : D, ∃ r, g.setRecord f 1 (fun _ => d) (vals (idle []) g) (vals (idle []) g) =
      some r ∧ r.1 ⟨0, hpos⟩ = d := by
    intro d
    obtain ⟨st', pre', hrun⟩ := exists_setCgroupRecord f en 1 (fun _ => d) (noCounters_idle en)
      (noCounters_idle en)
    obtain ⟨r, hr, hcells⟩ := h 1 (idle []) (idle []) [] [] _ _ _ _ _ (row_rowOf en _ _)
      (row_rowOf en _ _) hrun g hg
    obtain ⟨-, hframe⟩ := foldlM_setGroup (by decide : Group.all.Nodup) hrun
    refine ⟨r, hr, ?_⟩
    have hone := congrFun (hframe (en.col g) 1 fun k hk hk' => by
      have := hout k hk hk'
      omega) 0
    rw [← hcells]
    exact hone
  obtain ⟨r₀, hr₀, h₀⟩ := hkeep (f.ofU64 0)
  obtain ⟨r₁, hr₁, h₁⟩ := hkeep (f.ofU64 1)
  have hsame := Group.setRecord_first hr₀ hr₁ (i := ⟨0, hpos⟩) rfl
  exact h01 (h₀.symm.trans (hsame.trans h₁))

theorem namedVals_eq (hg : g ≠ .jitter) (s : Sample) : namedVals s g = printedVals s g := by
  cases g with
  | jitter => exact absurd rfl hg
  | _ => rfl

def onceNosched : Sample := idle [⟨[⟨0, []⟩], [], []⟩]

theorem jitter_first : printedVals onceNosched .jitter (0 : Fin 6) = 1 ∧
    namedVals onceNosched .jitter (0 : Fin 6) = 0 ∧ printedVals (idle []) .jitter (0 : Fin 6) = 0 ∧
    namedVals (idle []) .jitter (0 : Fin 6) = 0 := by
  decide

theorem ColumnsMean.jitter_eq_false (h01 : f.ofU64 0 ≠ f.ofU64 1) (hen : en.Contiguous)
    (h : ColumnsMean f en namedVals) : en.jitter = false := by
  refine eq_false_of_ne_true fun hj => ?_
  have hhw : en.on .hw = true := hen .jitter (by decide) .hw (by decide) (by decide) hj
  have hcur : NoCounters (rowOf en onceNosched) := by
    have hcells := cells_of_row (row_rowOf en onceNosched []) hhw
    rw [hen.col_eq hhw] at hcells
    refine hcells.trans (funext fun i => ?_)
    revert i
    decide
  obtain ⟨st', pre', hrun⟩ :=
    exists_setCgroupRecord f en 1 (fun _ => f.ofU64 0) (noCounters_idle en) hcur
  have hpre := row_rowOf en (idle []) []
  have hnew := row_rowOf en onceNosched []
  obtain ⟨r, hr, hst⟩ := h 1 _ _ [] [] _ _ _ _ _ hpre hnew hrun .jitter hj
  obtain ⟨r', hr', hst'⟩ := hen.columnsMean f 1 _ _ [] [] _ _ _ _ _ hpre hnew hrun .jitter hj
  obtain ⟨hp, hn, hp₀, hn₀⟩ := jitter_first
  have hsame : r.1 (0 : Fin 6) = r'.1 (0 : Fin 6) := by rw [← hst, ← hst']
  obtain rfl := some.inj hr
  obtain rfl := some.inj hr'
  simp only [setCgJitRecord, hp, hn, hp₀, hn₀] at hsame
  exact h01 hsame

theorem columnsMean_iff (f : Double D) (h01 : f.ofU64 0 ≠ f.ofU64 1) (en : Enable) :
    (ColumnsMean f en printedVals ↔ en.Contiguous) ∧
      (ColumnsMean f en namedVals ↔ en.Contiguous ∧ en.jitter = false) := by
  refine ⟨⟨fun h => h.contiguous h01, fun h => h.columnsMean f⟩, fun h => ?_, ?_⟩
  · have hen := h.contiguous h01
    exact ⟨hen, h.jitter_eq_false h01 hen⟩
  · rintro ⟨hen, hj⟩ inter old new rest rest' st st' pre pre' cur hpre hcur hrun g hg
    have hne : g ≠ .jitter := by
      rintro rfl
      exact Bool.false_ne_true (hj.symm.trans hg)
    rw [namedVals_eq hne, namedVals_eq hne]
    exact hen.columnsMean f inter old new rest rest' st st' pre pre' cur hpre hcur hrun g hg

def intDouble : Double ℤ := ⟨fun v => v.toNat, id, (· * ·), (· / ·)⟩

theorem columnsMean_load_cpu :
    ColumnsMean intDouble ⟨true, true, false, false, false, false⟩ namedVals :=
  (columnsMean_iff intDouble (by decide) _).2.mpr (by decide)

def busy : Sample := { idle [] with cpu := ⟨50, 0, 0, 0, 0, 0, 0, 0, 0, 0, 0⟩ }

theorem columns_wrong :
    let cpuOnly : Enable := ⟨false, true, false, false, false, false⟩
    let every : Enable := ⟨true, true, true, true, true, true⟩
    cpuOnly.cgInfo[0]? = some "  user" ∧
      (setCgroupRecord intDouble cpuOnly 5 (fun _ => 7) (rowOf cpuOnly (idle []))
        (rowOf cpuOnly busy)).map (fun r => r.1 0) = some 7 ∧
      (Group.cpu.setRecord intDouble 5 (fun _ => 7) (printedVals (idle []) .cpu)
        (printedVals busy .cpu)).map (fun r => r.1 (0 : Fin 11)) = some 100 ∧
      every.cgInfo[71]? = some "numrsw" ∧
      (setCgroupRecord intDouble every 5 (fun _ => 7) (rowOf every (idle []))
        (rowOf every onceNosched)).map (fun r => r.1 71) = some 1 ∧
      (onceNosched.total (·.rqslow)).num = 0 := by
  decide +kernel

end Cgroup
end Sysak.Mservice
