/-
# The descriptors that the cgroup module touches
-/

import Sysak.Lib.Sscanf
import Sysak.Mservice.Cgroup

namespace Sysak.Mservice
namespace Cgroup

open Lib List

variable (id : ContainerId)

def Group.sub : Group → String
  | .load => "sub_cgroup_load"
  | .cpu => "sub_cgroup_cpu"
  | .mem => "sub_cgroup_mem"
  | .io => "sub_cgroup_io"
  | .hw => "sub_cgroup_hw"
  | .jitter => "sub_cgroup_jitter"

def maxModsubNum : ℕ := 320

def equalNoCase (s t : String) : Bool := s.toList.map Char.toLower == t.toList.map Char.toLower

def parseModSub (subs : List String) (line : String × Option String) : List String :=
  if line.2.any fun token => !equalNoCase token "on" && !equalNoCase token "enable" then subs
  else if line.1 ∈ subs then subs
  else if maxModsubNum ≤ subs.length then subs
  else subs ++ [line.1]

def modSubs (conf : List (String × Option String)) : List String := conf.foldl parseModSub []

def Enable.set (en : Enable) : Group → Enable
  | .load => { en with load := true }
  | .cpu => { en with cpu := true }
  | .mem => { en with mem := true }
  | .io => { en with io := true }
  | .hw => { en with hw := true }
  | .jitter => { en with jitter := true }

def Enable.none : Enable := ⟨false, false, false, false, false, false⟩

def checkSub (t : Enable × ℕ) (name : String) : Enable × ℕ :=
  match Group.all.find? (·.sub = name) with
  | some g => (t.1.set g, t.2 + g.modInfo.length)
  | none => t

def checkSubEnable (malloc : Bool) (subs : List String) : Enable × ℕ :=
  let t := subs.foldl checkSub (Enable.none, 0)
  if malloc then t else (t.1, 0)

abbrev Access : Type := Group × ℕ

def touch (g : Group) (i n : ℕ) : List Access := (range' i n).map (g, ·)

def maxCgroups : ℕ := 128

def enumContainers (perfs : List ℤ) : ℕ × List Access :=
  let perfs := perfs.take maxCgroups
  (perfs.length, if perfs.countP (· < 0) = 0 then touch .hw 65 6 else [])

def isIdDigit (c : UInt8) : Bool := isDigit c || (97 ≤ c && c ≤ 102)

def isDockerPath (name : Bytes) : Bool := name.length = 64 && name.all isIdDigit

structure ContainerId where
  name : Bytes
  docker : isDockerPath name = true

def containerA : ContainerId := ⟨replicate 64 97, by decide⟩

theorem ContainerId.length_name : id.name.length = 64 := by
  simpa using (Bool.and_eq_true_iff.mp id.docker).1

theorem ContainerId.isIdDigit_of_mem {c : UInt8} (hc : c ∈ id.name) :
    isIdDigit c = true := all_eq_true.mp (Bool.and_eq_true_iff.mp id.docker).2 c hc

theorem ContainerId.notMem_name {c : UInt8} (hc : isIdDigit c = false) :
    c ∉ id.name := fun hmem => Bool.false_ne_true (hc.symm.trans (id.isIdDigit_of_mem hmem))

structure Dirent where
  name : Bytes
  stat : Bool
  isDir : Bool
  perf : ℤ

def extLoop : List Dirent → ℕ → ℕ → ℕ × List Access
  | [], nCgs, _ => (nCgs, [])
  | d :: ds, nCgs, perfFail =>
    if d.name = bytes "." || d.name = bytes ".." || !d.stat then extLoop ds nCgs perfFail
    else
      let docker := d.isDir && isDockerPath d.name
      let nCgs := if docker then nCgs + 1 else nCgs
      let perfFail := if docker && d.perf < 0 then perfFail + 1 else perfFail
      if docker && maxCgroups ≤ nCgs then (nCgs, [])
      else
        let t := extLoop ds nCgs perfFail
        (t.1, (if perfFail = 0 then touch .hw 65 6 else []) ++ t.2)

def enumContainersExt (dir : Option (List Dirent)) : ℕ × List Access :=
  match dir with
  | none => (0, [])
  | some ds => extLoop ds 0 0

structure JitterProbe where
  shm : ℤ
  symbol : Option (Option ℤ)
  popen : Fin 3 → Bool

def cgJitterInited (p : JitterProbe) (cgJitterInit : ℤ) : ℤ :=
  match p.symbol with
  | some (some v) => v + cgJitterInit
  | some none => cgJitterInit
  | none => -1

def cgInitJitter (p : JitterProbe) (cgJitterInit : ℤ) : ℤ × ℤ :=
  let inited := cgJitterInited p cgJitterInit
  if p.shm < 0 then (p.shm, cgJitterInit)
  else if 0 < inited then (0, cgJitterInit)
  else if inited < 0 then (inited, cgJitterInit)
  else if (finRange 3).all p.popen then (0, 1)
  else (-1, cgJitterInit)

structure CgState where
  nCgs : ℕ
  cgJitterInit : ℤ

structure InitProbe where
  needReinit : Bool
  docker : Bool
  perfs : List ℤ
  dir : Option (List Dirent)
  jitter : JitterProbe

def initCgroups (s : CgState) (p : InitProbe) : CgState × List Access :=
  if 0 < s.nCgs && !p.needReinit then (s, [])
  else
    let t := if p.docker then enumContainers p.perfs else enumContainersExt p.dir
    let ret := cgInitJitter p.jitter s.cgJitterInit
    (⟨t.1, ret.2⟩, t.2 ++ if ret.1 = 0 then touch .jitter 71 5 else [])

def cpuLabels : List (String × Option ℕ) :=
  [("user ", none), ("nice ", some 6), ("system ", none), ("idle ", some 8), ("iowait ", some 9),
    ("irq ", some 10), ("softirq ", some 11), ("steal ", some 12), ("guest ", none)]

def loadLabels : List (String × Option ℕ) :=
  [("load average(1min) ", some 0), ("load average(5min) ", some 1),
    ("load average(15min) ", some 2), ("nr_running ", some 3), ("nr_uninterruptible ", some 4)]

def scanLabels (g : Group) (line : Bytes) : List (String × Option ℕ) → ℤ × List Access
  | [] => (0, [])
  | (label, i) :: labels =>
    let ret := sscanfLabelled (bytes label) line
    if ret ≠ 0 then (ret, i.toList.map (g, ·)) else scanLabels g line labels

def scanProcStat (en : Enable) (line : Bytes) : ℤ × List Access :=
  let t := if en.cpu then scanLabels .cpu line cpuLabels else (0, [])
  if t.1 ≠ 0 then t else if en.load then scanLabels .load line loadLabels else (0, [])

def procStatLoop (en : Enable) (itemExpect : ℤ) : List Bytes → ℤ → ℤ → List Access
  | [], _, _ => []
  | line :: lines, items, ret =>
    if items + ret = itemExpect then []
    else
      let t := scanProcStat en line
      t.2 ++ procStatLoop en itemExpect lines (items + ret) t.1

def getLoadAndEnhancedCpuStats (en : Enable) (file : Option (List Bytes)) : List Access :=
  let itemExpect := (if en.load then 5 else 0) + if en.cpu then 9 else 0
  if itemExpect = 0 then [] else procStatLoop en itemExpect (file.getD []) 0 0

def memLatencyLabels : List (String × Option ℕ) :=
  ["0-1ms: ", "1-5ms: ", "5-10ms: ", "10-100ms: ", "100-500ms: ", "500-1000ms: ", ">=1000ms: ",
    "total(ms): "].map (·, none)

def getMemLatency : List Bytes → ℤ → ℤ → ℤ
  | [], items, _ => items
  | line :: lines, items, ret =>
    getMemLatency lines (items + ret) (scanLabels .mem line memLatencyLabels).1

structure MemFiles where
  stat : Bool
  usageInBytes : Option Bytes
  failcnt : Option Bytes
  directReclaimGlobal : Option (List Bytes)
  directReclaimMemcg : Option (List Bytes)
  directCompact : Option (List Bytes)

def setMemLatencyVisible : List Access := touch .mem 24 27

def readsNumber (file : Option Bytes) : Bool := file.any fun text => 0 < (sscanfLong text).1

def readsLatency (file : Option (List Bytes)) : Bool :=
  file.any fun lines => 0 < getMemLatency lines 0 0

def getMemoryStats (en : Enable) (files : Option MemFiles) : List Access :=
  if en.mem && files.any fun f => f.stat && readsNumber f.usageInBytes && readsNumber f.failcnt &&
      readsLatency f.directReclaimGlobal && readsLatency f.directReclaimMemcg &&
      readsLatency f.directCompact then
    setMemLatencyVisible
  else
    []

def strstr (s text : Bytes) : Option Bytes := s.tails.find? text.isPrefixOf

def readIoLoop : List Bytes → ℤ → ℤ → ℤ
  | [], items, _ => if items = 2 then items else 0
  | line :: lines, items, ret =>
    if items + ret = 2 then items + ret
    else
      match strstr line (bytes "Read"), strstr line (bytes "Write") with
      | some pbuf, _ =>
        if sscanfLabelled (bytes "Read ") pbuf ≠ 1 then 0 else readIoLoop lines (items + ret) 1
      | none, some pbuf =>
        if sscanfLabelled (bytes "Write ") pbuf ≠ 1 then 0
        else readIoLoop lines (items + ret) 1
      | none, none => readIoLoop lines (items + ret) ret

def readIoStat (file : Option (List Bytes)) : ℤ := file.elim 0 fun lines => readIoLoop lines 0 0

structure BlkioFiles where
  ioServiced : Option (List Bytes)
  ioServiceBytes : Option (List Bytes)
  ioWaitTime : Option (List Bytes)
  ioServiceTime : Option (List Bytes)
  totalIoQueued : Option (List Bytes)
  totalBytesQueued : Option (List Bytes)

def touchPairs : List (Option (List Bytes) × ℕ) → List Access
  | [] => []
  | (file, i) :: files => if readIoStat file ≤ 0 then [] else touch .io i 2 ++ touchPairs files

def getBlkinfoStats (en : Enable) (files : Option BlkioFiles) : List Access :=
  if en.io then
    files.elim [] fun f =>
      if readIoStat f.ioServiced ≤ 0 || readIoStat f.ioServiceBytes ≤ 0 then []
      else
        touchPairs [(f.ioWaitTime, 55), (f.ioServiceTime, 57), (f.totalIoQueued, 59),
          (f.totalBytesQueued, 61)]
  else
    []

structure CgFiles where
  procStat : Option (List Bytes)
  memory : Option MemFiles
  blkio : Option BlkioFiles

def getCgroupStats (en : Enable) (nCgs : ℕ) (files : ℕ → CgFiles) : List Access :=
  (range (min nCgs maxCgroups)).flatMap fun i =>
    getLoadAndEnhancedCpuStats en (files i).procStat ++ getMemoryStats en (files i).memory ++
      getBlkinfoStats en (files i).blkio

structure Collection where
  init : InitProbe
  files : ℕ → CgFiles

def readCgroupStat (en : Enable) (s : CgState) (c : Collection) : CgState × List Access :=
  let t := initCgroups s c.init
  (t.1, t.2 ++ getCgroupStats en t.1.nCgs c.files)

def collections (en : Enable) : CgState → List Collection → List Access
  | _, [] => []
  | s, c :: cs =>
    let t := readCgroupStat en s c
    t.2 ++ collections en t.1 cs

def accesses (malloc : Bool) (conf : List (String × Option String)) (cs : List Collection) :
    List Access :=
  let t := checkSubEnable malloc (modSubs conf)
  if 0 < t.2 then collections t.1 ⟨0, 0⟩ cs else []

theorem Group.sub_injective {g h : Group} (heq : g.sub = h.sub) : g = h := by
  cases g <;> cases h <;> first | rfl | exact absurd heq (by decide)

theorem Enable.ext_on {en en' : Enable} (h : ∀ g, en.on g = en'.on g) : en = en' := by
  obtain ⟨load, cpu, mem, io, hw, jitter⟩ := en
  obtain ⟨load', cpu', mem', io', hw', jitter'⟩ := en'
  obtain rfl : load = load' := h .load
  obtain rfl : cpu = cpu' := h .cpu
  obtain rfl : mem = mem' := h .mem
  obtain rfl : io = io' := h .io
  obtain rfl : hw = hw' := h .hw
  obtain rfl : jitter = jitter' := h .jitter
  rfl

@[simp] theorem Enable.on_set (en : Enable) (g h : Group) :
    (en.set g).on h = (en.on h || decide (h = g)) := by
  cases g <;> cases h <;> simp [Enable.set, Enable.on]

theorem Enable.nrCgInfo_eq (en : Enable) : en.nrCgInfo =
    5 * en.load.toNat + 11 * en.cpu.toNat + 35 * en.mem.toNat + 14 * en.io.toNat +
      6 * en.hw.toNat + 6 * en.jitter.toNat := by
  obtain ⟨load, cpu, mem, io, hw, jitter⟩ := en
  cases load <;> cases cpu <;> cases mem <;> cases io <;> cases hw <;> cases jitter <;> rfl

variable {en : Enable} {g : Group}

theorem Enable.nrCgInfo_set (h : en.on g = false) :
    (en.set g).nrCgInfo = en.nrCgInfo + g.width := by
  rw [Enable.nrCgInfo_eq, Enable.nrCgInfo_eq]
  cases g <;>
    simp only [Enable.on] at h <;>
    simp only [Enable.set, h, Group.width, Bool.toNat_true, Bool.toNat_false] <;>
    omega

theorem modSubs_nodup (conf : List (String × Option String)) : (modSubs conf).Nodup := by
  unfold modSubs
  induction conf using reverseRecOn with
  | nil => exact nodup_nil
  | append_singleton conf line ih =>
    rw [foldl_append, foldl_cons, foldl_nil, parseModSub]
    split_ifs with _ hmem
    · exact ih
    · exact ih
    · exact ih
    · rw [← concat_eq_append]
      exact (nodup_concat _ _).mpr ⟨hmem, ih⟩

theorem foldl_checkSub {subs : List String} (hsubs : subs.Nodup) :
    (∀ g : Group, (subs.foldl checkSub (Enable.none, 0)).1.on g = true ↔ g.sub ∈ subs) ∧
      (subs.foldl checkSub (Enable.none, 0)).2 =
        (subs.foldl checkSub (Enable.none, 0)).1.nrCgInfo := by
  induction subs using reverseRecOn with
  | nil => exact ⟨fun g => by cases g <;> simp [Enable.none, Enable.on], rfl⟩
  | append_singleton subs name ih =>
    obtain ⟨hsubs, -, hnew⟩ := nodup_append.mp hsubs
    obtain ⟨hon, hnr⟩ := ih hsubs
    rw [foldl_append, foldl_cons, foldl_nil, checkSub]
    cases hfind : Group.all.find? (·.sub = name) with
    | none =>
      -- the name is no group's
      have hno : ∀ g : Group, g.sub ≠ name := by
        simpa [Group.mem_all] using find?_eq_none.mp hfind
      refine ⟨fun g => ?_, hnr⟩
      rw [hon, mem_append, mem_singleton]
      exact ⟨Or.inl, fun h => h.resolve_right (hno g)⟩
    | some g =>
      have hg : g.sub = name := by simpa using find?_some hfind
      have hoff : (subs.foldl checkSub (Enable.none, 0)).1.on g = false := by
        rw [← Bool.not_eq_true, hon, hg]
        exact fun hmem => hnew name hmem name mem_cons_self rfl
      refine ⟨fun h => ?_, ?_⟩
      · have hiff : h.sub = name ↔ h = g :=
          ⟨fun e => Group.sub_injective (e.trans hg.symm), fun e => e ▸ hg⟩
        rw [Enable.on_set, Bool.or_eq_true, decide_eq_true_iff, hon, mem_append,
          mem_singleton, hiff]
      · change _ + g.modInfo.length = (Enable.set _ g).nrCgInfo
        rw [Enable.nrCgInfo_set hoff, hnr, Group.length_modInfo]

def Placed (a : Access) : Prop := a.1.offset ≤ a.2 ∧ a.2 < a.1.offset + a.1.width

instance (a : Access) : Decidable (Placed a) := inferInstanceAs (Decidable (_ ∧ _))

theorem placed_touch {i n : ℕ} (hi : g.offset ≤ i) (hn : i + n ≤ g.offset + g.width) :
    ∀ a ∈ touch g i n, Placed a := by
  intro a ha
  obtain ⟨k, hk, rfl⟩ := mem_map.mp ha
  have hrange := mem_range'_1.mp hk
  exact ⟨by dsimp only; omega, by dsimp only; omega⟩

theorem placed_nil : ∀ a ∈ ([] : List Access), Placed a := fun _ ha => nomatch ha

theorem placed_append {l m : List Access} (hl : ∀ a ∈ l, Placed a) (hm : ∀ a ∈ m, Placed a) :
    ∀ a ∈ l ++ m, Placed a := forall_mem_append.mpr ⟨hl, hm⟩

theorem placed_ite {p : Prop} [Decidable p] {l m : List Access} (hl : ∀ a ∈ l, Placed a)
    (hm : ∀ a ∈ m, Placed a) : ∀ a ∈ (if p then l else m), Placed a := by
  split
  · exact hl
  · exact hm

theorem placed_ite_snd {α : Type*} {p : Prop} [Decidable p] {t u : α × List Access}
    (ht : ∀ a ∈ t.2, Placed a) (hu : ∀ a ∈ u.2, Placed a) :
    ∀ a ∈ (if p then t else u).2, Placed a := by
  rw [apply_ite Prod.snd]
  exact placed_ite ht hu

theorem placed_touch_hw (p : Prop) [Decidable p] :
    ∀ a ∈ (if p then touch .hw 65 6 else []), Placed a :=
  placed_ite (placed_touch (by decide) (by decide)) placed_nil

theorem placed_extLoop (ds : List Dirent) (nCgs perfFail : ℕ) :
    ∀ a ∈ (extLoop ds nCgs perfFail).2, Placed a := by
  induction ds generalizing nCgs perfFail with
  | nil => exact placed_nil
  | cons d ds ih =>
    exact placed_ite_snd (ih _ _)
      (placed_ite_snd placed_nil (placed_append (placed_touch_hw _) (ih _ _)))

theorem placed_enumContainersExt (dir : Option (List Dirent)) :
    ∀ a ∈ (enumContainersExt dir).2, Placed a := by
  cases dir with
  | none => exact placed_nil
  | some ds => exact placed_extLoop ds 0 0

theorem placed_initCgroups (s : CgState) (p : InitProbe) :
    ∀ a ∈ (initCgroups s p).2, Placed a := by
  refine placed_ite_snd placed_nil (placed_append ?_ (placed_ite ?_ placed_nil))
  · exact placed_ite_snd (placed_touch_hw _) (placed_enumContainersExt p.dir)
  · exact placed_touch (by decide) (by decide)

theorem placed_scanLabels {labels : List (String × Option ℕ)}
    (h : ∀ l ∈ labels, ∀ i ∈ l.2, Placed (g, i)) (line : Bytes) :
    ∀ a ∈ (scanLabels g line labels).2, Placed a := by
  induction labels with
  | nil => exact placed_nil
  | cons l labels ih =>
    obtain ⟨hl, hlabels⟩ := forall_mem_cons.mp h
    refine placed_ite_snd ?_ (ih hlabels)
    intro a ha
    obtain ⟨i, hi, rfl⟩ := mem_map.mp ha
    exact hl i (Option.mem_toList.mp hi)

theorem placed_procStatLoop (en : Enable) (itemExpect : ℤ) (lines : List Bytes) (items ret : ℤ) :
    ∀ a ∈ procStatLoop en itemExpect lines items ret, Placed a := by
  have hcpu : ∀ line, ∀ a ∈ (scanLabels .cpu line cpuLabels).2, Placed a :=
    placed_scanLabels (by decide)
  have hload : ∀ line, ∀ a ∈ (scanLabels .load line loadLabels).2, Placed a :=
    placed_scanLabels (by decide)
  induction lines generalizing items ret with
  | nil => exact placed_nil
  | cons line lines ih =>
    refine placed_ite placed_nil (placed_append ?_ (ih _ _))
    exact placed_ite_snd (placed_ite_snd (hcpu line) placed_nil)
      (placed_ite_snd (hload line) placed_nil)

theorem placed_touchPairs {files : List (Option (List Bytes) × ℕ)}
    (h : ∀ f ∈ files, 51 ≤ f.2 ∧ f.2 + 2 ≤ 65) : ∀ a ∈ touchPairs files, Placed a := by
  induction files with
  | nil => exact placed_nil
  | cons f files ih =>
    obtain ⟨⟨hlo, hhi⟩, hfiles⟩ := forall_mem_cons.mp h
    exact placed_ite placed_nil (placed_append (placed_touch hlo hhi) (ih hfiles))

theorem placed_getBlkinfoStats (en : Enable) (files : Option BlkioFiles) :
    ∀ a ∈ getBlkinfoStats en files, Placed a := by
  refine placed_ite ?_ placed_nil
  cases files with
  | none => exact placed_nil
  | some f => exact placed_ite placed_nil (placed_touchPairs (by simp))

theorem placed_getCgroupStats (en : Enable) (nCgs : ℕ) (files : ℕ → CgFiles) :
    ∀ a ∈ getCgroupStats en nCgs files, Placed a := by
  intro a ha
  obtain ⟨i, -, hi⟩ := mem_flatMap.mp ha
  refine placed_append (placed_append ?_ ?_) (placed_getBlkinfoStats en _) a hi
  · exact placed_ite placed_nil (placed_procStatLoop en _ _ 0 0)
  · exact placed_ite (placed_touch (by decide) (by decide)) placed_nil

theorem placed_collections (en : Enable) (s : CgState) (cs : List Collection) :
    ∀ a ∈ collections en s cs, Placed a := by
  induction cs generalizing s with
  | nil => exact fun a ha => nomatch ha
  | cons c cs ih =>
    exact placed_append
      (placed_append (placed_initCgroups s c.init) (placed_getCgroupStats en _ c.files)) (ih _)

def InBounds (conf : List (String × Option String)) : Prop :=
  ∀ malloc cs, ∀ a ∈ accesses malloc conf cs, a.2 < (checkSubEnable malloc (modSubs conf)).2

def WritesOwn (conf : List (String × Option String)) : Prop :=
  ∀ malloc cs, ∀ a ∈ accesses malloc conf cs,
    let en := (checkSubEnable malloc (modSubs conf)).1
    en.on a.1 = true ∧ en.col a.1 ≤ a.2 ∧ a.2 < en.col a.1 + a.1.width

def AllOrNone (conf : List (String × Option String)) : Prop :=
  (∀ g : Group, g.sub ∈ modSubs conf) ∨ ∀ g : Group, g.sub ∉ modSubs conf

def jitterStarted : Collection :=
  ⟨⟨false, false, [], none, ⟨0, some none, fun _ => true⟩⟩, fun _ => ⟨none, none, none⟩⟩

theorem collections_jitterStarted (en : Enable) :
    collections en ⟨0, 0⟩ [jitterStarted] = touch .jitter 71 5 := rfl

section Conf

variable (conf : List (String × Option String))

theorem checkSubEnable_on (malloc : Bool) (g : Group) :
    (checkSubEnable malloc (modSubs conf)).1.on g = true ↔ g.sub ∈ modSubs conf := by
  rw [← (foldl_checkSub (modSubs_nodup conf)).1 g]
  cases malloc <;> rfl

theorem checkSubEnable_nr : (checkSubEnable true (modSubs conf)).2 =
    (checkSubEnable true (modSubs conf)).1.nrCgInfo := (foldl_checkSub (modSubs_nodup conf)).2

variable {conf}

theorem accesses_of_none (h : ∀ g : Group, g.sub ∉ modSubs conf) (malloc : Bool)
    (cs : List Collection) : accesses malloc conf cs = [] := by
  have hnone : (checkSubEnable true (modSubs conf)).1 = .none := by
    refine Enable.ext_on fun g => ?_
    have hoff := mt (checkSubEnable_on conf true g).mp (h g)
    rw [Bool.not_eq_true] at hoff
    rw [hoff]
    cases g <;> rfl
  have hnr : (checkSubEnable malloc (modSubs conf)).2 = 0 := by
    cases malloc with
    | false => rfl
    | true => rw [checkSubEnable_nr, hnone]; rfl
  rw [accesses, if_neg (by omega)]

theorem checkSubEnable_full (h : ∀ g : Group, g.sub ∈ modSubs conf) (malloc : Bool) :
    (checkSubEnable malloc (modSubs conf)).1 = .full := by
  refine Enable.ext_on fun g => ?_
  rw [(checkSubEnable_on conf malloc g).mpr (h g)]
  cases g <;> rfl

theorem mem_accesses_jitter (hpos : 0 < (checkSubEnable true (modSubs conf)).2) {i : ℕ}
    (hi : 71 ≤ i ∧ i < 76) : (Group.jitter, i) ∈ accesses true conf [jitterStarted] := by
  rw [accesses, if_pos hpos, collections_jitterStarted, touch]
  exact mem_map.mpr ⟨i, mem_range'_1.mpr hi, rfl⟩

theorem Placed.own {a : Access} (ha : Placed a) :
    Enable.full.on a.1 = true ∧ Enable.full.col a.1 ≤ a.2 ∧
      a.2 < Enable.full.col a.1 + a.1.width := by
  obtain ⟨g, i⟩ := a
  have hcol : Enable.full.col g = g.offset := by cases g <;> rfl
  rw [hcol]
  exact ⟨by cases g <;> rfl, ha⟩

theorem Enable.on_of_nrCgInfo (h : 75 < en.nrCgInfo) (g : Group) : en.on g = true := by
  rw [Enable.nrCgInfo_eq] at h
  obtain ⟨load, cpu, mem, io, hw, jitter⟩ := en
  have h₁ := Bool.toNat_le load
  have h₂ := Bool.toNat_le cpu
  have h₃ := Bool.toNat_le mem
  have h₄ := Bool.toNat_le io
  have h₅ := Bool.toNat_le hw
  have h₆ := Bool.toNat_le jitter
  rw [← Bool.toNat_eq_one]
  cases g <;> simp only [Enable.on] at h ⊢ <;> omega

theorem Enable.col_add_width_le (hg : en.on g = true) : en.col g + g.width ≤ en.nrCgInfo := by
  obtain ⟨a, b, c, d, e, k⟩ := en
  revert a b c d e k
  cases g <;> decide

theorem WritesOwn.inBounds (h : WritesOwn conf) : InBounds conf := by
  intro malloc cs a ha
  obtain ⟨hon, -, hlt⟩ := h malloc cs a ha
  cases malloc with
  | false => exact nomatch (show a ∈ [] from ha)
  | true =>
    rw [checkSubEnable_nr]
    exact hlt.trans_le (Enable.col_add_width_le hon)

theorem InBounds.allOrNone (h : InBounds conf) : AllOrNone conf := by
  have hnr := checkSubEnable_nr conf
  rcases Nat.eq_zero_or_pos (checkSubEnable true (modSubs conf)).2 with hzero | hpos
  · right
    intro g hg
    have hle := Enable.col_add_width_le ((checkSubEnable_on conf true g).mpr hg)
    have hwidth : 0 < g.width := by cases g <;> decide
    omega
  · left
    intro g
    have hlast := h true _ _ (mem_accesses_jitter hpos ⟨by decide, Nat.lt_succ_self 75⟩)
    rw [hnr] at hlast
    exact (checkSubEnable_on conf true g).mp (Enable.on_of_nrCgInfo hlast g)

theorem AllOrNone.writesOwn (h : AllOrNone conf) : WritesOwn conf := by
  intro malloc cs a ha
  rcases h with hall | hnone
  · have hplaced : Placed a := by
      unfold accesses at ha
      dsimp only at ha
      split at ha
      · exact placed_collections _ _ cs a ha
      · exact nomatch ha
    rw [checkSubEnable_full hall]
    exact hplaced.own
  · rw [accesses_of_none hnone] at ha
    exact nomatch ha

end Conf

theorem accesses_inBounds_iff (conf : List (String × Option String)) :
    (InBounds conf ↔ AllOrNone conf) ∧ (WritesOwn conf ↔ AllOrNone conf) :=
  ⟨⟨InBounds.allOrNone, fun h => h.writesOwn.inBounds⟩,
    ⟨fun h => h.inBounds.allOrNone, AllOrNone.writesOwn⟩⟩

theorem accesses_cpu_only :
    (checkSubEnable true (modSubs [("sub_cgroup_cpu", some "on")])).2 = 11 ∧
      accesses true [("sub_cgroup_cpu", some "on")] [jitterStarted] =
        [(.jitter, 71), (.jitter, 72), (.jitter, 73), (.jitter, 74), (.jitter, 75)] := by
  decide

end Cgroup
end Sysak.Mservice
