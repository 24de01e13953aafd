/-
# Scheduling delays per CPU
-/

import Sysak.Lib.CString
import Sysak.Lib.Fgets
import Sysak.Lib.RunningMax
import Sysak.Lib.Sscanf

namespace Sysak.Collector
namespace Schedstat

open Lib List

@[ext]
structure SchedStats where
  delay : UInt64
  pcount : UInt64
  deriving DecidableEq

structure Extreme where
  cpuName : Bytes
  delay : UInt64
  pcount : UInt64
  deriving DecidableEq

structure State (n : ℕ) where
  curr : Fin n → SchedStats
  oldp : Fin n → SchedStats
  delta : Fin n → SchedStats
  currMin : Extreme
  currMax : Extreme

structure OutLine where
  label : Bytes
  index : Bytes
  pcount : UInt64
  delay : UInt64
  deriving DecidableEq

structure Lines (n : ℕ) where
  cpus : Fin n → Option OutLine
  avg : Option OutLine
  max : OutLine
  min : OutLine

def init (n : ℕ) : State n where
  curr _ := ⟨0, 0⟩
  oldp _ := ⟨0, 0⟩
  delta _ := ⟨0, 0⟩
  currMin := ⟨[], 18446744073709551615, 0⟩
  currMax := ⟨[], 0, 0⟩

def genDelta (curr old : SchedStats) : SchedStats :=
  ⟨curr.delay - old.delay, curr.pcount - old.pcount⟩

def lineLen : ℕ := 128

structure CpuLine (n : ℕ) where
  cpu : Fin n
  name : Bytes
  stats : Option SchedStats

def readCpu (n : ℕ) (line : Bytes) : Option (Fin n) :=
  (sscanfLong (line.drop 3)).2.bind fun cpu =>
    if h : 0 ≤ cpu ∧ cpu.toNat < n then some ⟨cpu.toNat, h.2⟩ else none

def readStats : List UInt64 → Option SchedStats
  | [_yldCount, _schedCount, _schedGoidle, _ttwuCount, _ttwuLocal, _rqCpuTime, delay, pcount] =>
    some ⟨delay, pcount⟩
  | [_yldCount, _, _schedCount, _schedGoidle, _ttwuCount, _ttwuLocal, _rqCpuTime, delay, pcount] =>
    some ⟨delay, pcount⟩
  | _ => none

def readLine (n : ℕ) (line : Bytes) : Option (CpuLine n) :=
  if bytes "cpu" <+: line then
    (readCpu n line).map fun cpu =>
      ⟨cpu, line.takeWhile fun c => !isSpace c,
        readStats (scanUnsigneds 9 (line.dropWhile fun c => !isSpace c))⟩
  else none

def readFile (n : ℕ) (file : Bytes) : List (CpuLine n) :=
  (fgetsLines lineLen file).filterMap fun line => readLine n (stringAt line)

def cpuStep {n : ℕ} (st : State n × (Fin n → Option OutLine)) (l : CpuLine n) :
    State n × (Fin n → Option OutLine) :=
  let stat := l.stats.getD (st.1.curr l.cpu)
  let d := genDelta stat (st.1.oldp l.cpu)
  ({ curr := Function.update st.1.curr l.cpu stat
     oldp := st.1.oldp
     delta := Function.update st.1.delta l.cpu d
     currMin := if d.delay < st.1.currMin.delay then ⟨l.name, d.delay, d.pcount⟩ else st.1.currMin
     currMax :=
       if st.1.currMax.delay < d.delay then ⟨l.name, d.delay, d.pcount⟩ else st.1.currMax },
    Function.update st.2 l.cpu (some ⟨bytes "cpu", l.name, d.pcount, d.delay⟩))

def average {n : ℕ} (delta : Fin n → SchedStats) : OutLine where
  label := bytes "summary"
  index := bytes "avg"
  pcount := (finRange n).foldl (fun s i => s + (delta i).pcount) 0 / UInt64.ofNat n
  delay := (finRange n).foldl (fun s i => s + (delta i).delay) 0 / UInt64.ofNat n

def fullLine {n : ℕ} (st : State n) : Option Bytes →
    Option (State n × (Fin n → Option OutLine) × Option OutLine)
  | none => some (st, fun _ => none, none)
  | some file =>
    let ls := readFile n file
    if ls.all fun l => l.name.length < 8 then
      let r := ls.foldl cpuStep (st, fun _ => none)
      some ({ r.1 with curr := r.1.oldp, oldp := r.1.curr }, r.2, some (average r.1.delta))
    else none

def maxUnityLines : ℕ := 2048

def extremeLine (label : Bytes) (e : Extreme) : OutLine where
  label := label
  index := e.cpuName
  pcount := e.delay
  delay := e.pcount

def call {n : ℕ} (st : State n) (file : Option Bytes) : Option (State n × Lines n) :=
  if maxUnityLines < n + 3 then none
  else
    (fullLine st file).map fun r =>
      (r.1, ⟨r.2.1, r.2.2, extremeLine (bytes "max") r.1.currMax,
        extremeLine (bytes "min") r.1.currMin⟩)

def cpuName (cpu : ℕ) : Bytes := bytes "cpu" ++ dec cpu

structure Row (n : ℕ) where
  cpu : Fin n
  stats : SchedStats
  deriving DecidableEq

def Row.line {n : ℕ} (r : Row n) : CpuLine n := ⟨r.cpu, cpuName r.cpu, some r.stats⟩

structure Sample (n : ℕ) where
  file : Bytes
  rows : List (Row n)
  reads : readFile n file = rows.map Row.line
  nodup : (rows.map Row.cpu).Nodup

theorem cpuName_injective : Function.Injective cpuName :=
  fun _ _ h => dec_injective (append_cancel_left h)

section Text

variable {n : ℕ}

theorem isSpace_of_mem_cpuName {cpu : ℕ} {c : UInt8} (hc : c ∈ cpuName cpu) :
    isSpace c = false := by
  rcases mem_append.mp hc with hc | hc
  · have hall : (bytes "cpu").all (fun c => !isSpace c) = true := rfl
    simpa using all_eq_true.mp hall c hc
  · exact isSpace_of_isDigit (isDigit_of_mem_dec hc)

theorem readCpu_cpuName (hn : n ≤ maxUnityLines) (cpu : Fin n) {s : Bytes} (hs : NoDigit s) :
    readCpu n (cpuName cpu ++ s) = some cpu := by
  have hcpu := cpu.isLt
  have hsign := sign_dec cpu []
  rw [append_nil] at hsign
  have hint : isInteger (dec cpu) = true := by
    rw [isInteger, hsign, Bool.and_eq_true_iff, all_eq_true]
    exact ⟨by simp [dec_ne_nil], fun c hc => isDigit_of_mem_dec hc⟩
  have hclamp : clampLong (integer (dec cpu)) = (cpu : ℕ) := by
    rw [integer, hsign, decimal_dec]
    refine clampLong_eq_self_iff.mpr ⟨?_, ?_⟩
    · simp only [Bool.false_eq_true, if_false]
      omega
    · simp only [Bool.false_eq_true, if_false]
      have : maxUnityLines = 2048 := rfl
      omega
  have hdrop : (cpuName cpu ++ s).drop 3 = dec cpu ++ s := rfl
  rw [readCpu, hdrop, sscanfLong_integer hint hs, hclamp, Option.bind_some, dif_pos]
  · rfl
  · exact ⟨by omega, hcpu⟩

theorem readLine_cpu (hn : n ≤ maxUnityLines) (cpu : Fin n) {vs : List UInt64}
    (hvs : vs.length ≤ 9) :
    readLine n (cpuName cpu ++ blankDecs vs ++ [10]) = some ⟨cpu, cpuName cpu, readStats vs⟩ := by
  have hend : ∀ c ∈ (blankDecs vs ++ [10]).head?, isSpace c = true := by
    intro c hc
    cases vs <;> cases hc <;> rfl
  have hspace : ∀ c ∈ cpuName cpu, (!isSpace c) = true := fun c hc => by
    rw [isSpace_of_mem_cpuName hc]
    rfl
  have htake : (cpuName cpu ++ (blankDecs vs ++ [10])).takeWhile (fun c => !isSpace c) =
      cpuName cpu := by
    rw [takeWhile_append_of_pos hspace]
    cases hrest : blankDecs vs ++ [10] with
    | nil => simp
    | cons c rest => simp [hend c (by rw [hrest]; rfl)]
  have hdrop : (cpuName cpu ++ (blankDecs vs ++ [10])).dropWhile (fun c => !isSpace c) =
      blankDecs vs ++ [10] := by
    rw [dropWhile_append_of_pos hspace]
    cases hrest : blankDecs vs ++ [10] with
    | nil => rfl
    | cons c rest => rw [dropWhile_cons_of_neg (by simp [hend c (by rw [hrest]; rfl)])]
  have hdigit : NoDigit [10] := by
    intro c hc
    cases hc
    rfl
  have hbegins : bytes "cpu" <+: cpuName cpu ++ (blankDecs vs ++ [10]) := by
    unfold cpuName
    rw [append_assoc]
    exact prefix_append _ _
  rw [append_assoc, readLine, if_pos hbegins,
    readCpu_cpuName hn cpu (noDigit_blankDecs vs hdigit), Option.map_some, htake, hdrop,
    scanUnsigneds_blankDecs hvs hdigit rfl]

def fileText (ls : List Bytes) : Bytes := ls.flatMap (· ++ [10])

theorem readFile_fileText {ls : List Bytes}
    (hls : ∀ l ∈ ls, 10 ∉ l ∧ 0 ∉ l ∧ l.length + 1 < lineLen) :
    readFile n (fileText ls) = ls.filterMap fun l => readLine n (l ++ [10]) := by
  induction ls with
  | nil => rfl
  | cons l ls ih =>
    obtain ⟨⟨hnl, hnul, hlen⟩, hls⟩ := forall_mem_cons.mp hls
    have htext : fileText (l :: ls) = l ++ 10 :: fileText ls := by
      unfold fileText
      simp
    have hstring : stringAt (l ++ [10]) = l ++ [10] := by
      refine takeWhile_eq_self_iff.mpr fun c hc => ?_
      rcases mem_append.mp hc with hc | hc
      · rw [bne_iff_ne]
        rintro rfl
        exact hnul hc
      · rw [mem_singleton.mp hc]
        rfl
    unfold readFile at ih ⊢
    rw [htext, fgetsLines_cons hnl hlen, filterMap_cons, filterMap_cons, hstring,
      ih hls]

def Row.text (r : Row n) : Bytes :=
  cpuName r.cpu ++ blankDecs [0, 0, 0, 0, 0, 0, 0, r.stats.delay, r.stats.pcount]

theorem length_cpuName (hn : n ≤ maxUnityLines) (cpu : Fin n) : (cpuName cpu).length < 8 := by
  have hcpu : cpu.val < 10 ^ 4 := cpu.isLt.trans_le (hn.trans (by decide))
  have hdec := length_dec_le hcpu
  have hword : (bytes "cpu").length = 3 := rfl
  rw [cpuName, length_append, hword]
  omega

theorem length_dec_toNat (v : UInt64) : (dec v.toNat).length ≤ 20 :=
  length_dec_le (v.toNat_lt.trans (by decide))

theorem Row.not_mem_text {c : UInt8} (hblank : c ≠ 32) (hdigit : isDigit c = false)
    (hword : c ∉ bytes "cpu") (r : Row n) : c ∉ r.text := by
  intro hc
  rcases mem_append.mp hc with hc | hc
  · rcases mem_append.mp hc with hc | hc
    · exact hword hc
    · exact not_mem_dec hdigit _ hc
  · obtain ⟨v, -, hc⟩ := mem_flatMap.mp hc
    rcases mem_cons.mp hc with h | hc
    · exact hblank h
    · exact not_mem_dec hdigit _ hc

theorem Row.text_fits (hn : n ≤ maxUnityLines) (r : Row n) :
    10 ∉ r.text ∧ 0 ∉ r.text ∧ r.text.length + 1 < lineLen := by
  refine ⟨r.not_mem_text (by decide) rfl (by decide), r.not_mem_text (by decide) rfl (by decide),
    ?_⟩
  have hname := length_cpuName hn r.cpu
  have hdelay := length_dec_toNat r.stats.delay
  have hpcount := length_dec_toNat r.stats.pcount
  have hzero : (dec (0 : UInt64).toNat).length = 1 := rfl
  have hlen : lineLen = 128 := rfl
  simp only [Row.text, blankDecs, length_append, flatMap_cons, flatMap_nil,
    length_cons, length_nil, hzero]
  omega

def Sample.ofRows (hn : n ≤ maxUnityLines) (rows : List (Row n))
    (nodup : (rows.map Row.cpu).Nodup) : Sample n where
  file := fileText (rows.map Row.text)
  rows := rows
  nodup := nodup
  reads := by
    rw [readFile_fileText, filterMap_map]
    · rw [← filterMap_eq_map]
      exact filterMap_congr fun r _ => readLine_cpu hn r.cpu (Nat.le_refl 9)
    · rintro l hl
      obtain ⟨r, -, rfl⟩ := mem_map.mp hl
      exact r.text_fits hn

end Text

section Call

variable {n : ℕ}

def counted (oldp : Fin n → SchedStats) (r : Row n) : SchedStats := genDelta r.stats (oldp r.cpu)

def toExtreme (oldp : Fin n → SchedStats) (r : Row n) : Extreme :=
  ⟨cpuName r.cpu, (counted oldp r).delay, (counted oldp r).pcount⟩

def extremeOf {α : Type*} [LinearOrder α] (key : UInt64 → α) (oldp : Fin n → SchedStats)
    (e : Extreme) (rows : List (Row n)) : Extreme :=
  runningMax (fun e => key e.delay) (toExtreme oldp) e rows

def downward (v : UInt64) : ℕᵒᵈ := OrderDual.toDual v.toNat

def store (m : Fin n → SchedStats) (rows : List (Row n)) : Fin n → SchedStats :=
  rows.foldl (fun m r => Function.update m r.cpu r.stats) m

structure Calls (st : State n) (s : Sample n) (st' : State n) (out : Lines n) : Prop where
  call_eq : call st (some s.file) = some (st', out)
  curr : st'.curr = st.oldp
  oldp : st'.oldp = store st.curr s.rows
  currMax : st'.currMax = extremeOf UInt64.toNat st.oldp st.currMax s.rows
  currMin : st'.currMin = extremeOf downward st.oldp st.currMin s.rows
  max : out.max = extremeLine (bytes "max") st'.currMax
  min : out.min = extremeLine (bytes "min") st'.currMin

theorem foldl_cpuStep (rows : List (Row n)) (st : State n) (outs : Fin n → Option OutLine) :
    ∃ st' outs', (rows.map Row.line).foldl cpuStep (st, outs) = (st', outs') ∧
      st'.curr = store st.curr rows ∧ st'.oldp = st.oldp ∧
      st'.currMax = extremeOf UInt64.toNat st.oldp st.currMax rows ∧
      st'.currMin = extremeOf downward st.oldp st.currMin rows := by
  induction rows generalizing st outs with
  | nil => exact ⟨st, outs, rfl, rfl, rfl, rfl, rfl⟩
  | cons r rows ih =>
    obtain ⟨st', outs', hfold, hcurr, hold, hmax, hmin⟩ := ih (cpuStep (st, outs) r.line).1
      (cpuStep (st, outs) r.line).2
    refine ⟨st', outs', hfold, hcurr, hold, ?_, ?_⟩
    · rw [hmax]
      simp only [extremeOf, runningMax, foldl_cons, ← UInt64.lt_iff_toNat_lt]
      rfl
    · rw [hmin]
      simp only [extremeOf, runningMax, foldl_cons, downward, OrderDual.toDual_lt_toDual,
        ← UInt64.lt_iff_toNat_lt]
      rfl

theorem exists_calls (hn : n + 3 ≤ maxUnityLines) (st : State n) (s : Sample n) :
    ∃ st' out, Calls st s st' out := by
  obtain ⟨st', outs, hfold, hcurr, hold, hmax, hmin⟩ := foldl_cpuStep s.rows st fun _ => none
  have hnames : ((s.rows.map Row.line).all fun l => l.name.length < 8) = true := by
    rw [all_map, all_eq_true]
    exact fun r _ => decide_eq_true (length_cpuName (by omega) r.cpu)
  refine ⟨{ st' with curr := st'.oldp, oldp := st'.curr }, ⟨outs, some (average st'.delta),
    extremeLine (bytes "max") st'.currMax, extremeLine (bytes "min") st'.currMin⟩, ?_, hold, hcurr,
    hmax, hmin, rfl, rfl⟩
  rw [call, if_neg (by omega), fullLine]
  dsimp only
  rw [s.reads, if_pos hnames, hfold, Option.map_some]

end Call

section Runs

variable {n : ℕ}

def SchedStats.Le (a b : SchedStats) : Prop := a.delay ≤ b.delay ∧ a.pcount ≤ b.pcount

theorem SchedStats.Le.refl (a : SchedStats) : a.Le a := ⟨UInt64.le_refl _, UInt64.le_refl _⟩

theorem SchedStats.Le.trans {a b c : SchedStats} (hab : a.Le b) (hbc : b.Le c) : a.Le c :=
  ⟨UInt64.le_trans hab.1 hbc.1, UInt64.le_trans hab.2 hbc.2⟩

theorem zero_le_stats (a : SchedStats) : SchedStats.Le ⟨0, 0⟩ a := ⟨UInt64.zero_le, UInt64.zero_le⟩

def Rises (s t : Sample n) : Prop :=
  ∀ r ∈ s.rows, ∀ r' ∈ t.rows, r.cpu = r'.cpu → r.stats.Le r'.stats

def known (ss : List (Sample n)) : Fin n → SchedStats :=
  ss.foldl (fun m s => store m s.rows) fun _ => ⟨0, 0⟩

def after (ss : List (Sample n)) : Option (State n) :=
  ss.foldlM (fun st s => (call st (some s.file)).map Prod.fst) (init n)

theorem store_cases (rows : List (Row n)) (c : Fin n) :
    (∃ r ∈ rows, r.cpu = c ∧ ∀ m, store m rows c = r.stats) ∨
      (∀ r ∈ rows, r.cpu ≠ c) ∧ ∀ m, store m rows c = m c := by
  induction rows using reverseRecOn with
  | nil => exact Or.inr ⟨fun _ hr => absurd hr not_mem_nil, fun _ => rfl⟩
  | append_singleton rows r ih =>
    have hstore : ∀ m : Fin n → SchedStats,
        store m (rows ++ [r]) = Function.update (store m rows) r.cpu r.stats := fun m => by
      unfold store
      rw [foldl_append]
      rfl
    by_cases hr : r.cpu = c
    · refine Or.inl ⟨r, by simp, hr, fun m => ?_⟩
      rw [hstore, hr, Function.update_self]
    · have hother : ∀ m : Fin n → SchedStats, store m (rows ++ [r]) c = store m rows c :=
        fun m => by rw [hstore, Function.update_of_ne (Ne.symm hr)]
      rcases ih with ⟨r', hr', hc, hm⟩ | ⟨hne, hm⟩
      · exact Or.inl ⟨r', mem_append_left _ hr', hc, fun m => (hother m).trans (hm m)⟩
      · refine Or.inr ⟨fun r' hr' => ?_, fun m => (hother m).trans (hm m)⟩
        rcases mem_append.mp hr' with hr' | hr'
        · exact hne r' hr'
        · rwa [mem_singleton.mp hr']

theorem known_concat (ss : List (Sample n)) (s : Sample n) :
    known (ss ++ [s]) = store (known ss) s.rows := by
  unfold known
  rw [foldl_append]
  rfl

theorem known_cases (ss : List (Sample n)) (c : Fin n) :
    known ss c = ⟨0, 0⟩ ∨ ∃ s ∈ ss, ∃ r ∈ s.rows, r.cpu = c ∧ known ss c = r.stats := by
  induction ss using reverseRecOn with
  | nil => exact Or.inl rfl
  | append_singleton ss s ih =>
    rw [known_concat]
    rcases store_cases s.rows c with ⟨r, hr, hc, hm⟩ | ⟨-, hm⟩
    · exact Or.inr ⟨s, by simp, r, hr, hc, hm _⟩
    · rw [hm]
      rcases ih with h | ⟨s', hs', r, hr, hc, hk⟩
      · exact Or.inl h
      · exact Or.inr ⟨s', mem_append_left _ hs', r, hr, hc, hk⟩

variable {ss : List (Sample n)}

theorem known_le {s : Sample n} (h : ∀ s' ∈ ss, Rises s' s) {r : Row n} (hr : r ∈ s.rows) :
    (known ss r.cpu).Le r.stats := by
  rcases known_cases ss r.cpu with hk | ⟨s', hs', r', hr', hc, hk⟩
  · rw [hk]
    exact zero_le_stats _
  · rw [hk]
    exact h s' hs' r' hr' r hr hc

structure Behind (st : State n) (k : Fin n → SchedStats) : Prop where
  curr : ∀ c, (st.curr c).Le (k c)
  oldp : ∀ c, (st.oldp c).Le (k c)

theorem Behind.calls {st st' : State n} {s : Sample n} {out : Lines n} (hb : Behind st (known ss))
    (hc : Calls st s st' out) (h : ∀ s' ∈ ss, Rises s' s) :
    Behind st' (known (ss ++ [s])) where
  curr c := by
    rw [hc.curr, known_concat]
    rcases store_cases s.rows c with ⟨r, hr, rfl, hm⟩ | ⟨-, hm⟩
    · rw [hm]
      exact (hb.oldp r.cpu).trans (known_le h hr)
    · rw [hm]
      exact hb.oldp c
  oldp c := by
    rw [hc.oldp, known_concat]
    rcases store_cases s.rows c with ⟨r, -, -, hm⟩ | ⟨-, hm⟩
    · rw [hm, hm]
      exact .refl _
    · rw [hm, hm]
      exact hb.curr c

theorem after_concat {st st' : State n} {s : Sample n} {out : Lines n} (hst : after ss = some st)
    (hc : Calls st s st' out) : after (ss ++ [s]) = some st' := by
  unfold after at hst ⊢
  rw [foldlM_append, hst]
  simp only [Option.bind_eq_bind, Option.bind_some, foldlM_cons, foldlM_nil, hc.call_eq,
    Option.map_some]
  rfl

theorem exists_after (hn : n + 3 ≤ maxUnityLines) (h : ss.Pairwise Rises) :
    ∃ st, after ss = some st ∧ Behind st (known ss) := by
  induction ss using reverseRecOn with
  | nil => exact ⟨init n, rfl, fun _ => .refl _, fun _ => .refl _⟩
  | append_singleton ss s ih =>
    obtain ⟨hss, -, hs⟩ := pairwise_append.mp h
    obtain ⟨st, hst, hb⟩ := ih hss
    obtain ⟨st', out, hc⟩ := exists_calls hn st s
    exact ⟨st', after_concat hst hc, hb.calls hc fun s' hs' => hs s' hs' s (by simp)⟩

end Runs

section Extremes

variable {n : ℕ} {α : Type*} [LinearOrder α]

def increase (k : Fin n → SchedStats) (r : Row n) : SchedStats := genDelta r.stats (k r.cpu)

def IsExtreme (key : UInt64 → α) (k : Fin n → SchedStats) (rows : List (Row n)) (r : Row n) :
    Prop :=
  r ∈ rows ∧ ∀ r' ∈ rows, key (increase k r').delay ≤ key (increase k r).delay

def rightLine (label : Bytes) (k : Fin n → SchedStats) (r : Row n) : OutLine where
  label := label
  index := cpuName r.cpu
  pcount := (increase k r).pcount
  delay := (increase k r).delay

structure Kept (key : UInt64 → α) (k oldp : Fin n → SchedStats) (e : Extreme)
    (rows : List (Row n)) : Prop where
  within : ∀ r ∈ rows, key (counted oldp r).delay ≤ key e.delay
  shows : ∃ r, IsExtreme key k rows r ∧
    e = ⟨cpuName r.cpu, (increase k r).pcount, (increase k r).delay⟩

structure Fresh (key : UInt64 → α) (k oldp : Fin n → SchedStats) (e : Extreme)
    (rows : List (Row n)) (r : Row n) : Prop where
  first : r ∈ rows.argmax fun r => key (counted oldp r).delay
  beyond : key e.delay < key (counted oldp r).delay
  extreme : IsExtreme key k rows r
  counted_eq : counted oldp r = increase k r
  delay_eq : (increase k r).delay = (increase k r).pcount

def Shown (key : UInt64 → α) (k oldp : Fin n → SchedStats) (e : Extreme) (rows : List (Row n)) :
    Prop :=
  Kept key k oldp e rows ∨ ∃ r, Fresh key k oldp e rows r

theorem extremeLine_eq_iff {label : Bytes} {k : Fin n → SchedStats} {e : Extreme} {r : Row n} :
    extremeLine label e = rightLine label k r ↔
      e = ⟨cpuName r.cpu, (increase k r).pcount, (increase k r).delay⟩ := by
  obtain ⟨name, delay, pcount⟩ := e
  simp only [extremeLine, rightLine, OutLine.mk.injEq, Extreme.mk.injEq, true_and]

theorem increase_le_counted {k oldp : Fin n → SchedStats} {r : Row n}
    (hold : (oldp r.cpu).Le (k r.cpu)) (hk : (k r.cpu).Le r.stats) :
    (increase k r).Le (counted oldp r) := by
  have hsub : ∀ {x y z : UInt64}, x ≤ y → y ≤ z → z - y ≤ z - x := by
    intro x y z hxy hyz
    rw [UInt64.le_iff_toNat_le, UInt64.toNat_sub_of_le _ _ hyz,
      UInt64.toNat_sub_of_le _ _ (UInt64.le_trans hxy hyz)]
    exact Nat.sub_le_sub_left (UInt64.le_iff_toNat_le.mp hxy) _
  exact ⟨hsub hold.1 hk.1, hsub hold.2 hk.2⟩

theorem extremeOf_iff (key : UInt64 → α) (label : Bytes) {k oldp : Fin n → SchedStats}
    {e : Extreme} {rows : List (Row n)} (hnodup : (rows.map Row.cpu).Nodup)
    (hle : ∀ r ∈ rows, (increase k r).Le (counted oldp r)) :
    (∃ r, IsExtreme key k rows r ∧
      extremeLine label (extremeOf key oldp e rows) = rightLine label k r) ↔
        Shown key k oldp e rows := by
  simp only [extremeLine_eq_iff]
  rcases runningMax_cases (fun e => key e.delay) (toExtreme oldp) e rows with
    ⟨hall, hrun⟩ | ⟨m, hm, hlt, hrun⟩
  · rw [extremeOf, hrun]
    constructor
    · exact fun h => Or.inl ⟨hall, h⟩
    · rintro (h | ⟨r, h⟩)
      · exact h.shows
      · exact absurd h.beyond (not_lt.mpr (hall r (argmax_mem h.first)))
  · rw [extremeOf, hrun]
    have hmem := argmax_mem hm
    constructor
    · rintro ⟨r, hr, heq⟩
      obtain ⟨hname, hdelay, hpcount⟩ := Extreme.mk.inj heq
      obtain rfl : m = r :=
        inj_on_of_nodup_map hnodup hmem hr.1 (Fin.ext (cpuName_injective hname))
      -- The count is below what is counted of it, which is the delay, and the other way round.
      have hmle := hle m hmem
      have hpd : (increase k m).pcount ≤ (increase k m).delay := hpcount ▸ hmle.2
      have hdp : (increase k m).delay ≤ (increase k m).pcount := hdelay ▸ hmle.1
      have hsame := UInt64.le_antisymm hdp hpd
      exact Or.inr ⟨m, hm, hlt, hr, SchedStats.ext (hdelay.trans hsame.symm) (hpcount.trans hsame),
        hsame⟩
    · rintro (h | ⟨r, h⟩)
      · exact absurd hlt (not_lt.mpr (h.within m hmem))
      · obtain rfl : m = r := Option.mem_unique hm h.first
        refine ⟨m, h.extreme, ?_⟩
        rw [toExtreme, h.counted_eq]
        exact Extreme.mk.injEq .. ▸ ⟨rfl, h.delay_eq, h.delay_eq.symm⟩

structure History (n : ℕ) where
  samples : List (Sample n)
  rising : samples.Pairwise Rises
  few : n + 3 ≤ maxUnityLines

structure ShowsExtremes (before : List (Sample n)) (s : Sample n) (out : Lines n) : Prop where
  max : ∃ r, IsExtreme UInt64.toNat (known before) s.rows r ∧
    out.max = rightLine (bytes "max") (known before) r
  min : ∃ r, IsExtreme downward (known before) s.rows r ∧
    out.min = rightLine (bytes "min") (known before) r

def CallRight (before : List (Sample n)) (s : Sample n) : Prop :=
  ∃ st st' out, after before = some st ∧ call st (some s.file) = some (st', out) ∧
    ShowsExtremes before s out

def CallShown (before : List (Sample n)) (s : Sample n) : Prop :=
  ∃ st, after before = some st ∧ Shown UInt64.toNat (known before) st.oldp st.currMax s.rows ∧
    Shown downward (known before) st.oldp st.currMin s.rows

theorem callRight_iff (hn : n + 3 ≤ maxUnityLines) {before : List (Sample n)} {s : Sample n}
    (hbefore : before.Pairwise Rises) (hs : ∀ s' ∈ before, Rises s' s) :
    CallRight before s ↔ CallShown before s := by
  obtain ⟨st, hst, hb⟩ := exists_after hn hbefore
  obtain ⟨st', out, hc⟩ := exists_calls hn st s
  have hle : ∀ r ∈ s.rows, (increase (known before) r).Le (counted st.oldp r) := fun r hr =>
    increase_le_counted (hb.oldp r.cpu) (known_le hs hr)
  have hmax := extremeOf_iff UInt64.toNat (bytes "max") (e := st.currMax) s.nodup hle
  have hmin := extremeOf_iff downward (bytes "min") (e := st.currMin) s.nodup hle
  rw [← hc.currMax, ← hc.max] at hmax
  rw [← hc.currMin, ← hc.min] at hmin
  constructor
  · rintro ⟨st₁, st₂, out₂, hst₁, hcall, hshows⟩
    obtain rfl : st = st₁ := Option.some.inj (hst.symm.trans hst₁)
    obtain ⟨-, rfl⟩ := Prod.mk.inj (Option.some.inj (hc.call_eq.symm.trans hcall))
    exact ⟨st, hst, hmax.mp hshows.max, hmin.mp hshows.min⟩
  · rintro ⟨st₁, hst₁, hM, hm⟩
    obtain rfl : st = st₁ := Option.some.inj (hst.symm.trans hst₁)
    exact ⟨st, st', out, hst, hc.call_eq, hmax.mpr hM, hmin.mpr hm⟩

theorem schedstat_extremes_iff (h : History n) :
    (∀ before s later, h.samples = before ++ s :: later → s.rows ≠ [] → CallRight before s) ↔
      ∀ before s later, h.samples = before ++ s :: later → s.rows ≠ [] → CallShown before s := by
  have hcall : ∀ before s later, h.samples = before ++ s :: later →
      (CallRight before s ↔ CallShown before s) := by
    intro before s later heq
    have hrising := h.rising
    rw [heq, pairwise_append] at hrising
    exact callRight_iff h.few hrising.1 fun s' hs' => hrising.2.2 s' hs' s mem_cons_self
  constructor
  · exact fun hall before s later heq hne => (hcall before s later heq).mp (hall _ _ _ heq hne)
  · exact fun hall before s later heq hne => (hcall before s later heq).mpr (hall _ _ _ heq hne)

end Extremes

def oneCpu : ℕ := 1

instance : NeZero oneCpu := ⟨by decide⟩

def oneRow (delay pcount : UInt64) : Sample oneCpu :=
  .ofRows (by decide) [⟨0, ⟨delay, pcount⟩⟩] (nodup_singleton _)

def twoCalls : History oneCpu where
  samples := [oneRow 10 4, oneRow 11 5]
  rising := by
    refine pairwise_pair.mpr fun r hr r' hr' _ => ?_
    obtain rfl := mem_singleton.mp hr
    obtain rfl := mem_singleton.mp hr'
    exact ⟨by decide, by decide⟩
  few := by decide

theorem twoCalls_not_right :
    ((after [oneRow 10 4]).bind fun st => (call st (some (oneRow 11 5).file)).map (·.2.max)) =
        some ⟨bytes "max", bytes "cpu0", 10, 4⟩ ∧
      (∀ r, IsExtreme UInt64.toNat (known [oneRow 10 4]) (oneRow 11 5).rows r →
        rightLine (bytes "max") (known [oneRow 10 4]) r = ⟨bytes "max", bytes "cpu0", 1, 1⟩) ∧
      twoCalls.samples = [oneRow 10 4] ++ oneRow 11 5 :: [] ∧ (oneRow 11 5).rows ≠ [] ∧
      ¬ CallRight [oneRow 10 4] (oneRow 11 5) := by
  have hrow : ∀ r, IsExtreme UInt64.toNat (known [oneRow 10 4]) (oneRow 11 5).rows r →
      rightLine (bytes "max") (known [oneRow 10 4]) r = ⟨bytes "max", bytes "cpu0", 1, 1⟩ := by
    intro r hr
    rw [mem_singleton.mp hr.1]
    decide +kernel
  have hrun : ((after [oneRow 10 4]).bind fun st =>
      (call st (some (oneRow 11 5).file)).map (·.2.max)) =
        some ⟨bytes "max", bytes "cpu0", 10, 4⟩ := by
    decide +kernel
  refine ⟨hrun, hrow, rfl, cons_ne_nil _ _, ?_⟩
  rintro ⟨st, st', out, hst, hcall, hshows⟩
  obtain ⟨r, hr, hout⟩ := hshows.max
  rw [hst, Option.bind_some, hcall, Option.map_some, hout, hrow r hr] at hrun
  exact absurd hrun (by decide)

end Schedstat
end Sysak.Collector
