/-
# Statistics of hung requests

`hangAnalysis` of `iosdiag/data_analysis/iosdiag_data_analysis.py`.  Its lists have one entry for
each disk, at the place that `diskIdxDicts` has for it; here they are one dictionary.  What `float`,
`str` and `round` do is a parameter (`HangPy`), and numbers are exact.  A minimum starts from
1000000000 microseconds.
-/

import Sysak.Iosdiag.Analysis
import Sysak.Lib.LuaTable
import Sysak.Lib.MovingWindow

namespace Sysak.Iosdiag

open Lib Lib.Json List Option

structure HangPy where
  float : Bytes → Py ℚ
  float_dec : ∀ n : ℕ, float (dec n) = .ok n
  mentions : List (Bytes × Json) → Bool
  mentions_key : ∀ s, (s.lookup (bytes "abnormal")).isSome = true → mentions s = true
  text : ℚ → Bytes

inductive HungComponent where
  | os
  | disk
deriving DecidableEq

def HungComponent.name : HungComponent → Bytes
  | os => bytes "OS"
  | disk => bytes "Disk"

structure HangStat where
  count : ℕ
  percent : Bytes
  max : ℚ
  min : ℚ
  avg : ℚ

structure HangDisk where
  stat : HungComponent → HangStat
  summary : List (List (Bytes × Json))
  detail : List (List (Bytes × Json))
  totalIos : ℕ

def HangDisk.blank : HangDisk := ⟨fun _ => ⟨0, [], 0, 1000000000, 0⟩, [], [], 0⟩

abbrev HangAnalysis : Type := List (Bytes × HangDisk)

def HangAnalysis.at (a : HangAnalysis) (disk : Bytes) : HangDisk := (a.lookup disk).getD .blank

def addHang (st : HangStat) (hungDelay : ℚ) : HangStat :=
  { st with
    count := st.count + 1
    max := if st.max < hungDelay then hungDelay else st.max
    min := if hungDelay < st.min then hungDelay else st.min
    avg := st.avg + hungDelay }

def pyWords (t : Bytes) : List Bytes := (t.splitOnP isSpace).filter (· ≠ [])

def hungComponent (word : Bytes) : Option HungComponent :=
  [HungComponent.os, .disk].find? fun c => c.name == word.takeWhile (· != 40)

def HangDisk.add (d : HangDisk) (c : HungComponent) (hungDelay : ℚ) (s : List (Bytes × Json)) :
    HangDisk :=
  { d with
    totalIos := d.totalIos + 1
    stat := Function.update d.stat c (addHang (d.stat c) hungDelay)
    summary := d.summary ++ [s] }

def HangDisk.summarize (py : HangPy) (d : HangDisk) (sDict : List (Bytes × Json))
    (abnormalList : List Bytes) : Py HangDisk := do
  let word ← pyIndex abnormalList 0
  match hungComponent word with
  | none => return d
  | some c =>
    -- `abnormalList[-2]`
    let hungDelay ← pyIndex abnormalList.reverse 1 >>= py.float
    let text := [32].intercalate
      (abnormalList.dropLast.dropLast ++ [py.text (hungDelay / 1000000), bytes "s"])
    return d.add c hungDelay (pySet sDict (bytes "abnormal") (.str text))

def processOneHangSeq (py : HangPy) (a : HangAnalysis) (s : List (Bytes × Json)) :
    Py HangAnalysis := do
  let disk ← pyGet s (bytes "diskname") >>= asStr
  let sDict := del s (bytes "diskname")
  if py.mentions sDict then
    let abnormal ← pyGet sDict (bytes "abnormal") >>= asStr
    let d ← (a.at disk).summarize py sDict (pyWords abnormal)
    return pySet a disk d
  else return pySet a disk { a.at disk with detail := (a.at disk).detail ++ [sDict] }

def HangStat.calculate (py : HangPy) (totalIos : ℕ) (st : HangStat) : HangStat :=
  if st.count ≠ 0 then
    { st with
      avg := st.avg / st.count
      percent := py.text (st.count * 100 / totalIos) ++ bytes "%" }
  else { st with min := 0, percent := py.text 0 ++ bytes "%" }

def HangDisk.calculate (py : HangPy) (d : HangDisk) : HangDisk :=
  { d with stat := fun c => (d.stat c).calculate py d.totalIos }

def hangStatCalculate (py : HangPy) (a : HangAnalysis) : HangAnalysis :=
  a.map fun p => (p.1, p.2.calculate py)

structure HungLine where
  dict : List (Bytes × Json)
  disk : Bytes
  reason : Bytes
  delay : ℕ
  disk_eq : dict.lookup (bytes "diskname") = some (.str disk)
  abnormal_eq : dict.lookup (bytes "abnormal") =
    some (.str (reason ++ bytes " hang " ++ dec delay ++ bytes " us"))
  reason_ne : pyWords reason ≠ []

def HungLine.component (l : HungLine) : Option HungComponent :=
  hungComponent ((pyWords l.reason).headD [])

def hungDelays (ls : List HungLine) (disk : Bytes) (c : HungComponent) : List ℚ :=
  ls.filterMap fun l => if l.disk = disk ∧ l.component = some c then some (l.delay : ℚ) else none

def knownLines (ls : List HungLine) (disk : Bytes) : ℕ :=
  ls.countP fun l => l.disk = disk ∧ l.component.isSome

def HangCorrect (py : HangPy) (ls : List HungLine) (b : HangAnalysis) : Prop :=
  ∀ disk, ((b.at disk).stat .os).count + ((b.at disk).stat .disk).count = knownLines ls disk ∧
    ∀ c, hungDelays ls disk c ≠ [] →
      IsGreatest {x | x ∈ hungDelays ls disk c} ((b.at disk).stat c).max ∧
      IsLeast {x | x ∈ hungDelays ls disk c} ((b.at disk).stat c).min ∧
      ((b.at disk).stat c).avg = mean (hungDelays ls disk c) ∧
      ((b.at disk).stat c).min ≤ ((b.at disk).stat c).avg ∧
      ((b.at disk).stat c).avg ≤ ((b.at disk).stat c).max ∧
      ((b.at disk).stat c).percent =
        py.text ((hungDelays ls disk c).length * 100 / knownLines ls disk) ++ bytes "%"

variable {py : HangPy} {a : HangAnalysis} {ls : List HungLine} {disk : Bytes} {c : HungComponent}

theorem pyWords_append (t u : Bytes) : pyWords (t ++ 32 :: u) = pyWords t ++ pyWords u := by
  rw [pyWords, splitOnP_append_cons t u rfl, filter_append]
  rfl

theorem pyWords_dec (n : ℕ) : pyWords (dec n) = [dec n] := by
  have hno : ∀ c ∈ dec n, isSpace c = false := fun c hc =>
    isSpace_of_isDigit (isDigit_of_mem_dec hc)
  rw [pyWords, splitOnP_eq_singleton hno, filter_singleton]
  simp [dec_ne_nil]

def HungLine.text (l : HungLine) : Bytes := l.reason ++ bytes " hang " ++ dec l.delay ++ bytes " us"

theorem HungLine.words_text (l : HungLine) :
    pyWords l.text = pyWords l.reason ++ [bytes "hang", dec l.delay, bytes "us"] := by
  have htext : l.text =
      l.reason ++ 32 :: (bytes "hang" ++ 32 :: (dec l.delay ++ 32 :: bytes "us")) := by
    simp [text, bytes]
  rw [htext, pyWords_append, pyWords_append, pyWords_append, pyWords_dec]
  rfl

theorem HangDisk.summarize_line (py : HangPy) (d : HangDisk) (s : List (Bytes × Json))
    (l : HungLine) : ∃ d', d.summarize py s (pyWords l.text) = .ok d' ∧
      (∀ c, d'.stat c = if l.component = some c then addHang (d.stat c) l.delay else d.stat c) ∧
      d'.totalIos = d.totalIos + l.component.isSome.toNat := by
  obtain ⟨word, rest, hreason⟩ := exists_cons_of_ne_nil l.reason_ne
  have hword : pyIndex (pyWords l.text) 0 = .ok word := by
    rw [l.words_text, hreason]
    rfl
  have hdelay : (pyIndex (pyWords l.text).reverse 1 >>= py.float) = .ok (l.delay : ℚ) := by
    rw [l.words_text, reverse_append]
    exact py.float_dec l.delay
  rw [HungLine.component, hreason, headD_cons]
  cases hc : hungComponent word with
  | none =>
    refine ⟨d, bind_eq_ok_iff.mpr ⟨word, hword, by rw [hc]; rfl⟩, fun c => ?_, rfl⟩
    rw [if_neg (by simp)]
  | some c₀ =>
    have hrun : ∃ s', d.summarize py s (pyWords l.text) = .ok (d.add c₀ l.delay s') :=
      ⟨_, bind_eq_ok_iff.mpr ⟨word, hword, by
        rw [hc]
        exact bind_eq_ok_iff.mpr ⟨_, hdelay, rfl⟩⟩⟩
    obtain ⟨s', hs'⟩ := hrun
    refine ⟨_, hs', fun c => ?_, rfl⟩
    simp only [HangDisk.add, Function.update_apply, some.injEq, eq_comm (a := c)]
    split_ifs with h
    · rw [h]
    · rfl

theorem at_pySet (d : HangDisk) (disk disk' : Bytes) :
    HangAnalysis.at (pySet a disk' d) disk = if disk = disk' then d else a.at disk := by
  split_ifs with h
  · rw [h, HangAnalysis.at, lookup_pySet_self, getD_some]
  · rw [HangAnalysis.at, lookup_pySet_of_ne h, HangAnalysis.at]

theorem processOneHangSeq_line (py : HangPy) (a : HangAnalysis) (l : HungLine) :
    ∃ d, processOneHangSeq py a l.dict = .ok (pySet a l.disk d) ∧
      (∀ c, d.stat c = if l.component = some c then addHang ((a.at l.disk).stat c) l.delay
        else (a.at l.disk).stat c) ∧
      d.totalIos = (a.at l.disk).totalIos + l.component.isSome.toNat := by
  have habn : (del l.dict (bytes "diskname")).lookup (bytes "abnormal") = some (.str l.text) :=
    (lookup_filter_of_ne (by decide)).trans l.abnormal_eq
  obtain ⟨d, hd, hspec⟩ := (a.at l.disk).summarize_line py (del l.dict (bytes "diskname")) l
  refine ⟨d, bind_eq_ok_iff.mpr ⟨l.disk, by rw [pyGet_eq_ok_iff.mpr l.disk_eq]; rfl, ?_⟩, hspec⟩
  rw [if_pos (py.mentions_key _ (by rw [habn]; rfl))]
  exact bind_eq_ok_iff.mpr ⟨l.text, by rw [pyGet_eq_ok_iff.mpr habn]; rfl,
    bind_eq_ok_iff.mpr ⟨d, hd, rfl⟩⟩

def Counted (a : HangAnalysis) (ls : List HungLine) : Prop :=
  ∀ disk, (∀ c, (a.at disk).stat c =
      (hungDelays ls disk c).foldl addHang (HangDisk.blank.stat c)) ∧
    (a.at disk).totalIos = knownLines ls disk

theorem hungDelays_concat (ls : List HungLine) (l : HungLine) :
    hungDelays (ls ++ [l]) disk c = hungDelays ls disk c ++
      if l.disk = disk ∧ l.component = some c then [(l.delay : ℚ)] else [] := by
  rw [hungDelays, filterMap_append, ← hungDelays]
  split_ifs with h <;> simp [h]

theorem exists_counted (py : HangPy) (ls : List HungLine) :
    ∃ a, ls.foldlM (fun a l => processOneHangSeq py a l.dict) [] = .ok a ∧ Counted a ls := by
  induction ls using reverseRecOn with
  | nil => exact ⟨[], rfl, fun disk => ⟨fun c => rfl, rfl⟩⟩
  | append_singleton ls l ih =>
    obtain ⟨a, ha, hcounted⟩ := ih
    obtain ⟨d, hd, hstat, hios⟩ := processOneHangSeq_line py a l
    refine ⟨pySet a l.disk d, ?_, fun disk => ?_⟩
    · rw [foldlM_append]
      exact bind_eq_ok_iff.mpr ⟨a, ha, bind_eq_ok_iff.mpr ⟨_, hd, rfl⟩⟩
    · obtain ⟨hold, hknown⟩ := hcounted disk
      rw [at_pySet, knownLines, countP_append, ← knownLines, countP_singleton]
      simp only [hungDelays_concat, foldl_append]
      by_cases hdisk : disk = l.disk
      · subst hdisk
        refine ⟨fun c => ?_, ?_⟩
        · rw [if_pos rfl, hstat, hold]
          split_ifs <;> simp_all
        · rw [if_pos rfl, hios, hknown]
          cases l.component <;> simp
      · refine ⟨fun c => ?_, ?_⟩
        · rw [if_neg hdisk, hold, if_neg fun h => hdisk h.1.symm, foldl_nil]
        · rw [if_neg hdisk, hknown]
          simp [Ne.symm hdisk]

theorem foldl_addHang (xs : List ℚ) : xs.foldl addHang (HangDisk.blank.stat c) =
    ⟨xs.length, [], xs.foldl max 0, xs.foldl min 1000000000, xs.sum⟩ := by
  induction xs using reverseRecOn with
  | nil => rfl
  | append_singleton xs x ih =>
    simp only [foldl_append, ih, foldl_cons, foldl_nil, addHang, length_append, length_singleton,
      sum_append, sum_singleton, max_def_lt, min_comm _ x, min_def_lt]

theorem length_hungDelays (ls : List HungLine) (disk : Bytes) :
    (hungDelays ls disk .os).length + (hungDelays ls disk .disk).length = knownLines ls disk := by
  induction ls using reverseRecOn with
  | nil => rfl
  | append_singleton ls l ih =>
    rw [hungDelays_concat, hungDelays_concat, knownLines, countP_append, ← knownLines, ← ih,
      countP_singleton, length_append, length_append]
    by_cases hdisk : l.disk = disk
    · cases l.component with
      | none => simp
      | some c => cases c <;> simp [hdisk] <;> omega
    · simp [hdisk]

theorem lookup_hangStatCalculate (py : HangPy) (a : HangAnalysis) (disk : Bytes) :
    (hangStatCalculate py a).lookup disk = (a.lookup disk).map (HangDisk.calculate py) := by
  induction a with
  | nil => rfl
  | cons p a ih =>
    rw [hangStatCalculate, map_cons, lookup_cons, lookup_cons, ← hangStatCalculate, ih]
    split <;> rfl

theorem stat_hangStatCalculate (py : HangPy) (h : Counted a ls) (disk : Bytes) (c : HungComponent) :
    let xs := hungDelays ls disk c
    let st := (HangAnalysis.at (hangStatCalculate py a) disk).stat c
    st.count = xs.length ∧ (xs ≠ [] → st = ⟨xs.length,
      py.text (xs.length * 100 / knownLines ls disk) ++ bytes "%", xs.foldl max 0,
      xs.foldl min 1000000000, mean xs⟩) := by
  intro xs st
  obtain ⟨hstat, hios⟩ := h disk
  have hc := (hstat c).trans (foldl_addHang xs)
  simp only [st, HangAnalysis.at, lookup_hangStatCalculate]
  cases hd : a.lookup disk with
  | none =>
    -- a disk without an entry has no delays
    rw [HangAnalysis.at, hd] at hc
    have hnil : xs.length = 0 := (congrArg HangStat.count hc).symm
    exact ⟨hnil.symm, fun hne => absurd (length_eq_zero_iff.mp hnil) hne⟩
  | some d =>
    rw [HangAnalysis.at, hd, getD_some] at hc hios
    simp only [map_some, getD_some, HangDisk.calculate, HangStat.calculate, hc, hios]
    refine ⟨by split_ifs <;> rfl, fun hne => ?_⟩
    exact if_pos fun h0 => hne (length_eq_zero_iff.mp h0)

theorem hangCorrect_iff (py : HangPy) (ls : List HungLine) :
    ∃ a, ls.foldlM (fun a l => processOneHangSeq py a l.dict) [] = .ok a ∧
      (HangCorrect py ls (hangStatCalculate py a) ↔ ∀ disk c, hungDelays ls disk c ≠ [] →
        ∃ x ∈ hungDelays ls disk c, x ≤ 1000000000) := by
  obtain ⟨a, ha, hcounted⟩ := exists_counted py ls
  refine ⟨a, ha, fun h disk c hne => ?_, fun h disk => ⟨?_, fun c hne => ?_⟩⟩
  · obtain ⟨-, hleast, -⟩ := (h disk).2 c hne
    rw [(stat_hangStatCalculate py hcounted disk c).2 hne] at hleast
    exact isLeast_foldl_min_iff.mp hleast
  · rw [(stat_hangStatCalculate py hcounted disk .os).1,
      (stat_hangStatCalculate py hcounted disk .disk).1, length_hungDelays]
  · rw [(stat_hangStatCalculate py hcounted disk c).2 hne]
    have hleast := isLeast_foldl_min_iff.mpr (h disk c hne)
    have hgreatest : IsGreatest {x | x ∈ hungDelays ls disk c}
        ((hungDelays ls disk c).foldl max 0) := by
      obtain ⟨x, hx⟩ := exists_mem_of_ne_nil _ hne
      refine isGreatest_foldl_max_iff.mpr ⟨x, hx, ?_⟩
      obtain ⟨l, -, hl⟩ := mem_filterMap.mp hx
      split_ifs at hl
      rw [← some.inj hl]
      exact Nat.cast_nonneg _
    obtain ⟨hlo, hhi⟩ := le_mean_le hne (fun x hx => hleast.2 hx) (fun x hx => hgreatest.2 hx)
    exact ⟨hgreatest, hleast, rfl, hlo, hhi, rfl⟩

def somePy : HangPy where
  float t := .ok (decimal t)
  float_dec n := by rw [decimal_dec]
  mentions _ := true
  mentions_key _ _ := rfl
  text _ := []

def longLine : HungLine where
  dict := [(bytes "abnormal", .str (bytes "OS(Waitting for Irq handle) hang 1001000000 us")),
    (bytes "diskname", .str (bytes "sda"))]
  disk := bytes "sda"
  reason := bytes "OS(Waitting for Irq handle)"
  delay := 1001000000
  disk_eq := rfl
  abnormal_eq := rfl
  reason_ne := by decide

theorem not_hangCorrect_long : ∃ a, processOneHangSeq somePy [] longLine.dict = .ok a ∧
    ((hangStatCalculate somePy a).at (bytes "sda")).stat .os =
      ⟨1, bytes "%", 1001000000, 1000000000, 1001000000⟩ ∧
    ¬HangCorrect somePy [longLine] (hangStatCalculate somePy a) := by
  obtain ⟨a, ha, hcounted⟩ := exists_counted somePy [longLine]
  have hdelays : hungDelays [longLine] (bytes "sda") .os = [1001000000] := rfl
  have hne : hungDelays [longLine] (bytes "sda") .os ≠ [] := by simp [hdelays]
  have hst : ((hangStatCalculate somePy a).at (bytes "sda")).stat .os =
      ⟨1, bytes "%", 1001000000, 1000000000, 1001000000⟩ := by
    rw [(stat_hangStatCalculate somePy hcounted _ _).2 hne, hdelays]
    have hmin : (1000000000 : ℚ) ≤ 1001000000 := by decide +kernel
    simp [mean, somePy, hmin]
  refine ⟨a, by simpa using ha, hst, fun h => ?_⟩
  obtain ⟨-, hleast, -⟩ := (h (bytes "sda")).2 .os hne
  rw [hst, hdelays] at hleast
  exact absurd hleast.1 (by simp)

end Sysak.Iosdiag
