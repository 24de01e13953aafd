/-
# Where the results are written

`latencyDataAnalysis` and `hangDataAnalysis` of `iosdiag/data_analysis/iosdiag_data_analysis.py`,
with the files they write in order, and none if they end before.  The names of two of them come from
`strip('.seq')`, which removes these four characters from both ends as often as they stand there,
and not the text.  What `json.dumps` makes of the results is a parameter.
-/

import Sysak.Iosdiag.Calculate
import Sysak.Iosdiag.Hang
import Mathlib.Data.List.DropRight

namespace Sysak.Iosdiag

open Lib Lib.Json List

def inSeq (c : UInt8) : Bool := (bytes ".seq").contains c

def stripSeq (t : Bytes) : Bytes := (t.dropWhile inSeq).rdropWhile inSeq

def writeResults (resultSeqFile stat summary detail : Bytes) : List (Bytes × Bytes) :=
  let name := stripSeq resultSeqFile
  -- a file without a name cannot be opened
  if name = [] then [(bytes ".stat", stat)]
  else [(name ++ bytes ".stat", stat), (name, summary), (resultSeqFile, detail)]

def latencyDataAnalysis (ms : ℤ → Bytes) (text : ℚ → Bytes)
    (statText : LatencyAnalysis → (Bytes → List ComponentReport) → Bytes)
    (iosText : List DiskIos → Bytes) (resultSeqFile : Bytes) (lines : List Bytes) :
    List (Bytes × Bytes) :=
  match readLines ms lines with
  | .error _ => []
  | .ok a =>
    if a.totalDiskCnt = 0 then []
    else (latencyCalculate text a).elim [] fun report =>
      writeResults resultSeqFile (statText a report) (iosText a.summaryDicts) (iosText a.delayDicts)

def readHangLine (py : HangPy) (a : HangAnalysis) (line : Bytes) : Py HangAnalysis :=
  (loads line).elim (.ok a) fun v => asDict v >>= processOneHangSeq py a

def hangDataAnalysis (py : HangPy) (statText summaryText detailText : HangAnalysis → Bytes)
    (resultSeqFile : Bytes) (lines : List Bytes) : List (Bytes × Bytes) :=
  match lines.foldlM (readHangLine py) [] with
  | .error _ => []
  | .ok a =>
    if a = [] then []
    else writeResults resultSeqFile (statText (hangStatCalculate py a)) (summaryText a)
      (detailText a)

def NextToInput (Q : Bytes) (writes : List (Bytes × Bytes)) : Prop :=
  ∀ path, path ∈ writes.map Prod.fst ↔
    path = Q ++ bytes ".seq" ∨ path = Q ∨ path = Q ++ bytes ".stat"

theorem length_stripSeq_le (t : Bytes) : (stripSeq t).length ≤ t.length :=
  ( rdropWhile_prefix inSeq _).length_le.trans (dropWhile_suffix inSeq).length_le

variable {Q : Bytes}

theorem nextToInput_writeResults_iff (hQ : Q ≠ []) (stat summary detail : Bytes) :
    NextToInput Q (writeResults (Q ++ bytes ".seq") stat summary detail) ↔
      stripSeq (Q ++ bytes ".seq") = Q := by
  have hlen := length_stripSeq_le (Q ++ bytes ".seq")
  rw [length_append] at hlen
  have hseq : (bytes ".seq").length = 4 := rfl
  have hstat : (bytes ".stat").length = 5 := rfl
  rw [writeResults]
  split_ifs with hname
  · refine ⟨fun h => absurd ?_ hQ, fun h => absurd (h.symm.trans hname) hQ⟩
    have hmem := (h (Q ++ bytes ".stat")).mpr (.inr (.inr rfl))
    exact append_left_eq_self.mp (mem_singleton.mp hmem)
  · constructor
    · intro h
      -- only the file of the statistics can have the name of the statistics
      have hmem := (h (Q ++ bytes ".stat")).mpr (.inr (.inr rfl))
      simp only [map_cons, map_nil, mem_cons, not_mem_nil, or_false] at hmem
      rcases hmem with heq | heq | heq
      · exact (append_cancel_right heq).symm
      · have := congrArg List.length heq
        rw [length_append] at this
        omega
      · have := congrArg List.length heq
        rw [length_append, length_append] at this
        omega
    · intro h path
      rw [h]
      simp only [map_cons, map_nil, mem_cons, not_mem_nil, or_false]
      tauto

theorem stripSeq_append (t : Bytes) : stripSeq (t ++ bytes ".seq") = stripSeq t := by
  have hall : (bytes ".seq").reverse.all inSeq = true := rfl
  rw [stripSeq, stripSeq, dropWhile_append]
  split_ifs with hempty
  · rw [isEmpty_iff.mp hempty]
    rfl
  · rw [rdropWhile, reverse_append, dropWhile_append_of_pos (all_eq_true.mp hall),
      ← rdropWhile]

theorem stripSeq_eq_iff (hQ : Q ≠ []) : stripSeq (Q ++ bytes ".seq") = Q ↔
    inSeq (Q.head hQ) = false ∧ inSeq (Q.getLast hQ) = false := by
  have hhead : Q.dropWhile inSeq = Q ↔ inSeq (Q.head hQ) = false := by
    rw [dropWhile_eq_self_iff, head_eq_getElem, forall_prop_of_true (length_pos_iff.mpr hQ),
      Bool.not_eq_true]
  have hlast : Q.rdropWhile inSeq = Q ↔ inSeq (Q.getLast hQ) = false := by
    rw [rdropWhile_eq_self_iff, forall_prop_of_true hQ, Bool.not_eq_true]
  rw [stripSeq_append, ← hhead, ← hlast]
  constructor
  · intro h
    have hdrop : Q.dropWhile inSeq = Q := by
      refine (dropWhile_suffix inSeq).eq_of_length_le ?_
      have hle := ( rdropWhile_prefix inSeq (Q.dropWhile inSeq)).length_le
      rwa [← stripSeq, h] at hle
    rw [stripSeq, hdrop] at h
    exact ⟨hdrop, h⟩
  · rintro ⟨hdrop, hrdrop⟩
    rw [stripSeq, hdrop, hrdrop]

theorem latencyDataAnalysis_cases (ms : ℤ → Bytes) (text : ℚ → Bytes)
    (statText : LatencyAnalysis → (Bytes → List ComponentReport) → Bytes)
    (iosText : List DiskIos → Bytes) (P : Bytes) (lines : List Bytes) :
    latencyDataAnalysis ms text statText iosText P lines = [] ∨ ∃ stat summary detail,
      latencyDataAnalysis ms text statText iosText P lines =
        writeResults P stat summary detail := by
  rw [latencyDataAnalysis]
  split
  · exact .inl rfl
  · split_ifs
    · exact .inl rfl
    · cases latencyCalculate text _ with
      | none => exact .inl rfl
      | some report => exact .inr ⟨_, _, _, rfl⟩

theorem hangDataAnalysis_cases (py : HangPy)
    (statText summaryText detailText : HangAnalysis → Bytes) (P : Bytes) (lines : List Bytes) :
    hangDataAnalysis py statText summaryText detailText P lines = [] ∨ ∃ stat summary detail,
      hangDataAnalysis py statText summaryText detailText P lines =
        writeResults P stat summary detail := by
  rw [hangDataAnalysis]
  split
  · exact .inl rfl
  · split_ifs
    · exact .inl rfl
    · exact .inr ⟨_, _, _, rfl⟩

theorem eq_nil_or_nextToInput_iff (hQ : Q ≠ []) {writes : List (Bytes × Bytes)}
    (h : writes = [] ∨ ∃ stat summary detail,
      writes = writeResults (Q ++ bytes ".seq") stat summary detail) :
    writes = [] ∨ (NextToInput Q writes ↔
      inSeq (Q.head hQ) = false ∧ inSeq (Q.getLast hQ) = false) := by
  rcases h with h | ⟨stat, summary, detail, rfl⟩
  · exact .inl h
  · exact .inr ((nextToInput_writeResults_iff hQ stat summary detail).trans (stripSeq_eq_iff hQ))

theorem nextToInput_iff (c : UInt8) (cs : Bytes) :
    (∀ ms text statText iosText lines,
      let writes := latencyDataAnalysis ms text statText iosText (c :: cs ++ bytes ".seq") lines
      writes = [] ∨ (NextToInput (c :: cs) writes ↔
        inSeq c = false ∧ inSeq ((c :: cs).getLast (cons_ne_nil c cs)) = false)) ∧
    ∀ py statText summaryText detailText lines,
      let writes :=
        hangDataAnalysis py statText summaryText detailText (c :: cs ++ bytes ".seq") lines
      writes = [] ∨ (NextToInput (c :: cs) writes ↔
        inSeq c = false ∧ inSeq ((c :: cs).getLast (cons_ne_nil c cs)) = false) :=
  ⟨fun ms text statText iosText lines => eq_nil_or_nextToInput_iff (cons_ne_nil c cs)
      (latencyDataAnalysis_cases ms text statText iosText _ lines),
    fun py statText summaryText detailText lines => eq_nil_or_nextToInput_iff (cons_ne_nil c cs)
      (hangDataAnalysis_cases py statText summaryText detailText _ lines)⟩

def hungText : Bytes := bytes "\x7b\"diskname\":\"sda\",\"abnormal\":\"OS(x) hang 5 us\"\x7d"

theorem not_nextToInput_dot :
    (hangDataAnalysis somePy (fun _ => []) (fun _ => []) (fun _ => [])
        (bytes "./result.log.seq") [hungText]).map Prod.fst =
      [bytes "/result.log.stat", bytes "/result.log", bytes "./result.log.seq"] ∧
    ¬NextToInput (bytes "./result.log") (hangDataAnalysis somePy (fun _ => []) (fun _ => [])
      (fun _ => []) (bytes "./result.log.seq") [hungText]) := by
  have hpaths : (hangDataAnalysis somePy (fun _ => []) (fun _ => []) (fun _ => [])
        (bytes "./result.log.seq") [hungText]).map Prod.fst =
      [bytes "/result.log.stat", bytes "/result.log", bytes "./result.log.seq"] := by
    decide +kernel
  refine ⟨hpaths, fun h => ?_⟩
  have hmem := (h (bytes "/result.log")).mp (by rw [hpaths]; decide)
  revert hmem
  decide

end Sysak.Iosdiag
