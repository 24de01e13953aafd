/-
# The newest sample of a table
-/

import Sysak.Common.ProtoData
import Sysak.Lib.LuaTable

namespace Sysak.Beaver

open Lib List

structure Line where
  time : ℕ
  title : String
  labels : List (String × String)
  values : List (String × UInt64)
deriving DecidableEq

def lineOf (time : ℕ) (v : DataLine) : Line where
  time := time
  title := v.line
  labels := luaTable v.ls
  values := luaTable v.vs

def queryLines (records : List (ℕ × List DataLine)) : List Line :=
  records.flatMap fun record => record.2.map (lineOf record.1)

def qFormDataLoop (fromTable : String) : List Line → List Line → ℕ → List Line
  | [], res, _ => res
  | line :: lines, res, last =>
    if fromTable = line.title then
      if last = 0 ∨ last = line.time then qFormDataLoop fromTable lines (res ++ [line]) line.time
      else res
    else qFormDataLoop fromTable lines res last

def qFormData (fromTable : String) (tData : List Line) : List Line :=
  qFormDataLoop fromTable tData.reverse [] 0

def Newest (fromTable : String) (tData : List Line) (line : Line) : Prop :=
  line.title = fromTable ∧ ∀ other ∈ tData, other.title = fromTable → other.time ≤ line.time

instance (fromTable : String) (tData : List Line) : DecidablePred (Newest fromTable tData) :=
  fun _ => inferInstanceAs (Decidable (_ ∧ _))

def InOrder (tData : List Line) : Prop := tData.Pairwise fun line line' => line.time ≤ line'.time

theorem queryLines_inOrder {records : List (ℕ × List DataLine)}
    (h : records.Pairwise fun r r' => r.1 ≤ r'.1) : InOrder (queryLines records) := by
  rw [InOrder, queryLines, pairwise_flatMap]
  constructor
  · intro record _
    rw [pairwise_map]
    exact pairwise_of_forall fun _ _ => le_rfl
  · refine h.imp fun {r r'} hle line hline line' hline' => ?_
    obtain ⟨v, -, rfl⟩ := mem_map.mp hline
    obtain ⟨v', -, rfl⟩ := mem_map.mp hline'
    exact hle

variable {fromTable : String} {lines : List Line}

theorem qFormDataLoop_of_le {last : ℕ}
    (hdesc : lines.Pairwise fun line line' => line'.time ≤ line.time)
    (hle : ∀ line ∈ lines, line.time ≤ last) (res : List Line) :
    qFormDataLoop fromTable lines res last =
      res ++ lines.filter fun line => line.title = fromTable ∧ line.time = last := by
  induction lines generalizing res with
  | nil => rw [qFormDataLoop, filter_nil, append_nil]
  | cons line lines ih =>
    obtain ⟨hline, hdesc⟩ := pairwise_cons.mp hdesc
    obtain ⟨hlast, hle⟩ := forall_mem_cons.mp hle
    rw [qFormDataLoop]
    split_ifs with htable htime
    · -- with `last = 0` the time of the line is 0 as well
      have heq : line.time = last := by omega
      rw [heq, ih hdesc hle, filter_cons_of_pos (by simp [htable, heq]), append_assoc,
        singleton_append]
    · -- the lines to come are older than `last`
      have hnone : (line :: lines).filter
          (fun line => line.title = fromTable ∧ line.time = last) = [] := by
        rw [filter_eq_nil_iff]
        intro other hother
        have hother' : other.time ≤ line.time := by
          rcases mem_cons.mp hother with rfl | hother
          · exact le_rfl
          · exact hline other hother
        rw [decide_eq_true_eq]
        omega
      rw [hnone, append_nil]
    · rw [ih hdesc hle, filter_cons_of_neg (by simp [Ne.symm htable])]

theorem qFormDataLoop_zero (hdesc : lines.Pairwise fun line line' => line'.time ≤ line.time)
    (res : List Line) :
    qFormDataLoop fromTable lines res 0 = res ++ lines.filter (Newest fromTable lines) := by
  induction lines generalizing res with
  | nil => rw [qFormDataLoop, filter_nil, append_nil]
  | cons line lines ih =>
    obtain ⟨hline, hdesc⟩ := pairwise_cons.mp hdesc
    rw [qFormDataLoop]
    split_ifs with htable htime
    · -- no line is newer than the first one that is met
      have hnewest : ∀ other ∈ line :: lines, decide (Newest fromTable (line :: lines) other) =
          decide (other.title = fromTable ∧ other.time = line.time) := by
        intro other hother
        have hmax : ∀ other ∈ line :: lines, other.time ≤ line.time :=
          forall_mem_cons.mpr ⟨le_rfl, hline⟩
        refine decide_eq_decide.mpr (and_congr_right fun _ => ⟨fun hge => ?_, fun heq => ?_⟩)
        · exact le_antisymm (hmax other hother) (hge line mem_cons_self htable.symm)
        · exact fun another hanother _ => heq ▸ hmax another hanother
      rw [qFormDataLoop_of_le hdesc hline, filter_congr hnewest,
        filter_cons_of_pos (by simp [htable]), append_assoc, singleton_append]
    · exact absurd (.inl rfl) htime
    · have hnewest : ∀ other, Newest fromTable (line :: lines) other ↔
          Newest fromTable lines other := by
        simp [Newest, Ne.symm htable]
      rw [ih hdesc, filter_cons_of_neg (by simp [Newest, Ne.symm htable])]
      simp only [hnewest]

theorem qFormData_newest (fromTable : String) {tData : List Line} (h : InOrder tData) :
    qFormData fromTable tData = (tData.filter (Newest fromTable tData)).reverse := by
  have hdesc : tData.reverse.Pairwise fun line line' => line'.time ≤ line.time :=
    pairwise_reverse.mpr h
  rw [qFormData, qFormDataLoop_zero hdesc, nil_append, ← filter_reverse]
  exact filter_congr fun line _ =>
    decide_eq_decide.mpr (by simp only [Newest, mem_reverse])

def twoRecords : List (ℕ × List DataLine) :=
  [(5, [⟨"mem", [], [], []⟩, ⟨"cpu", [], [], []⟩]),
    (9, [⟨"cpu", [], [], []⟩, ⟨"mem", [], [], []⟩, ⟨"cpu", [("cpu", "all")], [], []⟩])]

theorem qFormData_newest_twoRecords :
    InOrder (queryLines twoRecords) ∧
      qFormData "cpu" (queryLines twoRecords) =
        ((queryLines twoRecords).filter (Newest "cpu" (queryLines twoRecords))).reverse ∧
      (qFormData "cpu" (queryLines twoRecords)).map Line.time = [9, 9] := by
  have h : InOrder (queryLines twoRecords) := queryLines_inOrder (by decide)
  exact ⟨h, qFormData_newest "cpu" h, by decide⟩

end Sysak.Beaver
