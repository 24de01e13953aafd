/-
# One round of the collector
-/

import Sysak.Collector.Plugin

namespace Sysak.Collector

open Lib List

structure CvProc where
  lines : Option ProtoTable
  deriving DecidableEq, Repr

def CvProc.proc (self : CvProc) : CvProc := { self with lines := some protoTable }

def CvProc.appendLine (self : CvProc) (line : DataLine) : Option CvProc :=
  self.lines.map fun t => { self with lines := some { t with lines := t.lines ++ [line] } }

def CvProc.push (self : CvProc) (lines : ProtoTable) : Option (CvProc × ProtoTable) :=
  self.lines.map fun t => ({ self with lines := none },
    { lines with lines := luaPutFrom lines.lines lines.arr.length t.lines })

def CvProc.run (self : CvProc) (out : List DataLine) (lines : ProtoTable) :
    Option (CvProc × ProtoTable) :=
  (out.foldlM CvProc.appendLine self.proc).bind fun self => self.push lines

def Cloop.runProcs : List (CvProc × List DataLine) → ProtoTable → Option (List CvProc × ProtoTable)
  | [], lines => some ([], lines)
  | (obj, out) :: objs, lines =>
    (obj.run out lines).bind fun (obj', lines') =>
      (Cloop.runProcs objs lines').map fun (objs', lines'') => (obj' :: objs', lines'')

def Cloop.work (objs : List (CvProc × List DataLine)) (calls : List CCall) :
    Option (List CvProc × ProtoTable) :=
  (Cloop.runProcs objs protoTable).map fun (objs', lines) => (objs', Cplugin.proc calls lines)

theorem foldlM_appendLine (out : List DataLine) : ∀ t : ProtoTable,
    out.foldlM CvProc.appendLine ⟨some t⟩ =
      some ⟨some { t with lines := t.lines ++ out }⟩ := by
  induction out with
  | nil =>
    intro t
    simp
  | cons line out ih =>
    intro t
    simp [CvProc.appendLine, ih]

def pushed (acc out : List DataLine) : List DataLine := out ++ acc.drop out.length

theorem CvProc.run_eq (self : CvProc) (out : List DataLine) {lines : ProtoTable}
    (harr : lines.arr = []) :
    self.run out lines = some (⟨none⟩, { lines with lines := pushed lines.lines out }) := by
  rw [CvProc.run, CvProc.proc, foldlM_appendLine, Option.bind_some, CvProc.push, harr]
  simp [protoTable, luaPutFrom_zero, pushed]

theorem Cloop.runProcs_eq (objs : List (CvProc × List DataLine)) : ∀ {lines : ProtoTable},
    lines.arr = [] → Cloop.runProcs objs lines = some (objs.map fun _ => ⟨none⟩,
      { lines with lines := (objs.map Prod.snd).foldl pushed lines.lines }) := by
  induction objs with
  | nil =>
    intro lines _
    rfl
  | cons obj objs ih =>
    intro lines harr
    rw [Cloop.runProcs, obj.1.run_eq obj.2 harr, Option.bind_some]
    have hrest := @ih { lines with lines := pushed lines.lines obj.2 } harr
    simp only [hrest]
    rfl

theorem Cloop.work_eq (objs : List (CvProc × List DataLine)) (calls : List CCall) :
    Cloop.work objs calls = some (objs.map fun _ => ⟨none⟩,
      ⟨[], (objs.map Prod.snd).foldl pushed [] ++ calls.flatMap CCall.output⟩) := by
  rw [Cloop.work, Cloop.runProcs_eq objs rfl, Option.map_some]
  simp only [Cplugin.proc_eq]
  rfl

section Lost

variable (acc : List DataLine) (outs : List (List DataLine))

theorem length_pushed (out : List DataLine) :
    (pushed acc out).length = max out.length acc.length := by
  rw [pushed, length_append, length_drop]
  omega

theorem length_foldl_pushed_le :
    ∀ acc : List DataLine, (outs.foldl pushed acc).length ≤ acc.length + outs.flatten.length := by
  induction outs with
  | nil =>
    intro acc
    simp
  | cons out outs ih =>
    intro acc
    have hrest := ih (pushed acc out)
    rw [length_pushed] at hrest
    rw [foldl_cons, flatten_cons, length_append]
    omega

theorem foldl_pushed_eq_iff : ∀ acc : List DataLine,
    outs.foldl pushed acc = acc ++ outs.flatten ↔
      ((acc :: outs).filter fun out => !out.isEmpty).length ≤ 1 := by
  induction outs with
  | nil =>
    intro acc
    cases acc <;> simp
  | cons out outs ih =>
    intro acc
    rw [foldl_cons]
    cases acc with
    | nil => simpa [pushed] using ih out
    | cons a acc =>
      cases out with
      | nil => simpa [pushed] using ih (a :: acc)
      | cons b out =>
        -- two plugins with lines: the table is shorter than the sum
        have hle := length_foldl_pushed_le outs (pushed (a :: acc) (b :: out))
        rw [length_pushed] at hle
        refine iff_of_false (fun heq => ?_) (by simp)
        rw [heq] at hle
        simp only [length_append, flatten_cons, length_cons] at hle
        omega

end Lost

theorem work_keeps_lines_iff (objs : List (CvProc × List DataLine)) (calls : List CCall) :
    (∃ objs' lines, Cloop.work objs calls = some (objs', lines) ∧
        lines.lines = objs.flatMap Prod.snd ++ calls.flatMap CCall.output) ↔
      (objs.filter fun obj => !obj.2.isEmpty).length ≤ 1 := by
  have hcount : (([] :: objs.map Prod.snd).filter fun out => !out.isEmpty).length =
      (objs.filter fun obj => !obj.2.isEmpty).length := by
    rw [filter_cons_of_neg (by simp), filter_map, length_map]
    rfl
  rw [← hcount, ← foldl_pushed_eq_iff, nil_append, ← flatMap_def]
  constructor
  · rintro ⟨objs', lines, hwork, hlines⟩
    rw [Cloop.work_eq] at hwork
    cases hwork
    exact append_cancel_right hlines
  · intro hall
    exact ⟨_, _, Cloop.work_eq objs calls, by rw [hall]⟩

theorem work_loses_lines :
    Cloop.work [(⟨none⟩, [⟨"self_statm", [], [], []⟩]), (⟨none⟩, [⟨"sock_stat", [], [], []⟩])] [] =
      some ([⟨none⟩, ⟨none⟩], ⟨[], [⟨"sock_stat", [], [], []⟩]⟩) := rfl

end Sysak.Collector
