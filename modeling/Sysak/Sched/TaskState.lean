/-
# Counting tasks by state
-/

import Sysak.Lib.CString
import Sysak.Lib.Decimal
import Sysak.Lib.Fgets

namespace Sysak.Sched

open Lib List

structure Dirent where
  name : Bytes
  isDir : Bool

structure Proc where
  entries : List Dirent
  task : ℤ → Option (List Dirent)
  status : ℤ → Option Bytes

inductive State where
  | running
  | uninterrupt
  deriving DecidableEq

def readStatus : Bytes → List Bytes → Bytes × Option State
  | name, [] => (name, none)
  | name, line :: lines =>
    if bytes "Name" <+: line then readStatus line lines
    else if bytes "State" <+: line then
      (name, if bytes "running" <:+: line then some .running
        else if bytes "disk sleep" <:+: line then some .uninterrupt else none)
    else readStatus name lines

structure Counts where
  running : ℕ
  uninterrupt : ℕ
  strings : List (ℕ × Bytes)

def joined (s t : Bytes) : ℕ × Bytes := (s.length + t.length, s ++ t)

def Counts.add (c : Counts) (name : Bytes) : State → Counts
  | .running =>
    { c with running := c.running + 1, strings := c.strings ++ [joined (bytes "Task_") name] }
  | .uninterrupt =>
    { c with
      uninterrupt := c.uninterrupt + 1
      strings := c.strings ++ [joined (bytes "Task_") name] }

def getTaskInfo (p : Proc) (c : Counts) (pid : ℤ) : Counts :=
  ((p.task pid).getD []).foldl (fun (nc : Bytes × Counts) d =>
    match if d.isDir then p.status (atol d.name) else none with
    | none => nc
    | some file =>
      let (name, state) := readStatus nc.1 (fgetsLines 300 file)
      (name, state.elim nc.2 (nc.2.add name))) ([], c) |>.2

def countText (n : ℕ) : Bytes := snprintf 4 (dec n ++ [10])

def scanProc (p : Proc) : Counts :=
  (p.entries.filter fun d => d.isDir && d.name.all isDigit).foldl
    (fun c d => getTaskInfo p c (atol d.name)) ⟨0, 0, []⟩

def scanTask (p : Proc) : List (ℕ × Bytes) × List (ℕ × Bytes) :=
  let c := scanProc p
  (c.strings, [joined (bytes "running_cnt: ") (countText c.running),
    joined (bytes "uninterrupt_cnt: ") (countText c.uninterrupt)])

def TaskstateExact (p : Proc) : Prop :=
  (∃ l l', (scanTask p).2.flatMap Prod.snd =
    bytes "running_cnt: " ++ dec (scanProc p).running ++ l ++
      bytes "uninterrupt_cnt: " ++ dec (scanProc p).uninterrupt ++ l' ∧ NoDigit l ∧ NoDigit l') ∧
    ∀ s ∈ (scanTask p).1 ++ (scanTask p).2, s.2.length + 1 ≤ s.1

theorem not_taskstateExact (p : Proc) : ¬TaskstateExact p := by
  rintro ⟨-, hfits⟩
  have h := hfits _ (mem_append_right _ mem_cons_self)
  rw [joined, length_append] at h
  omega

def oneRunning : Proc where
  entries := [⟨bytes "1", true⟩]
  task _ := some [⟨bytes "1", true⟩]
  status _ := some (bytes "Name:\tinit\nState:\tR (running)\n")

theorem oneRunning_not_exact :
    (scanProc oneRunning).running = 1 ∧ ¬TaskstateExact oneRunning := by
  refine ⟨by decide, fun h => ?_⟩
  exact absurd (h.2 (15, bytes "running_cnt: 1\n") (by decide)) (by decide)

end Sysak.Sched
