/-
# The time table of tcpping
-/

import Mathlib.Order.Nat
import Mathlib.Data.List.Infix

namespace Sysak.Tcpping

open List

def ptMax : ℕ := 6

structure MapEntry where
  functionId : ℕ
  padding : ℕ
  ns : UInt64
deriving DecidableEq

structure TraceTime where
  time : ℕ → ℕ → UInt64
  size : ℕ
  timeId : ℕ
  outId : ℕ
  inId : ℕ

namespace TraceTime

def empty : TraceTime := ⟨fun _ _ => 0, 0, 0, 0, 0⟩

def write (t : TraceTime) (row col : ℕ) (v : UInt64) : Option TraceTime :=
  if row < t.size ∧ col < 10 then
    some { t with time := fun r c => if r = row ∧ c = col then v else t.time r c }
  else none

def recordStartTime (nr : ℕ) (t : TraceTime) (curr : UInt64) : Option TraceTime :=
  let t := if t.size = 0 then { t with time := fun _ _ => 0, size := nr } else t
  (t.write t.timeId 0 curr).map fun t => { t with timeId := t.timeId + 1 }

end TraceTime

structure Report where
  seq : ℕ
  row : List UInt64
deriving DecidableEq

def tracePath : List (String × ℕ × ℕ) :=
  [("t_trans", 1, 0), ("t_ip", 2, 1), ("r_remote", 3, 2), ("r_dev", 4, 3), ("r_ip", 5, 4),
    ("delta", 5, 0)]

def Report.deltas (r : Report) : List (String × UInt64) :=
  tracePath.map fun p => (p.1, (r.row.getD p.2.1 0 - r.row.getD p.2.2 0) / 1000)

def Report.image (r : Report) : List UInt32 := r.deltas.map fun d => d.2.toUInt32

structure State where
  table : TraceTime
  file : Bool
  packNr : ℕ
  root : List Report
  written : List (List Report)
  shown : List Report
  dataMin : List UInt32
  dataMax : List UInt32
  dataAvg : List UInt32
  messages : List String
  exiting : Bool

namespace State

def reports (s : State) : List Report := if s.file then s.root else s.shown

def report (s : State) (nr : ℕ) : Report := ⟨nr, (range ptMax).map (s.table.time nr)⟩

def jsonDump (s : State) (nr : ℕ) : Option State :=
  if nr < s.table.size then
    let root := s.root ++ [s.report nr]
    some { s with
      root := root
      written := if nr + 1 = s.packNr then s.written ++ [root] else s.written }
  else none

def imageShow (s : State) (nr : ℕ) : Option State :=
  if nr < s.table.size then
    let image := (s.report nr).image
    some { s with
      shown := s.shown ++ [s.report nr]
      dataMin := zipWith min s.dataMin image
      dataMax := zipWith max s.dataMax image
      dataAvg := zipWith (· + ·) s.dataAvg image }
  else none

def handleEntry (s : State) (direction : ℕ) (e : MapEntry) : Option (State × ℕ) :=
  if e.ns = 0 then some (s, direction)
  else if e.padding = 0 then
    (s.table.write s.table.outId e.functionId e.ns).map fun t => ({ s with table := t }, 0)
  else if e.padding = 1 then
    (s.table.write s.table.inId e.functionId e.ns).map fun t => ({ s with table := t }, 1)
  else
    some ({ s with messages := s.messages ++ ["no direction:" ++ toString e.padding] }, e.padding)

def exitOnLast (s : State) : State :=
  if s.table.inId = s.packNr then { s with exiting := true } else s

def finishEvent (s : State) (direction : ℕ) : Option State :=
  (if direction = 0 then some { s with table := { s.table with outId := s.table.outId + 1 } }
    else if direction = 1 then
      (if s.file then s.jsonDump s.table.inId else s.imageShow s.table.inId).map fun s =>
        { s with table := { s.table with inId := s.table.inId + 1 } }
    else
      some { s with messages := s.messages ++ ["no direaction,:" ++ toString direction] }).map
    exitOnLast

def handleEvent (junk : ℕ) (s : State) (trace : ℕ → MapEntry) : Option State :=
  ((range ptMax).foldlM (fun (p : State × ℕ) i => p.1.handleEntry p.2 (trace i))
    (s, junk)).bind fun p => p.1.finishEvent p.2

def handleAll (junk : ℕ) (s : State) (events : List (ℕ → MapEntry)) : Option State :=
  events.foldlM (handleEvent junk) s

def poll (junk : ℕ) (s : State) : List (List (ℕ → MapEntry)) → Option State
  | [] => some s
  | events :: polls =>
    (s.handleAll junk events).bind fun s' => if s'.exiting then some s' else s'.poll junk polls

def initial (file : Bool) (packNr : ℕ) (table : TraceTime) : State where
  table := table
  file := file
  packNr := packNr
  root := []
  written := []
  shown := []
  dataMin := replicate 6 0
  dataMax := replicate 6 0
  dataAvg := replicate 6 0
  messages := []
  exiting := false

end State

structure Reply where
  probe : ℕ
  netRecv : UInt64
  ipRcv : UInt64
  tcpRcv : UInt64
  netRecv_ne : netRecv ≠ 0
  ipRcv_ne : ipRcv ≠ 0
  tcpRcv_ne : tcpRcv ≠ 0

def Reply.times (r : Reply) : List UInt64 := [r.netRecv, r.ipRcv, r.tcpRcv]

inductive Ev where
  | out (probe : ℕ)
  | reply (r : Reply)

def outs (es : List Ev) : List ℕ := es.filterMap fun | .out p => some p | .reply _ => none

def replies (es : List Ev) : List Reply := es.filterMap fun | .out _ => none | .reply r => some r

@[simp]
theorem outs_out (p : ℕ) (es : List Ev) : outs (.out p :: es) = p :: outs es := rfl

@[simp]
theorem replies_reply (r : Reply) (es : List Ev) :
    replies (.reply r :: es) = r :: replies es := rfl

theorem outs_append (es es' : List Ev) : outs (es ++ es') = outs es ++ outs es' :=
  filterMap_append ..

structure Probes where
  packNr : ℕ
  pos : 0 < packNr
  start : ℕ → UInt64
  sendmsg : ℕ → UInt64
  xmit : ℕ → UInt64
  start_inj : ∀ p < packNr, ∀ q < packNr, start p = start q → p = q
  sendmsg_ne : ∀ p, sendmsg p ≠ 0
  xmit_ne : ∀ p, xmit p ≠ 0

def Probes.trace (P : Probes) : Ev → ℕ → MapEntry
  | .out p => fun i =>
    if i = 1 then ⟨1, 0, P.sendmsg p⟩ else if i = 2 then ⟨2, 0, P.xmit p⟩ else ⟨0, 0, 0⟩
  | .reply r => fun i =>
    if i = 3 then ⟨3, 1, r.netRecv⟩ else if i = 4 then ⟨4, 1, r.ipRcv⟩
    else if i = 5 then ⟨5, 1, r.tcpRcv⟩ else ⟨0, 0, 0⟩

def Probes.table (P : Probes) : Option TraceTime :=
  ((range P.packNr).map P.start).foldlM (TraceTime.recordStartTime P.packNr) .empty

namespace State

variable {P : Probes} {s : State} (junk : ℕ)

@[simp]
theorem exitOnLast_table (s : State) : s.exitOnLast.table = s.table := by
  rw [exitOnLast]
  split_ifs <;> rfl

@[simp]
theorem exitOnLast_packNr (s : State) : s.exitOnLast.packNr = s.packNr := by
  rw [exitOnLast]
  split_ifs <;> rfl

@[simp]
theorem exitOnLast_reports (s : State) : s.exitOnLast.reports = s.reports := by
  rw [exitOnLast]
  split_ifs <;> rfl

theorem exitOnLast_exiting (s : State) :
    s.exitOnLast.exiting = true ↔ s.exiting = true ∨ s.table.inId = s.packNr := by
  rw [exitOnLast]
  split_ifs with h <;> simp [h]

theorem handleAll_cons (s : State) (trace : ℕ → MapEntry) (events : List (ℕ → MapEntry)) :
    s.handleAll junk (trace :: events) =
      (s.handleEvent junk trace).bind fun s => s.handleAll junk events :=
  foldlM_cons

theorem handleAll_append (s : State) (events events' : List (ℕ → MapEntry)) :
    s.handleAll junk (events ++ events') =
      (s.handleAll junk events).bind fun s => s.handleAll junk events' :=
  foldlM_append

theorem handleEvent_out (p : ℕ) (h : s.table.outId < s.table.size) :
    s.handleEvent junk (P.trace (.out p)) =
      some (exitOnLast { s with
        table := { s.table with
          time := fun r c =>
            if r = s.table.outId ∧ c = 2 then P.xmit p
            else if r = s.table.outId ∧ c = 1 then P.sendmsg p else s.table.time r c
          outId := s.table.outId + 1 } }) := by
  simp [handleEvent, ptMax, range_succ, handleEntry, Probes.trace, TraceTime.write, h,
    P.sendmsg_ne, P.xmit_ne, finishEvent]

def received (s : State) (r : Reply) : State :=
  { s with
    table := { s.table with
      time := fun row c =>
        if row = s.table.inId ∧ c = 5 then r.tcpRcv
        else if row = s.table.inId ∧ c = 4 then r.ipRcv
        else if row = s.table.inId ∧ c = 3 then r.netRecv else s.table.time row c } }

theorem handleEvent_reply (r : Reply) (h : s.table.inId < s.table.size) :
    s.handleEvent junk (P.trace (.reply r)) = (s.received r).finishEvent 1 := by
  simp [handleEvent, ptMax, range_succ, handleEntry, Probes.trace, TraceTime.write, h,
    r.netRecv_ne, r.ipRcv_ne, r.tcpRcv_ne, received]

theorem handleEvent_reply_of_le (r : Reply) (h : s.table.size ≤ s.table.inId) :
    s.handleEvent junk (P.trace (.reply r)) = none := by
  simp [handleEvent, ptMax, range_succ, handleEntry, Probes.trace, TraceTime.write,
    Nat.not_lt.mpr h, r.netRecv_ne]

theorem exists_dump {nr : ℕ} (h : nr < s.table.size) :
    ∃ s', (if s.file then s.jsonDump nr else s.imageShow nr) = some s' ∧ s'.table = s.table ∧
      s'.packNr = s.packNr ∧ s'.exiting = s.exiting ∧
      s'.reports = s.reports ++ [s.report nr] := by
  by_cases hfile : s.file = true
  · rw [if_pos hfile, jsonDump, if_pos h]
    exact ⟨_, rfl, rfl, rfl, rfl, by simp [reports, hfile]⟩
  · rw [if_neg hfile, imageShow, if_pos h]
    exact ⟨_, rfl, rfl, rfl, rfl, by simp [reports, hfile]⟩

theorem finishEvent_one (h : s.table.inId < s.table.size) :
    ∃ s', s.finishEvent 1 = some s' ∧ s'.table = { s.table with inId := s.table.inId + 1 } ∧
      s'.packNr = s.packNr ∧ s'.reports = s.reports ++ [s.report s.table.inId] ∧
      (s'.exiting = true ↔ s.exiting = true ∨ s.table.inId + 1 = s.packNr) := by
  obtain ⟨s₁, hdump, htable, hpack, hexit, hreports⟩ := exists_dump h
  rw [finishEvent, if_neg Nat.one_ne_zero, if_pos rfl, hdump]
  refine ⟨_, rfl, ?_, ?_, ?_, ?_⟩
  · rw [exitOnLast_table]
    show { s₁.table with inId := s₁.table.inId + 1 } = _
    rw [htable]
  · rw [exitOnLast_packNr, hpack]
  · rw [exitOnLast_reports]
    exact hreports
  · rw [exitOnLast_exiting]
    show s₁.exiting = true ∨ s₁.table.inId + 1 = s₁.packNr ↔ _
    rw [hexit, hpack, htable]

end State

end Sysak.Tcpping
