/-
# Filling a line of a C plugin
-/

import Sysak.Lib.CString
import Sysak.Lib.Layout
import Sysak.Lib.LittleEndian
import Mathlib.Data.List.GetD
import Mathlib.Data.List.Induction

namespace Sysak.Collector

open Lib List

structure UnityIndex where
  name : CharArray 16
  index : CharArray 16

structure UnityValue where
  name : CharArray 16
  value : UInt64

structure UnityLog where
  name : CharArray 16
  log : UInt64

@[ext]
structure UnityLine where
  table : CharArray 32
  indexs : Fin 4 → UnityIndex
  values : Fin 32 → UnityValue
  logs : UnityLog

def UnityIndex.of (name index : CStr) : UnityIndex := ⟨strncpy name 16, strncpy index 16⟩

def UnityValue.of (name : CStr) (value : UInt64) : UnityValue := ⟨strncpy name 16, value⟩

def UnityLog.of (name : CStr) (log : UInt64) : UnityLog := ⟨strncpy name 16, log⟩

def UnityLine.zero : UnityLine :=
  ⟨strncpy .empty 32, fun _ => .of .empty .empty, fun _ => .of .empty 0, .of .empty 0⟩

def erange : ℤ := -34

def unitySetTable (line : UnityLine) (table : CStr) : UnityLine × ℤ :=
  ({ line with table := strncpy table 32 }, 0)

def putSlot {α : Type*} {n : ℕ} (slots : Fin n → α) (i : ℕ) (a : α) : Fin n → α :=
  fun j => if j.val = i then a else slots j

def unitySetIndex (line : UnityLine) (i : ℕ) (name index : CStr) : UnityLine × ℤ :=
  if 4 ≤ i then
    (line, erange)
  else
    ({ line with indexs := putSlot line.indexs i (.of name index) }, 0)

def unitySetValue (line : UnityLine) (i : ℕ) (name : CStr) (value : UInt64) : UnityLine × ℤ :=
  if 32 ≤ i then
    (line, erange)
  else
    ({ line with values := putSlot line.values i (.of name value) }, 0)

def unitySetLog (line : UnityLine) (name : CStr) (dup : UInt64) : UnityLine × ℤ :=
  ({ line with logs := .of name dup }, 0)

inductive Call where
  | table (s : CStr)
  | index (i : ℕ) (name idx : CStr)
  | value (i : ℕ) (name : CStr) (val : UInt64)
  | log (name : CStr) (dup : UInt64)

def Call.run (line : UnityLine) : Call → UnityLine
  | .table s => (unitySetTable line s).1
  | .index i name idx => (unitySetIndex line i name idx).1
  | .value i name val => (unitySetValue line i name val).1
  | .log name dup => (unitySetLog line name dup).1

inductive Slot where
  | table
  | index (i : ℕ)
  | value (i : ℕ)
  | log

def Call.slot : Call → Slot
  | .table _ => .table
  | .index i _ _ => .index i
  | .value i _ _ => .value i
  | .log _ _ => .log

section PutSlot

variable {α : Type*} {n : ℕ} (slots : Fin n → α)

theorem putSlot_of_le {i : ℕ} (h : n ≤ i) (a : α) : putSlot slots i a = slots := by
  funext j
  rw [putSlot, if_neg (by omega)]

theorem putSlot_comm {i i' : ℕ} (h : i ≠ i') (a a' : α) :
    putSlot (putSlot slots i a) i' a' = putSlot (putSlot slots i' a') i a := by
  funext j
  simp only [putSlot]
  split_ifs with hj' hj
  · exact absurd (hj.symm.trans hj') h
  · rfl
  · rfl
  · rfl

theorem putSlot_getD (as : List α) (a : α) :
    putSlot (fun j => as.getD j (slots j)) as.length a =
      fun j : Fin n => (as ++ [a]).getD j (slots j) := by
  funext j
  simp only [putSlot]
  split_ifs with hj
  · simp [hj]
  · rcases Nat.lt_or_gt_of_ne hj with hlt | hgt
    · rw [getD_append _ _ _ _ hlt]
    · rw [getD_eq_default _ _ (by omega), getD_eq_default _ _ (by simp; omega)]

end PutSlot

variable (line : UnityLine)

theorem Call.run_index (i : ℕ) (name idx : CStr) :
    Call.run line (.index i name idx) =
      { line with indexs := putSlot line.indexs i (.of name idx) } := by
  simp only [Call.run, unitySetIndex]
  split_ifs with hi
  · rw [putSlot_of_le line.indexs hi]
  · rfl

theorem Call.run_value (i : ℕ) (name : CStr) (val : UInt64) :
    Call.run line (.value i name val) =
      { line with values := putSlot line.values i (.of name val) } := by
  simp only [Call.run, unitySetValue]
  split_ifs with hi
  · rw [putSlot_of_le line.values hi]
  · rfl

theorem Call.run_comm {c c' : Call} (h : c.slot ≠ c'.slot) (line : UnityLine) :
    Call.run (Call.run line c) c' = Call.run (Call.run line c') c := by
  cases c with
  | table s =>
    cases c' with
    | table s' => exact absurd rfl h
    | index i name idx => rw [run_index, run_index]; rfl
    | value i name val => rw [run_value, run_value]; rfl
    | log name dup => rfl
  | index i name idx =>
    rw [run_index, run_index]
    cases c' with
    | table s => rfl
    | index i' name' idx' =>
      have hne : i ≠ i' := fun hi => h (congrArg Slot.index hi)
      rw [run_index, run_index, putSlot_comm line.indexs hne]
    | value i' name' val' => rw [run_value, run_value]
    | log name' dup' => rfl
  | value i name val =>
    rw [run_value, run_value]
    cases c' with
    | table s => rfl
    | index i' name' idx' => rw [run_index, run_index]
    | value i' name' val' =>
      have hne : i ≠ i' := fun hi => h (congrArg Slot.value hi)
      rw [run_value, run_value, putSlot_comm line.values hne]
    | log name' dup' => rfl
  | log name dup =>
    cases c' with
    | table s => rfl
    | index i' name' idx' => rw [run_index, run_index]; rfl
    | value i' name' val' => rw [run_value, run_value]; rfl
    | log name' dup' => exact absurd rfl h

structure Record where
  table : CStr
  labels : List (CStr × CStr)
  values : List (CStr × UInt64)
  logName : CStr
  log : CStr
  dup : UInt64

namespace Record

variable (r : Record)

def calls : List Call :=
  .table r.table :: .log r.logName r.dup ::
    (r.labels.mapIdx (fun i l => .index i l.1 l.2) ++ r.values.mapIdx fun i v => .value i v.1 v.2)

def labelAt (i : ℕ) : CStr × CStr := r.labels.getD i (.empty, .empty)

def valueAt (i : ℕ) : CStr × UInt64 := r.values.getD i (.empty, 0)

def filled : UnityLine :=
  ⟨strncpy r.table 32, fun i => .of (r.labelAt i).1 (r.labelAt i).2,
    fun i => .of (r.valueAt i).1 (r.valueAt i).2, .of r.logName r.dup⟩

theorem eq_of_slot_eq {c c' : Call} (hc : c ∈ r.calls) (hc' : c' ∈ r.calls)
    (h : c.slot = c'.slot) : c = c' := by
  simp only [calls, mem_cons, mem_append, mem_mapIdx] at hc hc'
  rcases hc with rfl | rfl | ⟨i, hi, rfl⟩ | ⟨i, hi, rfl⟩ <;>
    rcases hc' with rfl | rfl | ⟨i', hi', rfl⟩ | ⟨i', hi', rfl⟩ <;>
    simp_all [Call.slot]

theorem foldl_index (ls : List (CStr × CStr)) :
    (ls.mapIdx fun i l => Call.index i l.1 l.2).foldl Call.run line =
      { line with
        indexs := fun j => (ls.map fun l => UnityIndex.of l.1 l.2).getD j (line.indexs j) } := by
  induction ls using reverseRecOn with
  | nil => simp
  | append_singleton ls l ih =>
    rw [mapIdx_concat, foldl_append, ih, foldl_cons, foldl_nil,
      Call.run_index, map_append, map_singleton, ← putSlot_getD, length_map]

theorem foldl_value (vs : List (CStr × UInt64)) :
    (vs.mapIdx fun i v => Call.value i v.1 v.2).foldl Call.run line =
      { line with
        values := fun j => (vs.map fun v => UnityValue.of v.1 v.2).getD j (line.values j) } := by
  induction vs using reverseRecOn with
  | nil => simp
  | append_singleton vs v ih =>
    rw [mapIdx_concat, foldl_append, ih, foldl_cons, foldl_nil,
      Call.run_value, map_append, map_singleton, ← putSlot_getD, length_map]

theorem run_eq_filled {cs : List Call} (h : cs.Perm r.calls) :
    cs.foldl Call.run .zero = r.filled := by
  have hcomm : ∀ c ∈ cs, ∀ c' ∈ cs, ∀ line,
      Call.run (Call.run line c) c' = Call.run (Call.run line c') c := by
    intro c hc c' hc' line
    by_cases hslot : c.slot = c'.slot
    · rw [r.eq_of_slot_eq (h.mem_iff.mp hc) (h.mem_iff.mp hc') hslot]
    · exact Call.run_comm hslot line
  rw [h.foldl_eq' hcomm, calls, foldl_cons, foldl_cons, foldl_append, foldl_index,
    foldl_value]
  refine UnityLine.ext rfl (funext fun j => ?_) (funext fun j => ?_) rfl
  · exact getD_map r.labels (CStr.empty, CStr.empty) fun l => UnityIndex.of l.1 l.2
  · exact getD_map r.values (CStr.empty, 0) fun v => UnityValue.of v.1 v.2

end Record

def UnityIndex.bytes (s : UnityIndex) : List UInt8 := s.name.1 ++ s.index.1

def UnityValue.bytes (v : UnityValue) : List UInt8 := v.name.1 ++ leBytes 8 v.value.toNat

def UnityLog.bytes (l : UnityLog) : List UInt8 := l.name.1 ++ leBytes 8 l.log.toNat

theorem UnityIndex.length_bytes (s : UnityIndex) : s.bytes.length = 32 := by
  rw [bytes, length_append, s.name.2, s.index.2]

theorem UnityValue.length_bytes (v : UnityValue) : v.bytes.length = 24 := by
  rw [bytes, length_append, v.name.2, length_leBytes]

theorem UnityLog.length_bytes (l : UnityLog) : l.bytes.length = 24 := by
  rw [bytes, length_append, l.name.2, length_leBytes]

namespace UnityLine

variable (l : UnityLine)

def valueBytes (i : ℕ) : List UInt8 := slotBytes UnityValue.bytes l.values i ++ l.logs.bytes

def labelBytes (i : ℕ) : List UInt8 := slotBytes UnityIndex.bytes l.indexs i ++ l.valueBytes 0

def bytes : List UInt8 := l.table.1 ++ l.labelBytes 0

theorem labelBytes_of_lt {i : ℕ} (h : i < 4) :
    l.labelBytes i = (l.indexs ⟨i, h⟩).bytes ++ l.labelBytes (i + 1) := by
  rw [labelBytes, slotBytes_of_lt _ _ h, append_assoc]
  rfl

theorem valueBytes_of_lt {i : ℕ} (h : i < 32) :
    l.valueBytes i = (l.values ⟨i, h⟩).bytes ++ l.valueBytes (i + 1) := by
  rw [valueBytes, slotBytes_of_lt _ _ h, append_assoc]
  rfl

theorem labelBytes_four : l.labelBytes 4 = l.valueBytes 0 := by
  rw [labelBytes, slotBytes_length, nil_append]

theorem valueBytes_last : l.valueBytes 32 = l.logs.bytes := by
  rw [valueBytes, slotBytes_length, nil_append]

theorem drop_table (rest : List UInt8) : (l.bytes ++ rest).drop 32 = l.labelBytes 0 ++ rest := by
  rw [bytes, append_assoc, drop_left' l.table.2]

theorem drop_labels {i : ℕ} (h : i ≤ 4) (rest : List UInt8) :
    (l.bytes ++ rest).drop (32 + 32 * i) = l.labelBytes i ++ rest := by
  rw [← drop_drop, drop_table, labelBytes, append_assoc,
    drop_slotBytes _ _ UnityIndex.length_bytes h, labelBytes, append_assoc]

theorem drop_values {i : ℕ} (h : i ≤ 32) (rest : List UInt8) :
    (l.bytes ++ rest).drop (160 + 24 * i) = l.valueBytes i ++ rest := by
  have hlabels := l.drop_labels le_rfl rest
  rw [labelBytes_four] at hlabels
  rw [← drop_drop, hlabels, valueBytes, append_assoc,
    drop_slotBytes _ _ UnityValue.length_bytes h, valueBytes, append_assoc]

theorem length_bytes : l.bytes.length = 952 := by
  have hlog := l.drop_values le_rfl []
  have hlen := congrArg List.length hlog
  rw [valueBytes_last, append_nil, append_nil, UnityLog.length_bytes,
    length_drop] at hlen
  omega

example : zero.bytes = replicate 952 0 := by decide +kernel

end UnityLine

end Sysak.Collector
