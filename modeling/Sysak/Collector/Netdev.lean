/-
# Network rates
-/

import Mathlib.Data.List.GetD
import Mathlib.Data.Vector.Defs
import Sysak.Collector.Procffi
import Sysak.Common.ProtoData
import Sysak.Lib.SampleDiff

namespace Sysak.Collector

open Lib Option
open List hiding Vector

variable {ν : Type*} [Sub ν] [Div ν] [IntCast ν]

structure CprocNetdev (ν : Type*) where
  lastData : List (Bytes × (Fin 16 → ν))
  lastIfNames : List (Bytes × Unit)
  lines : List (NumLine ν)

namespace CprocNetdev

def init : CprocNetdev ν := ⟨[], [], []⟩

def netdevIndex : Vector String 16 := #v[
  "if_ibytes", "if_ipackets", "if_ierrs", "if_idrop", "if_ififo", "if_iframe", "if_icompressed",
  "if_imulticast", "if_obytes", "if_opackets", "if_oerrs", "if_odrop", "if_ofifo", "if_ocolls",
  "if_ocarrier", "if_ocompressed"]

def newValue (data : VarKvs) (i : Fin 16) : ν := ((data.value.getD i 0 : ℤ) : ν)

def keep (self : CprocNetdev ν) (ifName : Bytes) (now : Fin 16 → ν) : CprocNetdev ν :=
  { self with
    lastData := luaAssign self.lastData ifName (some now)
    lastIfNames := luaAssign self.lastIfNames ifName (some ()) }

def getNewValue (self : CprocNetdev ν) (ifName : Bytes) (data : VarKvs) : CprocNetdev ν :=
  self.keep ifName (newValue data)

def rateLine (elapsed : ν) (ifName : Bytes) (now res : Fin 16 → ν) : NumLine ν where
  line := "networks"
  ls := [("network_name", ifName)]
  vs := ofFn fun i => (netdevIndex[i], (now i - res i) / elapsed)

def calcIf (self : CprocNetdev ν) (ifName : Bytes) (data : VarKvs) (res : Fin 16 → ν)
    (elapsed : ν) : CprocNetdev ν :=
  let self := { self with lines := self.lines ++ [rateLine elapsed ifName (newValue data) res] }
  self.keep ifName (newValue data)

def stripColons (s : Bytes) : Bytes := s.filter (· != 58)

def procLine (elapsed : ν) (self : CprocNetdev ν) (line : Bytes) : Option (CprocNetdev ν) :=
  let data := varInputKvs line
  if data.value.length = 16 then
    let ifName := stripColons data.s
    match self.lastData.lookup ifName with
    | some last => some (self.calcIf ifName data last elapsed)
    | none => some (self.getNewValue ifName data)
  else none

def checkLastIfNames (self : CprocNetdev ν) : CprocNetdev ν :=
  { self with
    lastData := self.lastData.filter fun q => (self.lastIfNames.lookup q.1).isSome
    lastIfNames := [] }

def proc (self : CprocNetdev ν) (elapsed : ν) (lines : List Bytes) :
    Option (CprocNetdev ν × List (NumLine ν)) :=
  ((lines.drop 2).foldlM (procLine elapsed) { self with lines := [] }).map fun self =>
    let self := self.checkLastIfNames
    ({ self with lines := [] }, self.lines)

end CprocNetdev

def readIf (line : Bytes) : Option (Bytes × (Fin 16 → ℤ)) :=
  let data := varInputKvs line
  if data.value.length = 16 then
    some (CprocNetdev.stripColons data.s, fun i => data.value.getD i 0)
  else none

structure NetdevFile where
  lines : List Bytes
  rows : List (Bytes × (Fin 16 → ℤ))
  reads : (lines.drop 2).map readIf = rows.map some
  nodup : (rows.map Prod.fst).Nodup

/-- A line of `/proc/net/dev` is read back as the name and the numbers it was printed from. -/
theorem readIf_spaced {name : Bytes} (hname : IsWord name) (hcolon : 58 ∉ name)
    (hlen : name.length ≤ 30) (gap : ℕ) {gaps : Fin 16 → ℕ} (hgaps : ∀ i, 0 < gaps i)
    {v : Fin 16 → ℕ} (hv : ∀ i, v i < 9223372036854775808) :
    readIf (spaced ((gap, name ++ [58]) :: ofFn fun i => (gaps i, dec (v i)))) =
      some (name, fun i => (v i : ℤ)) := by
  have hkey : IsWord (name ++ [58]) := by
    refine ⟨by simp, fun c hc => ?_⟩
    rcases mem_append.mp hc with hc | hc
    · exact hname.2 c hc
    · rw [mem_singleton.mp hc]
      decide
  have hstrip : CprocNetdev.stripColons (name ++ [58]) = name := by
    rw [CprocNetdev.stripColons, filter_append, filter_eq_self.mpr]
    · exact append_nil name
    · exact fun c hc => bne_iff_ne.mpr fun heq => hcolon (heq ▸ hc)
  have hns : ∀ p ∈ ofFn fun i => (gaps i, v i), 0 < p.1 ∧ p.2 < 9223372036854775808 := by
    intro p hp
    obtain ⟨i, rfl⟩ := mem_ofFn.mp hp
    exact ⟨hgaps i, hv i⟩
  have hdata := varInputKvs_spaced hns gap hkey
    (by rw [length_append, length_singleton]; omega) (by rw [length_ofFn]; decide)
  rw [map_ofFn, map_ofFn] at hdata
  have hlist : spaced ((gap, name ++ [58]) :: ofFn fun i => (gaps i, dec (v i))) =
      spaced ((gap, name ++ [58]) :: ofFn ((fun p => (p.1, dec p.2)) ∘
        fun i => (gaps i, v i))) := rfl
  rw [readIf, hlist, hdata]
  simp only [length_ofFn, if_true, hstrip]
  refine congrArg some (Prod.ext rfl (funext fun i => ?_))
  show (ofFn _).getD i 0 = _
  rw [getD_eq_getElem _ _ (by rw [length_ofFn]; exact i.isLt), List.getElem_ofFn]
  rfl

theorem readIf_spaced_lo :
    readIf (spaced ((4, bytes "lo:") :: ofFn fun _ : Fin 16 => (1, dec 7))) =
      some (bytes "lo", fun _ => 7) := by
  have hname : IsWord [108, 111] := ⟨cons_ne_nil _ _, by simp [isSpace]⟩
  exact readIf_spaced hname (by decide) (by decide) 4 (fun _ => Nat.one_pos) (v := fun _ => 7)
    fun _ => by decide

namespace CprocNetdev

def tables (self : CprocNetdev ν) : SampleDiff Bytes (Fin 16 → ν) :=
  ⟨self.lastData, self.lastIfNames⟩

def numbers (v : Fin 16 → ℤ) (i : Fin 16) : ν := (v i : ν)

theorem procLine_eq (elapsed : ν) (self : CprocNetdev ν) (line : Bytes)
    (r : Bytes × (Fin 16 → ℤ)) (h : readIf line = some r) :
    ∃ self', procLine elapsed self line = some self' ∧
      (self'.tables, self'.lines) =
        SampleDiff.row (rateLine elapsed) (self.tables, self.lines) (r.1, numbers r.2) := by
  rw [readIf] at h
  split_ifs at h with hlen
  cases h
  simp only [procLine, if_pos hlen]
  have hlast : self.tables.last = self.lastData := rfl
  cases hl : self.lastData.lookup (stripColons (varInputKvs line).s) with
  | none =>
    refine ⟨_, rfl, ?_⟩
    simp only [SampleDiff.row, hlast, hl, map_none, toList_none,
      append_nil]
    rfl
  | some last =>
    refine ⟨_, rfl, ?_⟩
    simp only [SampleDiff.row, hlast, hl, map_some, toList_some]
    rfl

theorem proc_eq (self : CprocNetdev ν) (elapsed : ν) (file : NetdevFile) :
    ∃ self' out, self.proc elapsed file.lines = some (self', out) ∧
      (self'.tables, out) = self.tables.sample (rateLine elapsed) (keptRows numbers file.rows) := by
  obtain ⟨self', hfold, heq⟩ := SampleDiff.foldlM_row (procLine_eq elapsed) file.reads
    { self with lines := [] }
  rw [proc, hfold]
  refine ⟨_, _, rfl, ?_⟩
  rw [SampleDiff.sample, show (self.tables, ([] : List (NumLine ν))) =
    (tables { self with lines := [] }, []) from rfl, ← heq]
  rfl

def run (history : List (ν × NetdevFile)) : Option (CprocNetdev ν) :=
  history.foldlM (fun self c => (self.proc c.1 c.2.lines).map Prod.fst) init

def before (history : List (ν × NetdevFile)) : List (Bytes × (Fin 16 → ℤ)) :=
  (history.getLast?.map fun c => c.2.rows).getD []

theorem follows_run (history : List (ν × NetdevFile)) :
    ∃ self, run history = some self ∧
      SampleDiff.Follows (keptRows numbers (before history)) self.tables := by
  have hproc (self) (c : ν × NetdevFile) := proc_eq self c.1 c.2
  exact SampleDiff.follows_foldlM _ tables rfl (fun c => c.2.nodup) hproc history

end CprocNetdev

structure NetdevRates (elapsed : ν) (prev now : List (Bytes × (Fin 16 → ℤ)))
    (out : List (NumLine ν)) : Prop where
  once : (out.map NumLine.ls).Nodup
  mem_iff : ∀ l, l ∈ out ↔ ∃ name v w, now.lookup name = some v ∧ prev.lookup name = some w ∧
    l = ⟨"networks", [("network_name", name)],
      ofFn fun i => (CprocNetdev.netdevIndex[i], ((v i : ν) - (w i : ν)) / elapsed)⟩

end Sysak.Collector
