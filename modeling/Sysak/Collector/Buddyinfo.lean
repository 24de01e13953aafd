/-
# The free blocks of a zone
-/

import Sysak.Collector.Procffi
import Sysak.Common.ProtoData
import Sysak.Common.Pystring

namespace Sysak.Collector

open Lib List Option

structure CkvProc where
  protoTable : NumLine ℤ
  deriving DecidableEq, Repr

namespace CkvProc

def init (tName : String) : CkvProc := ⟨⟨tName, [], []⟩⟩

def insert (self : CkvProc) (cell : String × ℤ) : CkvProc :=
  ⟨{ self.protoTable with vs := self.protoTable.vs ++ [cell] }⟩

def ofBytes (s : Bytes) : String := String.ofList (s.map fun c => Char.ofNat c.toNat)

def checkTitle (title : Bytes) : Bytes :=
  let res := title.filter (· != 58)
  let res := res.filter (· != 41)
  res.map fun c => if c = 40 then 95 else c

def readKV (self : CkvProc) (line : Bytes) : Option CkvProc :=
  let data := varInputKvs line
  if 1 ≤ data.value.length then
    some (self.insert (ofBytes (checkTitle data.s), data.value.getD 0 0))
  else none

def proc (self : CkvProc) (lines : List Bytes) : Option (CkvProc × NumLine ℤ) :=
  (lines.foldlM readKV ⟨{ self.protoTable with vs := [] }⟩).map fun self => (self, self.protoTable)

end CkvProc

def gmatchDigits (s : Bytes) : List Bytes :=
  (s.splitOnP fun c => !isDigit c).filter fun ds => !ds.isEmpty

def zoneNumbers (word : Bytes) (lines : List Bytes) : List ℤ :=
  match lines.find? fun line => (find (literal word) line).isSome with
  | none => []
  | some line =>
    (gmatchDigits ((Pystring.split line word (some 1)).getD 1 [])).map fun ds => (decimal ds : ℤ)

def buddyCells (buddyinfo : List ℤ) : List (String × ℤ) :=
  buddyinfo.mapIdx fun k v => ("buddyinfo" ++ toString k, v)

namespace CprocBuddyinfo

def init : CkvProc := CkvProc.init "buddyinfo"

def proc (self : CkvProc) (lines : List Bytes) : CkvProc × NumLine ℤ :=
  let buddyinfo : Option (List ℤ) := some (zoneNumbers (bytes "Normal") lines)
  let buddyinfo :=
    if buddyinfo.isNone then some (zoneNumbers (bytes "DMA32") lines) else buddyinfo
  let self := (buddyCells (buddyinfo.getD [])).foldl CkvProc.insert self
  (self, self.protoTable)

def run (history : List (List Bytes)) : CkvProc :=
  history.foldl (fun self lines => (proc self lines).1) init

end CprocBuddyinfo

def wantedZone (lines : List Bytes) : Bytes :=
  if lines.any fun line => (find (literal (bytes "Normal")) line).isSome then bytes "Normal"
  else bytes "DMA32"

theorem CkvProc.foldlM_readKV {lines : List Bytes} {self self' : CkvProc}
    (h : lines.foldlM CkvProc.readKV self = some self') :
    self'.protoTable.line = self.protoTable.line ∧ self'.protoTable.ls = self.protoTable.ls := by
  induction lines generalizing self with
  | nil =>
    cases h
    exact ⟨rfl, rfl⟩
  | cons line lines ih =>
    rw [foldlM_cons, bind_eq_bind, bind_eq_some_iff] at h
    obtain ⟨self₁, hline, hlines⟩ := h
    rw [CkvProc.readKV] at hline
    split_ifs at hline
    cases hline
    have hrest := ih hlines
    exact hrest

theorem foldl_insert (cells : List (String × ℤ)) (self : CkvProc) :
    cells.foldl CkvProc.insert self =
      ⟨{ self.protoTable with vs := self.protoTable.vs ++ cells }⟩ := by
  induction cells generalizing self with
  | nil => simp
  | cons cell cells ih =>
    rw [foldl_cons, ih]
    simp [CkvProc.insert]

namespace CprocBuddyinfo

theorem proc_eq (self : CkvProc) (lines : List Bytes) :
    proc self lines =
      (⟨{ self.protoTable with
          vs := self.protoTable.vs ++ buddyCells (zoneNumbers (bytes "Normal") lines) }⟩,
        { self.protoTable with
          vs := self.protoTable.vs ++ buddyCells (zoneNumbers (bytes "Normal") lines) }) := by
  simp only [proc, isNone_some, Bool.false_eq_true, if_false, getD_some, foldl_insert]

theorem vs_run (history : List (List Bytes)) :
    (run history).protoTable = ⟨"buddyinfo", [],
      history.flatMap fun lines => buddyCells (zoneNumbers (bytes "Normal") lines)⟩ := by
  induction history using reverseRecOn with
  | nil => rfl
  | append_singleton history lines ih =>
    rw [run, foldl_append, ← run, foldl_cons, foldl_nil, proc_eq, ih,
      flatMap_append, flatMap_singleton]

end CprocBuddyinfo

theorem buddyCells_eq_nil_iff (xs : List ℤ) : buddyCells xs = [] ↔ xs = [] := by
  rw [buddyCells, mapIdx_eq_nil_iff]

theorem buddyCells_inj {xs ys : List ℤ} : buddyCells xs = buddyCells ys ↔ xs = ys := by
  have hsnd : ∀ zs : List ℤ, (buddyCells zs).map Prod.snd = zs := by
    intro zs
    exact ext_getElem (by simp [buddyCells]) fun i _ _ => by simp [buddyCells]
  constructor
  · intro h
    rw [← hsnd xs, h, hsnd]
  · exact congrArg buddyCells

theorem zoneNumbers_eq_nil {word : Bytes} {lines : List Bytes}
    (h : ∀ line ∈ lines, (find (literal word) line).isSome = false) :
    zoneNumbers word lines = [] := by
  have hfind : lines.find? (fun line => (find (literal word) line).isSome) = none :=
    find?_eq_none.mpr fun line hline => by simp [h line hline]
  rw [zoneNumbers, hfind]

theorem zoneNumbers_normal_eq_iff (lines : List Bytes) :
    zoneNumbers (bytes "Normal") lines = zoneNumbers (wantedZone lines) lines ↔
      wantedZone lines = bytes "Normal" ∨ zoneNumbers (wantedZone lines) lines = [] := by
  by_cases hany : lines.any fun line => (find (literal (bytes "Normal")) line).isSome
  · have hzone : wantedZone lines = bytes "Normal" := if_pos hany
    rw [hzone]
    exact iff_of_true rfl (.inl rfl)
  · have hzone : wantedZone lines = bytes "DMA32" := if_neg hany
    have hnormal : zoneNumbers (bytes "Normal") lines = [] := by
      refine zoneNumbers_eq_nil fun line hline => ?_
      by_contra hsome
      exact hany (any_eq_true.mpr ⟨line, hline, Bool.not_eq_false _ ▸ hsome⟩)
    have hne : bytes "DMA32" ≠ bytes "Normal" := by decide
    rw [hnormal, hzone, eq_comm, or_iff_right hne]

theorem buddyinfo_line_iff (history : List (List Bytes)) (lines : List Bytes) :
    ((CprocBuddyinfo.proc (CprocBuddyinfo.run history) lines).2 =
        (CprocBuddyinfo.proc CprocBuddyinfo.init lines).2 ∧
      (CprocBuddyinfo.proc (CprocBuddyinfo.run history) lines).2 =
        ⟨"buddyinfo", [], buddyCells (zoneNumbers (wantedZone lines) lines)⟩) ↔
    (∀ before ∈ history, zoneNumbers (bytes "Normal") before = []) ∧
      (wantedZone lines = bytes "Normal" ∨ zoneNumbers (wantedZone lines) lines = []) := by
  have hnew : CprocBuddyinfo.init.protoTable = ⟨"buddyinfo", [], []⟩ := rfl
  have hbefore : (history.flatMap fun lines => buddyCells (zoneNumbers (bytes "Normal") lines)) = []
      ↔ ∀ before ∈ history, zoneNumbers (bytes "Normal") before = [] := by
    simp only [flatMap_eq_nil_iff, buddyCells_eq_nil_iff]
  rw [CprocBuddyinfo.proc_eq, CprocBuddyinfo.proc_eq, CprocBuddyinfo.vs_run, hnew,
    ← zoneNumbers_normal_eq_iff, ← hbefore]
  simp only [NumLine.mk.injEq, true_and, nil_append, append_left_eq_self]
  constructor
  · rintro ⟨hnil, heq⟩
    rw [hnil, nil_append, buddyCells_inj] at heq
    exact ⟨hnil, heq⟩
  · rintro ⟨hnil, heq⟩
    rw [hnil, nil_append, heq]
    exact ⟨rfl, rfl⟩

def oneZone (word : String) : List Bytes := [bytes "Node 0, zone " ++ bytes word ++ bytes " 5 7"]

theorem buddyinfo_line_repeats :
    (CprocBuddyinfo.proc CprocBuddyinfo.init (oneZone "Normal")).2.vs =
        [("buddyinfo0", 5), ("buddyinfo1", 7)] ∧
      (CprocBuddyinfo.proc (CprocBuddyinfo.run [oneZone "Normal"]) (oneZone "Normal")).2.vs =
        [("buddyinfo0", 5), ("buddyinfo1", 7), ("buddyinfo0", 5), ("buddyinfo1", 7)] ∧
      zoneNumbers (wantedZone (oneZone "DMA32")) (oneZone "DMA32") = [5, 7] ∧
      (CprocBuddyinfo.proc CprocBuddyinfo.init (oneZone "DMA32")).2.vs = [] := by
  have hnormal : zoneNumbers (bytes "Normal") (oneZone "Normal") = [5, 7] := by decide
  have hdma : zoneNumbers (bytes "Normal") (oneZone "DMA32") = [] := by decide
  have hnew : CprocBuddyinfo.init.protoTable = ⟨"buddyinfo", [], []⟩ := rfl
  refine ⟨?_, ?_, by decide, ?_⟩
  · rw [CprocBuddyinfo.proc_eq, hnew, hnormal]
    rfl
  · rw [CprocBuddyinfo.proc_eq, CprocBuddyinfo.vs_run, hnormal]
    simp only [flatMap_cons, flatMap_nil, hnormal]
    rfl
  · rw [CprocBuddyinfo.proc_eq, hnew, hdma]
    rfl

end Sysak.Collector
