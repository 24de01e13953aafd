/-
# The mappings of a process
-/

import Sysak.Lib.Fgets
import Sysak.Lib.Reads
import Sysak.Lib.Sscanf
import Sysak.Lib.Strtoul

namespace Sysak.Pagescan

open Lib List Option

structure Procmap where
  vaStart : UInt64
  vaEnd : UInt64
  pgoff : UInt64
  maj : UInt32
  min : UInt32
  ino : UInt32
  prot : Bytes
  fname : Bytes
  counter : Fin 5 → UInt64
  vmflags : Bytes

structure MapState where
  procmap : List Procmap
  maxNum : ℕ
  counter : UInt64
  inside : Bool

local instance neZeroFive : NeZero 5 := ⟨Nat.succ_ne_zero 4⟩

def counterKeys : List (String × Fin 5) :=
  [("Size:", 0), ("Rss:", 1), ("AnonHugePages:", 2), ("ShmemPmdMapped:", 3), ("FilePmdMapped:", 4)]

def scanCounter (line : Bytes) : Option UInt64 :=
  (scanUnsigned ((line.dropWhile isSpace).dropWhile fun c => !isSpace c)).map Prod.fst

def MapState.setLast (s : MapState) (f : Procmap → Procmap) : MapState :=
  { s with procmap := s.procmap.modify (s.procmap.length - 1) f
           inside := s.inside && !s.procmap.isEmpty }

def strtokFields : List Bytes → ℕ → Bytes → Option (List (ℕ × Bytes))
  | [], _, _ => some []
  | d :: ds, pos, s =>
    let t := s.dropWhile fun c => decide (c ∈ d)
    let field := t.takeWhile fun c => decide (c ∉ d)
    let start := pos + (s.length - t.length)
    if t = [] then none
    else (strtokFields ds (start + field.length + 1) (t.drop (field.length + 1))).map
      ((start, field) :: ·)

def splitHeader (line : Bytes) : Option (List (ℕ × Bytes)) :=
  strtokFields ((range 8).map (bytes "-   :   ").drop) 0 line

def convert (field : ℕ × Bytes) : Option UInt64 :=
  if (strtoul 16 field.2).2 ≠ [] ∨ erange 16 field.2 then none else some (strtoul 16 field.2).1

def MapState.store (s : MapState) (blank : ℕ → Procmap) (fields : List (ℕ × Bytes)) :
    Option MapState :=
  match fields with
  | [f₀, f₁, f₂, f₃, f₄, f₅, f₆, f₇] => do
    let vaStart ← convert f₀
    let vaEnd ← convert f₁
    let pgoff ← convert f₃
    let maj ← convert f₄
    let min ← convert f₅
    let ino ← convert f₆
    let p := { blank s.procmap.length with
      vaStart, vaEnd, pgoff, maj := maj.toUInt32, min := min.toUInt32, ino := ino.toUInt32
      prot := f₂.2, fname := f₇.2 }
    return { s with
      procmap := s.procmap ++ [p]
      maxNum := if s.procmap.length + 1 = s.maxNum then 2 * s.maxNum else s.maxNum
      inside := s.inside && s.procmap.length < s.maxNum && f₂.1 + 5 ≤ 4096 && f₇.1 + 4096 ≤ 4096 }
  | _ => some s

def mapLine (errno : Bool) (blank : ℕ → Procmap) (s : MapState) (line : Bytes) : Option MapState :=
  match counterKeys.find? fun k => decide (bytes k.1 <:+: line) with
  | some (_, idx) =>
    let counter := (scanCounter line).getD s.counter
    some ({ s with counter }.setLast fun p =>
      { p with counter := Function.update p.counter idx counter })
  | none =>
    if bytes "VmFlags:" <:+: line then
      some (s.setLast fun p => { p with vmflags := (line.drop 9).take 64 })
    else match splitHeader line with
      | some fields => if errno then none else s.store blank fields
      | none => some s

def blank (junk : ℕ → Procmap) (n : ℕ) : Procmap :=
  if n < 128 then ⟨0, 0, 0, 0, 0, 0, [], [], fun _ => 0, []⟩ else junk n

def getMemoryMap (errno : Bool) (junk : ℕ → Procmap) (counter : UInt64) (smaps : Bytes) :
    Option MapState :=
  (fgetsLines 4096 smaps).foldlM (mapLine errno (blank junk)) ⟨[], 128, counter, true⟩

structure Mapping where
  vaStart : UInt64
  vaEnd : UInt64
  prot : Bytes
  pgoff : UInt64
  maj : ℕ
  min : ℕ
  ino : ℕ
  path : Bytes
  counters : String → Option UInt64
  vmflags : Option Bytes

def kernelKeys : List String :=
  ["Size", "KernelPageSize", "MMUPageSize", "Rss", "Pss", "Pss_Dirty", "Shared_Clean",
    "Shared_Dirty", "Private_Clean", "Private_Dirty", "Referenced", "Anonymous", "KSM", "LazyFree",
    "AnonHugePages", "ShmemPmdMapped", "FilePmdMapped", "Shared_Hugetlb", "Private_Hugetlb", "Swap",
    "SwapPss", "Locked"]

def hexText (width n : ℕ) : Bytes :=
  ((Nat.toDigits 16 n).map fun c => UInt8.ofNat c.toNat).leftpad width 48

def Mapping.text (m : Mapping) : Bytes :=
  let header := hexText 8 m.vaStart.toNat ++ [45] ++ hexText 8 m.vaEnd.toNat ++ [32] ++ m.prot ++
    [32] ++ hexText 8 m.pgoff.toNat ++ [32] ++ hexText 2 m.maj ++ [58] ++ hexText 2 m.min ++ [32] ++
    dec m.ino ++ [32]
  (if m.path = [] then header else header.rightpad 73 32 ++ m.path) ++ [10] ++
    kernelKeys.flatMap (fun k => (m.counters k).elim [] fun v =>
      (bytes k ++ [58]).rightpad 16 32 ++ (dec v.toNat).leftpad 8 32 ++ bytes " kB\n") ++
    m.vmflags.elim [] fun fl => bytes "VmFlags: " ++ fl ++ [10]

def Mapping.counter (m : Mapping) (idx : Fin 5) : UInt64 :=
  (m.counters (["Size", "Rss", "AnonHugePages", "ShmemPmdMapped", "FilePmdMapped"].get idx)).getD 0

def Recovers (errno : Bool) (junk : ℕ → Procmap) (counter : UInt64) (ms : List Mapping) : Prop :=
  ∃ s, getMemoryMap errno junk counter (ms.flatMap Mapping.text) = some s ∧ s.inside = true ∧
    s.procmap.map (fun p => (p.vaStart, p.vaEnd, p.counter)) =
      ms.map fun m => (m.vaStart, m.vaEnd, m.counter)

theorem le_of_strtokFields {ds : List Bytes} {pos : ℕ} {s : Bytes} {fs : List (ℕ × Bytes)}
    (h : strtokFields ds pos s = some fs) {i : ℕ} {f : ℕ × Bytes} (hf : fs[i]? = some f) :
    pos + i ≤ f.1 := by
  induction ds generalizing pos s fs i with
  | nil =>
    cases h
    cases hf
  | cons d ds ih =>
    simp only [strtokFields] at h
    split_ifs at h
    obtain ⟨fs, hrest, rfl⟩ := map_eq_some_iff.mp h
    cases i with
    | zero =>
      cases hf
      exact Nat.le_add_right _ _
    | succ i =>
      have := ih hrest hf
      omega

theorem not_inside_of_store {s s' : MapState} {blank : ℕ → Procmap} {line : Bytes}
    {fields : List (ℕ × Bytes)} (hsplit : splitHeader line = some fields)
    (hstore : s.store blank fields = some s') : s' = s ∨ s'.inside = false := by
  unfold MapState.store at hstore
  split at hstore
  · rename_i f₀ f₁ f₂ f₃ f₄ f₅ f₆ f₇
    have hpos : 0 + 7 ≤ f₇.1 := le_of_strtokFields hsplit rfl
    simp only [bind_eq_bind, bind_eq_some_iff] at hstore
    obtain ⟨_, -, _, -, _, -, _, -, _, -, _, -, hs'⟩ := hstore
    cases hs'
    exact .inr (by simp; omega)
  · cases hstore
    exact .inl rfl

theorem mapLine_inside {errno : Bool} {blank : ℕ → Procmap} {s s' : MapState} {line : Bytes}
    (hs : s.inside = true → s.procmap = []) (hline : mapLine errno blank s line = some s') :
    s'.inside = true → s'.procmap = [] := by
  have hlast (s : MapState) (f : Procmap → Procmap) (hs : s.inside = true → s.procmap = []) :
      (s.setLast f).inside = true → (s.setLast f).procmap = [] := by
    simp only [MapState.setLast, Bool.and_eq_true]
    exact fun h => by simp [hs h.1]
  unfold mapLine at hline
  split at hline
  · cases hline
    exact hlast _ _ hs
  · split at hline
    · cases hline
      exact hlast _ _ hs
    · split at hline
      · rename_i fields hsplit
        split_ifs at hline
        rcases not_inside_of_store hsplit hline with rfl | hout
        · exact hs
        · simp [hout]
      · cases hline
        exact hs

theorem procmap_eq_nil {errno : Bool} {junk : ℕ → Procmap} {counter : UInt64} {smaps : Bytes}
    {s : MapState} (hrun : getMemoryMap errno junk counter smaps = some s) (hin : s.inside = true) :
    s.procmap = [] :=
  foldlM_keeps (P := fun s => s.inside = true → s.procmap = [])
    (fun _ _ _ hline hs => mapLine_inside hs hline) hrun (fun _ => rfl) hin

theorem recovers_iff (errno : Bool) (junk : ℕ → Procmap) (counter : UInt64) (ms : List Mapping) :
    Recovers errno junk counter ms ↔ ms = [] := by
  constructor
  · rintro ⟨s, hrun, hin, hms⟩
    rw [procmap_eq_nil hrun hin] at hms
    exact map_eq_nil_iff.mp hms.symm
  · rintro rfl
    exact ⟨_, rfl, rfl, rfl⟩

theorem not_recovers_one : ¬Recovers false
    (fun _ => ⟨0, 0, 0, 0, 0, 0, [], [], fun _ => 0, []⟩) 0
    [⟨0x400000, 0x401000, bytes "r-xp", 0, 8, 1, 42, bytes "/bin/true", fun _ => some 4,
      none⟩] := by
  rintro ⟨s, hrun, hin, hms⟩
  rw [procmap_eq_nil hrun hin] at hms
  cases hms

end Sysak.Pagescan
