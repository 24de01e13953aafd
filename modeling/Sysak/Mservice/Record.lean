/-
# The line of a sample
-/

import Sysak.Lib.Decimal

namespace Sysak.Mservice

open Lib List

def sectionSplit : UInt8 := 124

def stringSplit : UInt8 := 58

structure ModuleLine where
  optLine : Bytes
  record : Bytes
  enable : Bool
deriving DecidableEq

def ModuleLine.detail (mod : ModuleLine) : Bytes :=
  sectionSplit :: (mod.optLine ++ stringSplit :: mod.record)

def ModuleLine.saved (mod : ModuleLine) : Bool := mod.enable && !mod.record.isEmpty

def outputLoop : List ModuleLine → Bytes → Bool → Option (Bytes × Bool)
  | [], line, ret => some (line, ret)
  | mod :: mods, line, ret =>
    if mod.saved then
      if 1048576 - 1 ≤ mod.detail.length then none
      else if 10485760 - 2 ≤ line.length + mod.detail.length then none
      else outputLoop mods (line ++ mod.detail) true
    else
      outputLoop mods line ret

def outputFile (curTime : ℤ) (mods : List ModuleLine) : Option Bytes :=
  match outputLoop mods (decInt curTime) false with
  | some (line, true) => some (line ++ [10])
  | _ => none

def modOpt (mod : ModuleLine) : Bytes := sectionSplit :: (mod.optLine ++ [stringSplit])

def readRecord (line : Bytes) (mod : ModuleLine) : Bytes :=
  match find (literal (modOpt mod)) line with
  | none => []
  | some (_, s) => s.takeWhile (· != sectionSplit)

def readLineToModuleRecord (line : Bytes) (mods : List ModuleLine) : ℤ × List ModuleLine :=
  let line := line.dropLast
  (atol line,
    mods.map fun mod => if mod.enable then { mod with record := readRecord line mod } else mod)

variable {mods : List ModuleLine}

theorem outputLoop_eq : ∀ {line : Bytes} {ret : Bool} {r : Bytes × Bool},
    outputLoop mods line ret = some r →
      r.1 = line ++ (mods.filter ModuleLine.saved).flatMap ModuleLine.detail := by
  induction mods with
  | nil =>
    intro line ret r h
    obtain rfl := Option.some.inj h
    simp
  | cons mod mods ih =>
    intro line ret r h
    rw [outputLoop] at h
    split_ifs at h with hsaved h1 h2
    · rw [ih h, filter_cons_of_pos hsaved, flatMap_cons, append_assoc]
    · rw [ih h, filter_cons_of_neg hsaved]

theorem outputFile_eq {curTime : ℤ} {line : Bytes} (h : outputFile curTime mods = some line) :
    line = decInt curTime ++ (mods.filter ModuleLine.saved).flatMap ModuleLine.detail ++ [10] := by
  rw [outputFile] at h
  split at h
  · rename_i l hl
    have hline := outputLoop_eq hl
    rw [← Option.some.inj h, ← hline]
  · exact absurd h (by simp)

def ModuleLine.PlainOpt (mod : ModuleLine) : Prop :=
  sectionSplit ∉ mod.optLine ∧ stringSplit ∉ mod.optLine

instance (mod : ModuleLine) : Decidable mod.PlainOpt := inferInstanceAs (Decidable (_ ∧ _))

variable {mod mod' : ModuleLine}

theorem modOpt_prefix_iff (h : mod.PlainOpt) (h' : mod'.PlainOpt) (rest : Bytes) :
    modOpt mod <+: mod'.detail ++ rest ↔ mod.optLine = mod'.optLine := by
  rw [modOpt, ModuleLine.detail, cons_append, cons_prefix_cons, append_assoc,
    cons_append]
  constructor
  · rintro ⟨-, r, hr⟩
    rw [append_assoc, singleton_append] at hr
    exact (append_cons_inj h.2 h'.2 hr).1
  · intro heq
    refine ⟨rfl, mod'.record ++ rest, ?_⟩
    rw [heq, append_assoc, singleton_append]

theorem noMatch_tail (h' : mod'.PlainOpt) (hrec : sectionSplit ∉ mod'.record) (rest : Bytes) :
    NoMatch (literal (modOpt mod)) (mod'.optLine ++ stringSplit :: mod'.record) rest := by
  refine noMatch_of_head _ _ fun c hc => beq_eq_false_iff_ne.mpr ?_
  rintro rfl
  rcases mem_append.mp hc with hc | hc
  · exact h'.1 hc
  · rcases mem_cons.mp hc with hc | hc
    · exact absurd hc (by decide)
    · exact hrec hc

theorem noMatch_detail (h : mod.PlainOpt) (h' : mod'.PlainOpt) (hrec : sectionSplit ∉ mod'.record)
    (hne : mod.optLine ≠ mod'.optLine) (rest : Bytes) :
    NoMatch (literal (modOpt mod)) mod'.detail rest := by
  rintro (_ | ⟨c, x⟩) y heq hy
  · rw [← nil_append y, ← heq, Bool.eq_false_iff, ne_eq, matchHere_literal_iff,
      modOpt_prefix_iff h h']
    exact hne
  · rw [ModuleLine.detail, cons_append, List.cons.injEq] at heq
    exact noMatch_tail h' hrec rest x y heq.2 hy

theorem readRecord_append_left {mod : ModuleLine} {a s : Bytes}
    (h : NoMatch (literal (modOpt mod)) a s) : readRecord (a ++ s) mod = readRecord s mod := by
  rw [readRecord, find_append_left h, readRecord]
  cases find (literal (modOpt mod)) s <;> rfl

theorem takeWhile_record {r : Bytes} (hr : sectionSplit ∉ r) (mods : List ModuleLine) :
    (r ++ mods.flatMap ModuleLine.detail).takeWhile (· != sectionSplit) = r := by
  have hpos : ∀ b ∈ r, (b != sectionSplit) = true := by
    intro b hb
    rw [bne_iff_ne]
    rintro rfl
    exact hr hb
  rw [takeWhile_append_of_pos hpos]
  cases mods with
  | nil => simp
  | cons m mods => simp [ModuleLine.detail]

theorem readRecord_detail (heq : mod.optLine = mod'.optLine) (hrec : sectionSplit ∉ mod'.record)
    (mods : List ModuleLine) :
    readRecord (mod'.detail ++ mods.flatMap ModuleLine.detail) mod = mod'.record := by
  have hsplit : mod'.detail ++ mods.flatMap ModuleLine.detail =
      modOpt mod ++ (mod'.record ++ mods.flatMap ModuleLine.detail) := by
    simp [ModuleLine.detail, modOpt, heq]
  have hstart : NoMatch (literal (modOpt mod)) []
      (modOpt mod ++ (mod'.record ++ mods.flatMap ModuleLine.detail)) :=
    fun x y h hy => absurd (append_eq_nil_iff.mp h.symm).2 hy
  have hfind := find_append hstart (matchHere_literal _ _)
  have hdrop : (modOpt mod ++ (mod'.record ++ mods.flatMap ModuleLine.detail)).drop
      (literal (modOpt mod)).length = mod'.record ++ mods.flatMap ModuleLine.detail := by
    rw [literal, length_map, drop_left]
  rw [nil_append, hdrop] at hfind
  rw [readRecord, hsplit, hfind]
  exact takeWhile_record hrec mods

theorem readRecord_sections {mod : ModuleLine} (hmod : mod.PlainOpt) (hopt : ∀ m ∈ mods, m.PlainOpt)
    (hrec : ∀ m ∈ mods, sectionSplit ∉ m.record) :
    readRecord (mods.flatMap ModuleLine.detail) mod =
      ((mods.find? fun m => m.optLine == mod.optLine).map ModuleLine.record).getD [] := by
  induction mods with
  | nil => rfl
  | cons m mods ih =>
    obtain ⟨hoptm, hopt⟩ := forall_mem_cons.mp hopt
    obtain ⟨hrecm, hrec⟩ := forall_mem_cons.mp hrec
    rw [flatMap_cons]
    by_cases heq : mod.optLine = m.optLine
    · rw [readRecord_detail heq hrecm, find?_cons_of_pos (by simp [heq])]
      rfl
    · rw [readRecord_append_left (noMatch_detail hmod hoptm hrecm heq _), ih hopt hrec,
        find?_cons_of_neg (by simpa using Ne.symm heq)]

theorem sectionSplit_notMem_decInt (t : ℤ) : sectionSplit ∉ decInt t :=
  not_mem_decInt (by decide) (by decide) t

theorem noDigit_sections (mods : List ModuleLine) : NoDigit (mods.flatMap ModuleLine.detail) := by
  cases mods with
  | nil => simp [NoDigit]
  | cons m mods =>
    intro c hc
    obtain rfl : sectionSplit = c := by simpa [ModuleLine.detail] using hc
    rfl

theorem find?_saved (hdistinct : ((mods.filter ModuleLine.enable).map ModuleLine.optLine).Nodup)
    {m : ModuleLine} (hm : m ∈ mods) (hen : m.enable = true) :
    (((mods.filter ModuleLine.saved).find? fun m' => m'.optLine == m.optLine).map
      ModuleLine.record).getD [] = m.record := by
  have hsame : ∀ m' ∈ mods, m'.saved = true → m'.optLine = m.optLine → m' = m := by
    intro m' hm' hsaved hname
    have hen' : m'.enable = true := (Bool.and_eq_true_iff.mp hsaved).1
    exact inj_on_of_nodup_map hdistinct (mem_filter.mpr ⟨hm', hen'⟩)
      (mem_filter.mpr ⟨hm, hen⟩) hname
  cases hfind : (mods.filter ModuleLine.saved).find? fun m' => m'.optLine == m.optLine with
  | some m' =>
    obtain ⟨hm', hsaved⟩ := mem_filter.mp (mem_of_find?_eq_some hfind)
    have hname : m'.optLine = m.optLine := by simpa using find?_some hfind
    rw [hsame m' hm' hsaved hname]
    rfl
  | none =>
    -- the module itself would have been found
    have hnot : m.saved ≠ true := by
      intro hsaved
      have := find?_eq_none.mp hfind m (mem_filter.mpr ⟨hm, hsaved⟩)
      simp at this
    have hempty : m.record = [] := by
      simpa [ModuleLine.saved, hen] using hnot
    rw [hempty]
    rfl

def withRecords (before : ModuleLine → Bytes) (mods : List ModuleLine) : List ModuleLine :=
  mods.map fun mod => { mod with record := before mod }

theorem readLineToModuleRecord_outputFile {t : ℤ} {mods : List ModuleLine} {line : Bytes}
    (hopt : ∀ m ∈ mods, m.enable = true → m.PlainOpt)
    (hdistinct : ((mods.filter ModuleLine.enable).map ModuleLine.optLine).Nodup)
    (hrec : ∀ m ∈ mods, m.enable = true → sectionSplit ∉ m.record)
    (hline : outputFile t mods = some line) (before : ModuleLine → Bytes) :
    readLineToModuleRecord line (withRecords before mods) =
      (t, mods.map fun m => if m.enable then m else { m with record := before m }) := by
  have hsaved : ∀ m ∈ mods.filter ModuleLine.saved, m ∈ mods ∧ m.enable = true := fun m hm =>
    ⟨(mem_filter.mp hm).1, (Bool.and_eq_true_iff.mp (mem_filter.mp hm).2).1⟩
  rw [readLineToModuleRecord, outputFile_eq hline, dropLast_concat,
    atol_decInt t (noDigit_sections _), withRecords, map_map]
  congr 1
  refine map_congr_left fun m hm => ?_
  by_cases hen : m.enable = true
  · have htime : NoMatch (literal (modOpt m)) (decInt t)
        ((mods.filter ModuleLine.saved).flatMap ModuleLine.detail) := by
      refine noMatch_of_head _ _ fun c hc => beq_eq_false_iff_ne.mpr ?_
      rintro rfl
      exact sectionSplit_notMem_decInt t hc
    have hread : readRecord (decInt t ++ (mods.filter ModuleLine.saved).flatMap ModuleLine.detail)
        m = m.record := by
      rw [readRecord_append_left htime, readRecord_sections (hopt m hm hen)
        (fun m' hm' => hopt m' (hsaved m' hm').1 (hsaved m' hm').2)
        (fun m' hm' => hrec m' (hsaved m' hm').1 (hsaved m' hm').2), find?_saved hdistinct hm hen]
    have hsameOpt : readRecord (decInt t ++ (mods.filter ModuleLine.saved).flatMap
        ModuleLine.detail) { m with record := before m } = m.record := hread
    simp only [Function.comp_apply]
    rw [if_pos hen, if_pos hen, hsameOpt]
  · simp [hen]

theorem readLineToModuleRecord_three :
    let mods : List ModuleLine :=
      [⟨bytes "--cpu", bytes "1,2", true⟩, ⟨bytes "--cpux", bytes "3", true⟩,
        ⟨bytes "--mem", [], true⟩]
    ∃ line, outputFile 17 mods = some line ∧
      readLineToModuleRecord line (withRecords (fun _ => bytes "old") mods) = (17, mods) := by
  intro mods
  have hline : outputFile 17 mods = some (bytes "17|--cpu:1,2|--cpux:3\n") := by decide
  refine ⟨_, hline, ?_⟩
  rw [readLineToModuleRecord_outputFile (by decide) (by decide) (by decide) hline]
  rfl

theorem readLineToModuleRecord_colon :
    let mods : List ModuleLine :=
      [⟨bytes "--a:b", bytes "1", true⟩, ⟨bytes "--a", bytes "2", true⟩]
    (mods.map ModuleLine.optLine).Nodup ∧
      outputFile 0 mods = some (bytes "0|--a:b:1|--a:2\n") ∧
      readLineToModuleRecord (bytes "0|--a:b:1|--a:2\n") mods =
        (0, [⟨bytes "--a:b", bytes "1", true⟩, ⟨bytes "--a", bytes "b:1", true⟩]) := by
  decide

end Sysak.Mservice
