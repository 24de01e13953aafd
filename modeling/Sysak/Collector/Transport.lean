/-
# From a C line to a Lua line
-/

import Sysak.Collector.Plugin
import Sysak.Collector.UnityLine

namespace Sysak.Collector

open Lib List

def CprotoQueue.procLines (u : UnityLines) (lines : ProtoTable) : ProtoTable :=
  { lines with lines := luaPutFrom lines.lines lines.lines.length u.luaLines }

theorem bytes_luaString (bs : List UInt8) : Lib.bytes (luaString bs) = bs := by
  have hbyte : ∀ b : UInt8, UInt8.ofNat (Char.ofNat b.toNat).toNat = b := by
    intro b
    have hlt := b.toNat_lt
    have hchar : (Char.ofNat b.toNat).toNat = b.toNat := by
      rw [Char.ofNat, dif_pos (Or.inl (by omega))]
      rfl
    rw [hchar, UInt8.ofNat_toNat]
  simp [Lib.bytes, luaString, hbyte, Function.comp_def]

theorem luaString_inj {bs bs' : List UInt8} : luaString bs = luaString bs' ↔ bs = bs' := by
  constructor
  · intro h
    rw [← bytes_luaString bs, h, bytes_luaString]
  · exact congrArg luaString

theorem length_luaString_pos {bs : List UInt8} : 0 < (luaString bs).length ↔ bs ≠ [] := by
  simp [luaString, length_pos_iff]

def named {α : Type*} (slot : String × α) : Bool := 0 < slot.1.length

theorem named_cut {α : Type*} (s : CStr) (a : α) :
    named (luaString (s.cut 16), a) = true ↔ s.bytes ≠ [] := by
  rw [named, decide_eq_true_iff, length_luaString_pos, ne_eq, CStr.cut_eq_nil_iff (by decide)]

theorem luaString_empty (rest : List UInt8) :
    luaString (stringAt ((strncpy .empty 16).1 ++ rest)) = "" := by
  rw [(stringAt_strncpy_eq_nil_iff .empty (by decide) rest).mpr rfl]
  rfl

theorem loadSlots_eq {α : Type*} (name : ℕ → String) (val : ℕ → α) (n : ℕ) :
    ∀ (i : ℕ) (t : List (String × α)), loadSlots name val n i t.length t =
      t ++ ((range' i n).map fun j => (name j, val j)).takeWhile named := by
  induction n with
  | zero =>
    intro i t
    simp [loadSlots]
  | succ n ih =>
    intro i t
    have hput := luaPut_append t [] (name i, val i)
    have hnext := ih (i + 1) (t ++ [(name i, val i)])
    rw [append_nil, drop_nil, append_nil] at hput
    rw [length_append, length_singleton] at hnext
    rw [loadSlots, hput, hnext, range'_succ, map_cons, takeWhile_cons]
    by_cases hname : 0 < (name i).length <;> simp [named, hname]

theorem takeWhile_slots_eq_iff {β : Type*} {p : β → Bool} {f : ℕ → β} {want : List β} :
    ∀ {i n : ℕ}, (want.length < n → p (f (i + want.length)) = false) →
      (((range' i n).map f).takeWhile p = want ↔
        want.length ≤ n ∧ (range' i want.length).map f = want ∧ ∀ w ∈ want, p w = true) := by
  induction want with
  | nil =>
    intro i n hlast
    cases n with
    | zero => simp
    | succ n =>
      have hstop : p (f i) = false := hlast (Nat.succ_pos n)
      simp [range'_succ, hstop]
  | cons w want ih =>
    intro i n hlast
    cases n with
    | zero => simp
    | succ n =>
      have hnext : want.length < n → p (f (i + 1 + want.length)) = false := by
        intro hlt
        rw [Nat.add_assoc, Nat.add_comm 1]
        exact hlast (Nat.succ_lt_succ hlt)
      rw [range'_succ, map_cons, takeWhile_cons, length_cons,
        range'_succ, map_cons, List.cons.injEq, forall_mem_cons]
      by_cases hp : p (f i) = true
      · rw [if_pos hp, List.cons.injEq, ih hnext]
        constructor
        · rintro ⟨rfl, hlen, hmap, hall⟩
          exact ⟨Nat.succ_le_succ hlen, ⟨rfl, hmap⟩, hp, hall⟩
        · rintro ⟨hlen, ⟨rfl, hmap⟩, -, hall⟩
          exact ⟨rfl, Nat.le_of_succ_le_succ hlen, hmap, hall⟩
      · rw [if_neg hp]
        constructor
        · intro h
          exact absurd h (cons_ne_nil w want).symm
        · rintro ⟨-, ⟨rfl, -⟩, hw, -⟩
          exact absurd hw hp

theorem loadSlots_eq_map_iff {α γ : Type*} {name : ℕ → String} {val : ℕ → α} {n : ℕ}
    {cs : List γ} {g : γ → String × α} (hlast : cs.length < n → name cs.length = "") :
    loadSlots name val n 0 0 [] = cs.map g ↔
      cs.length ≤ n ∧ (∀ (i : ℕ) (hi : i < cs.length), (name i, val i) = g cs[i]) ∧
        ∀ c ∈ cs, named (g c) = true := by
  have hstop : (cs.map g).length < n →
      named (name (0 + (cs.map g).length), val (0 + (cs.map g).length)) = false := by
    intro hlt
    rw [length_map] at hlt ⊢
    rw [Nat.zero_add, hlast hlt]
    rfl
  rw [show loadSlots name val n 0 0 [] = _ from loadSlots_eq name val n 0 [], nil_append,
    takeWhile_slots_eq_iff hstop, length_map, forall_mem_map, ext_getElem_iff]
  simp

variable {i : ℕ}

namespace Record

variable (r : Record)

def luaLabel (l : CStr × CStr) : String × String :=
  (luaString (l.1.cut 16), luaString (l.2.cut 16))

def luaValue (v : CStr × UInt64) : String × UInt64 := (luaString (v.1.cut 16), v.2)

def luaLine : DataLine :=
  ⟨luaString (r.table.cut 32), r.labels.map luaLabel, r.values.map luaValue,
    [(luaString (r.logName.cut 16), luaString r.log.bytes)]⟩

structure Fits : Prop where
  labels_le : r.labels.length ≤ 4
  values_le : r.values.length ≤ 32
  label_named : ∀ l ∈ r.labels, l.1.bytes ≠ []
  value_named : ∀ v ∈ r.values, v.1.bytes ≠ []
  log_named : r.logName.bytes ≠ []
  table_ends : r.table.bytes.length < 32 ∨ r.labels = []
  name_ends : ∀ l ∈ r.labels, l.1.bytes.length < 16 ∨ l.2.bytes = []
  index_ends : ∀ (i : ℕ) (hi : i < r.labels.length), r.labels[i].2.bytes.length < 16 ∨
    i + 1 = r.labels.length ∧ (i < 3 ∨ r.values = [])
  value_ends : ∀ v ∈ r.values, v.1.bytes.length < 16 ∨ v.2.toNat % 256 = 0
  log_ends : r.logName.bytes.length < 16 ∨ r.dup.toNat % 256 = 0

def nameFrom (i : ℕ) : CStr := if i < 4 then (r.labelAt i).1 else (r.valueAt 0).1

theorem labelBytes_filled (h : i < 4) (rest : List UInt8) :
    r.filled.labelBytes i ++ rest = (strncpy (r.labelAt i).1 16).1 ++
      ((strncpy (r.labelAt i).2 16).1 ++ (r.filled.labelBytes (i + 1) ++ rest)) := by
  rw [UnityLine.labelBytes_of_lt _ h, UnityIndex.bytes, append_assoc, append_assoc]
  rfl

theorem valueBytes_filled (h : i < 32) (rest : List UInt8) :
    r.filled.valueBytes i ++ rest = (strncpy (r.valueAt i).1 16).1 ++
      (leBytes 8 (r.valueAt i).2.toNat ++ (r.filled.valueBytes (i + 1) ++ rest)) := by
  rw [UnityLine.valueBytes_of_lt _ h, UnityValue.bytes, append_assoc, append_assoc]
  rfl

theorem logBytes_filled (rest : List UInt8) :
    r.filled.valueBytes 32 ++ rest =
      (strncpy r.logName 16).1 ++ (leBytes 8 r.dup.toNat ++ rest) := by
  rw [UnityLine.valueBytes_last, UnityLog.bytes, append_assoc]
  rfl

theorem stringAt_labelBytes (h : i ≤ 4) (rest : List UInt8) :
    stringAt (r.filled.labelBytes i ++ rest) = [] ↔ (r.nameFrom i).bytes = [] := by
  rcases Nat.lt_or_eq_of_le h with hlt | rfl
  · rw [labelBytes_filled r hlt, nameFrom, if_pos hlt, stringAt_strncpy_eq_nil_iff _ (by decide)]
  · rw [UnityLine.labelBytes_four, valueBytes_filled r (by decide), nameFrom, if_neg (by decide),
      stringAt_strncpy_eq_nil_iff _ (by decide)]

theorem stringAt_leBytes (x : ℕ) (rest : List UInt8) :
    stringAt (leBytes 8 x ++ rest) = [] ↔ x % 256 = 0 := by
  rw [leBytes, cons_append, stringAt_cons_eq_nil_iff, ← UInt8.toNat_inj, UInt8.toNat_ofNat']
  rfl

section Read

variable {r} {mem rest : List UInt8} {o : ℕ} (hmem : mem.drop o = r.filled.bytes ++ rest)
include hmem

theorem ffiString_eq (x : ℕ) :
    ffiString mem (o + x) = luaString (stringAt ((r.filled.bytes ++ rest).drop x)) := by
  rw [← hmem, drop_drop]
  rfl

theorem word_eq (x : ℕ) :
    word mem (o + x) = UInt64.ofNat (leNat (((r.filled.bytes ++ rest).drop x).take 8)) := by
  rw [← hmem, drop_drop]
  rfl

theorem table_iff :
    ffiString mem o = luaString (r.table.cut 32) ↔
      r.table.bytes.length < 32 ∨ (r.nameFrom 0).bytes = [] := by
  have hread := ffiString_eq hmem 0
  rw [drop_zero, UnityLine.bytes, append_assoc] at hread
  rw [show ffiString mem o = _ from hread, luaString_inj, ← stringAt_labelBytes r (by decide) rest]
  exact stringAt_strncpy_eq_iff _ _ _

theorem ffiString_labelName (hi : i < 4) :
    ffiString mem (o + 32 + 32 * i) =
      luaString (stringAt ((strncpy (r.labelAt i).1 16).1 ++
        ((strncpy (r.labelAt i).2 16).1 ++ (r.filled.labelBytes (i + 1) ++ rest)))) := by
  rw [Nat.add_assoc, ffiString_eq hmem, UnityLine.drop_labels _ hi.le, labelBytes_filled r hi]

theorem label_iff (hi : i < 4) :
    (ffiString mem (o + 32 + 32 * i), ffiString mem (o + 48 + 32 * i)) = luaLabel (r.labelAt i) ↔
      ((r.labelAt i).1.bytes.length < 16 ∨ (r.labelAt i).2.bytes = []) ∧
        ((r.labelAt i).2.bytes.length < 16 ∨ (r.nameFrom (i + 1)).bytes = []) := by
  have hindex : ffiString mem (o + 48 + 32 * i) =
      luaString (stringAt ((strncpy (r.labelAt i).2 16).1 ++
        (r.filled.labelBytes (i + 1) ++ rest))) := by
    rw [show o + 48 + 32 * i = o + (32 + 32 * i + 16) by omega, ffiString_eq hmem,
      ← drop_drop, UnityLine.drop_labels _ hi.le, labelBytes_filled r hi,
      drop_left' (strncpy _ 16).2]
  rw [ffiString_labelName hmem hi, hindex, luaLabel, Prod.mk.injEq, luaString_inj, luaString_inj,
    stringAt_strncpy_eq_iff, stringAt_strncpy_eq_iff, stringAt_strncpy_eq_nil_iff _ (by decide),
    stringAt_labelBytes r hi]

theorem ffiString_valueName (hi : i < 32) :
    ffiString mem (o + 160 + 24 * i) =
      luaString (stringAt ((strncpy (r.valueAt i).1 16).1 ++
        (leBytes 8 (r.valueAt i).2.toNat ++ (r.filled.valueBytes (i + 1) ++ rest)))) := by
  rw [Nat.add_assoc, ffiString_eq hmem, UnityLine.drop_values _ hi.le, valueBytes_filled r hi]

theorem value_iff (hi : i < 32) :
    (ffiString mem (o + 160 + 24 * i), word mem (o + 176 + 24 * i)) = luaValue (r.valueAt i) ↔
      (r.valueAt i).1.bytes.length < 16 ∨ (r.valueAt i).2.toNat % 256 = 0 := by
  have hword : word mem (o + 176 + 24 * i) = (r.valueAt i).2 := by
    rw [show o + 176 + 24 * i = o + (160 + 24 * i + 16) by omega, word_eq hmem, ← drop_drop,
      UnityLine.drop_values _ hi.le, valueBytes_filled r hi, drop_left' (strncpy _ 16).2,
      take_left' (length_leBytes 8 _), leNat_leBytes_of_lt (UInt64.toNat_lt _),
      UInt64.ofNat_toNat]
  rw [hword, ffiString_valueName hmem hi, luaValue, Prod.mk.injEq, luaString_inj,
    stringAt_strncpy_eq_iff, stringAt_leBytes, and_iff_left rfl]

theorem labels_iff :
    loadSlots (fun i => ffiString mem (o + 32 + 32 * i)) (fun i => ffiString mem (o + 48 + 32 * i))
        4 0 0 [] = r.labels.map luaLabel ↔
      r.labels.length ≤ 4 ∧
        (∀ (i : ℕ) (hi : i < r.labels.length),
          (r.labels[i].1.bytes.length < 16 ∨ r.labels[i].2.bytes = []) ∧
            (r.labels[i].2.bytes.length < 16 ∨ (r.nameFrom (i + 1)).bytes = [])) ∧
        ∀ l ∈ r.labels, l.1.bytes ≠ [] := by
  have hlast : r.labels.length < 4 → ffiString mem (o + 32 + 32 * r.labels.length) = "" := by
    intro hlt
    have hempty : r.labelAt r.labels.length = (.empty, .empty) := getD_eq_default _ _ le_rfl
    rw [ffiString_labelName hmem hlt, hempty, luaString_empty]
  have hat {i : ℕ} (hi : i < r.labels.length) : r.labelAt i = r.labels[i] :=
    getD_eq_getElem _ _ hi
  rw [loadSlots_eq_map_iff hlast]
  simp only [luaLabel, named_cut]
  refine and_congr_right fun hle => and_congr_left' (forall₂_congr fun i hi => ?_)
  rw [← hat hi]
  exact label_iff hmem (hi.trans_le hle)

theorem values_iff :
    loadSlots (fun i => ffiString mem (o + 160 + 24 * i)) (fun i => word mem (o + 176 + 24 * i))
        32 0 0 [] = r.values.map luaValue ↔
      r.values.length ≤ 32 ∧
        (∀ v ∈ r.values, v.1.bytes.length < 16 ∨ v.2.toNat % 256 = 0) ∧
        ∀ v ∈ r.values, v.1.bytes ≠ [] := by
  have hlast : r.values.length < 32 → ffiString mem (o + 160 + 24 * r.values.length) = "" := by
    intro hlt
    have hempty : r.valueAt r.values.length = (.empty, 0) := getD_eq_default _ _ le_rfl
    rw [ffiString_valueName hmem hlt, hempty, luaString_empty]
  have hat {i : ℕ} (hi : i < r.values.length) : r.valueAt i = r.values[i] :=
    getD_eq_getElem _ _ hi
  rw [loadSlots_eq_map_iff hlast]
  simp only [luaValue, named_cut]
  refine and_congr_right fun hle => and_congr_left' ?_
  rw [forall_mem_iff_getElem]
  refine forall₂_congr fun i hi => ?_
  rw [← hat hi]
  exact value_iff hmem (hi.trans_le hle)

theorem logName_iff :
    ffiString mem (o + 928) = luaString (r.logName.cut 16) ↔
      r.logName.bytes.length < 16 ∨ r.dup.toNat % 256 = 0 := by
  rw [ffiString_eq hmem, show 928 = 160 + 24 * 32 from rfl, UnityLine.drop_values _ le_rfl,
    logBytes_filled, luaString_inj, stringAt_strncpy_eq_iff, stringAt_leBytes]

theorem logName_named : 0 < (ffiString mem (o + 928)).length ↔ r.logName.bytes ≠ [] := by
  rw [ffiString_eq hmem, show 928 = 160 + 24 * 32 from rfl, UnityLine.drop_values _ le_rfl,
    logBytes_filled, length_luaString_pos, ne_eq, stringAt_strncpy_eq_nil_iff _ (by decide)]

theorem word_log : word mem (o + 944) = r.dup := by
  rw [word_eq hmem, show 944 = 160 + 24 * 32 + 16 from rfl, ← drop_drop,
    UnityLine.drop_values _ le_rfl, logBytes_filled, drop_left' (strncpy _ 16).2,
    take_left' (length_leBytes 8 _), leNat_leBytes_of_lt (UInt64.toNat_lt _),
    UInt64.ofNat_toNat]

end Read

theorem getD_name_iff {β : Type*} {cs : List (CStr × β)} (hnamed : ∀ c ∈ cs, c.1.bytes ≠ []) (b : β)
    (i : ℕ) : (cs.getD i (CStr.empty, b)).1.bytes = [] ↔ cs.length ≤ i := by
  rcases Nat.lt_or_ge i cs.length with hi | hi
  · rw [getD_eq_getElem _ _ hi]
    exact iff_of_false (hnamed _ (getElem_mem hi)) (Nat.not_le.mpr hi)
  · rw [getD_eq_default _ _ hi]
    exact iff_of_true rfl hi

theorem nameFrom_zero_iff {r : Record} (hlabels : ∀ l ∈ r.labels, l.1.bytes ≠ []) :
    (r.nameFrom 0).bytes = [] ↔ r.labels = [] := by
  rw [nameFrom, if_pos (by decide), labelAt, getD_name_iff hlabels, Nat.le_zero,
    length_eq_zero_iff]

theorem nameFrom_succ_iff {r : Record} (hlabels : ∀ l ∈ r.labels, l.1.bytes ≠ [])
    (hvalues : ∀ v ∈ r.values, v.1.bytes ≠ []) (hle : r.labels.length ≤ 4)
    (hi : i < r.labels.length) :
    (r.nameFrom (i + 1)).bytes = [] ↔ i + 1 = r.labels.length ∧ (i < 3 ∨ r.values = []) := by
  rw [nameFrom]
  split_ifs with h4
  · rw [labelAt, getD_name_iff hlabels]
    omega
  · rw [valueAt, getD_name_iff hvalues, ← length_eq_zero_iff]
    omega

theorem luaLine_iff (r : Record) {u : UnityLines} {rest : List UInt8}
    (hmem : u.line.drop (unityLineSize * i) = r.filled.bytes ++ rest)
    (hstr : u.str r.dup = r.log.bytes) : u.luaLine i = r.luaLine ↔ r.Fits := by
  by_cases hlog : r.logName.bytes = []
  · have hname : ¬ 0 < (ffiString u.line (unityLineSize * i + 928)).length := by
      rw [logName_named hmem]
      exact not_not.mpr hlog
    refine iff_of_false (fun h => ?_) (fun h => h.log_named hlog)
    have hempty := congrArg DataLine.log h
    simp [UnityLines.luaLine, loadLog, hname, loadValue, loadLabel, luaLine] at hempty
  · have hname := (logName_named hmem).mpr hlog
    simp only [UnityLines.luaLine, loadLog, if_pos hname, loadValue, loadLabel, luaLine,
      DataLine.mk.injEq, nil_append, length_nil, List.cons.injEq, Prod.mk.injEq,
      word_log hmem, hstr, and_true, table_iff hmem, labels_iff hmem, values_iff hmem,
      logName_iff hmem]
    constructor
    · rintro ⟨htable, ⟨hlabels, hends, hlabelNames⟩, ⟨hvalues, hvalueEnds, hvalueNames⟩, hlogEnds⟩
      refine ⟨hlabels, hvalues, hlabelNames, hvalueNames, hlog, ?_, ?_, ?_, hvalueEnds, hlogEnds⟩
      · rwa [nameFrom_zero_iff hlabelNames] at htable
      · intro l hl
        obtain ⟨i, hi, rfl⟩ := getElem_of_mem hl
        exact (hends i hi).1
      · intro i hi
        rw [← nameFrom_succ_iff hlabelNames hvalueNames hlabels hi]
        exact (hends i hi).2
    · intro h
      refine ⟨?_, ⟨h.labels_le, fun i hi => ⟨h.name_ends _ (getElem_mem hi), ?_⟩,
        h.label_named⟩, ⟨h.values_le, h.value_ends, h.value_named⟩, h.log_ends⟩
      · rw [nameFrom_zero_iff h.label_named]
        exact h.table_ends
      · rw [nameFrom_succ_iff h.label_named h.value_named h.labels_le hi]
        exact h.index_ends i hi

end Record

structure Filling where
  record : Record
  calls : List Call
  perm : calls.Perm record.calls

def Filling.line (f : Filling) : UnityLine := f.calls.foldl Call.run .zero

def unityLines (fs : List Filling) (rest : List UInt8) (str : UInt64 → List UInt8) : UnityLines :=
  ⟨fs.length, (fs.map Filling.line).flatMap UnityLine.bytes ++ rest, str⟩

theorem drop_unityLines (fs : List Filling) (rest : List UInt8) (str : UInt64 → List UInt8)
    (hi : i < fs.length) :
    ∃ rest', (unityLines fs rest str).line.drop (unityLineSize * i) =
      fs[i].record.filled.bytes ++ rest' := by
  have hlt : i < (fs.map Filling.line).length := by rwa [length_map]
  refine ⟨((fs.map Filling.line).drop (i + 1)).flatMap UnityLine.bytes ++ rest, ?_⟩
  rw [← fs[i].record.run_eq_filled fs[i].perm, unityLineSize,
    ← offset_of_length_eq UnityLine.bytes UnityLine.length_bytes hlt.le]
  refine (drop_offset_of_lt _ hlt rest).trans ?_
  rw [getElem_map]
  rfl

theorem transport_iff (fs : List Filling) (rest : List UInt8) (str : UInt64 → List UInt8)
    (hstr : ∀ f ∈ fs, str f.record.dup = f.record.log.bytes) (lines : ProtoTable) :
    ((Cplugin.procLines (unityLines fs rest str) lines).lines =
        lines.lines ++ fs.map (·.record.luaLine) ∧
      (CprotoQueue.procLines (unityLines fs rest str) lines).lines =
        lines.lines ++ fs.map (·.record.luaLine)) ↔
      ∀ f ∈ fs, f.record.Fits := by
  have hlines : ∀ i (hi : i < fs.length),
      (unityLines fs rest str).luaLine i = fs[i].record.luaLine ↔ fs[i].record.Fits := by
    intro i hi
    obtain ⟨rest', hmem⟩ := drop_unityLines fs rest str hi
    exact fs[i].record.luaLine_iff hmem (hstr _ (getElem_mem hi))
  have hnum : (unityLines fs rest str).luaLines =
      (range fs.length).map (unityLines fs rest str).luaLine := rfl
  simp only [Cplugin.procLines, CprotoQueue.procLines, luaPutFrom_length,
    append_cancel_left_eq, and_self, hnum]
  rw [ext_getElem_iff, forall_mem_iff_getElem]
  simp only [length_map, length_range, getElem_map, getElem_range, true_and]
  constructor
  · intro h i hi
    exact (hlines i hi).mp (h i hi hi)
  · intro h i hi _
    exact (hlines i hi).mpr (h i hi)

def netRecord : Record where
  table := ⟨bytes "net_retrans_count", by decide⟩
  labels := [(⟨bytes "title", by decide⟩, ⟨bytes "rto", by decide⟩)]
  values := [(⟨bytes "value", by decide⟩, 0x3ff0000000000000)]
  logName := ⟨bytes "net", by decide⟩
  log := ⟨bytes "syn", by decide⟩
  dup := 0x55550010

theorem transport_sample :
    (Cplugin.procLines (unityLines [⟨netRecord, netRecord.calls.reverse, reverse_perm _⟩] []
      fun _ => bytes "syn") protoTable).lines = [netRecord.luaLine] :=
  ((transport_iff [⟨netRecord, netRecord.calls.reverse, reverse_perm _⟩] []
    (fun _ => bytes "syn") (by simp [netRecord]) protoTable).mpr (by
      intro f hf
      rw [mem_singleton] at hf
      subst hf
      exact ⟨by decide, by decide, by decide, by decide, by decide, by decide, by decide, by decide,
        by decide, by decide⟩)).1

def longRecord : Record :=
  { netRecord with labels := [(⟨bytes "retransmit_title", by decide⟩, ⟨bytes "rto", by decide⟩)] }

theorem transport_runs_on :
    (Cplugin.procLines (unityLines [⟨longRecord, longRecord.calls, Perm.refl _⟩] []
      fun _ => bytes "syn") protoTable).lines.map DataLine.ls =
        [[("retransmit_titlerto", "rto")]] := by
  decide +kernel

end Sysak.Collector
