/-
# Forwarding the kernel log
-/

import Sysak.Lib.CString
import Sysak.Lib.LuaString
import Sysak.Lib.Overwrite

namespace Sysak.Collector

open Lib List

def kmsgLine : ℕ := 8192

structure KmsgRecord extends CStr where
  fits : bytes.length ≤ kmsgLine - 1

inductive ReadErrno where
  | eagain
  | eintr
  | other
  deriving DecidableEq, Repr

inductive KmsgRead where
  | record (r : KmsgRecord)
  | fail (errno : ReadErrno)

abbrev KmsgBuff : Type := CharArray kmsgLine

structure KmsgLine where
  table : Bytes
  name : Bytes
  log : Option Bytes
  deriving DecidableEq, Repr

def KmsgBuff.read (buff : KmsgBuff) (r : KmsgRecord) : KmsgBuff :=
  ⟨overwrite buff.1 r.bytes, by
    have hfits : r.bytes.length ≤ buff.1.length := by
      rw [buff.2]
      exact r.fits.trans (Nat.sub_le _ _)
    rw [length_overwrite hfits, buff.2]⟩

def KmsgBuff.strdup (buff : KmsgBuff) : Option Bytes :=
  if 0 ∈ buff.1 then some (stringAt buff.1) else none

def stripOld (buff : KmsgBuff) : List KmsgRead → Option (KmsgBuff × List KmsgRead)
  | [] => none
  | .fail .eagain :: reads => some (buff, reads)
  | .fail _ :: _ => none
  | .record r :: reads =>
    if r.bytes = [] then some (buff.read r, reads) else stripOld (buff.read r) reads

def pushLines (buff : KmsgBuff) : List KmsgRead → List KmsgLine
  | [] => []
  | .fail _ :: _ => []
  | .record r :: reads =>
    ⟨bytes "kmsg", bytes "log", (buff.read r).strdup⟩ :: pushLines (buff.read r) reads

def kmsgThreadFunc (opened sought blocking : Bool) (buff : KmsgBuff) (reads : List KmsgRead) :
    List KmsgLine :=
  if opened && sought then
    match stripOld buff reads with
    | none => []
    | some (buff, reads) => if blocking then pushLines buff reads else []
  else []

def kmsgReads (old : List { r : KmsgRecord // r.bytes ≠ [] }) (records : List KmsgRecord) :
    List KmsgRead :=
  old.map (fun r => .record r.1) ++ .fail .eagain :: records.map .record

def ForwardsUnchanged (buff : KmsgBuff) (old : List { r : KmsgRecord // r.bytes ≠ [] })
    (records : List KmsgRecord) : Prop :=
  kmsgThreadFunc true true true buff (kmsgReads old records) =
    records.map fun r => ⟨bytes "kmsg", bytes "log", some r.bytes⟩

section Kmsg

variable {buff : KmsgBuff}

def KmsgBuff.after (buff : KmsgBuff) (l : List KmsgRecord) : KmsgBuff := l.foldl KmsgBuff.read buff

theorem val_after (buff : KmsgBuff) (l : List KmsgRecord) :
    (buff.after l).1 = (l.map fun r => r.bytes).foldl overwrite buff.1 := by
  unfold KmsgBuff.after
  induction l generalizing buff with
  | nil => rfl
  | cons r l ih =>
    rw [foldl_cons, ih]
    rfl

theorem stripOld_kmsgReads (buff : KmsgBuff) (old : List { r : KmsgRecord // r.bytes ≠ [] })
    (records : List KmsgRecord) :
    stripOld buff (kmsgReads old records) =
      some (buff.after (old.map Subtype.val), records.map .record) := by
  unfold kmsgReads
  induction old generalizing buff with
  | nil => rfl
  | cons r old ih =>
    rw [map_cons, cons_append, stripOld, if_neg r.2, ih]
    rfl

theorem strdup_read_iff (buff : KmsgBuff) (r : KmsgRecord) :
    (buff.read r).strdup = some r.bytes ↔ buff.1[r.bytes.length]? = some 0 := by
  have hlt : r.bytes.length < buff.1.length := by
    rw [buff.2]
    have := r.fits
    unfold kmsgLine at this ⊢
    omega
  have hdrop := drop_eq_getElem_cons hlt
  have hstring : stringAt (buff.read r).1 = r.bytes ++ stringAt (buff.1.drop r.bytes.length) := by
    refine takeWhile_append_of_pos fun c hc => bne_iff_ne.mpr ?_
    rintro rfl
    exact r.nul_free hc
  have hnil : stringAt (buff.read r).1 = r.bytes ↔ buff.1[r.bytes.length]? = some 0 := by
    rw [hstring, append_right_eq_self, hdrop, stringAt_cons_eq_nil_iff,
      getElem?_eq_getElem hlt, Option.some_inj]
  rw [← hnil, KmsgBuff.strdup]
  constructor
  · intro h
    split_ifs at h
    exact Option.some.inj h
  · intro h
    have hzero : (0 : UInt8) ∈ (buff.read r).1 := by
      refine mem_append_right _ ?_
      obtain ⟨hlt', hget⟩ := List.getElem?_eq_some_iff.mp (hnil.mp h)
      rw [hdrop, hget]
      exact mem_cons_self
    rw [if_pos hzero, h]

theorem pushLines_eq_iff (before records : List KmsgRecord) :
    pushLines (buff.after before) (records.map .record) =
        (records.map fun r => ⟨bytes "kmsg", bytes "log", some r.bytes⟩) ↔
      ∀ k (hk : k < records.length),
        (buff.after (before ++ records.take k)).1[records[k].bytes.length]? = some 0 := by
  induction records generalizing before with
  | nil => simp [pushLines]
  | cons r records ih =>
    have hnext : (buff.after before).read r = buff.after (before ++ [r]) := by
      unfold KmsgBuff.after
      rw [foldl_append]
      rfl
    rw [map_cons, map_cons, pushLines, List.cons.injEq, KmsgLine.mk.injEq,
      strdup_read_iff, hnext, ih]
    constructor
    · rintro ⟨⟨-, -, hfirst⟩, hrest⟩ k hk
      cases k with
      | zero => simpa using hfirst
      | succ k => simpa using hrest k (Nat.lt_of_succ_lt_succ hk)
    · intro h
      refine ⟨⟨rfl, rfl, by simpa using h 0 (Nat.succ_pos _)⟩, fun k hk => ?_⟩
      simpa using h (k + 1) (Nat.succ_lt_succ hk)

theorem kmsgThreadFunc_kmsgReads (buff : KmsgBuff) (old : List { r : KmsgRecord // r.bytes ≠ [] })
    (records : List KmsgRecord) :
    kmsgThreadFunc true true true buff (kmsgReads old records) =
      pushLines (buff.after (old.map Subtype.val)) (records.map .record) := by
  simp [kmsgThreadFunc, stripOld_kmsgReads]

theorem kmsg_unchanged_iff (buff : KmsgBuff) (old : List { r : KmsgRecord // r.bytes ≠ [] })
    (records : List KmsgRecord) :
    ForwardsUnchanged buff old records ↔
      ∀ k (hk : k < records.length),
        (∀ r ∈ old.map Subtype.val ++ records.take k,
          r.bytes.length ≤ records[k].bytes.length) ∧
        buff.1[records[k].bytes.length]? = some 0 := by
  rw [ForwardsUnchanged, kmsgThreadFunc_kmsgReads, pushLines_eq_iff]
  refine forall₂_congr fun k hk => ?_
  have hz : ∀ r ∈ (old.map Subtype.val ++ records.take k).map fun r => r.bytes,
      (0 : UInt8) ∉ r := by
    intro r hr
    obtain ⟨q, -, rfl⟩ := mem_map.mp hr
    exact q.nul_free
  rw [val_after, getElem?_foldl_overwrite_iff hz, forall_mem_map]

theorem kmsg_shorter_record :
    ¬ForwardsUnchanged ⟨replicate kmsgLine 0, length_replicate⟩ []
      [⟨⟨bytes "abc", by decide⟩, by decide⟩, ⟨⟨bytes "x", by decide⟩, by decide⟩] := by
  intro h
  rw [ForwardsUnchanged, kmsgThreadFunc_kmsgReads, pushLines_eq_iff] at h
  have hbyte : some (98 : UInt8) = some 0 := h 1 (Nat.lt_succ_self 1)
  exact absurd hbyte (by decide)

end Kmsg

end Sysak.Collector
