/-
# The events of a ping
-/

import Sysak.Lib.BinarySearch
import Sysak.Lib.LuaString
import Mathlib.Data.List.Chain
import Mathlib.Data.List.DropRight

namespace Sysak.Rtrace

open Lib List Option

inductive IcmpEventType where
  | pingSnd | pingNetDevQueue | pingNetDevXmit | pingDevRcv | pingNetifRcv | pingIcmpRcv | pingRcv

structure IcmpEvent where
  cpu : UInt16
  ty : IcmpEventType
  ts : ℕ
  pid : UInt32
  comm : Bytes

structure RawEvent where
  id : UInt16
  seq : UInt16
  icmpType : UInt8
  event : IcmpEvent

structure IcmpEvents where
  sender : Bool
  id : UInt16
  seq : UInt16
  events : List IcmpEvent

def RawEvent.side (e : RawEvent) : Option Bool :=
  match e.event.ty with
  | .pingSnd | .pingRcv => some true
  | .pingNetDevQueue | .pingNetDevXmit => some (e.icmpType == 8)
  | .pingDevRcv => none
  | .pingNetifRcv | .pingIcmpRcv => some (e.icmpType != 8)

def sideOf (sender : Bool) (events : List RawEvent) : List IcmpEvent :=
  (events.filter fun e => e.side = some sender).map RawEvent.event

def group (sender : Bool) (id seq : UInt16) (events : List RawEvent) : IcmpEvents :=
  ⟨sender, id, seq, (sideOf sender events).mergeSort fun a b => a.ts ≤ b.ts⟩

abbrev Table := UInt16 × UInt16 → Option (List RawEvent)

def processEvent (t : Table) (ie : RawEvent) : Table × Option (IcmpEvents × IcmpEvents) :=
  let t := Function.update t (ie.id, ie.seq) (some ((t (ie.id, ie.seq)).getD [] ++ [ie]))
  if ie.seq = 0 then (t, none)
  else
    match t (ie.id, ie.seq - 1) with
    | some events => (Function.update t (ie.id, ie.seq - 1) none,
        some (group true ie.id (ie.seq - 1) events, group false ie.id (ie.seq - 1) events))
    | none => (t, none)

def tableOf (s : List RawEvent) : Table :=
  s.foldl (fun t e => (processEvent t e).1) fun _ => none

def own (id : UInt16) (s : List RawEvent) : List RawEvent := s.filter fun e => e.id = id

def Chains (R : RawEvent → RawEvent → Prop) (s : List RawEvent) : Prop :=
  ∀ id, (own id s).IsChain R

def Orderly : List RawEvent → Prop := Chains fun a b => b.seq = a.seq ∨ b.seq = a.seq + 1

def lastSeq (id : UInt16) (s : List RawEvent) : Option UInt16 :=
  (own id s).getLast?.map RawEvent.seq

def block (id : UInt16) (s : List RawEvent) : List RawEvent :=
  (own id s).rtakeWhile fun e => lastSeq id s = some e.seq

structure IsGroup (sender : Bool) (id seq : UInt16) (events : List RawEvent) (g : IcmpEvents) :
    Prop where
  sender_eq : g.sender = sender
  id_eq : g.id = id
  seq_eq : g.seq = seq
  perm : g.events.Perm (sideOf sender events)
  sorted : g.events.Pairwise fun a b => a.ts ≤ b.ts

def Due (s : List RawEvent) (e : RawEvent) (out : Option (IcmpEvents × IcmpEvents)) : Prop :=
  match lastSeq e.id s with
  | none => out = none
  | some seq =>
    if seq = e.seq then out = none
    else ∃ g, out = some g ∧ IsGroup true e.id seq (block e.id s) g.1 ∧
      IsGroup false e.id seq (block e.id s) g.2

def Bounded (t : Table) : Prop :=
  ∀ id, ∃ a b, ∀ seq, t (id, seq) ≠ none → seq = a ∨ seq = b

def Reported (s : List RawEvent) : Prop :=
  ∀ pre e, pre ++ [e] <+: s →
    Due pre e (processEvent (tableOf pre) e).2 ∧ Bounded (tableOf (pre ++ [e]))

theorem isGroup_group (sender : Bool) (id seq : UInt16) (events : List RawEvent) :
    IsGroup sender id seq events (group sender id seq events) :=
  ⟨rfl, rfl, rfl, mergeSort_perm _ _, pairwise_mergeSort_key _ _⟩

section Streams

variable {s : List RawEvent} {e : RawEvent} {id : UInt16}

theorem own_concat_self : own e.id (s ++ [e]) = own e.id s ++ [e] := by
  simp [own, filter_append]

theorem own_concat_of_ne (h : e.id ≠ id) : own id (s ++ [e]) = own id s := by
  simp [own, filter_append, h]

theorem chains_concat {R : RawEvent → RawEvent → Prop} :
    Chains R (s ++ [e]) ↔ Chains R s ∧ ∀ l ∈ (own e.id s).getLast?, R l e := by
  have hself : (own e.id (s ++ [e])).IsChain R ↔
      (own e.id s).IsChain R ∧ ∀ l ∈ (own e.id s).getLast?, R l e := by
    rw [own_concat_self, isChain_append]
    simp
  refine ⟨fun h => ⟨fun id => ?_, (hself.mp (h e.id)).2⟩, fun h id => ?_⟩
  · by_cases hid : e.id = id
    · exact hid ▸ (hself.mp (h e.id)).1
    · rw [← own_concat_of_ne (s := s) hid]
      exact h id
  · by_cases hid : e.id = id
    · exact hid ▸ hself.mpr ⟨h.1 e.id, h.2⟩
    · rw [own_concat_of_ne hid]
      exact h.1 id

theorem reported_concat : Reported (s ++ [e]) ↔ Reported s ∧
    Due s e (processEvent (tableOf s) e).2 ∧ Bounded (tableOf (s ++ [e])) := by
  refine ⟨fun h => ⟨fun pre a ha => h pre a (ha.trans (prefix_append _ _)), h s e (prefix_refl _)⟩,
    fun ⟨hs, he⟩ pre a ha => ?_⟩
  rcases prefix_concat_iff.mp ha with heq | ha
  · obtain ⟨rfl, ⟨⟩⟩ := append_inj' heq rfl
    exact he
  · exact hs pre a ha

theorem tableOf_concat : tableOf (s ++ [e]) = (processEvent (tableOf s) e).1 := by
  rw [tableOf, foldl_append]
  rfl

def Pending (s : List RawEvent) (t : Table) : Prop :=
  ∀ id seq, t (id, seq) = if lastSeq id s = some seq then some (block id s) else none

theorem Pending.bounded {t : Table} (h : Pending s t) : Bounded t := by
  refine fun id => ⟨(lastSeq id s).getD 0, (lastSeq id s).getD 0, fun seq hne => .inl ?_⟩
  rw [h, ne_eq, ite_eq_right_iff, Classical.not_imp] at hne
  rw [hne.1]
  rfl

theorem lastSeq_concat : lastSeq e.id (s ++ [e]) = some e.seq := by
  rw [lastSeq, own_concat_self, getLast?_concat]
  rfl

theorem lastSeq_concat_of_ne (h : e.id ≠ id) : lastSeq id (s ++ [e]) = lastSeq id s := by
  rw [lastSeq, own_concat_of_ne h, lastSeq]

theorem block_concat : block e.id (s ++ [e]) =
    (if lastSeq e.id s = some e.seq then block e.id s else []) ++ [e] := by
  rw [block, lastSeq_concat, own_concat_self, rtakeWhile_concat_pos _ _ _ (by simp)]
  congr 1
  split_ifs with h
  · rw [block, h]
  · rw [lastSeq] at h
    rcases eq_nil_or_concat' (own e.id s) with hnil | ⟨l, a, ha⟩
    · rw [hnil, rtakeWhile_nil]
    · rw [ha, getLast?_concat, map_some] at h
      rw [ha, rtakeWhile_concat_neg _ _ _ (by simpa using fun hae => h (by rw [hae]))]

theorem sub_one_ne (a : UInt16) : a - 1 ≠ a := by grind

theorem pending_concat {t t' : Table} (h : Pending s t)
    (hself : t' (e.id, e.seq) = some (block e.id (s ++ [e])))
    (hother : ∀ seq, seq ≠ e.seq → t' (e.id, seq) = none)
    (hframe : ∀ id seq, e.id ≠ id → t' (id, seq) = t (id, seq)) : Pending (s ++ [e]) t' := by
  intro id seq
  by_cases hid : e.id = id
  · subst hid
    rw [lastSeq_concat]
    by_cases hseq : seq = e.seq
    · rw [hseq, hself, if_pos rfl]
    · rw [hother seq hseq, if_neg fun heq => hseq (some.inj heq).symm]
  · rw [hframe id seq hid, h, lastSeq_concat_of_ne hid, block, block, own_concat_of_ne hid,
      lastSeq_concat_of_ne hid]

section Step

variable {t : Table}

theorem update_of_seq_ne {seq seq' : UInt16} {v : Option (List RawEvent)} (h : seq' ≠ seq)
    (id : UInt16) : Function.update t (id, seq) v (id, seq') = t (id, seq') :=
  Function.update_of_ne (fun heq => h (Prod.mk.inj heq).2) _ _

theorem update_of_id_ne {id id' seq seq' : UInt16} {v : Option (List RawEvent)} (h : id ≠ id') :
    Function.update t (id, seq) v (id', seq') = t (id', seq') :=
  Function.update_of_ne (fun heq => h (Prod.mk.inj heq).1.symm) _ _

theorem Pending.push (h : Pending s t) :
    (t (e.id, e.seq)).getD [] ++ [e] = block e.id (s ++ [e]) := by
  rw [h, block_concat]
  split_ifs <;> rfl

theorem processEvent_of_same (h : Pending s t)
    (hlast : lastSeq e.id s = none ∨ lastSeq e.id s = some e.seq) :
    Due s e (processEvent t e).2 ∧ Pending (s ++ [e]) (processEvent t e).1 := by
  have hnone : ∀ seq, seq ≠ e.seq → t (e.id, seq) = none := by
    intro seq hseq
    rw [h]
    rcases hlast with hlast | hlast
    · rw [hlast, if_neg (some_ne_none _).symm]
    · rw [hlast, if_neg fun heq => hseq (some.inj heq).symm]
  have hout : Due s e none := by
    rw [Due]
    rcases hlast with hlast | hlast <;> simp [hlast]
  have hpend : Pending (s ++ [e])
      (Function.update t (e.id, e.seq) (some (block e.id (s ++ [e])))) :=
    pending_concat h (Function.update_self ..)
      (fun seq hseq => (update_of_seq_ne hseq _).trans (hnone seq hseq))
      fun _ _ => update_of_id_ne
  rw [processEvent, h.push]
  split_ifs
  · exact ⟨hout, hpend⟩
  · rw [update_of_seq_ne (sub_one_ne _), hnone _ (sub_one_ne _)]
    exact ⟨hout, hpend⟩

theorem processEvent_of_next (h : Pending s t) {seq : UInt16} (hseq : lastSeq e.id s = some seq)
    (hstep : e.seq - 1 = seq) (hzero : e.seq ≠ 0) :
    Due s e (processEvent t e).2 ∧ Pending (s ++ [e]) (processEvent t e).1 := by
  have hne : seq ≠ e.seq := hstep ▸ sub_one_ne _
  rw [processEvent, h.push, if_neg hzero, update_of_seq_ne (sub_one_ne _), hstep, h, if_pos hseq]
  dsimp only
  refine ⟨?_, pending_concat h ?_ (fun q hq => ?_) fun id q hid => ?_⟩
  · rw [Due, hseq]
    simp only [if_neg hne]
    exact ⟨_, rfl, isGroup_group .., isGroup_group ..⟩
  · rw [update_of_seq_ne hne.symm, Function.update_self]
  · by_cases hqs : q = seq
    · rw [hqs, Function.update_self]
    · rw [update_of_seq_ne hqs, update_of_seq_ne hq, h, hseq,
        if_neg fun heq => hqs (some.inj heq).symm]
  · rw [update_of_id_ne hid, update_of_id_ne hid]

theorem processEvent_spec (h : Pending s t)
    (hnext : ∀ seq ∈ lastSeq e.id s, e.seq = seq ∨ e.seq = seq + 1)
    (hwrap : ∀ seq ∈ lastSeq e.id s, e.seq = 0 → seq = 0) :
    Due s e (processEvent t e).2 ∧ Pending (s ++ [e]) (processEvent t e).1 := by
  cases hseq : lastSeq e.id s with
  | none => exact processEvent_of_same h (.inl hseq)
  | some seq =>
    by_cases heq : e.seq = seq
    · exact processEvent_of_same h (.inr (heq ▸ hseq))
    · have hsucc := (hnext seq hseq).resolve_left heq
      refine processEvent_of_next h hseq ?_ fun hzero => ?_
      · rw [hsucc]
        grind
      · exact heq (hzero.trans (hwrap seq hseq hzero).symm)

end Step

theorem not_due_of_zero {seq : UInt16} (hseq : lastSeq e.id s = some seq) (hne : seq ≠ 0)
    (he : e.seq = 0) (t : Table) : ¬Due s e (processEvent t e).2 := by
  have hout : (processEvent t e).2 = none := by
    rw [processEvent, if_pos he]
  rw [Due, hseq, hout]
  simp only [if_neg (he ▸ hne), reduceCtorEq, false_and, exists_false, not_false_eq_true]

theorem forall_lastSeq {P : UInt16 → Prop} :
    (∀ seq ∈ lastSeq e.id s, P seq) ↔ ∀ l ∈ (own e.id s).getLast?, P l.seq := by
  simp [lastSeq]

theorem reported_iff_of_orderly (hs : Orderly s) :
    (Reported s ↔ Chains (fun a b => b.seq = 0 → a.seq = 0) s) ∧
      (Chains (fun a b => b.seq = 0 → a.seq = 0) s → Pending s (tableOf s)) := by
  induction s using reverseRecOn with
  | nil =>
    have hnil : Chains (fun a b => b.seq = 0 → a.seq = 0) [] := fun _ => isChain_nil
    refine ⟨iff_of_true (fun pre e h => absurd (prefix_nil.mp h) (by simp)) hnil, ?_⟩
    exact fun _ _ _ => rfl
  | append_singleton s e ih =>
    obtain ⟨hs, hnext⟩ := chains_concat.mp hs
    obtain ⟨hiff, hpend⟩ := ih hs
    have hstep (hc : Chains (fun a b => b.seq = 0 → a.seq = 0) (s ++ [e])) :=
      processEvent_spec (hpend (chains_concat.mp hc).1) (forall_lastSeq.mpr hnext)
        (forall_lastSeq.mpr (chains_concat.mp hc).2)
    rw [← tableOf_concat] at hstep
    refine ⟨⟨fun h => ?_, fun hc => ?_⟩, fun hc => (hstep hc).2⟩
    · obtain ⟨hrep, hdue, -⟩ := reported_concat.mp h
      refine chains_concat.mpr ⟨hiff.mp hrep,
        forall_lastSeq (P := fun seq => e.seq = 0 → seq = 0).mp fun seq hseq he => ?_⟩
      by_contra hne
      exact not_due_of_zero hseq hne he _ hdue
    · exact reported_concat.mpr
        ⟨hiff.mpr (chains_concat.mp hc).1, (hstep hc).1, (hstep hc).2.bounded⟩

end Streams

theorem icmp_reported_iff (s : List RawEvent) (hs : Orderly s) :
    Reported s ↔ Chains (fun a b => b.seq = 0 → a.seq = 0) s :=
  (reported_iff_of_orderly hs).1

def ping (seq : UInt16) : RawEvent := ⟨7, seq, 8, 0, .pingSnd, seq.toNat, 1, bytes "ping"⟩

theorem icmp_reported_two : Reported [ping 1, ping 2] := by
  have hchain {R : RawEvent → RawEvent → Prop} (h : R (ping 1) (ping 2)) :
      Chains R [ping 1, ping 2] := by
    intro id
    have hid : ∀ a ∈ [ping 1, ping 2], a.id = 7 := by decide
    rw [own, filter_congr fun a ha => by rw [hid a ha]]
    by_cases hid : 7 = id <;> simp [hid, h]
  exact (icmp_reported_iff _ (hchain (by decide))).mpr (hchain (by decide))

theorem icmp_wraps : ¬Reported [ping 65535, ping 0] := by
  intro h
  have hlast : lastSeq (ping 0).id [ping 65535] = some 65535 := rfl
  exact not_due_of_zero hlast (by decide) rfl _ (h [ping 65535] (ping 0) (prefix_refl _)).1

end Sysak.Rtrace
