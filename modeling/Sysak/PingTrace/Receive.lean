/-
# Waiting for a reply
-/

import Sysak.Lib.StreamLoop
import Sysak.PingTrace.Server

namespace Sysak.PingTrace

open Lib PingTracePacket Option

def PingTracePacket.seq (p : PingTracePacket) : UInt32 := UInt32.ofNat (beAt p.mem 4 40)

def timeoutThresholdUs : ℕ := 1000000

def compactPacketSeqDetectRange : ℤ := 3

def nsToUs (ns : ℕ) : ℕ := ns / 1000

structure Receive where
  got : RecvFrom
  stop : ℕ
  junk : ℕ → UInt8

inductive NmCall where
  | receiveBegin
  | receiveTimeout
  | receiveKernPacket
  | receiveCurCompactPacket
  | receiveLastCompactPacket
  | receiveBadPacket
  | receiveEnd (kern : PingTracePacket) (compact : Option PingTracePacket)

structure Received where
  ret : Bool
  retTimeout : Bool
  calls : List NmCall

def isCompactPkt (pkt : PingTracePacket) (recentSeq : UInt16) : Bool :=
  decide (pkt.flags &&& 1 ≠ 0 ∧
    recentSeq.toNat - compactPacketSeqDetectRange ≤ (pkt.seq.toNat : ℤ) ∧
    (pkt.seq.toNat : ℤ) ≤ recentSeq.toNat + compactPacketSeqDetectRange)

section

variable (id remote seq : UInt32) (start : ℕ)

def Early (r : Receive) : Prop := nsToUs (r.stop - start) < timeoutThresholdUs

instance (r : Receive) : Decidable (Early start r) := inferInstanceAs (Decidable (_ < _))

def recvPingpong (s : PingTracePacket × List NmCall) (r : Receive) :
    (PingTracePacket × List NmCall) ⊕ Received :=
  let (ret, pkt, timeout) := recvAndParse id remote s.1 r.got
  if !ret || timeout then
    if !ret then
      let calls := s.2 ++ [.receiveBadPacket]
      if Early start r then .inl (pkt, calls) else .inr ⟨false, false, calls⟩
    else
      .inr ⟨false, true, s.2 ++ [.receiveTimeout]⟩
  else if pkt.seq ≠ seq then
    let calls := if isCompactPkt pkt seq.toUInt16 then s.2 ++ [.receiveLastCompactPacket] else s.2
    if Early start r then .inl (pkt, calls)
    else .inr ⟨false, true, calls ++ [.receiveTimeout]⟩
  else
    .inr ⟨true, false, s.2 ++ [.receiveKernPacket, .receiveEnd pkt (some pkt)]⟩

structure CompactState where
  tmp : PingTracePacket
  pktKern : Option PingTracePacket
  pktCompact : Option PingTracePacket
  calls : List NmCall

def CompactState.finish (s : CompactState) : Received :=
  match s.pktKern with
  | some kern => ⟨true, false, s.calls ++ [.receiveEnd kern s.pktCompact]⟩
  | none => ⟨true, true, s.calls ++ [.receiveTimeout]⟩

def CompactState.keep (s : CompactState) (tmp : PingTracePacket) (junk : ℕ → UInt8) :
    CompactState :=
  if tmp.flags &&& 1 ≠ 0 ∧ s.pktCompact.isNone then
    { s with
      pktCompact := some tmp
      calls := s.calls ++ [.receiveCurCompactPacket]
      tmp := init junk configMaxEntryNum }
  else if tmp.flags &&& 1 = 0 ∧ s.pktKern.isNone then
    { s with
      pktKern := some tmp
      calls := s.calls ++ [.receiveKernPacket]
      tmp := init junk configMaxEntryNum }
  else
    { s with tmp := tmp }

def recvCompact (s : CompactState) (r : Receive) : CompactState ⊕ Received :=
  let (ret, tmp, timeout) := recvAndParse id remote s.tmp r.got
  let s := { s with tmp := tmp }
  if timeout then .inr s.finish
  else if !ret then
    let s := { s with calls := s.calls ++ [.receiveBadPacket] }
    if Early start r then .inl s else .inr s.finish
  else if tmp.seq ≠ seq then
    if Early start r then .inl s else .inr s.finish
  else
    let s := s.keep tmp r.junk
    if s.pktKern.isSome && s.pktCompact.isSome then .inr s.finish else .inl s

end

structure Receives where
  start : ℕ
  recv : ℕ → Receive
  timeo : ℕ
  first : start < (recv 0).stop ∧ (recv 0).stop ≤ start + timeo
  next : ∀ k, (recv k).stop < (recv (k + 1)).stop ∧ (recv (k + 1)).stop ≤ (recv k).stop + timeo

namespace Receives

variable (w : Receives)

def EarlyAt (k : ℕ) : Prop := Early w.start (w.recv k)

def Bounded {σ : Type} (body : σ → Receive → σ ⊕ Received) (s : σ) : Prop :=
  ∃ n, (∀ j < n, w.EarlyAt j) ∧ ∃ r, Returns body s w.recv n r

end Receives

inductive Kind where
  | timedOut
  | bad
  | other
  | compact
  | kern
deriving DecidableEq

def PingTracePacket.kind (seq : UInt32) (p : PingTracePacket) : Kind :=
  if p.seq ≠ seq then .other else if p.flags &&& 1 ≠ 0 then .compact else .kern

def RecvFrom.kind (id remote seq : UInt32) (got : RecvFrom) : Kind :=
  let (ret, pkt, timeout) := recvAndParse id remote (init (fun _ => 0) configMaxEntryNum) got
  if timeout then .timedOut else if !ret then .bad else pkt.kind seq

structure SameHeader (p p' : PingTracePacket) : Prop where
  bufSize : p.bufSize = p'.bufSize
  mem : ∀ k < pktSize, p.mem k = p'.mem k

namespace SameHeader

variable {p p' : PingTracePacket}

theorem beAt_eq (h : SameHeader p p') {n k : ℕ} (hk : k + n ≤ pktSize) :
    beAt p.mem n k = beAt p'.mem n k := beAt_congr fun j hj => h.mem (k + j) (by omega)

theorem unpack (h : SameHeader p p') (type : UInt8) : p.unpack type = p'.unpack type := by
  have hmem : ∀ k < 44, p.mem k = p'.mem k := h.mem
  rw [PingTracePacket.unpack, PingTracePacket.unpack, h.bufSize, h.beAt_eq (by decide),
    hmem 0 (by decide), hmem 9 (by decide), hmem 20 (by decide), hmem 21 (by decide),
    hmem 28 (by decide)]

theorem id (h : SameHeader p p') : p.id = p'.id := by
  rw [PingTracePacket.id, PingTracePacket.id, h.beAt_eq (by decide)]

theorem kind (h : SameHeader p p') (seq : UInt32) : p.kind seq = p'.kind seq := by
  rw [PingTracePacket.kind, PingTracePacket.kind, PingTracePacket.seq, PingTracePacket.seq, flags,
    flags, h.beAt_eq (by decide), h.beAt_eq (by decide)]

end SameHeader

theorem recv_sameHeader {p p' : PingTracePacket} (hcap : p.bufCap = p'.bufCap) {bytes : List UInt8}
    (hlen : pktSize ≤ p.received bytes) : SameHeader (p.recv bytes) (p'.recv bytes) where
  bufSize := by rw [recv_bufSize, recv_bufSize, received, received, hcap]
  mem k hk := by
    have hk' : k < p'.received bytes := by
      rw [received, ← hcap]
      exact hk.trans_le hlen
    rw [recv_mem_of_lt (hk.trans_le hlen), recv_mem_of_lt hk']

variable {id remote seq : UInt32}

variable {p : PingTracePacket}

theorem unpack_eq_false {bytes : List UInt8} {type : UInt8} (h : p.received bytes < pktSize) :
    (p.recv bytes).unpack type = false := by
  rw [unpack, if_pos (by rw [recv_bufSize]; exact_mod_cast h)]

theorem kind_eq (hcap : p.bufCap = (init (fun _ => 0) configMaxEntryNum).bufCap) (got : RecvFrom) :
    got.kind id remote seq =
      let (ret, pkt, timeout) := recvAndParse id remote p got
      if timeout then .timedOut else if !ret then .bad else pkt.kind seq := by
  cases got with
  | error errno => rfl
  | datagram bytes src =>
    rw [RecvFrom.kind]
    by_cases hlen : pktSize ≤ p.received bytes
    · have hsame := recv_sameHeader hcap hlen
      simp only [recvAndParse, hsame.unpack, hsame.id]
      split_ifs <;> simp [hsame.kind]
    · have hlen' : (init (fun _ => 0) configMaxEntryNum).received bytes < pktSize := by
        rw [received, ← hcap]
        exact not_le.mp hlen
      by_cases hsrc : src = remote <;>
        simp [recvAndParse, hsrc, unpack_eq_false (not_le.mp hlen), unpack_eq_false hlen']

theorem recvPingpong_of_late {start : ℕ} {r : Receive} (h : ¬ Early start r)
    (s : PingTracePacket × List NmCall) :
    ∃ res, recvPingpong id remote seq start s r = .inr res := by
  rw [recvPingpong]
  simp only [if_neg h]
  split_ifs <;> exact ⟨_, rfl⟩

namespace Receives

variable {w : Receives}

theorem lt_stop (w : Receives) (k : ℕ) : w.start + k < (w.recv k).stop := by
  induction k with
  | zero => exact w.first.1
  | succ k ih =>
    have := (w.next k).1
    omega

theorem earlyAt_iff {k : ℕ} : w.EarlyAt k ↔ (w.recv k).stop < w.start + 1000000000 := by
  have := w.lt_stop k
  rw [EarlyAt, Early, nsToUs, timeoutThresholdUs]
  omega

theorem exists_not_earlyAt (w : Receives) : ∃ k, ¬ w.EarlyAt k :=
  ⟨1000000000, fun h => by
    have := w.lt_stop 1000000000
    have := earlyAt_iff.mp h
    omega⟩

theorem recvPingpong_bounded (w : Receives) (s : PingTracePacket × List NmCall) :
    w.Bounded (recvPingpong id remote seq w.start) s := by
  classical
  -- the first receive that returns late is the last one at the latest
  have hlate : ∀ s', ∃ r, recvPingpong id remote seq w.start s'
      (w.recv (Nat.find w.exists_not_earlyAt)) = .inr r :=
    recvPingpong_of_late (Nat.find_spec w.exists_not_earlyAt)
  obtain ⟨n, hn, hret⟩ := exists_returns_le (s := s) hlate
  exact ⟨n, fun j hj => not_not.mp (Nat.find_min w.exists_not_earlyAt (hj.trans_le hn)), hret⟩

end Receives

structure CompactState.Goes (s : CompactState) (kind : Kind) (early : Prop) : Prop where
  timedOut : kind ≠ .timedOut
  early : kind = .bad ∨ kind = .other → early
  missing : ¬ ((s.pktKern.isSome ∨ kind = .kern) ∧ (s.pktCompact.isSome ∨ kind = .compact))

structure CompactState.Next (s s' : CompactState) (kind : Kind) : Prop where
  bufCap : s'.tmp.bufCap = (init (fun _ => 0) configMaxEntryNum).bufCap
  kern : s'.pktKern.isSome ↔ s.pktKern.isSome ∨ kind = .kern
  compact : s'.pktCompact.isSome ↔ s.pktCompact.isSome ∨ kind = .compact

def CompactState.Round (s : CompactState) (kind : Kind) (early : Prop) :
    CompactState ⊕ Received → Prop
  | .inl s' => s.Goes kind early ∧ s.Next s' kind
  | .inr _ => ¬ s.Goes kind early

theorem recvAndParse_bufCap (id remote : UInt32) (p : PingTracePacket) (got : RecvFrom) :
    (recvAndParse id remote p got).2.1.bufCap = p.bufCap := by
  cases got with
  | error errno => rfl
  | datagram bytes src =>
    simp only [recvAndParse]
    split_ifs <;> rfl

variable {s' : CompactState}

namespace CompactState

variable {s : CompactState}

theorem keep_next {tmp : PingTracePacket} (hseq : tmp.seq = seq)
    (hcap : tmp.bufCap = (init (fun _ => 0) configMaxEntryNum).bufCap) (junk : ℕ → UInt8) :
    s.Next (s.keep tmp junk) (tmp.kind seq) := by
  rw [PingTracePacket.kind, if_neg (not_not.mpr hseq), keep]
  by_cases hflag : tmp.flags &&& 1 = 0
  · rw [if_neg (not_not.mpr hflag), if_neg fun h => h.1 hflag]
    split_ifs with hkern
    · exact ⟨rfl, by simp, by simp⟩
    · exact ⟨hcap, by simpa [hflag, isSome_iff_ne_none] using hkern, by simp⟩
  · rw [if_pos hflag]
    split_ifs with hcompact hkern
    · exact ⟨rfl, by simp, by simp⟩
    · exact absurd hkern.1 hflag
    · exact ⟨hcap, by simp, by simpa [hflag, isSome_iff_ne_none] using hcompact⟩

variable {start : ℕ} {r : Receive}

variable {kind : Kind} {early : Prop}

theorem goes_iff_early (hkind : kind = .bad ∨ kind = .other)
    (hopen : ¬ (s.pktKern.isSome ∧ s.pktCompact.isSome)) : s.Goes kind early ↔ early := by
  refine ⟨fun h => h.early hkind, fun h => ⟨?_, fun _ => h, ?_⟩⟩ <;> rcases hkind with rfl | rfl <;>
    simp [hopen]

theorem Next.goes_iff (h : s.Next s' kind) (hkind : kind = .kern ∨ kind = .compact) :
    s.Goes kind early ↔ ¬ (s'.pktKern.isSome ∧ s'.pktCompact.isSome) := by
  rw [h.kern, h.compact]
  refine ⟨Goes.missing, fun hmissing => ⟨?_, ?_, hmissing⟩⟩ <;> rcases hkind with rfl | rfl <;> simp

theorem kind_of_seq_eq (h : p.seq = seq) : p.kind seq = .kern ∨ p.kind seq = .compact := by
  rw [PingTracePacket.kind, if_neg (not_not.mpr h)]
  split_ifs <;> simp

theorem round_ite [Decidable early] (hkind : kind = .bad ∨ kind = .other)
    (hopen : ¬ (s.pktKern.isSome ∧ s.pktCompact.isSome)) (hnext : s.Next s' kind) (res : Received) :
    s.Round kind early (if early then .inl s' else .inr res) := by
  split_ifs with hearly
  · exact ⟨(goes_iff_early hkind hopen).mpr hearly, hnext⟩
  · exact fun h => hearly ((goes_iff_early hkind hopen).mp h)

theorem recvCompact_round (hcap : s.tmp.bufCap = (init (fun _ => 0) configMaxEntryNum).bufCap)
    (hopen : ¬ (s.pktKern.isSome ∧ s.pktCompact.isSome)) :
    s.Round (r.got.kind id remote seq) (Early start r) (recvCompact id remote seq start s r) := by
  have hcap' := (recvAndParse_bufCap id remote s.tmp r.got).trans hcap
  rw [kind_eq hcap, recvCompact]
  generalize recvAndParse id remote s.tmp r.got = out at hcap' ⊢
  obtain ⟨ret, tmp, timeout⟩ := out
  simp only at hcap' ⊢
  -- the kinds in the order in which the body tells them apart
  cases timeout with
  | true => exact fun h => h.timedOut rfl
  | false =>
    cases ret with
    | false => exact round_ite (.inl rfl) hopen ⟨hcap', by simp, by simp⟩ _
    | true =>
      simp only [Bool.false_eq_true, if_false, Bool.not_true]
      by_cases hseq : tmp.seq = seq
      · rw [if_neg (not_not.mpr hseq)]
        have hnext : s.Next (keep { s with tmp := tmp } tmp r.junk) (tmp.kind seq) :=
          keep_next hseq hcap' r.junk
        have hgoes : s.Goes (tmp.kind seq) (Early start r) ↔ _ :=
          hnext.goes_iff (kind_of_seq_eq hseq)
        split_ifs with hboth
        · exact fun h => hgoes.mp h (by simpa using hboth)
        · exact ⟨hgoes.mpr (by simpa using hboth), hnext⟩
      · have hkind : tmp.kind seq = .other := by rw [PingTracePacket.kind, if_pos hseq]
        rw [if_pos hseq, hkind]
        exact round_ite (.inr rfl) hopen ⟨hcap', by simp, by simp⟩ _

end CompactState

namespace Receives

variable (id remote seq) (w : Receives)

def kind (n : ℕ) : Kind := (w.recv n).got.kind id remote seq

def Seen (k : Kind) (n : ℕ) : Prop := ∃ j < n, w.kind id remote seq j = k

structure GoesAt (n : ℕ) : Prop where
  timedOut : w.kind id remote seq n ≠ .timedOut
  early : w.kind id remote seq n = .bad ∨ w.kind id remote seq n = .other → w.EarlyAt n
  missing : ¬ (w.Seen id remote seq .kern (n + 1) ∧ w.Seen id remote seq .compact (n + 1))

structure Inv (n : ℕ) (s : CompactState) : Prop where
  bufCap : s.tmp.bufCap = (init (fun _ => 0) configMaxEntryNum).bufCap
  kern : s.pktKern.isSome ↔ w.Seen id remote seq .kern n
  compact : s.pktCompact.isSome ↔ w.Seen id remote seq .compact n
  missing : ¬ (s.pktKern.isSome ∧ s.pktCompact.isSome)

variable {id remote seq w} {n : ℕ} {s : CompactState}

theorem seen_succ {k : Kind} :
    w.Seen id remote seq k (n + 1) ↔ w.Seen id remote seq k n ∨ w.kind id remote seq n = k :=
  Nat.exists_lt_succ_right

theorem Inv.goes_iff (h : w.Inv id remote seq n s) :
    s.Goes (w.kind id remote seq n) (w.EarlyAt n) ↔ w.GoesAt id remote seq n := by
  have hmissing : ¬ ((s.pktKern.isSome ∨ w.kind id remote seq n = .kern) ∧
      (s.pktCompact.isSome ∨ w.kind id remote seq n = .compact)) ↔
      ¬ (w.Seen id remote seq .kern (n + 1) ∧ w.Seen id remote seq .compact (n + 1)) := by
    rw [h.kern, h.compact, seen_succ, seen_succ]
  exact ⟨fun hg => ⟨hg.1, hg.2, hmissing.mp hg.3⟩, fun hg => ⟨hg.1, hg.2, hmissing.mpr hg.3⟩⟩

theorem Inv.next (h : w.Inv id remote seq n s) (hgoes : w.GoesAt id remote seq n)
    (hnext : s.Next s' (w.kind id remote seq n)) : w.Inv id remote seq (n + 1) s' := by
  have hkern : s'.pktKern.isSome ↔ w.Seen id remote seq .kern (n + 1) := by
    rw [hnext.kern, h.kern, seen_succ]
  have hcompact : s'.pktCompact.isSome ↔ w.Seen id remote seq .compact (n + 1) := by
    rw [hnext.compact, h.compact, seen_succ]
  exact ⟨hnext.bufCap, hkern, hcompact, by rw [hkern, hcompact]; exact hgoes.missing⟩

theorem Inv.round (h : w.Inv id remote seq n s) :
    s.Round (w.kind id remote seq n) (w.EarlyAt n)
      (recvCompact id remote seq w.start s (w.recv n)) :=
  CompactState.recvCompact_round h.bufCap h.missing

theorem Inv.goes (h : w.Inv id remote seq n s) (hgoes : w.GoesAt id remote seq n) :
    ∃ s', recvCompact id remote seq w.start s (w.recv n) = .inl s' ∧
      w.Inv id remote seq (n + 1) s' := by
  have hround := h.round
  cases hout : recvCompact id remote seq w.start s (w.recv n) with
  | inl s' =>
    rw [hout] at hround
    exact ⟨s', rfl, h.next hgoes hround.2⟩
  | inr res =>
    rw [hout] at hround
    exact absurd (h.goes_iff.mpr hgoes) hround

theorem Inv.stops (h : w.Inv id remote seq n s) (hgoes : ¬ w.GoesAt id remote seq n) :
    ∃ res, recvCompact id remote seq w.start s (w.recv n) = .inr res := by
  have hround := h.round
  cases hout : recvCompact id remote seq w.start s (w.recv n) with
  | inl s' =>
    rw [hout] at hround
    exact absurd (h.goes_iff.mp hround.1) hgoes
  | inr res => exact ⟨res, rfl⟩

end Receives

def CompactState.initial (junk : ℕ → UInt8) : CompactState :=
  ⟨init junk configMaxEntryNum, none, none, [.receiveBegin]⟩

namespace Receives

variable (w : Receives)

variable (junk : ℕ → UInt8)

theorem inv_initial : w.Inv id remote seq 0 (.initial junk) :=
  have hseen : ∀ k, ¬ w.Seen id remote seq k 0 := fun _ ⟨_, hj, _⟩ => Nat.not_lt_zero _ hj
  ⟨rfl, by simp [CompactState.initial, hseen], by simp [CompactState.initial, hseen],
    by simp [CompactState.initial]⟩

theorem recvCompact_returns_iff (k : ℕ) :
    (∃ n ≤ k, ∃ r, Returns (recvCompact id remote seq w.start) (.initial junk) w.recv n r) ↔
      ∃ j ≤ k, ¬ w.GoesAt id remote seq j :=
  exists_returns_le_iff (w.inv_initial junk) Inv.goes Inv.stops

theorem recvCompact_bounded_iff :
    w.Bounded (recvCompact id remote seq w.start) (.initial junk) ↔
      ∃ n, (∀ j < n, w.EarlyAt j) ∧ ¬ w.GoesAt id remote seq n := by
  constructor
  · rintro ⟨n, hearly, hret⟩
    obtain ⟨j, hj, hgoes⟩ := (w.recvCompact_returns_iff junk n).mp ⟨n, le_rfl, hret⟩
    exact ⟨j, fun i hi => hearly i (hi.trans_le hj), hgoes⟩
  · rintro ⟨j, hearly, hgoes⟩
    obtain ⟨n, hn, hret⟩ := (w.recvCompact_returns_iff junk j).mpr ⟨j, le_rfl, hgoes⟩
    exact ⟨n, fun i hi => hearly i (hi.trans_le hn), hret⟩

theorem recv_bounded_iff (id remote seq : UInt32) (junk : ℕ → UInt8) :
    w.Bounded (recvPingpong id remote seq w.start) (init junk configMaxEntryNum, [.receiveBegin]) ∧
        w.Bounded (recvCompact id remote seq w.start) (.initial junk) ↔
      ∃ n, (∀ j < n, w.EarlyAt j) ∧
        (w.kind id remote seq n = .timedOut ∨
          (w.kind id remote seq n = .bad ∨ w.kind id remote seq n = .other) ∧ ¬ w.EarlyAt n ∨
          w.Seen id remote seq .kern (n + 1) ∧ w.Seen id remote seq .compact (n + 1)) := by
  rw [and_iff_right (w.recvPingpong_bounded _), recvCompact_bounded_iff]
  refine exists_congr fun n => and_congr_right fun _ => ?_
  constructor
  · intro h
    by_contra hnot
    push Not at hnot
    exact h ⟨hnot.1, hnot.2.1, fun hboth => hnot.2.2 hboth.1 hboth.2⟩
  · rintro (h | ⟨h, hlate⟩ | h) hgoes
    · exact hgoes.timedOut h
    · exact hlate (hgoes.early h)
    · exact hgoes.missing h

def duplicates : Receives where
  start := 0
  recv k := ⟨.datagram (echoReply 8 []) 0, (k + 1) * 1000000, fun _ => 0⟩
  timeo := 1000000000
  first := by decide
  next k := by simp only; omega

theorem duplicates_not_bounded :
    (¬ ∃ n r, Returns (recvCompact 0 0 0 duplicates.start) (.initial fun _ => 0)
      duplicates.recv n r) ∧
    ¬ duplicates.Bounded (recvCompact 0 0 0 duplicates.start) (.initial fun _ => 0) := by
  have hkind : ∀ n, duplicates.kind 0 0 0 n = .kern := fun n => by
    show RecvFrom.kind 0 0 0 (.datagram (echoReply 8 []) 0) = .kern
    decide +kernel
  have hgoes : ∀ n, duplicates.GoesAt 0 0 0 n := fun n =>
    ⟨by simp [hkind], by simp [hkind], fun ⟨_, j, _, hj⟩ => by simp [hkind] at hj⟩
  have hnever : ¬ ∃ n r, Returns (recvCompact 0 0 0 duplicates.start) (.initial fun _ => 0)
      duplicates.recv n r := by
    rintro ⟨n, hret⟩
    obtain ⟨j, -, hj⟩ := (duplicates.recvCompact_returns_iff _ n).mp ⟨n, le_rfl, hret⟩
    exact hj (hgoes j)
  exact ⟨hnever, fun ⟨n, _, hret⟩ => hnever ⟨n, hret⟩⟩

end Receives

end Sysak.PingTrace
