/-
# A reply packet and where it is read
-/

import Sysak.Lib.LittleEndian
import Mathlib.Data.List.GetD

namespace Sysak.PingTrace

open Lib List

structure Timestamp where
  nsId : UInt32
  ifindex : UInt32
  userId : UInt16
  functionId : UInt16
  ts : UInt32
deriving Repr, DecidableEq

def Timestamp.machineId (t : Timestamp) : UInt64 :=
  t.nsId.toUInt64 ||| (t.ifindex.toUInt64 <<< 32)

structure TsList where
  startTs : UInt64
  endTs : UInt64
  list : List Timestamp
  timeout : Bool

def packetReserveEntryNum : ℕ := 8

def pktSize : ℕ := 44

def timestampSize : ℕ := 16

structure PingTracePacket where
  mem : ℕ → UInt8
  bufCap : ℕ
  bufSize : ℤ

def beAt (mem : ℕ → UInt8) (n k : ℕ) : ℕ :=
  leNat ((range n).map fun j => mem (k + (n - 1 - j)))

namespace PingTracePacket

def init (mem : ℕ → UInt8) (maxEntryNum : ℕ) : PingTracePacket :=
  ⟨mem, pktSize + maxEntryNum * timestampSize, pktSize + maxEntryNum * timestampSize⟩

def withMem (p : PingTracePacket) (mem : ℕ → UInt8) : PingTracePacket := { p with mem := mem }

def entryNum (p : PingTracePacket) : ℕ := (p.mem 29).toNat

def id (p : PingTracePacket) : UInt32 := UInt32.ofNat (beAt p.mem 4 36)

def entryOffset (i : ℕ) : ℕ := pktSize + timestampSize * i

def getTimestamp (p : PingTracePacket) (idx : ℕ) : Timestamp where
  nsId := UInt32.ofNat (beAt p.mem 4 (entryOffset idx))
  ifindex := UInt32.ofNat (beAt p.mem 4 (entryOffset idx + 4))
  userId := UInt16.ofNat (beAt p.mem 2 (entryOffset idx + 8))
  functionId := UInt16.ofNat (beAt p.mem 2 (entryOffset idx + 10))
  ts := UInt32.ofNat (beAt p.mem 4 (entryOffset idx + 12))

def unpack (p : PingTracePacket) (icmpType : UInt8) : Bool :=
  if p.bufSize < pktSize then false
  else if p.mem 0 >>> 4 ≠ 4 then false
  else if (p.mem 0 &&& 15) <<< 2 ≠ 20 then false
  else if p.mem 9 ≠ 1 then false
  else if p.mem 20 ≠ icmpType ∨ p.mem 21 ≠ 1 then false
  else if p.mem 28 ≠ 0 ∨ beAt p.mem 2 32 ≠ 0x7ace then false
  else true

def taken (p : PingTracePacket) : List ℕ :=
  range' packetReserveEntryNum (p.entryNum - packetReserveEntryNum)

end PingTracePacket

def collectRemoteTs : Option PingTracePacket → TsList → TsList
  | none, tsl => tsl
  | some pkt, tsl => { tsl with list := tsl.list ++ pkt.taken.map pkt.getTimestamp }

inductive RecvFrom where
  | error (errno : ℕ)
  | datagram (bytes : List UInt8) (src : UInt32)

def store (bytes : List UInt8) (mem : ℕ → UInt8) (k : ℕ) : UInt8 := bytes.getD k (mem k)

def PingTracePacket.recv (p : PingTracePacket) (bytes : List UInt8) : PingTracePacket :=
  { p with mem := store (bytes.take p.bufCap) p.mem, bufSize := (bytes.take p.bufCap).length }

def recvAndParse (id remote : UInt32) (p : PingTracePacket) :
    RecvFrom → Bool × PingTracePacket × Bool
  | .error errno => (false, { p with bufSize := -1 }, errno == 110 || errno == 11)
  | .datagram bytes src =>
    let p := p.recv bytes
    if src ≠ remote then (false, p, false)
    else if !p.unpack 0 then (false, p, false)
    else if p.id ≠ id then (false, p, false)
    else (true, p, false)

def Accepted (id remote : UInt32) (p : PingTracePacket) (bytes : List UInt8) (src : UInt32) :
    Prop :=
  (recvAndParse id remote p (.datagram bytes src)).1 = true

instance (id remote : UInt32) (p : PingTracePacket) (bytes : List UInt8) (src : UInt32) :
    Decidable (Accepted id remote p bytes src) :=
  inferInstanceAs (Decidable (_ = _))

def PingTracePacket.received (p : PingTracePacket) (bytes : List UInt8) : ℕ :=
  min p.bufCap bytes.length

def PingTracePacket.EntriesInside (p : PingTracePacket) (n : ℕ) : Prop :=
  ∀ i ∈ p.taken, entryOffset i + timestampSize ≤ n

variable {p : PingTracePacket} {bytes : List UInt8}

namespace PingTracePacket

theorem mem_taken {i : ℕ} : i ∈ p.taken ↔ 8 ≤ i ∧ i < p.entryNum := by
  rw [taken, mem_range'_1, packetReserveEntryNum]
  omega

theorem entriesInside_iff {n : ℕ} :
    p.EntriesInside n ↔ p.entryNum ≤ 8 ∨ entryOffset p.entryNum ≤ n := by
  simp only [EntriesInside, mem_taken, entryOffset, pktSize, timestampSize]
  constructor
  · intro h
    by_contra hn
    -- the last entry taken is the one that ends last
    have hlast := h (p.entryNum - 1) (by omega)
    omega
  · rintro h i ⟨hi, hlt⟩
    omega

theorem length_take_bufCap (p : PingTracePacket) (bytes : List UInt8) :
    (bytes.take p.bufCap).length = p.received bytes := length_take

theorem recv_mem (p : PingTracePacket) (bytes : List UInt8) (k : ℕ) :
    (p.recv bytes).mem k = (bytes.take p.bufCap).getD k (p.mem k) := rfl

theorem recv_bufSize (p : PingTracePacket) (bytes : List UInt8) :
    (p.recv bytes).bufSize = p.received bytes := by
  rw [← length_take_bufCap]
  rfl

theorem recv_mem_of_lt {k : ℕ} (hk : k < p.received bytes) :
    (p.recv bytes).mem k = bytes.getD k 0 := by
  have hk' : k < bytes.length := lt_of_lt_of_le hk (min_le_right _ _)
  have hcap : k < p.bufCap := lt_of_lt_of_le hk (min_le_left _ _)
  rw [recv_mem, getD_eq_getElem _ _ (by rwa [length_take_bufCap]),
    getD_eq_getElem _ _ hk', getElem_take]

end PingTracePacket

open PingTracePacket

variable {id remote : UInt32} {src : UInt32}

theorem Accepted.pktSize_le (h : Accepted id remote p bytes src) : pktSize ≤ p.received bytes := by
  by_contra hlt
  have hsize : (p.recv bytes).bufSize < pktSize := by
    rw [recv_bufSize]
    omega
  have hun : (p.recv bytes).unpack 0 = false := by rw [unpack, if_pos hsize]
  rw [Accepted, recvAndParse] at h
  by_cases hsrc : src = remote <;> simp [hsrc, hun] at h

theorem Accepted.entryNum_eq (h : Accepted id remote p bytes src) :
    (p.recv bytes).entryNum = (bytes.getD 29 0).toNat := by
  have hle := h.pktSize_le
  rw [entryNum, recv_mem_of_lt (by rw [pktSize] at hle; omega)]

theorem accepted_entriesInside_iff {id remote : UInt32} {p : PingTracePacket} {bytes : List UInt8}
    {src : UInt32} (h : Accepted id remote p bytes src) :
    (p.recv bytes).EntriesInside (p.received bytes) ↔
      (bytes.getD 29 0).toNat ≤ 8 ∨ 44 + 16 * (bytes.getD 29 0).toNat ≤ p.received bytes := by
  rw [entriesInside_iff, h.entryNum_eq]
  rfl

def echoReply (num : UInt8) (entries : List UInt8) : List UInt8 :=
  [0x45, 0, 0, 0, 0, 0, 0, 0, 64, 1, 0, 0, 0, 0, 0, 0, 0, 0, 0, 0,
    0, 1, 0, 0, 0, 0, 0, 0,
    0, num, 0, 0, 0x7a, 0xce, 0, 0, 0, 0, 0, 0, 0, 0, 0, 0] ++ entries

theorem echoReply_nine_entriesInside :
    Accepted 0 0 (init (fun _ => 0) 90) (echoReply 9 (replicate 144 0)) 0 ∧
      ((init (fun _ => 0) 90).recv (echoReply 9 (replicate 144 0))).EntriesInside
        ((init (fun _ => 0) 90).received (echoReply 9 (replicate 144 0))) :=
  have h : Accepted 0 0 (init (fun _ => 0) 90) (echoReply 9 (replicate 144 0)) 0 := by
    decide +kernel
  ⟨h, (accepted_entriesInside_iff h).mpr (Or.inr (by decide +kernel))⟩

theorem echoReply_empty_not_entriesInside :
    Accepted 0 0 (init (fun _ => 0) 90) (echoReply 9 []) 0 ∧
      (init (fun _ => 0) 90).received (echoReply 9 []) = 44 ∧
      8 ∈ ((init (fun _ => 0) 90).recv (echoReply 9 [])).taken ∧
      ¬ ((init (fun _ => 0) 90).recv (echoReply 9 [])).EntriesInside 44 := by
  have hmem : 8 ∈ ((init (fun _ => 0) 90).recv (echoReply 9 [])).taken := by decide
  refine ⟨by decide, by decide, hmem, fun h => ?_⟩
  have hle := h 8 hmem
  rw [entryOffset, pktSize, timestampSize] at hle
  omega

theorem beAt_congr {mem mem' : ℕ → UInt8} {n k : ℕ} (h : ∀ j < n, mem (k + j) = mem' (k + j)) :
    beAt mem n k = beAt mem' n k := by
  rw [beAt, beAt]
  congr 1
  refine map_congr_left fun j hj => h _ ?_
  have := mem_range.mp hj
  omega

theorem getTimestamp_congr {p p' : PingTracePacket} {i : ℕ}
    (h : ∀ j < timestampSize, p.mem (entryOffset i + j) = p'.mem (entryOffset i + j)) :
    p.getTimestamp i = p'.getTimestamp i := by
  rw [timestampSize] at h
  have hat : ∀ o n, o + n ≤ 16 →
      beAt p.mem n (entryOffset i + o) = beAt p'.mem n (entryOffset i + o) := by
    intro o n hle
    refine beAt_congr fun j hj => ?_
    rw [Nat.add_assoc]
    exact h _ (by omega)
  rw [getTimestamp, getTimestamp, hat 4 4 (by omega), hat 8 2 (by omega), hat 10 2 (by omega),
    hat 12 4 (by omega)]
  have h0 := hat 0 4 (by omega)
  rw [Nat.add_zero] at h0
  rw [h0]

end Sysak.PingTrace
