/-
# A request, its reply, and the timestamps that come back
-/

import Mathlib.Data.List.Forall2
import Sysak.PingTrace.Checksum

namespace Sysak.PingTrace

open Lib List Option

structure MapEntry where
  functionId : UInt16
  ns : UInt64
  netInum : UInt32
  ifindex : UInt32
deriving Repr, DecidableEq

def nsTruncate (ns : UInt64) : UInt32 := (ns / 1000).toUInt32

def configMaxEntryNum : ℕ := 90

namespace PingTracePacket

def flags (p : PingTracePacket) : UInt16 := UInt16.ofNat (beAt p.mem 2 30)

def setFlags (p : PingTracePacket) (flags : UInt16) : PingTracePacket :=
  p.withMem (writeAt p.mem 30 (beBytes 2 flags.toNat))

def setIcmpType (p : PingTracePacket) (type : UInt8) : PingTracePacket :=
  p.withMem (writeAt p.mem 20 [type])

def maxEntryNum (p : PingTracePacket) : ℕ := (p.bufCap - pktSize) / timestampSize

def writeEntry (mem : ℕ → UInt8) (o : ℕ) (userId : UInt16) (entry : MapEntry) : ℕ → UInt8 :=
  let mem := writeAt mem (o + 10) (beBytes 2 entry.functionId.toNat)
  let mem := writeAt mem (o + 12) (beBytes 4 (nsTruncate entry.ns).toNat)
  let mem := writeAt mem o (beBytes 4 entry.netInum.toNat)
  let mem := writeAt mem (o + 4) (beBytes 4 entry.ifindex.toNat)
  writeAt mem (o + 8) (beBytes 2 userId.toNat)

def addTimestamp (userId : UInt16) (p : PingTracePacket) (entry : MapEntry) : PingTracePacket :=
  if p.entryNum < p.maxEntryNum then
    let mem := writeEntry p.mem (entryOffset p.entryNum) userId entry
    p.withMem (writeAt mem 29 [p.mem 29 + 1])
  else
    p

def serverRecvPktModify (p : PingTracePacket) : PingTracePacket :=
  (p.setFlags (p.flags ||| 1)).setIcmpType 0

def send (p : PingTracePacket) : Option (List UInt8) :=
  if p.bufSize - 20 ≤ 65515 then some (p.icmpPart (p.bufSize - 20).toNat) else none

end PingTracePacket

open PingTracePacket

def PingTraceClient.send (mem : ℕ → UInt8) (maxEntryNum : ℕ) (seq id : UInt32) :
    Option (List UInt8) :=
  ((init mem maxEntryNum).pack seq id packetReserveEntryNum).bind PingTracePacket.send

def PingTraceServer.iteration (userId : UInt32) (rx tx : List MapEntry) (p : PingTracePacket)
    (bytes : List UInt8) : Option (PingTracePacket × Option (List UInt8)) :=
  let p := p.recv bytes
  if p.bufSize ≤ 0 then some (p, none)
  else if !p.unpack 8 then some (p, none)
  else if p.flags &&& 1 ≠ 0 then some (p, none)
  else
    let p := p.serverRecvPktModify
    let p := rx.foldl (addTimestamp userId.toUInt16) p
    let p := tx.foldl (addTimestamp userId.toUInt16) p
    p.updateChecksum.map fun p => (p, p.send)

structure IpHeader where
  bytes : List UInt8
  length_eq : bytes.length = 20
  version : bytes.getD 0 0 = 0x45
  protocol : bytes.getD 9 0 = 1

@[simp] theorem length_beBytes (n x : ℕ) : (beBytes n x).length = n := by
  rw [beBytes, length_reverse, length_leBytes]

theorem beAt_writeAt (mem : ℕ → UInt8) (n k x : ℕ) :
    beAt (writeAt mem k (beBytes n x)) n k = x % 256 ^ n := by
  rw [beAt, ← leNat_leBytes]
  congr 1
  refine ext_getElem (by simp) fun j hj hj' => ?_
  have hlen := length_beBytes n x
  rw [length_leBytes] at hj'
  rw [getElem_map, getElem_range, writeAt_of_lt mem k (by omega)]
  simp only [beBytes, getElem_reverse, length_leBytes]
  congr 1
  omega

variable {mem : ℕ → UInt8}

theorem beAt_writeAt_of_not {k n' k' : ℕ} {bytes : List UInt8}
    (h : k' + n' ≤ k ∨ k + bytes.length ≤ k') : beAt (writeAt mem k bytes) n' k' = beAt mem n' k' :=
  beAt_congr fun _ _ => writeAt_of_not (by omega)

def MapEntry.timestamp (userId : UInt16) (entry : MapEntry) : Timestamp :=
  ⟨entry.netInum, entry.ifindex, userId, entry.functionId, nsTruncate entry.ns⟩

structure Added (p p' : PingTracePacket) (ts : List Timestamp) : Prop where
  bufCap : p'.bufCap = p.bufCap
  bufSize : p'.bufSize = p.bufSize
  entryNum : p'.entryNum = p.entryNum + ts.length
  header : ∀ j < pktSize, j ≠ 29 → p'.mem j = p.mem j
  old : ∀ i < p.entryNum, p'.getTimestamp i = p.getTimestamp i
  new : (range' p.entryNum ts.length).map p'.getTimestamp = ts

theorem Added.refl (p : PingTracePacket) : Added p p [] :=
  ⟨rfl, rfl, rfl, fun _ _ _ => rfl, fun _ _ => rfl, rfl⟩

theorem Added.trans {p p' p'' : PingTracePacket} {ts ts' : List Timestamp} (h : Added p p' ts)
    (h' : Added p' p'' ts') : Added p p'' (ts ++ ts') where
  bufCap := h'.bufCap.trans h.bufCap
  bufSize := h'.bufSize.trans h.bufSize
  entryNum := by rw [h'.entryNum, h.entryNum, length_append, Nat.add_assoc]
  header := fun j hj hne => (h'.header j hj hne).trans (h.header j hj hne)
  old := by
    intro i hi
    rw [h'.old i (by rw [h.entryNum]; omega), h.old i hi]
  new := by
    have hkept : (range' p.entryNum ts.length).map p''.getTimestamp =
        (range' p.entryNum ts.length).map p'.getTimestamp := by
      refine map_congr_left fun i hi => h'.old i ?_
      rw [h.entryNum]
      exact (mem_range'_1.mp hi).2
    rw [length_append, ← range'_append_1, map_append, hkept, h.new, ← h.entryNum,
      h'.new]

theorem writeEntry_of_not {o j : ℕ} (userId : UInt16) (entry : MapEntry) (h : j < o ∨ o + 16 ≤ j) :
    writeEntry mem o userId entry j = mem j := by
  rw [writeEntry, writeAt_of_not (by rw [length_beBytes]; omega),
    writeAt_of_not (by rw [length_beBytes]; omega), writeAt_of_not (by rw [length_beBytes]; omega),
    writeAt_of_not (by rw [length_beBytes]; omega), writeAt_of_not (by rw [length_beBytes]; omega)]

theorem ofNat_mod_four (x : UInt32) : UInt32.ofNat (x.toNat % 256 ^ 4) = x := by
  rw [Nat.mod_eq_of_lt (show x.toNat < 256 ^ 4 from x.toNat_lt), UInt32.ofNat_toNat]

theorem ofNat_mod_two (x : UInt16) : UInt16.ofNat (x.toNat % 256 ^ 2) = x := by
  rw [Nat.mod_eq_of_lt (show x.toNat < 256 ^ 2 from x.toNat_lt), UInt16.ofNat_toNat]

theorem getTimestamp_writeEntry (p : PingTracePacket) (i : ℕ) (userId : UInt16) (entry : MapEntry) :
    (p.withMem (writeEntry p.mem (entryOffset i) userId entry)).getTimestamp i =
      entry.timestamp userId := by
  have hns : beAt (writeEntry p.mem (entryOffset i) userId entry) 4 (entryOffset i) =
      entry.netInum.toNat % 256 ^ 4 := by
    rw [writeEntry, beAt_writeAt_of_not (by omega), beAt_writeAt_of_not (by omega), beAt_writeAt]
  have hif : beAt (writeEntry p.mem (entryOffset i) userId entry) 4 (entryOffset i + 4) =
      entry.ifindex.toNat % 256 ^ 4 := by
    rw [writeEntry, beAt_writeAt_of_not (by omega), beAt_writeAt]
  have huser : beAt (writeEntry p.mem (entryOffset i) userId entry) 2 (entryOffset i + 8) =
      userId.toNat % 256 ^ 2 := by
    rw [writeEntry, beAt_writeAt]
  have hfun : beAt (writeEntry p.mem (entryOffset i) userId entry) 2 (entryOffset i + 10) =
      entry.functionId.toNat % 256 ^ 2 := by
    rw [writeEntry, beAt_writeAt_of_not (by rw [length_beBytes]; omega),
      beAt_writeAt_of_not (by rw [length_beBytes]; omega),
      beAt_writeAt_of_not (by rw [length_beBytes]; omega),
      beAt_writeAt_of_not (by rw [length_beBytes]; omega), beAt_writeAt]
  have hts : beAt (writeEntry p.mem (entryOffset i) userId entry) 4 (entryOffset i + 12) =
      (nsTruncate entry.ns).toNat % 256 ^ 4 := by
    rw [writeEntry, beAt_writeAt_of_not (by rw [length_beBytes]; omega),
      beAt_writeAt_of_not (by rw [length_beBytes]; omega),
      beAt_writeAt_of_not (by rw [length_beBytes]; omega), beAt_writeAt]
  rw [getTimestamp, MapEntry.timestamp, withMem, hns, hif, huser, hfun, hts, ofNat_mod_four,
    ofNat_mod_four, ofNat_mod_two, ofNat_mod_two, ofNat_mod_four]

section Add

variable (userId : UInt16) {p : PingTracePacket} (entry : MapEntry)

theorem addTimestamp_of_lt (hroom : p.entryNum < p.maxEntryNum) :
    addTimestamp userId p entry = p.withMem
      (writeAt (writeEntry p.mem (entryOffset p.entryNum) userId entry) 29 [p.mem 29 + 1]) :=
  if_pos hroom

theorem addTimestamp_added (hroom : p.entryNum < p.maxEntryNum) (hnum : p.entryNum + 1 < 256) :
    Added p (addTimestamp userId p entry) [entry.timestamp userId] := by
  have hoff : ∀ i, entryOffset i = 44 + 16 * i := fun _ => rfl
  rw [addTimestamp_of_lt userId entry hroom]
  have hframe : ∀ j, j ≠ 29 → (j < entryOffset p.entryNum ∨ entryOffset p.entryNum + 16 ≤ j) →
      writeAt (writeEntry p.mem (entryOffset p.entryNum) userId entry) 29 [p.mem 29 + 1] j =
        p.mem j := by
    intro j hne hj
    rw [writeAt_of_not, writeEntry_of_not _ _ hj]
    rw [length_singleton]
    omega
  refine ⟨rfl, rfl, ?_, ?_, ?_, ?_⟩
  · show (p.mem 29 + 1).toNat = p.entryNum + 1
    rw [UInt8.toNat_add]
    exact Nat.mod_eq_of_lt hnum
  · intro j hj hne
    have hp := hoff p.entryNum
    rw [pktSize] at hj
    exact hframe j hne (.inl (by omega))
  · intro i hi
    refine getTimestamp_congr fun j hj => ?_
    rw [timestampSize] at hj
    have hi' := hoff i
    have hp := hoff p.entryNum
    exact hframe _ (by omega) (.inl (by omega))
  · rw [← getTimestamp_writeEntry p p.entryNum userId entry]
    refine congrArg (· :: []) (getTimestamp_congr fun j _ => ?_)
    have hp := hoff p.entryNum
    exact writeAt_of_not (by rw [length_singleton]; omega)

end Add

theorem foldl_addTimestamp_added (userId : UInt16) (entries : List MapEntry) :
    ∀ p : PingTracePacket, p.entryNum ≤ p.maxEntryNum → p.maxEntryNum < 256 →
      Added p (entries.foldl (addTimestamp userId) p)
        ((entries.take (p.maxEntryNum - p.entryNum)).map (MapEntry.timestamp userId)) := by
  induction entries with
  | nil =>
    intro p _ _
    rw [take_nil]
    exact .refl p
  | cons entry entries ih =>
    intro p hle hmax
    rw [foldl_cons]
    rcases Nat.lt_or_ge p.entryNum p.maxEntryNum with hroom | hfull
    · have hadd := addTimestamp_added userId entry hroom (by omega)
      have hcap : (addTimestamp userId p entry).maxEntryNum = p.maxEntryNum := by
        rw [maxEntryNum, maxEntryNum, hadd.bufCap]
      have hnum : (addTimestamp userId p entry).entryNum = p.entryNum + 1 := hadd.entryNum
      have hrest := ih (addTimestamp userId p entry) (by omega) (by omega)
      rw [hcap, hnum] at hrest
      obtain ⟨k, hk⟩ : ∃ k, p.maxEntryNum - p.entryNum = k + 1 :=
        ⟨p.maxEntryNum - p.entryNum - 1, by omega⟩
      rw [show p.maxEntryNum - (p.entryNum + 1) = k by omega] at hrest
      rw [hk, take_succ_cons, map_cons]
      exact hadd.trans hrest
    · have hstay : addTimestamp userId p entry = p := if_neg (Nat.not_lt.mpr hfull)
      have hrest := ih p hle hmax
      rw [show p.maxEntryNum - p.entryNum = 0 by omega, take_zero] at hrest ⊢
      rw [hstay]
      exact hrest

structure Header (p : PingTracePacket) (type : UInt8) (id : UInt32) : Prop where
  type_eq : p.mem 20 = type
  code : p.mem 21 = 1
  version : p.mem 28 = 0
  magic : beAt p.mem 2 32 = 0x7ace
  id_eq : p.id = id

structure Carried (q r : PingTracePacket) (n : ℕ) : Prop where
  bufSize : r.bufSize = n
  ipVersion : r.mem 0 = 0x45
  ipProtocol : r.mem 9 = 1
  same : ∀ j, 20 ≤ j → j < n → r.mem j = q.mem j

variable {id : UInt32}

theorem Header.congr {p p' : PingTracePacket} {type type' : UInt8} (h : Header p type id)
    (htype : p'.mem 20 = type')
    (hsame : ∀ j < pktSize, j = 21 ∨ j = 28 ∨ 32 ≤ j → p'.mem j = p.mem j) :
    Header p' type' id where
  type_eq := htype
  code := (hsame 21 (by decide) (by decide)).trans h.code
  version := (hsame 28 (by decide) (by decide)).trans h.version
  magic := by
    rw [← h.magic]
    exact beAt_congr fun j hj => hsame _ (by rw [pktSize]; omega) (by omega)
  id_eq := by
    rw [← h.id_eq, PingTracePacket.id, PingTracePacket.id]
    congr 1
    exact beAt_congr fun j hj => hsame _ (by rw [pktSize]; omega) (by omega)

theorem recv_carried (p q : PingTracePacket) (ip : IpHeader) {n : ℕ} (hcap : pktSize ≤ p.bufCap) :
    Carried q (p.recv (ip.bytes ++ q.icmpPart n)) (min p.bufCap (20 + n)) := by
  have hip := ip.length_eq
  rw [pktSize] at hcap
  have hrec : p.received (ip.bytes ++ q.icmpPart n) = min p.bufCap (20 + n) := by
    rw [received, length_append, hip, icmpPart, length_bytesAt]
  refine ⟨?_, ?_, ?_, ?_⟩
  · rw [recv_bufSize, hrec]
  · rw [recv_mem_of_lt (by omega), getD_append _ _ _ _ (by omega), ip.version]
  · rw [recv_mem_of_lt (by omega), getD_append _ _ _ _ (by omega), ip.protocol]
  · intro j hj hlt
    rw [recv_mem_of_lt (by omega), getD_append_right _ _ _ _ (by omega), hip,
      getD_eq_getElem _ _ (by rw [icmpPart, length_bytesAt]; omega)]
    simp only [icmpPart, bytesAt, getElem_map, getElem_range]
    congr 1
    omega

namespace Carried

variable {q r : PingTracePacket} {n : ℕ} {type : UInt8} {id : UInt32}

theorem header (h : Carried q r n) (hn : pktSize ≤ n) (hq : Header q type id) : Header r type id :=
  hq.congr ((h.same 20 (by decide) (by rw [pktSize] at hn; omega)).trans hq.type_eq)
    fun j hj hor => h.same j (by omega) (by omega)

theorem entryNum (h : Carried q r n) (hn : pktSize ≤ n) : r.entryNum = q.entryNum := by
  rw [pktSize] at hn
  rw [PingTracePacket.entryNum, PingTracePacket.entryNum, h.same 29 (by decide) (by omega)]

theorem unpack (h : Carried q r n) (hn : pktSize ≤ n) (hq : Header q type id) :
    r.unpack type = true := by
  have hr := h.header hn hq
  have hsize : ¬ r.bufSize < pktSize := by
    rw [h.bufSize]
    omega
  have hversion : (0x45 : UInt8) >>> 4 = 4 := by decide
  have hhlen : ((0x45 : UInt8) &&& 15) <<< 2 = 20 := by decide
  simp [PingTracePacket.unpack, hsize, h.ipVersion, hversion, hhlen, h.ipProtocol, hr.type_eq,
    hr.code, hr.version, hr.magic]

theorem getTimestamp (h : Carried q r n) {i : ℕ} (hi : entryOffset (i + 1) ≤ n) :
    r.getTimestamp i = q.getTimestamp i := by
  refine getTimestamp_congr fun j hj => h.same _ ?_ ?_
  · rw [entryOffset, pktSize]
    omega
  · rw [entryOffset, pktSize, timestampSize] at hi ⊢
    rw [timestampSize] at hj
    omega

end Carried

theorem initHeader_header (p : PingTracePacket) (seq id : UInt32) (num : ℕ) :
    Header (p.initHeader seq id num) 8 id where
  type_eq := rfl
  code := rfl
  version := rfl
  magic := by
    rw [initHeader, withMem, beAt_writeAt_of_not (by omega), beAt_writeAt_of_not (by omega),
      beAt_writeAt]
    rfl
  id_eq := by
    rw [PingTracePacket.id, initHeader, withMem, beAt_writeAt, ofNat_mod_four]

variable {maxEntryNum : ℕ}

theorem pack_frame {seq id : UInt32} {q : PingTracePacket}
    (hq : (init mem maxEntryNum).pack seq id packetReserveEntryNum = some q) :
    q.bufSize = 44 + 16 * maxEntryNum ∧
      ∀ j, j < 22 ∨ 24 ≤ j → q.mem j =
        ((init mem maxEntryNum).initHeader seq id packetReserveEntryNum).mem j := by
  obtain ⟨-, hsize, hmem⟩ := updateChecksum_frame hq
  refine ⟨hsize.trans ?_, hmem⟩
  show ((44 : ℕ) : ℤ) + (maxEntryNum : ℤ) * ((16 : ℕ) : ℤ) = 44 + 16 * maxEntryNum
  omega

variable {p : PingTracePacket}

theorem updateChecksum_sends {p : PingTracePacket} {n : ℕ} (hsize : p.bufSize = 20 + n)
    (hmin : 4 ≤ n) (hmax : n ≤ 65515) :
    ∃ r, p.updateChecksum = some r ∧ r.send = some (r.icmpPart n) ∧
      ∀ j, j < 22 ∨ 24 ≤ j → r.mem j = p.mem j := by
  obtain ⟨r, hr, -⟩ := updateChecksum_sum p hsize hmin (by omega)
  obtain ⟨-, hrsize, hrmem⟩ := updateChecksum_frame hr
  refine ⟨r, hr, ?_, hrmem⟩
  rw [PingTracePacket.send, hrsize, hsize, if_pos (by omega)]
  congr 2
  omega

theorem send_eq_none (mem : ℕ → UInt8) (seq id : UInt32) (hlarge : 4093 < maxEntryNum) :
    PingTraceClient.send mem maxEntryNum seq id = none := by
  rw [PingTraceClient.send, bind_eq_none_iff]
  intro q hq
  obtain ⟨hsize, -⟩ := pack_frame hq
  exact if_neg (by omega)

theorem send_eq_some (mem : ℕ → UInt8) (seq id : UInt32) (hsmall : maxEntryNum ≤ 4093) :
    ∃ q : PingTracePacket,
      PingTraceClient.send mem maxEntryNum seq id = some (q.icmpPart (24 + 16 * maxEntryNum)) ∧
      Header q 8 id ∧ q.entryNum = 8 ∧ q.flags = 0 := by
  have hinit : ((init mem maxEntryNum).initHeader seq id packetReserveEntryNum).bufSize =
      20 + (24 + 16 * maxEntryNum : ℕ) := by
    show ((44 : ℕ) : ℤ) + (maxEntryNum : ℤ) * ((16 : ℕ) : ℤ) = _
    omega
  obtain ⟨q, hq, hsend, -⟩ := updateChecksum_sends hinit (by omega) (by omega)
  obtain ⟨-, hmem⟩ := pack_frame hq
  refine ⟨q, ?_, ?_, ?_, ?_⟩
  · rw [PingTraceClient.send, PingTracePacket.pack, hq, bind_some, hsend]
  · exact (initHeader_header _ seq id _).congr (hmem 20 (by decide))
      fun j hj hor => hmem j (by omega)
  · rw [entryNum, hmem 29 (by decide)]
    rfl
  · have hflags : beAt q.mem 2 30 = 0 := by
      rw [beAt_congr fun j hj => hmem (30 + j) (by omega)]
      rfl
    rw [flags, hflags]
    rfl

theorem serverRecvPktModify_mem {j : ℕ} (h : j ≠ 20) (h' : j < 30 ∨ 32 ≤ j) :
    p.serverRecvPktModify.mem j = p.mem j := by
  show writeAt (writeAt p.mem 30 (beBytes 2 (p.flags ||| 1).toNat)) 20 [0] j = p.mem j
  rw [writeAt_of_not (by rw [length_singleton]; omega),
    writeAt_of_not (by rw [length_beBytes]; omega)]

theorem serverRecvPktModify_header {type : UInt8} (h : Header p type id) :
    Header p.serverRecvPktModify 0 id :=
  h.congr rfl fun _ _ hor => serverRecvPktModify_mem (by omega) (by omega)

theorem serverRecvPktModify_entryNum (p : PingTracePacket) :
    p.serverRecvPktModify.entryNum = p.entryNum := by
  rw [entryNum, entryNum, serverRecvPktModify_mem (by decide) (by decide)]

theorem Added.of_checksum {p p' r : PingTracePacket} {ts : List Timestamp} (h : Added p p' ts)
    (hmem : ∀ j, j < 22 ∨ 24 ≤ j → r.mem j = p'.mem j) :
    r.entryNum = p.entryNum + ts.length ∧
      (range' p.entryNum ts.length).map r.getTimestamp = ts ∧
      ∀ {type : UInt8} {id : UInt32}, Header p type id → Header r type id := by
  have hget : ∀ i, r.getTimestamp i = p'.getTimestamp i := by
    intro i
    refine getTimestamp_congr fun j hj => hmem _ (.inr ?_)
    rw [entryOffset, pktSize]
    omega
  refine ⟨?_, ?_, fun {type id} hheader => hheader.congr ?_ ?_⟩
  · rw [← h.entryNum, PingTracePacket.entryNum, PingTracePacket.entryNum, hmem 29 (by decide)]
  · exact (map_congr_left fun i _ => hget i).trans h.new
  · rw [hmem 20 (by decide), h.header 20 (by decide) (by decide), hheader.type_eq]
  · intro j hj hor
    rw [hmem j (by omega), h.header j hj (by omega)]

theorem iteration_spec (userId : UInt32) (rx tx : List MapEntry) (mem : ℕ → UInt8) (ip : IpHeader)
    {q : PingTracePacket} (maxEntryNum : ℕ) (hq : Header q 8 id) (hnum : q.entryNum = 8)
    (hflags : q.flags = 0) :
    ∃ r, PingTraceServer.iteration userId rx tx (init mem configMaxEntryNum)
        (ip.bytes ++ q.icmpPart (24 + 16 * maxEntryNum)) =
          some (r, some (r.icmpPart (24 + 16 * min maxEntryNum 90))) ∧
      Header r 0 id ∧ r.entryNum = 8 + min 82 (rx ++ tx).length ∧
      r.taken.map r.getTimestamp =
        ((rx ++ tx).take 82).map (MapEntry.timestamp userId.toUInt16) := by
  have hcap : (init mem configMaxEntryNum).bufCap = 1484 := rfl
  have hcar := recv_carried (init mem configMaxEntryNum) q ip (n := 24 + 16 * maxEntryNum)
    (Nat.le_add_right _ _)
  rw [hcap, show min 1484 (20 + (24 + 16 * maxEntryNum)) = 44 + 16 * min maxEntryNum 90 by omega]
    at hcar
  have hn : pktSize ≤ 44 + 16 * min maxEntryNum 90 := Nat.le_add_right _ _
  generalize hp : (init mem configMaxEntryNum).recv
    (ip.bytes ++ q.icmpPart (24 + 16 * maxEntryNum)) = p at hcar
  have hpflags : p.flags = 0 := by
    rw [← hflags, flags, flags, beAt_congr fun j hj => hcar.same (30 + j) (by omega) (by omega)]
  have hpcap : p.serverRecvPktModify.maxEntryNum = 90 := by
    have hbuf : p.bufCap = 1484 := by rw [← hp, ← hcap]; rfl
    show (p.bufCap - 44) / 16 = 90
    rw [hbuf]
  have hpnum : p.serverRecvPktModify.entryNum = 8 := by
    rw [serverRecvPktModify_entryNum, hcar.entryNum hn, hnum]
  -- the points are added behind the eight reserved entries
  have hadd := foldl_addTimestamp_added userId.toUInt16 (rx ++ tx) p.serverRecvPktModify
    (by omega) (by omega)
  rw [hpcap, hpnum] at hadd
  generalize hp' : (rx ++ tx).foldl (addTimestamp userId.toUInt16) p.serverRecvPktModify = p'
    at hadd
  have hsize : p'.bufSize = 20 + (24 + 16 * min maxEntryNum 90 : ℕ) := by
    rw [hadd.bufSize]
    show p.bufSize = _
    rw [hcar.bufSize]
    omega
  obtain ⟨r, hr, hsend, hrmem⟩ := updateChecksum_sends hsize (by omega) (by omega)
  obtain ⟨hrnum, hrnew, hrheader⟩ := hadd.of_checksum hrmem
  rw [hpnum] at hrnum hrnew
  refine ⟨r, ?_, hrheader (serverRecvPktModify_header (hcar.header hn hq)), ?_, ?_⟩
  · rw [PingTraceServer.iteration, hp]
    have hpos : ¬ p.bufSize ≤ 0 := by
      rw [hcar.bufSize]
      omega
    have hmasked : ¬ p.flags &&& 1 ≠ 0 := by
      rw [hpflags]
      decide
    rw [foldl_append] at hp'
    simp only [hpos, hcar.unpack hn hq, hmasked, hp', hr, hsend, if_false, Bool.not_true,
      Bool.false_eq_true, map_some]
  · rw [hrnum, length_map, length_take]
  · have htaken : r.taken = range' 8
        ((List.take 82 (rx ++ tx)).map (MapEntry.timestamp userId.toUInt16)).length := by
      rw [taken, hrnum, packetReserveEntryNum, Nat.add_sub_cancel_left]
    rw [htaken]
    exact hrnew

structure Carries (userId : UInt32) (entry : MapEntry) (ts : Timestamp) : Prop where
  functionId : ts.functionId = entry.functionId
  nsId : ts.nsId = entry.netInum
  ifindex : ts.ifindex = entry.ifindex
  userId_eq : ts.userId.toNat = userId.toNat
  ts_eq : ts.ts = nsTruncate entry.ns

def ContainsCounted (reply : List UInt8) : Prop :=
  entryOffset (reply.getD 9 0).toNat ≤ 20 + reply.length

theorem carries_timestamp_iff (userId : UInt32) (entry : MapEntry) :
    Carries userId entry (entry.timestamp userId.toUInt16) ↔ userId.toNat < 65536 := by
  have hmod : userId.toUInt16.toNat = userId.toNat % 65536 := UInt32.toNat_toUInt16 userId
  constructor
  · intro h
    have huser : userId.toUInt16.toNat = userId.toNat := h.userId_eq
    omega
  · intro hlt
    have huser : userId.toUInt16.toNat = userId.toNat := by omega
    exact ⟨rfl, rfl, rfl, huser, rfl⟩

theorem forall₂_carries_iff (userId : UInt32) (entries : List MapEntry) :
    Forall₂ (Carries userId) entries (entries.map (MapEntry.timestamp userId.toUInt16)) ↔
      entries = [] ∨ userId.toNat < 65536 := by
  rw [forall₂_map_right_iff, forall₂_same]
  simp only [carries_timestamp_iff]
  cases entries with
  | nil => simp
  | cons entry entries =>
    refine ⟨fun h => .inr (h entry mem_cons_self), ?_⟩
    rintro (h | h) _ _
    · cases h
    · exact h

section Client

variable {r : PingTracePacket} {id : UInt32} (remote : UInt32) (ip : IpHeader) (mem : ℕ → UInt8)
  (k : ℕ) (hk : k ≤ 90)

include hk in
theorem client_carried : Carried r ((init mem configMaxEntryNum).recv
    (ip.bytes ++ r.icmpPart (24 + 16 * k))) (44 + 16 * k) := by
  have hcar := recv_carried (init mem configMaxEntryNum) r ip (n := 24 + 16 * k)
    (Nat.le_add_right _ _)
  have hcap : (init mem configMaxEntryNum).bufCap = 1484 := rfl
  rw [hcap, show min 1484 (20 + (24 + 16 * k)) = 44 + 16 * k by omega] at hcar
  exact hcar

include hk in
theorem client_accepted (hr : Header r 0 id) : Accepted id remote (init mem configMaxEntryNum)
    (ip.bytes ++ r.icmpPart (24 + 16 * k)) remote := by
  have hcar := client_carried (r := r) ip mem k hk
  have hn : pktSize ≤ 44 + 16 * k := Nat.le_add_right _ _
  simp [Accepted, recvAndParse, hcar.unpack hn hr, (hcar.header hn hr).id_eq]

include hk in
theorem client_collects (hnum : r.entryNum ≤ k) (tsl : TsList) :
    (collectRemoteTs (some ((init mem configMaxEntryNum).recv
      (ip.bytes ++ r.icmpPart (24 + 16 * k)))) tsl).list =
        tsl.list ++ r.taken.map r.getTimestamp := by
  have hcar := client_carried (r := r) ip mem k hk
  have hn : pktSize ≤ 44 + 16 * k := Nat.le_add_right _ _
  have htaken : ((init mem configMaxEntryNum).recv
      (ip.bytes ++ r.icmpPart (24 + 16 * k))).taken = r.taken := by
    rw [taken, taken, hcar.entryNum hn]
  simp only [collectRemoteTs, htaken, append_cancel_left_eq]
  refine map_congr_left fun i hi => hcar.getTimestamp ?_
  have hlt := (mem_taken.mp hi).2
  rw [entryOffset, pktSize, timestampSize]
  omega

theorem containsCounted_iff : ContainsCounted (r.icmpPart (24 + 16 * k)) ↔ r.entryNum ≤ k := by
  have hcount : (r.icmpPart (24 + 16 * k)).getD 9 0 = r.mem 29 := by
    rw [getD_eq_getElem _ _ (by rw [icmpPart, length_bytesAt]; omega)]
    simp only [icmpPart, bytesAt, getElem_map, getElem_range]
  rw [ContainsCounted, hcount, ← entryNum, icmpPart, length_bytesAt, entryOffset, pktSize,
    timestampSize]
  omega

end Client

theorem remote_ts_iff (maxEntryNum : ℕ) (hmin : 8 ≤ maxEntryNum) (seq id userId remote : UInt32)
    (rx tx : List MapEntry) (ip ip' : IpHeader) (memClient memServer memRecv : ℕ → UInt8)
    (tsl : TsList) :
    (∃ request p reply ts,
      PingTraceClient.send memClient maxEntryNum seq id = some request ∧
      PingTraceServer.iteration userId rx tx (init memServer configMaxEntryNum)
        (ip.bytes ++ request) = some (p, some reply) ∧
      ContainsCounted reply ∧
      Accepted id remote (init memRecv configMaxEntryNum) (ip'.bytes ++ reply) remote ∧
      (collectRemoteTs (some ((init memRecv configMaxEntryNum).recv (ip'.bytes ++ reply)))
        tsl).list = tsl.list ++ ts ∧
      Forall₂ (Carries userId) ((rx ++ tx).take (maxEntryNum - 8)) ts) ↔
    maxEntryNum ≤ 4093 ∧ (maxEntryNum = 90 ∨ (rx ++ tx).length + 8 ≤ min maxEntryNum 90) ∧
      (rx ++ tx = [] ∨ userId.toNat < 65536) := by
  rcases Nat.lt_or_ge 4093 maxEntryNum with hlarge | hsmall
  · refine iff_of_false ?_ fun h => absurd h.1 (Nat.not_le.mpr hlarge)
    rintro ⟨request, -, -, -, hsend, -⟩
    rw [send_eq_none memClient seq id hlarge] at hsend
    cases hsend
  · obtain ⟨q, hsend, hq, hnum, hflags⟩ := send_eq_some memClient seq id hsmall
    obtain ⟨r, hiter, hr, hrnum, htaken⟩ :=
      iteration_spec userId rx tx memServer ip maxEntryNum hq hnum hflags
    have hk : min maxEntryNum 90 ≤ 90 := Nat.min_le_right _ _
    have htake : maxEntryNum = 90 ∨ (rx ++ tx).length + 8 ≤ min maxEntryNum 90 →
        (rx ++ tx).take (maxEntryNum - 8) = (rx ++ tx).take 82 := by
      rintro (rfl | hle)
      · rfl
      · rw [take_of_length_le (by omega), take_of_length_le (by omega)]
    have hnil : (rx ++ tx).take 82 = [] ↔ rx ++ tx = [] := by simp
    constructor
    · rintro ⟨request, p, reply, ts, hreq, hreply, hcounted, -, hlist, hall⟩
      rw [hsend] at hreq
      cases hreq
      rw [hiter] at hreply
      cases hreply
      have hle := (containsCounted_iff _).mp hcounted
      rw [client_collects ip' memRecv _ hk hle, append_cancel_left_eq, htaken] at hlist
      -- as many points as are counted, and as many as are asked for
      have hlen := hall.length_eq
      rw [← hlist, length_take, length_map, length_take] at hlen
      have hfit : maxEntryNum = 90 ∨ (rx ++ tx).length + 8 ≤ min maxEntryNum 90 := by omega
      rw [htake hfit, ← hlist, forall₂_carries_iff, hnil] at hall
      exact ⟨hsmall, hfit, hall⟩
    · rintro ⟨-, hfit, huser⟩
      have hle : r.entryNum ≤ min maxEntryNum 90 := by omega
      refine ⟨_, r, _, _, hsend, hiter, (containsCounted_iff _).mpr hle,
        client_accepted remote ip' memRecv _ hk hr, client_collects ip' memRecv _ hk hle tsl, ?_⟩
      rw [htake hfit, htaken, forall₂_carries_iff, hnil]
      exact huser

def plainIp : IpHeader :=
  ⟨[0x45, 0, 0, 0, 0, 0, 0, 0, 64, 1, 0, 0, 0, 0, 0, 0, 0, 0, 0, 0], rfl, rfl, rfl⟩

theorem remote_ts_one :
    ∃ request p reply ts,
      PingTraceClient.send (fun _ => 0) 32 0 1 = some request ∧
      PingTraceServer.iteration 7 [⟨1, 2000, 3, 4⟩] [] (init (fun _ => 0) configMaxEntryNum)
        (plainIp.bytes ++ request) = some (p, some reply) ∧
      ContainsCounted reply ∧
      Accepted 1 2 (init (fun _ => 0) configMaxEntryNum) (plainIp.bytes ++ reply) 2 ∧
      (collectRemoteTs (some ((init (fun _ => 0) configMaxEntryNum).recv
        (plainIp.bytes ++ reply))) ⟨0, 0, [], false⟩).list = [] ++ ts ∧
      Forall₂ (Carries 7) (([⟨1, 2000, 3, 4⟩] ++ [] : List MapEntry).take (32 - 8)) ts :=
  (remote_ts_iff 32 (by decide) 0 1 7 2 [⟨1, 2000, 3, 4⟩] [] plainIp plainIp (fun _ => 0)
    (fun _ => 0) (fun _ => 0) ⟨0, 0, [], false⟩).mpr
      ⟨by decide, .inr (by decide), .inr (by decide)⟩

theorem reply_not_containsCounted :
    ∃ request p reply,
      PingTraceClient.send (fun _ => 0) 32 0 1 = some request ∧
      PingTraceServer.iteration 7 (replicate 25 ⟨1, 2000, 3, 4⟩) []
        (init (fun _ => 0) configMaxEntryNum) (plainIp.bytes ++ request) = some (p, some reply) ∧
      p.entryNum = 33 ∧ reply.length = 24 + 16 * 32 ∧ ¬ ContainsCounted reply := by
  obtain ⟨q, hsend, hq, hnum, hflags⟩ := send_eq_some (fun _ => 0) 0 1 (show 32 ≤ 4093 by decide)
  obtain ⟨r, hiter, -, hrnum, -⟩ := iteration_spec 7 (replicate 25 ⟨1, 2000, 3, 4⟩) []
    (fun _ => 0) plainIp 32 hq hnum hflags
  refine ⟨_, r, _, hsend, hiter, hrnum, ?_, ?_⟩
  · rw [icmpPart, length_bytesAt]
    rfl
  · rw [containsCounted_iff, hrnum]
    decide

end Sysak.PingTrace
