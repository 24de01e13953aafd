/-
# The checksum of a packet
-/

import Sysak.Lib.OnesComplement
import Sysak.PingTrace.Packet

namespace Sysak.PingTrace

open Lib List Option

def bytesAt (mem : ℕ → UInt8) (k n : ℕ) : List UInt8 := (range n).map fun j => mem (k + j)

def writeAt (mem : ℕ → UInt8) (k : ℕ) (bytes : List UInt8) (j : ℕ) : UInt8 :=
  if k ≤ j then bytes.getD (j - k) (mem j) else mem j

def beBytes (n x : ℕ) : List UInt8 := (leBytes n x).reverse

def checksumLoop (mem : ℕ → UInt8) (len : UInt32) :
    ℕ → UInt16 → ℕ → UInt32 → Option (ℕ × UInt32)
  | 0, _, _, _ => none
  | fuel + 1, i, wptr, csum =>
    if i.toUInt32 < len then
      checksumLoop mem len fuel (i + 2) (wptr + 2)
        (csum + UInt32.ofNat (leNat (bytesAt mem wptr 2)))
    else
      some (wptr, csum)

def addCarry (csum : UInt32) : UInt32 :=
  let high : UInt32 := csum >>> 16
  if high ≠ 0 then (csum &&& (0xFFFF : UInt32)) + high else csum

def doChecksum (mem : ℕ → UInt8) (start : ℕ) (len : UInt32) : Option UInt16 :=
  (checksumLoop mem len 32769 1 start 0).map fun (wptr, csum) =>
    let csum := if (len &&& (1 : UInt32)) ≠ 0 then csum + (mem wptr).toUInt32 else csum
    (~~~(addCarry csum)).toUInt16

namespace PingTracePacket

def updateChecksum (p : PingTracePacket) : Option PingTracePacket :=
  let p := p.withMem (writeAt p.mem 22 [0, 0])
  (doChecksum p.mem 20 (UInt32.ofInt (p.bufSize - 20))).map fun csum =>
    p.withMem (writeAt p.mem 22 (leBytes 2 csum.toNat))

def initHeader (p : PingTracePacket) (seq id : UInt32) (reserveEntryNum : ℕ) : PingTracePacket :=
  let mem := fun k : ℕ => if (k : ℤ) < p.bufSize then 0 else p.mem k
  let mem := writeAt mem 20 [8, 1, 0, 0]
  let mem := writeAt mem 24 (beBytes 2 (id.toNat % 65536))
  let mem := writeAt mem 26 (beBytes 2 (seq.toNat % 65536))
  let mem := writeAt mem 28 [0, UInt8.ofNat reserveEntryNum, 0, 0]
  let mem := writeAt mem 32 (beBytes 2 0x7ace)
  let mem := writeAt mem 40 (beBytes 4 seq.toNat)
  p.withMem (writeAt mem 36 (beBytes 4 id.toNat))

def pack (p : PingTracePacket) (seq id : UInt32) (reserveEntryNum : ℕ) : Option PingTracePacket :=
  (p.initHeader seq id reserveEntryNum).updateChecksum

def icmpPart (p : PingTracePacket) (n : ℕ) : List UInt8 := bytesAt p.mem 20 n

end PingTracePacket

variable (mem : ℕ → UInt8)

@[simp] theorem length_bytesAt (k n : ℕ) : (bytesAt mem k n).length = n := by
  rw [bytesAt, length_map, length_range]

theorem bytesAt_succ (k n : ℕ) : bytesAt mem k (n + 1) = mem k :: bytesAt mem (k + 1) n := by
  rw [bytesAt, bytesAt, range_succ_eq_map, map_cons, List.map_map]
  congr 1
  refine map_congr_left fun j _ => ?_
  rw [Function.comp_apply, Nat.add_right_comm, Nat.add_assoc]

theorem bytesAt_congr {mem mem' : ℕ → UInt8} {k n : ℕ}
    (h : ∀ j, k ≤ j → j < k + n → mem j = mem' j) : bytesAt mem k n = bytesAt mem' k n := by
  refine map_congr_left fun j hj => h _ (Nat.le_add_right k j) ?_
  have := mem_range.mp hj
  omega

theorem writeAt_of_not {mem : ℕ → UInt8} {k j : ℕ} {bytes : List UInt8}
    (h : j < k ∨ k + bytes.length ≤ j) : writeAt mem k bytes j = mem j := by
  rw [writeAt]
  split_ifs with hk
  · rw [getD_eq_default _ _ (by omega)]
  · rfl

theorem writeAt_of_lt (k : ℕ) {i : ℕ} {bytes : List UInt8} (h : i < bytes.length) :
    writeAt mem k bytes (k + i) = bytes[i] := by
  rw [writeAt, if_pos (Nat.le_add_right k i), Nat.add_sub_cancel_left,
    getD_eq_getElem _ _ h]

theorem leSum_bytesAt_add_two (k n : ℕ) :
    leSum (bytesAt mem k (n + 2)) = leNat (bytesAt mem k 2) + leSum (bytesAt mem (k + 2) n) := by
  have htwo : leNat (bytesAt mem k 2) = (mem k).toNat + 256 * (mem (k + 1)).toNat := rfl
  rw [bytesAt_succ, bytesAt_succ, leSum, htwo]

theorem checksumLoop_spec {len : UInt32} (hlen : len.toNat < 65535) (n : ℕ) :
    ∀ (fuel : ℕ) (i : UInt16) (wptr : ℕ) (csum : UInt32), i.toNat + n = len.toNat + 1 →
      n < 2 * fuel → csum.toNat + leSum (bytesAt mem wptr n) < 2 ^ 32 →
      ∃ wptr' csum', checksumLoop mem len fuel i wptr csum = some (wptr', csum') ∧
        csum.toNat + leSum (bytesAt mem wptr n) =
          csum'.toNat + if n % 2 = 1 then (mem wptr').toNat else 0 := by
  -- two bytes at a time; `n` are left
  induction n using Nat.twoStepInduction with
  | zero =>
    intro fuel i wptr csum hi hfuel hsum
    obtain ⟨fuel, rfl⟩ := Nat.exists_eq_succ_of_ne_zero (show fuel ≠ 0 by omega)
    have hstop : ¬ i.toUInt32 < len := by
      rw [UInt32.lt_iff_toNat_lt, UInt16.toNat_toUInt32]
      omega
    exact ⟨wptr, csum, by rw [checksumLoop, if_neg hstop], rfl⟩
  | one =>
    intro fuel i wptr csum hi hfuel hsum
    obtain ⟨fuel, rfl⟩ := Nat.exists_eq_succ_of_ne_zero (show fuel ≠ 0 by omega)
    have hstop : ¬ i.toUInt32 < len := by
      rw [UInt32.lt_iff_toNat_lt, UInt16.toNat_toUInt32]
      omega
    exact ⟨wptr, csum, by rw [checksumLoop, if_neg hstop], rfl⟩
  | more n ih _ =>
    intro fuel i wptr csum hi hfuel hsum
    obtain ⟨fuel, rfl⟩ := Nat.exists_eq_succ_of_ne_zero (show fuel ≠ 0 by omega)
    have hgo : i.toUInt32 < len := by
      rw [UInt32.lt_iff_toNat_lt, UInt16.toNat_toUInt32]
      omega
    have hi' : (i + 2).toNat = i.toNat + 2 := by
      have htwo : (2 : UInt16).toNat = 2 := rfl
      rw [UInt16.toNat_add, htwo, Nat.mod_eq_of_lt]
      omega
    rw [leSum_bytesAt_add_two] at hsum ⊢
    have hword : (csum + UInt32.ofNat (leNat (bytesAt mem wptr 2))).toNat =
        csum.toNat + leNat (bytesAt mem wptr 2) := by
      rw [UInt32.toNat_add, UInt32.toNat_ofNat', Nat.add_mod_mod, Nat.mod_eq_of_lt]
      omega
    obtain ⟨wptr', csum', hloop, heq⟩ :=
      ih fuel (i + 2) (wptr + 2) (csum + UInt32.ofNat (leNat (bytesAt mem wptr 2)))
        (by omega) (by omega) (by omega)
    refine ⟨wptr', csum', by rw [checksumLoop, if_pos hgo, hloop], ?_⟩
    rw [Nat.add_mod_right, ← heq]
    omega

theorem toNat_addCarry (csum : UInt32) : (addCarry csum).toNat = foldCarry csum.toNat := by
  have hlt := csum.toNat_lt
  have hhigh : (csum >>> 16).toNat = csum.toNat / 65536 := by
    rw [UInt32.toNat_shiftRight]
    exact Nat.shiftRight_eq_div_pow _ 16
  have hlow : (csum &&& (0xFFFF : UInt32)).toNat = csum.toNat % 65536 := by
    rw [UInt32.toNat_and]
    exact Nat.and_two_pow_sub_one_eq_mod _ 16
  rw [addCarry, foldCarry]
  split_ifs with h
  · rw [UInt32.toNat_add, hlow, hhigh, Nat.mod_eq_of_lt]
    omega
  · have hzero : csum.toNat / 65536 = 0 := by
      rw [← hhigh, not_not.mp h]
      rfl
    omega

theorem doChecksum_eq (start : ℕ) {len : UInt32} (hlen : len.toNat < 65535) :
    ∃ csum, doChecksum mem start len = some csum ∧
      csum.toNat = 65535 - foldCarry (leSum (bytesAt mem start len.toNat)) % 65536 := by
  have hsum := leSum_le (bytesAt mem start len.toNat)
  rw [length_bytesAt] at hsum
  obtain ⟨wptr, csum, hloop, heq⟩ := checksumLoop_spec mem hlen len.toNat 32769 1 start 0
    (Nat.add_comm 1 _) (by omega) (by rw [UInt32.toNat_zero]; omega)
  rw [UInt32.toNat_zero, Nat.zero_add] at heq
  refine ⟨_, by rw [doChecksum, hloop, map_some], ?_⟩
  have hparity : (len &&& (1 : UInt32)) ≠ 0 ↔ len.toNat % 2 = 1 := by
    have hand : (len &&& (1 : UInt32)).toNat = len.toNat % 2 := by
      rw [UInt32.toNat_and]
      exact Nat.and_two_pow_sub_one_eq_mod _ 1
    rw [ne_eq, ← UInt32.toNat_inj, hand, UInt32.toNat_zero]
    omega
  have hodd : (if (len &&& (1 : UInt32)) ≠ 0 then csum + (mem wptr).toUInt32 else csum).toNat =
      leSum (bytesAt mem start len.toNat) := by
    simp only [hparity]
    split_ifs at heq ⊢
    · rw [UInt32.toNat_add, UInt8.toNat_toUInt32, ← heq, Nat.mod_eq_of_lt]
      omega
    · exact heq.symm
  have hsize : UInt32.size = 4294967296 := rfl
  rw [UInt32.toNat_toUInt16, UInt32.toNat_not, toNat_addCarry, hodd, foldCarry, hsize]
  omega

namespace PingTracePacket

def zeroChecksum (p : PingTracePacket) : PingTracePacket := p.withMem (writeAt p.mem 22 [0, 0])

variable (p : PingTracePacket)

theorem leSum_icmpPart (n : ℕ) : leSum (p.icmpPart (n + 4)) =
    leNat (bytesAt p.mem 20 2) + (leNat (bytesAt p.mem 22 2) + leSum (bytesAt p.mem 24 n)) := by
  rw [icmpPart, leSum_bytesAt_add_two _ 20 (n + 2), leSum_bytesAt_add_two _ 22 n]

theorem leNat_bytesAt_writeAt (k : ℕ) {x : ℕ} (hx : x < 65536) :
    leNat (bytesAt (writeAt mem k (leBytes 2 x)) k 2) = x := by
  have hbytes : bytesAt (writeAt mem k (leBytes 2 x)) k 2 = leBytes 2 x := by
    rw [bytesAt_succ, bytesAt_succ]
    have hlen := length_leBytes 2 x
    have h0 := writeAt_of_lt mem k (show 0 < (leBytes 2 x).length by omega)
    have h1 := writeAt_of_lt mem k (show 1 < (leBytes 2 x).length by omega)
    rw [Nat.add_zero] at h0
    rw [h0, h1]
    rfl
  rw [hbytes, leNat_leBytes_of_lt hx]

theorem leSum_writeAt_checksum {n : ℕ} (hn : 4 ≤ n) {x : ℕ} (hx : x < 65536) :
    leSum ((p.withMem (writeAt p.zeroChecksum.mem 22 (leBytes 2 x))).icmpPart n) =
      leSum (p.zeroChecksum.icmpPart n) + x := by
  obtain ⟨n, rfl⟩ := Nat.exists_eq_add_of_le' hn
  have hzero : leNat (bytesAt p.zeroChecksum.mem 22 2) = 0 :=
    leNat_bytesAt_writeAt p.mem 22 (Nat.zero_lt_succ _)
  have hlow : bytesAt (writeAt p.zeroChecksum.mem 22 (leBytes 2 x)) 20 2 =
      bytesAt p.zeroChecksum.mem 20 2 :=
    bytesAt_congr fun j _ hj => writeAt_of_not (.inl (by omega))
  have hhigh : bytesAt (writeAt p.zeroChecksum.mem 22 (leBytes 2 x)) 24 n =
      bytesAt p.zeroChecksum.mem 24 n :=
    bytesAt_congr fun j hj _ => writeAt_of_not (.inr (by rw [length_leBytes]; omega))
  rw [leSum_icmpPart, leSum_icmpPart, withMem, leNat_bytesAt_writeAt _ _ hx, hlow, hhigh, hzero]
  omega

theorem updateChecksum_frame {p p' : PingTracePacket} (h : p.updateChecksum = some p') :
    p'.bufCap = p.bufCap ∧ p'.bufSize = p.bufSize ∧
      ∀ j, j < 22 ∨ 24 ≤ j → p'.mem j = p.mem j := by
  rw [updateChecksum, ← zeroChecksum, map_eq_some_iff] at h
  obtain ⟨csum, -, rfl⟩ := h
  refine ⟨rfl, rfl, fun j hj => ?_⟩
  have hlen := length_leBytes 2 csum.toNat
  have hzero : p.zeroChecksum.mem j = p.mem j :=
    writeAt_of_not (show j < 22 ∨ 22 + [0, 0].length ≤ j by simpa using hj)
  rw [← hzero]
  exact writeAt_of_not (by omega)

theorem updateChecksum_sum {n : ℕ} (hsize : p.bufSize = 20 + n) (hmin : 4 ≤ n) (hmax : n < 65535) :
    ∃ p', p.updateChecksum = some p' ∧ leSum (p'.icmpPart n) =
      leSum (p.zeroChecksum.icmpPart n) +
        (65535 - foldCarry (leSum (p.zeroChecksum.icmpPart n)) % 65536) := by
  have hlen : (UInt32.ofInt (p.bufSize - 20)).toNat = n := by
    rw [hsize, add_sub_cancel_left, UInt32.ofInt, UInt32.toNat_ofNat']
    omega
  obtain ⟨csum, hdo, hcsum⟩ := doChecksum_eq p.zeroChecksum.mem 20 (hlen.symm ▸ hmax)
  rw [hlen, ← icmpPart] at hcsum
  have hupdate : p.updateChecksum =
      some (p.withMem (writeAt p.zeroChecksum.mem 22 (leBytes 2 csum.toNat))) := by
    rw [updateChecksum, ← zeroChecksum]
    exact congrArg _ hdo
  exact ⟨_, hupdate, by rw [leSum_writeAt_checksum p hmin csum.toNat_lt, hcsum]⟩

theorem leSum_icmpPart_lt {n : ℕ} (hmax : n < 65535) : leSum (p.icmpPart n) < 2 ^ 32 := by
  have hle := leSum_le (p.icmpPart n)
  rw [icmpPart, length_bytesAt, ← icmpPart] at hle
  omega

theorem updateChecksum_valid_iff (p : PingTracePacket) (n : ℕ) (hsize : p.bufSize = 20 + n)
    (hmin : 4 ≤ n) (hmax : n < 65535) :
    ∃ p', p.updateChecksum = some p' ∧
      (foldCarries (beSum (p'.icmpPart n)) = 0xffff ↔
        foldCarry (leSum (p.zeroChecksum.icmpPart n)) < 65536) := by
  obtain ⟨p', hupdate, hsum⟩ := p.updateChecksum_sum hsize hmin hmax
  refine ⟨p', hupdate, ?_⟩
  rw [foldCarries_beSum_eq_top_iff, hsum]
  exact foldCarries_add_complement_iff (p.zeroChecksum.leSum_icmpPart_lt hmax)

theorem updateChecksum_valid_iff_zero :
    ∃ p', (init (fun _ => 0) 8).updateChecksum = some p' ∧
      (foldCarries (beSum (p'.icmpPart 152)) = 0xffff ↔
        foldCarry (leSum ((init (fun _ => 0) 8).zeroChecksum.icmpPart 152)) < 65536) :=
  updateChecksum_valid_iff (init (fun _ => 0) 8) 152 rfl (by decide) (by decide)

theorem pack_invalid :
    ∃ p', (init (fun _ => 0) 8).pack 0 0x7d280080 8 = some p' ∧
      foldCarries (beSum (p'.icmpPart 152)) ≠ 0xffff := by
  obtain ⟨p', hupdate, hsum⟩ := ((init (fun _ => 0) 8).initHeader 0 0x7d280080 8).updateChecksum_sum
    (n := 152) rfl (by decide) (by decide)
  refine ⟨p', hupdate, ?_⟩
  have hwords :
      leSum (((init (fun _ => 0) 8).initHeader 0 0x7d280080 8).zeroChecksum.icmpPart 152) =
        0x1ffff := by decide +kernel
  rw [ne_eq, foldCarries_beSum_eq_top_iff, hsum, hwords, foldCarries_add_complement_iff (by decide)]
  decide

end PingTracePacket

end Sysak.PingTrace
