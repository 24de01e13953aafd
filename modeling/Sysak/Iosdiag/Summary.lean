/-
# The summary of a request

`summary_convert_to_json` of `iosdiag/latency/format_json.c` writes of a request the component with
the largest delay, that delay and the total.  It measures every point from the one before, where
`delay_convert_to_json` leaves out points that are missing, and the differences are unsigned.
-/

import Sysak.Iosdiag.FormatJson
import Mathlib.Data.Fin.VecNotation

namespace Sysak.Iosdiag

open Lib Lib.Json List

structure SlowReq extends IosdiagReq where
  op : Bytes
  sector : UInt64
  dataLen : UInt32
  comm : Bytes
  pid : ℤ
  cpu : Fin 3 → ℤ

def getTotalDelay (ts : Point → UInt64) : UInt64 := micros ts 0 4

def getMaxDelay (ts : Point → UInt64) : UInt64 :=
  ([1, 2, 3, 4] : List Point).foldl (fun maxDelay i =>
    let delay := micros ts (i - 1) i
    if maxDelay < delay then delay else maxDelay) 0

def maxStep (ts : Point → UInt64) (st : UInt64 × Point) (i : Point) : UInt64 × Point :=
  let delay := micros ts (i - 1) i
  if st.1 < delay then (delay, i) else st

def getMaxDelayComponent (ts : Point → UInt64) : Bytes :=
  let idx := (([1, 2, 3, 4] : List Point).foldl (maxStep ts) (0, 0)).2
  if idx ≠ 0 then percentS (delayIdxToStr idx) else []

def summaryName (component : Bytes) : Bytes :=
  if component = bytes "disk" then component else bytes "os(" ++ component ++ bytes ")"

local instance neZeroThree : NeZero 3 := ⟨Nat.succ_ne_zero 2⟩

def summaryConvertToJson (date : Bytes) (iop : SlowReq) : Bytes :=
  let cpu :=
    if iop.cpu 0 = iop.cpu 1 ∧ iop.cpu 1 = iop.cpu 2 then decInt (iop.cpu 0)
    else decInt (iop.cpu 0) ++ bytes " -> " ++ decInt (iop.cpu 1) ++ bytes " -> " ++
      decInt (iop.cpu 2)
  bytes "\x7b\"time\":\"" ++ date ++ bytes "\",\"abnormal\":\"" ++
    summaryName (getMaxDelayComponent iop.ts) ++ bytes " delay (" ++
    dec (getMaxDelay iop.ts).toNat ++ bytes ":" ++ dec (getTotalDelay iop.ts).toNat ++
    bytes " us)\",\"diskname\":\"" ++ iop.diskname.text ++ bytes "\",\"iotype\":\"" ++ iop.op ++
    bytes "\",\"sector\":" ++ dec iop.sector.toNat ++ bytes ",\"datalen\":" ++
    dec iop.dataLen.toNat ++ bytes ",\"comm\":\"" ++ iop.comm ++ bytes "\",\"pid\":" ++
    decInt iop.pid ++ bytes ",\"cpu\":\"" ++ cpu ++ bytes "\"\x7d\n"

def SummaryAgrees (ts : Point → UInt64) : Prop :=
  (∃ p ∈ delays ts,
    summaryName (getMaxDelayComponent ts) = summaryName (percentS (delayIdxToStr p.1)) ∧
    getMaxDelay ts = p.2 ∧ ∀ q ∈ delays ts, q.2 ≤ p.2) ∧
  getMaxDelay ts ≤ getTotalDelay ts

variable {ts : Point → UInt64}

theorem micros_le_iff {n i : Point} : (micros ts n i).toNat ≤ 2 ^ 64 / 1000 ↔
    (ts n).toNat / 1000 ≤ (ts i).toNat / 1000 := by
  have hn := (ts n).toNat_lt
  have hi := (ts i).toNat_lt
  rw [micros, UInt64.toNat_sub, UInt64.toNat_div, UInt64.toNat_div]
  show _ % 2 ^ 64 ≤ _ ↔ _
  simp only [UInt64.reduceToNat]
  omega

theorem exists_of_mem_delaysFrom {is : List Point} {p : Point × UInt64} {n : Point}
    (h : p ∈ delaysFrom ts n is) : ∃ m, ts m < ts p.1 ∧ p.2 = micros ts m p.1 := by
  induction is generalizing n with
  | nil => cases h
  | cons i is ih =>
    rw [delaysFrom] at h
    split_ifs at h with hlt
    · rcases mem_cons.mp h with rfl | h
      · exact ⟨n, hlt, rfl⟩
      · exact ih h
    · exact ih h

def largest (ts : Point → UInt64) : UInt64 × Point :=
  ([1, 2, 3, 4] : List Point).foldl (maxStep ts) (0, 0)

theorem getMaxDelay_eq (ts : Point → UInt64) : getMaxDelay ts = (largest ts).1 := by
  rw [largest, ← foldl_hom Prod.fst fun st i => ?_]
  · rfl
  · simp only [maxStep, apply_ite Prod.fst]

theorem foldl_maxStep_spec (is : List Point) : ∀ st : UInt64 × Point,
    st.1 ≤ (is.foldl (maxStep ts) st).1 ∧
    (∀ i ∈ is, micros ts (i - 1) i ≤ (is.foldl (maxStep ts) st).1) ∧
    (is.foldl (maxStep ts) st = st ∨ (is.foldl (maxStep ts) st).2 ∈ is ∧
      (is.foldl (maxStep ts) st).1 = micros ts ((is.foldl (maxStep ts) st).2 - 1)
        (is.foldl (maxStep ts) st).2 ∧ st.1 < (is.foldl (maxStep ts) st).1) := by
  induction is with
  | nil => exact fun st => ⟨UInt64.le_refl _, fun i hi => (by cases hi), .inl rfl⟩
  | cons i is ih =>
    intro st
    obtain ⟨hge, hall, hcases⟩ := ih (maxStep ts st i)
    rw [foldl_cons]
    generalize is.foldl (maxStep ts) (maxStep ts st i) = r at hge hall hcases
    rw [maxStep] at hge hcases
    split_ifs at hge hcases with hlt
    · refine ⟨UInt64.le_of_lt (UInt64.lt_of_lt_of_le hlt hge), forall_mem_cons.mpr ⟨hge, hall⟩, ?_⟩
      rcases hcases with rfl | ⟨hmem, hr, hgt⟩
      · exact .inr ⟨mem_cons_self, rfl, hlt⟩
      · exact .inr ⟨mem_cons_of_mem i hmem, hr, UInt64.lt_trans hlt hgt⟩
    · refine ⟨hge, forall_mem_cons.mpr ⟨UInt64.le_trans (UInt64.not_lt.mp hlt) hge, hall⟩, ?_⟩
      exact hcases.imp_right fun h => ⟨mem_cons_of_mem i h.1, h.2⟩

theorem largest_spec (ts : Point → UInt64) :
    (∀ i ∈ ([1, 2, 3, 4] : List Point), micros ts (i - 1) i ≤ (largest ts).1) ∧
    (largest ts = (0, 0) ∨ (largest ts).2 ∈ ([1, 2, 3, 4] : List Point) ∧
      (largest ts).1 = micros ts ((largest ts).2 - 1) (largest ts).2 ∧ 0 < (largest ts).1) :=
  (foldl_maxStep_spec [1, 2, 3, 4] (0, 0)).2

theorem mem_delaysFrom_of_mono {is : List Point} : ∀ n : Point,
    is.IsChain (fun i j => j - 1 = i) → (∀ i ∈ is.head?, ts (i - 1) / 1000 = ts n / 1000) →
    (∀ i ∈ is, ts (i - 1) / 1000 ≤ ts i / 1000) →
    (∀ i ∈ is, (i, micros ts (i - 1) i) ∈ delaysFrom ts n is ∨ micros ts (i - 1) i = 0) ∧
      ∀ p ∈ delaysFrom ts n is, p.2 = micros ts (p.1 - 1) p.1 := by
  induction is with
  | nil => exact fun n _ _ _ => ⟨fun i hi => (by cases hi), fun p hp => by cases hp⟩
  | cons i is ih =>
    intro n hchain hbase hmono
    have hn : ts (i - 1) / 1000 = ts n / 1000 := hbase i rfl
    have hi := hmono i mem_cons_self
    have hnext : ∀ j ∈ is.head?, ts (j - 1) / 1000 = ts i / 1000 := by
      cases is with
      | nil => exact fun _ hj => by cases hj
      | cons j is =>
        rintro _ ⟨⟩
        rw [(isChain_cons_cons.mp hchain).1]
    have hmicros : micros ts n i = micros ts (i - 1) i := by rw [micros, micros, hn]
    rw [delaysFrom]
    split_ifs with hlt
    · obtain ⟨hin, hval⟩ := ih i hchain.of_cons hnext fun j hj => hmono j (mem_cons_of_mem i hj)
      rw [hmicros]
      refine ⟨forall_mem_cons.mpr ⟨.inl mem_cons_self, fun j hj => ?_⟩,
        forall_mem_cons.mpr ⟨rfl, hval⟩⟩
      exact (hin j hj).imp_left (mem_cons_of_mem _)
    · -- a point that is left out is in the same microsecond
      have hsame : ts i / 1000 = ts n / 1000 := by
        rw [hn] at hi
        refine UInt64.le_antisymm (UInt64.le_iff_toNat_le.mpr ?_) hi
        rw [UInt64.toNat_div, UInt64.toNat_div]
        exact Nat.div_le_div_right (UInt64.le_iff_toNat_le.mp (UInt64.not_lt.mp hlt))
      obtain ⟨hin, hval⟩ := ih n hchain.of_cons (fun j hj => (hnext j hj).trans hsame)
        fun j hj => hmono j (mem_cons_of_mem i hj)
      refine ⟨forall_mem_cons.mpr ⟨.inr ?_, hin⟩, hval⟩
      rw [← hmicros, micros, hsame, UInt64.sub_self]

theorem mem_points_iff : ∀ i : Point, i ∈ ([1, 2, 3, 4] : List Point) ↔ i ≠ 0 := by decide

theorem mono_of_agrees (h : SummaryAgrees ts) {i : Point} (hi : i ≠ 0) :
    ts (i - 1) / 1000 ≤ ts i / 1000 := by
  obtain ⟨⟨p, hp, -, hmax, -⟩, -⟩ := h
  obtain ⟨m, hlt, hval⟩ := exists_of_mem_delaysFrom hp
  rw [getMaxDelay_eq, hval] at hmax
  have hle := (largest_spec ts).1 i ((mem_points_iff i).mpr hi)
  rw [hmax, UInt64.le_iff_toNat_le] at hle
  have hsmall := micros_le_iff.mpr (Nat.div_le_div_right (c := 1000) (UInt64.le_of_lt hlt))
  exact UInt64.le_iff_toNat_le.mpr (micros_le_iff.mp (hle.trans hsmall))

section Mono

variable (h : ∀ i : Point, i ≠ 0 → ts (i - 1) / 1000 ≤ ts i / 1000)
include h

theorem toNat_gap {i : Point} (hi : i ≠ 0) : (ts (i - 1)).toNat / 1000 ≤ (ts i).toNat / 1000 ∧
    (micros ts (i - 1) i).toNat = (ts i).toNat / 1000 - (ts (i - 1)).toNat / 1000 := by
  have hle := UInt64.le_iff_toNat_le.mp (h i hi)
  exact ⟨hle, toNat_micros hle⟩

theorem between_ends {i : Point} (hi : i ≠ 0) :
    (ts 0).toNat / 1000 ≤ (ts (i - 1)).toNat / 1000 ∧
      (ts i).toNat / 1000 ≤ (ts 4).toNat / 1000 := by
  have h₁ : (ts 0).toNat / 1000 ≤ (ts 1).toNat / 1000 := (toNat_gap h (i := 1) (by decide)).1
  have h₂ : (ts 1).toNat / 1000 ≤ (ts 2).toNat / 1000 := (toNat_gap h (i := 2) (by decide)).1
  have h₃ : (ts 2).toNat / 1000 ≤ (ts 3).toNat / 1000 := (toNat_gap h (i := 3) (by decide)).1
  have h₄ : (ts 3).toNat / 1000 ≤ (ts 4).toNat / 1000 := (toNat_gap h (i := 4) (by decide)).1
  match i with
  | 0 => exact absurd rfl hi
  | 1 => exact ⟨le_rfl, h₂.trans (h₃.trans h₄)⟩
  | 2 => exact ⟨h₁, h₃.trans h₄⟩
  | 3 => exact ⟨h₁.trans h₂, h₄⟩
  | 4 => exact ⟨h₁.trans (h₂.trans h₃), le_rfl⟩

theorem lt_iff_largest : ts 0 / 1000 < ts 4 / 1000 ↔ largest ts ≠ (0, 0) := by
  obtain ⟨hall, hcases⟩ := largest_spec ts
  rw [UInt64.lt_iff_toNat_lt]
  show (ts 0).toNat / 1000 < (ts 4).toNat / 1000 ↔ _
  constructor
  · intro hlt hzero
    have hgap : ∀ i : Point, i ≠ 0 → (ts i).toNat / 1000 ≤ (ts (i - 1)).toNat / 1000 := by
      intro i hi
      have hle := UInt64.le_iff_toNat_le.mp (hall i ((mem_points_iff i).mpr hi))
      rw [hzero, (toNat_gap h hi).2] at hle
      exact Nat.sub_eq_zero_iff_le.mp (Nat.le_zero.mp hle)
    have h₁ : (ts 1).toNat / 1000 ≤ (ts 0).toNat / 1000 := hgap 1 (by decide)
    have h₂ : (ts 2).toNat / 1000 ≤ (ts 1).toNat / 1000 := hgap 2 (by decide)
    have h₃ : (ts 3).toNat / 1000 ≤ (ts 2).toNat / 1000 := hgap 3 (by decide)
    have h₄ : (ts 4).toNat / 1000 ≤ (ts 3).toNat / 1000 := hgap 4 (by decide)
    omega
  · intro hne
    obtain ⟨hmem, hval, hpos⟩ := hcases.resolve_left hne
    have hi := (mem_points_iff _).mp hmem
    have hends := between_ends h hi
    rw [hval, UInt64.lt_iff_toNat_lt, (toNat_gap h hi).2] at hpos
    have hpos : 0 < _ := hpos
    omega

theorem micros_le_total {i : Point} (hi : i ≠ 0) : micros ts (i - 1) i ≤ micros ts 0 4 := by
  have hends := between_ends h hi
  have hgap := toNat_gap h hi
  rw [UInt64.le_iff_toNat_le, hgap.2, toNat_micros (by omega)]
  omega

end Mono

theorem summaryAgrees_iff (ts : Point → UInt64) : SummaryAgrees ts ↔
    (∀ i : Point, i ≠ 0 → ts (i - 1) / 1000 ≤ ts i / 1000) ∧ ts 0 / 1000 < ts 4 / 1000 := by
  constructor
  · intro h
    have hmono := fun i (hi : i ≠ 0) => mono_of_agrees h hi
    refine ⟨hmono, (lt_iff_largest hmono).mpr fun hzero => ?_⟩
    -- without a largest delay the summary has no component
    obtain ⟨⟨p, -, hcomp, -⟩, -⟩ := h
    have hname : ∀ i : Point, summaryName [] ≠ summaryName (percentS (delayIdxToStr i)) := by
      decide
    rw [getMaxDelayComponent, ← largest, hzero] at hcomp
    exact hname p.1 hcomp
  · rintro ⟨hmono, hlt⟩
    obtain ⟨hall, hcases⟩ := largest_spec ts
    obtain ⟨hmem, hval, hpos⟩ := hcases.resolve_left ((lt_iff_largest hmono).mp hlt)
    obtain ⟨hin, heach⟩ := mem_delaysFrom_of_mono 0 (by decide) (fun i hi => by cases hi; rfl)
      fun i hi => hmono i ((mem_points_iff i).mp hi)
    have hentry := (hin _ hmem).resolve_right (hval ▸ (UInt64.ne_of_lt hpos).symm)
    have hidx := (mem_points_iff _).mp hmem
    refine ⟨⟨_, hentry, ?_, ?_, fun q hq => ?_⟩, ?_⟩
    · rw [getMaxDelayComponent, ← largest, if_pos hidx]
    · rw [getMaxDelay_eq, hval]
    · rw [heach q hq, ← hval]
      exact hall q.1 (mem_of_mem_delaysFrom hq)
    · rw [getMaxDelay_eq, hval, getTotalDelay]
      exact micros_le_total hmono hidx

theorem not_summaryAgrees_missing :
    getMaxDelayComponent ![1000000, 2000000, 0, 4000000, 5000000] = bytes "driver" ∧
      getMaxDelay ![1000000, 2000000, 0, 4000000, 5000000] = 18446744073709549616 ∧
      delays ![1000000, 2000000, 0, 4000000, 5000000] = [(1, 1000), (3, 2000), (4, 1000)] ∧
      ¬SummaryAgrees ![1000000, 2000000, 0, 4000000, 5000000] := by
  have hmax : getMaxDelay ![1000000, 2000000, 0, 4000000, 5000000] = 18446744073709549616 := by
    decide
  refine ⟨by decide, hmax, by decide, fun h => ?_⟩
  have hle := h.2
  rw [hmax] at hle
  revert hle
  decide

end Sysak.Iosdiag
