/-
# Statistics of the delays
-/

import Mathlib.Algebra.Order.BigOperators.Group.List
import Mathlib.Order.Bounds.Basic
import Sysak.PingTrace.Recorder

namespace Sysak.PingTrace

open List Option

structure PacketNum where
  sendNum : UInt32
  replyNum : UInt32
  lostNum : UInt32
deriving Repr, DecidableEq

structure StageStat where
  minDelay : Int32
  maxDelay : Int32
  avgDelay : Int32
  mask : Bool
deriving Repr, DecidableEq

structure EcsTimeStampStat where
  packetNum : PacketNum
  stage : Delay → StageStat

def EcsTimeStampRecorder.getStatisticsData (r : EcsTimeStampRecorder) : EcsTimeStampStat where
  packetNum := ⟨r.sendCount, r.replyCount, r.sendCount - r.replyCount⟩
  stage d :=
    let s := r.stages d
    ⟨s.minDelay, s.maxDelay,
      if r.replyCount = 0 then 0 else (s.sumDelay / r.replyCount.toUInt64.toInt64).toInt32, s.mask⟩

structure Request where
  tsl : TsList
  dstip : UInt32
  seq : UInt32

def EcsTimeStampRecorder.processAll (r : EcsTimeStampRecorder) :
    List Request → Option (EcsTimeStampRecorder × List Results)
  | [] => some (r, [])
  | q :: qs => (r.process q.tsl q.dstip q.seq).bind fun one =>
    (one.1.processAll qs).map fun rest => (rest.1, one.2 :: rest.2)

def Results.measured (d : Delay) (tsr : Results) : Option ℤ :=
  if (tsr.delay d).mask then some (tsr.delay d).ts.toInt else none

def replies (qs : List Request) : ℕ := qs.countP fun q => !q.tsl.timeout

def timeouts (qs : List Request) : ℕ := qs.countP fun q => q.tsl.timeout

structure EcsTimeStampStat.Right (stat : EcsTimeStampStat) (rs : List Results) (lost : ℕ) :
    Prop where
  least : ∀ d, rs.filterMap (Results.measured d) ≠ [] →
    IsLeast {x | x ∈ rs.filterMap (Results.measured d)} (stat.stage d).minDelay.toInt
  greatest : ∀ d, rs.filterMap (Results.measured d) ≠ [] →
    IsGreatest {x | x ∈ rs.filterMap (Results.measured d)} (stat.stage d).maxDelay.toInt
  average : ∀ d, rs.filterMap (Results.measured d) ≠ [] → (stat.stage d).avgDelay.toInt =
    (rs.filterMap (Results.measured d)).sum.tdiv (rs.filterMap (Results.measured d)).length
  lost_num : stat.packetNum.lostNum.toNat = lost

def overReplies (sum : ℤ) (replies : ℕ) : ℤ :=
  if replies % 2 ^ 32 = 0 then 0
  else ((sum.bmod (2 ^ 64)).tdiv (replies % 2 ^ 32 : ℕ)).bmod (2 ^ 32)

structure StageInfo.Counted (m : List ℤ) (s : StageInfo) : Prop where
  least : IsLeast (insert (2 ^ 31 - 1) {x | x ∈ m}) s.minDelay.toInt
  greatest : IsGreatest (insert (-2 ^ 31) {x | x ∈ m}) s.maxDelay.toInt
  sum : s.sumDelay.toInt = m.sum.bmod (2 ^ 64)

namespace StageInfo

variable {m : List ℤ} {s : StageInfo}

theorem toInt_min (a b : Int32) : (min a b).toInt = min a.toInt b.toInt := by
  show (if a ≤ b then a else b).toInt = _
  split_ifs with h
  · rw [min_eq_left (Int32.le_iff_toInt_le.mp h)]
  · rw [min_eq_right (not_le.mp (mt Int32.le_iff_toInt_le.mpr h)).le]

theorem toInt_max (a b : Int32) : (max a b).toInt = max a.toInt b.toInt := by
  show (if a ≤ b then b else a).toInt = _
  split_ifs with h
  · rw [max_eq_right (Int32.le_iff_toInt_le.mp h)]
  · rw [max_eq_left (not_le.mp (mt Int32.le_iff_toInt_le.mpr h)).le]

theorem counted_nil : Counted [] ⟨Int32.maxValue, Int32.minValue, 0, false⟩ where
  least := by simp [Int32.toInt_maxValue]
  greatest := by simp
  sum := rfl

theorem Counted.count (h : Counted m s) (d : Delay) (tsr : Results) :
    Counted (m ++ (tsr.measured d).toList) (s.count (tsr.delay d)) := by
  unfold StageInfo.count Results.measured
  split_ifs
  · have hset : ∀ b : ℤ, insert b {x | x ∈ m ++ [(tsr.delay d).ts.toInt]} =
        insert (tsr.delay d).ts.toInt (insert b {x | x ∈ m}) := by
      intro b
      ext x
      simp only [Set.mem_insert_iff, Set.mem_ofPred_eq, mem_append, mem_singleton]
      tauto
    refine ⟨?_, ?_, ?_⟩
    · rw [toList_some, hset, toInt_min, min_comm]
      exact h.least.insert _
    · rw [toList_some, hset, toInt_max, max_comm]
      exact h.greatest.insert _
    · rw [toList_some, Int64.toInt_add, h.sum, Int32.toInt_toInt64, sum_append,
        sum_singleton, Int.bmod_add_bmod]
  · rw [toList_none, append_nil]
    exact h

theorem Counted.isLeast (h : Counted m s) (hm : m ≠ []) (hle : ∀ x ∈ m, x ≤ 2 ^ 31 - 1) :
    IsLeast {x | x ∈ m} s.minDelay.toInt := by
  refine ⟨?_, fun x hx => h.least.2 (Set.mem_insert_of_mem _ hx)⟩
  rcases h.least.1 with htop | hmem
  · obtain ⟨x, hx⟩ := exists_mem_of_ne_nil _ hm
    have hxle := h.least.2 (Set.mem_insert_of_mem _ hx)
    rw [htop] at hxle ⊢
    rwa [← le_antisymm (hle x hx) hxle]
  · exact hmem

theorem Counted.isGreatest (h : Counted m s) (hm : m ≠ []) (hle : ∀ x ∈ m, -2 ^ 31 ≤ x) :
    IsGreatest {x | x ∈ m} s.maxDelay.toInt := by
  refine ⟨?_, fun x hx => h.greatest.2 (Set.mem_insert_of_mem _ hx)⟩
  rcases h.greatest.1 with hbot | hmem
  · obtain ⟨x, hx⟩ := exists_mem_of_ne_nil _ hm
    have hxle := h.greatest.2 (Set.mem_insert_of_mem _ hx)
    rw [hbot] at hxle ⊢
    rwa [le_antisymm (hle x hx) hxle]
  · exact hmem

end StageInfo

structure EcsTimeStampRecorder.Counted (r : EcsTimeStampRecorder) (rs : List Results) (k t : ℕ) :
    Prop where
  stages : ∀ d, (r.stages d).Counted (rs.filterMap (Results.measured d))
  send : r.sendCount = UInt32.ofNat (k + t)
  reply : r.replyCount = UInt32.ofNat k

namespace EcsTimeStampRecorder

variable {r r' : EcsTimeStampRecorder} {rs : List Results} {k t : ℕ}

theorem process_spec {tsl : TsList} {dstip seq : UInt32} {tsr : Results}
    (h : r.process tsl dstip seq = some (r', tsr)) :
    r'.sendCount = r.sendCount + 1 ∧
      r'.replyCount = (if tsl.timeout then r.replyCount else r.replyCount + 1) ∧
      ∀ d, r'.stages d = (r.stages d).count (tsr.delay d) := by
  rw [process] at h
  split_ifs at h with hto
  · cases h
    exact ⟨rfl, (if_pos hto).symm, fun d => rfl⟩
  · simp only [bind_eq_bind, bind_eq_some_iff] at h
    obtain ⟨points, -, ⟨hist, tsr'⟩, -, h⟩ := h
    cases h
    exact ⟨rfl, (if_neg hto).symm, fun d => rfl⟩

theorem Counted.process (hr : r.Counted rs k t) {q : Request} {tsr : Results}
    (h : r.process q.tsl q.dstip q.seq = some (r', tsr)) :
    r'.Counted (rs ++ [tsr]) (k + replies [q]) (t + timeouts [q]) := by
  obtain ⟨hsend, hreply, hstages⟩ := process_spec h
  refine ⟨fun d => ?_, ?_, ?_⟩
  · rw [hstages, filterMap_append]
    have hone : filterMap (Results.measured d) [tsr] = (tsr.measured d).toList := by
      rw [filterMap_cons, filterMap_nil]
      cases tsr.measured d <;> rfl
    rw [hone]
    exact (hr.stages d).count d tsr
  · have hsum : k + replies [q] + (t + timeouts [q]) = k + t + 1 := by
      rw [replies, timeouts, countP_singleton, countP_singleton]
      cases q.tsl.timeout <;> simp <;> omega
    rw [hsend, hr.send, hsum]
    exact (UInt32.ofNat_add (k + t) 1).symm
  · rw [hreply, hr.reply, replies, countP_singleton]
    cases q.tsl.timeout <;> simp [UInt32.ofNat_add]

theorem Counted.processAll {qs : List Request} : ∀ {r r' : EcsTimeStampRecorder}
    {rs rs' : List Results} {k t : ℕ}, r.Counted rs k t → r.processAll qs = some (r', rs') →
      r'.Counted (rs ++ rs') (k + replies qs) (t + timeouts qs) := by
  induction qs with
  | nil =>
    intro r r' rs rs' k t hr h
    cases h
    rw [append_nil]
    exact hr
  | cons q qs ih =>
    intro r r' rs rs' k t hr h
    rw [EcsTimeStampRecorder.processAll] at h
    obtain ⟨⟨r₁, tsr⟩, hone, hrest⟩ := bind_eq_some_iff.mp h
    obtain ⟨⟨r₂, rs₂⟩, hqs, heq⟩ := map_eq_some_iff.mp hrest
    cases heq
    have hall := ih (hr.process hone) hqs
    have hcons : ∀ p : Request → Bool, (q :: qs).countP p = [q].countP p + qs.countP p := by
      intro p
      rw [← countP_append, singleton_append]
    rw [replies, timeouts, hcons, hcons, ← Nat.add_assoc, ← Nat.add_assoc]
    rwa [append_assoc] at hall

theorem counted_processAll {idx : UInt32} {qs : List Request}
    (h : (EcsTimeStampRecorder.new idx).processAll qs = some (r, rs)) :
    r.Counted rs (replies qs) (timeouts qs) := by
  have hnew : (EcsTimeStampRecorder.new idx).Counted [] 0 0 :=
    ⟨fun _ => StageInfo.counted_nil, rfl, rfl⟩
  have hall := hnew.processAll h
  rwa [nil_append, Nat.zero_add, Nat.zero_add] at hall

theorem Counted.average (h : r.Counted rs k t) (d : Delay) :
    (r.getStatisticsData.stage d).avgDelay.toInt =
      overReplies (rs.filterMap (Results.measured d)).sum k := by
  have hzero : r.replyCount = 0 ↔ k % 2 ^ 32 = 0 := by
    rw [h.reply, ← UInt32.toNat_inj, UInt32.toNat_ofNat']
    rfl
  show (if r.replyCount = 0 then (0 : Int32)
    else ((r.stages d).sumDelay / r.replyCount.toUInt64.toInt64).toInt32).toInt = _
  rw [overReplies]
  by_cases hk : k % 2 ^ 32 = 0
  · rw [if_pos (hzero.mpr hk), if_pos hk]
    rfl
  · have hcount : r.replyCount.toUInt64.toInt64.toInt = (k % 2 ^ 32 : ℕ) := by
      have hnat : r.replyCount.toUInt64.toBitVec.toNat = k % 2 ^ 32 := by
        rw [UInt64.toNat_toBitVec, UInt32.toNat_toUInt64, h.reply, UInt32.toNat_ofNat']
      show r.replyCount.toUInt64.toBitVec.toInt = _
      rw [BitVec.toInt_eq_toNat_of_lt (by rw [hnat]; omega), hnat]
    rw [if_neg (mt hzero.mp hk), if_neg hk, Int64.toInt_toInt32, Int64.toInt_div, (h.stages d).sum,
      hcount, Int.bmod_bmod_of_dvd (by decide)]

theorem Counted.lostNum (h : r.Counted rs k t) :
    r.getStatisticsData.packetNum.lostNum.toNat = t % 2 ^ 32 := by
  show (r.sendCount - r.replyCount).toNat = _
  rw [h.send, h.reply, UInt32.ofNat_add, UInt32.add_comm, UInt32.add_sub_cancel,
    UInt32.toNat_ofNat']

theorem measured_bounds {d : Delay} {rs : List Results} {x : ℤ}
    (hx : x ∈ rs.filterMap (Results.measured d)) : -2 ^ 31 ≤ x ∧ x ≤ 2 ^ 31 - 1 := by
  obtain ⟨tsr, -, htsr⟩ := mem_filterMap.mp hx
  rw [Results.measured] at htsr
  split_ifs at htsr
  rw [← some.inj htsr]
  exact ⟨Int32.le_toInt _, Int.le_sub_one_of_lt (Int32.toInt_lt _)⟩

theorem Counted.right (h : r.Counted rs k t) (ht : t < 2 ^ 32)
    (havg : ∀ d, rs.filterMap (Results.measured d) ≠ [] →
      overReplies (rs.filterMap (Results.measured d)).sum k =
        (rs.filterMap (Results.measured d)).sum.tdiv (rs.filterMap (Results.measured d)).length) :
    r.getStatisticsData.Right rs t where
  least d hd := (h.stages d).isLeast hd fun x hx => (measured_bounds hx).2
  greatest d hd := (h.stages d).isGreatest hd fun x hx => (measured_bounds hx).1
  average d hd := by rw [h.average, havg d hd]
  lost_num := by rw [h.lostNum, Nat.mod_eq_of_lt ht]

end EcsTimeStampRecorder

theorem statistics_iff {idx : UInt32} {qs : List Request} {r : EcsTimeStampRecorder}
    {rs : List Results} (h : (EcsTimeStampRecorder.new idx).processAll qs = some (r, rs)) :
    r.getStatisticsData.Right rs (timeouts qs) ↔
      timeouts qs < 2 ^ 32 ∧ ∀ d, rs.filterMap (Results.measured d) ≠ [] →
        overReplies (rs.filterMap (Results.measured d)).sum (replies qs) =
          (rs.filterMap (Results.measured d)).sum.tdiv
            (rs.filterMap (Results.measured d)).length := by
  have hr := EcsTimeStampRecorder.counted_processAll h
  refine ⟨fun hright => ⟨?_, fun d hd => ?_⟩, fun ⟨hlost, havg⟩ => hr.right hlost havg⟩
  · rw [← hright.lost_num]
    exact UInt32.toNat_lt _
  · rw [← hr.average, hright.average d hd]

def whole (delay : UInt32) : Request :=
  ⟨⟨0, 0, [⟨0, 0, 0, 0, 0⟩, ⟨0, 0, 0, 8, delay⟩], false⟩, 0, 0⟩

def nothing : Request := ⟨⟨0, 0, [⟨0, 0, 0, 0, 0⟩], false⟩, 0, 0⟩

theorem measured_whole (d : Delay) :
    ((EcsTimeStampRecorder.new 0).processAll [whole 10, whole 21]).map
      (fun res => res.2.filterMap (Results.measured d)) =
        some (if d = .total then [10, 21] else []) := by
  cases d <;> decide +kernel

theorem statistics_iff_whole :
    ∃ r rs, (EcsTimeStampRecorder.new 0).processAll [whole 10, whole 21] = some (r, rs) ∧
      rs.filterMap (Results.measured .total) = [10, 21] ∧ r.getStatisticsData.Right rs 0 := by
  obtain ⟨⟨r, rs⟩, h⟩ := isSome_iff_exists.mp
    (show ((EcsTimeStampRecorder.new 0).processAll [whole 10, whole 21]).isSome = true by
      decide +kernel)
  have hmeasured := measured_whole
  simp only [h, map_some, some.injEq] at hmeasured
  refine ⟨r, rs, h, hmeasured .total, (statistics_iff h).mpr ⟨by decide, fun d _ => ?_⟩⟩
  rw [hmeasured]
  cases d <;> decide

theorem statistics_halved :
    ∃ r rs, (EcsTimeStampRecorder.new 0).processAll [whole 10, nothing] = some (r, rs) ∧
      rs.filterMap (Results.measured .total) = [10] ∧
      (r.getStatisticsData.stage .total).avgDelay = 5 ∧ ¬ r.getStatisticsData.Right rs 0 := by
  have hrun : ((EcsTimeStampRecorder.new 0).processAll [whole 10, nothing]).map
      (fun res => (res.2.filterMap (Results.measured .total),
        (res.1.getStatisticsData.stage .total).avgDelay)) = some ([10], 5) := by
    decide +kernel
  obtain ⟨⟨r, rs⟩, h, heq⟩ := map_eq_some_iff.mp hrun
  obtain ⟨hmeasured, havg⟩ := Prod.mk.inj heq
  refine ⟨r, rs, h, hmeasured, havg, fun hright => ?_⟩
  have hmean := hright.average .total (by rw [hmeasured]; exact cons_ne_nil _ _)
  rw [hmeasured, havg] at hmean
  exact absurd hmean (by decide)

end Sysak.PingTrace
