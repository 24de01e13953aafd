/-
# The points of a reply and the delays between them
-/

import Sysak.PingTrace.Packet

namespace Sysak.PingTrace

open List Option

def pLEcsPointNum : ℕ := 11

def ppNum : ℕ := 14

def pLTxUser : ℕ := 0
def pLTxDevqueue : ℕ := 1
def pLTxDevout : ℕ := 2
def pRRxIcmprcv : ℕ := 3
def pRTxDevout : ℕ := 4
def pLRxIprcv : ℕ := 5
def pLRxSkdataready : ℕ := 6
def pLRxWakeup : ℕ := 7
def pLRxUser : ℕ := 8
def pRRxIprcv : ℕ := 9
def pLRxSoftirq : ℕ := 10

structure PointInfo where
  nodeId : UInt64
  ts : UInt32
  pointId : ℕ
  mask : Bool
deriving Repr, DecidableEq

def emptyPoints : List PointInfo := (range pLEcsPointNum).map fun i => ⟨0, 0, i, false⟩

def placeTimestamp (vp : List PointInfo) (t : Timestamp) : Option (List PointInfo) :=
  if t.functionId.toNat < ppNum then
    if t.functionId.toNat < vp.length then
      some (vp.set t.functionId.toNat ⟨t.machineId, t.ts, t.functionId.toNat, true⟩)
    else
      none
  else
    some vp

def placeTimestamps : List PointInfo → List Timestamp → Option (List PointInfo)
  | vp, [] => some vp
  | vp, t :: ts => (placeTimestamp vp t).bind fun vp => placeTimestamps vp ts

def dropEarlyWakeup (vp : List PointInfo) : Option (List PointInfo) := do
  let wakeup ← vp[pLRxWakeup]?
  let ready ← vp[pLRxSkdataready]?
  if wakeup.mask && ready.mask && wakeup.ts.toInt32 < ready.ts.toInt32 then
    return vp.set pLRxWakeup { wakeup with mask := false }
  else
    return vp

def processOrderedTimestamps (tsl : TsList) : Option (List PointInfo) :=
  (placeTimestamps emptyPoints tsl.list).bind dropEarlyWakeup

inductive Delay where
  | total | lTxKern | lTxQdisc | lTxOutlink | rTxKern | rRxKern | lRxInlink | lRxKern
  | lRxTaskWaking | lRxTaskQueue | lRxSoftirq | lTxMergedKern | lTxMergedOutlink | rTxMergedKern
  | rRxMergedKern | lRxMergedInlink | lRxMergedKern
deriving Repr, DecidableEq

structure DelayInfo where
  ts : Int32
  mask : Bool
deriving Repr, DecidableEq

structure NormalDelayInfo where
  delayId : Delay
  startPointId : ℕ
  endPointId : ℕ

def normalDelays : List NormalDelayInfo :=
  [⟨.total, pLTxUser, pLRxUser⟩,
    ⟨.lTxKern, pLTxUser, pLTxDevqueue⟩,
    ⟨.lTxQdisc, pLTxDevqueue, pLTxDevout⟩,
    ⟨.rRxKern, pRRxIprcv, pRRxIcmprcv⟩,
    ⟨.rTxKern, pRRxIcmprcv, pRTxDevout⟩,
    ⟨.lRxKern, pLRxIprcv, pLRxSkdataready⟩,
    ⟨.lRxTaskWaking, pLRxSkdataready, pLRxWakeup⟩,
    ⟨.lRxTaskQueue, pLRxWakeup, pLRxUser⟩,
    ⟨.lTxMergedKern, pLTxUser, pLTxDevout⟩,
    ⟨.lRxMergedKern, pLRxIprcv, pLRxUser⟩,
    ⟨.lRxSoftirq, pLRxSoftirq, pLRxIprcv⟩]

structure RelativeDelayInfo where
  baseName : String
  delayId : Delay
  startCandidate : List ℕ
  endCandidate : List ℕ

def relativeDelays : List RelativeDelayInfo :=
  [⟨"outlink_base", .lTxOutlink, [pLTxDevout], [pRRxIprcv]⟩,
    ⟨"inlink_base", .lRxInlink, [pRTxDevout], [pLRxIprcv]⟩]

def viewDelays : List (Delay × Delay) :=
  [(.lTxMergedOutlink, .lTxOutlink), (.rTxMergedKern, .rTxKern), (.rRxMergedKern, .rRxKern),
    (.lRxMergedInlink, .lRxInlink)]

structure DelayRecorder where
  idx : UInt32
  q : List (UInt32 × Int64)
  maxNum : UInt32

namespace DelayRecorder

def add (r : DelayRecorder) (usec : Int64) : DelayRecorder :=
  let idx := r.idx + 1
  let kept := (r.q.reverse.dropWhile fun e => decide (usec ≤ e.2)).reverse
  { r with
    idx := idx
    q := (kept ++ [(idx, usec)]).dropWhile fun e => decide (e.1 + r.maxNum ≤ idx) }

def query (r : DelayRecorder) : Int64 := (r.q.head?.map Prod.snd).getD 0

def record (r : DelayRecorder) (start fin : UInt32) : UInt32 × DelayRecorder :=
  let val := (fin - start).toInt32.toInt64
  let r := r.add val
  ((val - r.query).toUInt64.toUInt32, r)

end DelayRecorder

variable {vp : List PointInfo}

structure Results where
  timeout : Bool
  dstip : UInt32
  seq : UInt32
  tsStart : UInt64
  tsEnd : UInt64
  points : List PointInfo
  delay : Delay → DelayInfo
  base : List (String × Int64)

def Results.setDelay (tsr : Results) (d : Delay) (i : DelayInfo) : Results :=
  { tsr with delay := fun e => if e = d then i else tsr.delay e }

def processNormalDelay (tsr : Results) (d : NormalDelayInfo) : Option Results := do
  let start ← tsr.points[d.startPointId]?
  let fin ← tsr.points[d.endPointId]?
  if start.mask && fin.mask then
    return tsr.setDelay d.delayId ⟨(fin.ts - start.ts).toInt32, true⟩
  else
    return tsr

def processNormalDelays : List NormalDelayInfo → Results → Option Results
  | [], tsr => some tsr
  | d :: ds, tsr => (processNormalDelay tsr d).bind (processNormalDelays ds)

def lastSeen (points : List PointInfo) : List ℕ → Option UInt32 → Option (Option UInt32)
  | [], found => some found
  | id :: ids, found =>
    points[id]?.bind fun p => lastSeen points ids (if p.mask then some p.ts else found)

def processRelativeDelay (hist : Delay → DelayRecorder) (tsr : Results) (d : RelativeDelayInfo) :
    Option ((Delay → DelayRecorder) × Results) := do
  let start ← lastSeen tsr.points d.startCandidate none
  let fin ← lastSeen tsr.points d.endCandidate none
  match start, fin with
  | some start, some fin =>
    let (delay, r) := (hist d.delayId).record start fin
    let tsr := tsr.setDelay d.delayId ⟨delay.toInt32, true⟩
    return (fun e => if e = d.delayId then r else hist e,
      { tsr with base := tsr.base ++ [(d.baseName, r.query)] })
  | _, _ => return (hist, { tsr with base := tsr.base ++ [(d.baseName, (hist d.delayId).query)] })

def processRelativeDelays : List RelativeDelayInfo → (Delay → DelayRecorder) → Results →
    Option ((Delay → DelayRecorder) × Results)
  | [], hist, tsr => some (hist, tsr)
  | d :: ds, hist, tsr =>
    (processRelativeDelay hist tsr d).bind fun r => processRelativeDelays ds r.1 r.2

def processViewDelays (tsr : Results) : Results :=
  viewDelays.foldl (fun tsr d => tsr.setDelay d.1 (tsr.delay d.2)) tsr

structure StageInfo where
  minDelay : Int32
  maxDelay : Int32
  sumDelay : Int64
  mask : Bool

structure EcsTimeStampRecorder where
  stages : Delay → StageInfo
  sendCount : UInt32
  replyCount : UInt32
  delayHistorys : Delay → DelayRecorder

def EcsTimeStampRecorder.new (idx : UInt32) : EcsTimeStampRecorder :=
  ⟨fun _ => ⟨Int32.maxValue, Int32.minValue, 0, false⟩, 0, 0, fun _ => ⟨idx, [], 10000⟩⟩

def StageInfo.count (s : StageInfo) (d : DelayInfo) : StageInfo :=
  if d.mask then
    ⟨min s.minDelay d.ts, max s.maxDelay d.ts, s.sumDelay + d.ts.toInt64, true⟩
  else
    s

def startResults (tsl : TsList) (dstip seq : UInt32) : Results :=
  ⟨tsl.timeout, dstip, seq, tsl.startTs, tsl.endTs, [], fun _ => ⟨0, false⟩, []⟩

def computeDelays (hist : Delay → DelayRecorder) (tsr : Results) :
    Option ((Delay → DelayRecorder) × Results) := do
  let tsr ← processNormalDelays normalDelays tsr
  let (hist, tsr) ← processRelativeDelays relativeDelays hist tsr
  return (hist, processViewDelays tsr)

def EcsTimeStampRecorder.process (r : EcsTimeStampRecorder) (tsl : TsList) (dstip seq : UInt32) :
    Option (EcsTimeStampRecorder × Results) :=
  let r := { r with sendCount := r.sendCount + 1 }
  let tsr := startResults tsl dstip seq
  if tsl.timeout then some (r, tsr)
  else do
    let points ← processOrderedTimestamps tsl
    let (hist, tsr) ← computeDelays r.delayHistorys { tsr with points := points }
    return ({ r with
      replyCount := r.replyCount + 1
      stages := fun d => (r.stages d).count (tsr.delay d)
      delayHistorys := hist }, tsr)

@[simp] theorem length_emptyPoints : emptyPoints.length = 11 := rfl

def Timestamp.Misplaced (t : Timestamp) : Prop := 11 ≤ t.functionId.toNat ∧ t.functionId.toNat < 14

theorem placeTimestamp_eq_some (hlen : vp.length = 11) {t : Timestamp} (ht : ¬ t.Misplaced) :
    ∃ vp', placeTimestamp vp t = some vp' ∧ vp'.length = 11 := by
  rw [Timestamp.Misplaced] at ht
  rw [placeTimestamp, ppNum, hlen]
  by_cases h14 : t.functionId.toNat < 14
  · rw [if_pos h14, if_pos (by omega)]
    exact ⟨_, rfl, by rw [length_set, hlen]⟩
  · rw [if_neg h14]
    exact ⟨vp, rfl, hlen⟩

theorem placeTimestamp_eq_none (hlen : vp.length = 11) {t : Timestamp} (ht : t.Misplaced) :
    placeTimestamp vp t = none := by
  obtain ⟨h11, h14⟩ := ht
  rw [placeTimestamp, ppNum, if_pos h14, hlen, if_neg (by omega)]

theorem placeTimestamps_eq_some {ts : List Timestamp} : ∀ {vp : List PointInfo},
    vp.length = 11 → (∀ t ∈ ts, ¬ t.Misplaced) →
      ∃ vp', placeTimestamps vp ts = some vp' ∧ vp'.length = 11 := by
  induction ts with
  | nil =>
    intro vp hlen _
    exact ⟨vp, rfl, hlen⟩
  | cons t ts ih =>
    intro vp hlen hts
    obtain ⟨ht, hts⟩ := forall_mem_cons.mp hts
    obtain ⟨vp', hvp', hlen'⟩ := placeTimestamp_eq_some hlen ht
    rw [placeTimestamps, hvp', bind_some]
    exact ih hlen' hts

theorem placeTimestamps_eq_none {ts : List Timestamp} : ∀ {vp : List PointInfo},
    vp.length = 11 → (∃ t ∈ ts, t.Misplaced) → placeTimestamps vp ts = none := by
  induction ts with
  | nil =>
    rintro vp - ⟨t, ht, -⟩
    exact absurd ht not_mem_nil
  | cons t ts ih =>
    rintro vp hlen ⟨u, hu, hmis⟩
    rw [placeTimestamps]
    by_cases ht : t.Misplaced
    · rw [placeTimestamp_eq_none hlen ht, bind_none]
    · obtain ⟨vp', hvp', hlen'⟩ := placeTimestamp_eq_some hlen ht
      rw [hvp', bind_some]
      rcases mem_cons.mp hu with rfl | hu
      · exact absurd hmis ht
      · exact ih hlen' ⟨u, hu, hmis⟩

theorem dropEarlyWakeup_eq_some (hlen : vp.length = 11) :
    ∃ vp', dropEarlyWakeup vp = some vp' ∧ vp'.length = 11 := by
  have hw : vp[pLRxWakeup]? = some vp[7] := getElem?_eq_getElem _
  have hr : vp[pLRxSkdataready]? = some vp[6] := getElem?_eq_getElem _
  rw [dropEarlyWakeup, hw, hr]
  simp only [bind_eq_bind, bind_some]
  split_ifs
  · exact ⟨_, rfl, by rw [length_set, hlen]⟩
  · exact ⟨vp, rfl, hlen⟩

theorem processNormalDelays_eq_some {ds : List NormalDelayInfo} : ∀ (tsr : Results),
    (∀ d ∈ ds, d.startPointId < tsr.points.length ∧ d.endPointId < tsr.points.length) →
      ∃ tsr', processNormalDelays ds tsr = some tsr' ∧ tsr'.points = tsr.points := by
  induction ds with
  | nil =>
    intro tsr _
    exact ⟨tsr, rfl, rfl⟩
  | cons d ds ih =>
    intro tsr hds
    obtain ⟨⟨hs, he⟩, hds⟩ := forall_mem_cons.mp hds
    have hone : ∃ tsr', processNormalDelay tsr d = some tsr' ∧ tsr'.points = tsr.points := by
      rw [processNormalDelay, getElem?_eq_getElem hs, getElem?_eq_getElem he]
      simp only [bind_eq_bind, bind_some]
      split_ifs
      · exact ⟨_, rfl, rfl⟩
      · exact ⟨_, rfl, rfl⟩
    obtain ⟨tsr', htsr', hpts⟩ := hone
    rw [processNormalDelays, htsr', bind_some, ← hpts]
    exact ih tsr' (by rwa [hpts])

theorem lastSeen_eq_some {points : List PointInfo} {ids : List ℕ} :
    ∀ (found : Option UInt32), (∀ id ∈ ids, id < points.length) →
      ∃ r, lastSeen points ids found = some r := by
  induction ids with
  | nil =>
    intro found _
    exact ⟨found, rfl⟩
  | cons id ids ih =>
    intro found hids
    obtain ⟨hid, hids⟩ := forall_mem_cons.mp hids
    rw [lastSeen, getElem?_eq_getElem hid, bind_some]
    exact ih _ hids

theorem processRelativeDelays_eq_some {ds : List RelativeDelayInfo} :
    ∀ (hist : Delay → DelayRecorder) (tsr : Results),
      (∀ d ∈ ds, (∀ id ∈ d.startCandidate, id < tsr.points.length) ∧
        ∀ id ∈ d.endCandidate, id < tsr.points.length) →
      ∃ r, processRelativeDelays ds hist tsr = some r := by
  induction ds with
  | nil =>
    intro hist tsr _
    exact ⟨_, rfl⟩
  | cons d ds ih =>
    intro hist tsr hds
    obtain ⟨⟨hs, he⟩, hds⟩ := forall_mem_cons.mp hds
    obtain ⟨start, hstart⟩ := lastSeen_eq_some none hs
    obtain ⟨fin, hfin⟩ := lastSeen_eq_some none he
    have hone : ∃ r, processRelativeDelay hist tsr d = some r ∧ r.2.points = tsr.points := by
      rw [processRelativeDelay, hstart, hfin]
      simp only [bind_eq_bind, bind_some]
      split
      · exact ⟨_, rfl, rfl⟩
      · exact ⟨_, rfl, rfl⟩
    obtain ⟨r, hr, hpts⟩ := hone
    rw [processRelativeDelays, hr, bind_some]
    exact ih r.1 r.2 (by rwa [hpts])

theorem computeDelays_eq_some (hist : Delay → DelayRecorder) {tsr : Results}
    (hlen : tsr.points.length = 11) : ∃ r, computeDelays hist tsr = some r := by
  have hnormal : ∀ d ∈ normalDelays, d.startPointId < 11 ∧ d.endPointId < 11 := by decide
  have hrel : ∀ d ∈ relativeDelays, (∀ id ∈ d.startCandidate, id < 11) ∧
      ∀ id ∈ d.endCandidate, id < 11 := by decide
  rw [← hlen] at hnormal hrel
  obtain ⟨tsr', htsr', hpts⟩ := processNormalDelays_eq_some tsr hnormal
  rw [← hpts] at hrel
  obtain ⟨r, hr⟩ := processRelativeDelays_eq_some hist tsr' hrel
  rw [computeDelays, htsr']
  simp only [bind_eq_bind, bind_some, hr]
  exact ⟨_, rfl⟩

theorem process_isSome_iff (r : EcsTimeStampRecorder) (tsl : TsList) (dstip seq : UInt32) :
    (r.process tsl dstip seq).isSome ↔ tsl.timeout = true ∨ ∀ t ∈ tsl.list, ¬ t.Misplaced := by
  rw [EcsTimeStampRecorder.process]
  by_cases hto : tsl.timeout = true
  · simp [hto]
  by_cases hmis : ∀ t ∈ tsl.list, ¬ t.Misplaced
  · obtain ⟨vp, hvp, hlen⟩ := placeTimestamps_eq_some length_emptyPoints hmis
    obtain ⟨vp', hvp', hlen'⟩ := dropEarlyWakeup_eq_some hlen
    obtain ⟨res, hres⟩ : ∃ res, computeDelays r.delayHistorys
        { startResults tsl dstip seq with points := vp' } = some res :=
      computeDelays_eq_some r.delayHistorys hlen'
    simpa [hto, processOrderedTimestamps, hvp, hvp', hres] using hmis
  · have hnone : placeTimestamps emptyPoints tsl.list = none := by
      refine placeTimestamps_eq_none length_emptyPoints ?_
      push Not at hmis
      exact hmis
    simp [hto, processOrderedTimestamps, hnone, hmis]

theorem echoReply_point_eleven_outside :
    let reply := echoReply 9
      (replicate 128 0 ++ [0, 0, 0, 0, 0, 0, 0, 0, 0, 0, 0, 11, 0, 0, 0, 0])
    let pkt := PingTracePacket.init (fun _ => 0) 90
    Accepted 0 0 pkt reply 0 ∧
      (collectRemoteTs (some (pkt.recv reply)) ⟨0, 0, [], false⟩).list = [⟨0, 0, 0, 11, 0⟩] ∧
      ((EcsTimeStampRecorder.new 0).process
        (collectRemoteTs (some (pkt.recv reply)) ⟨0, 0, [], false⟩) 0 0).isSome = false := by
  decide +kernel

end Sysak.PingTrace
