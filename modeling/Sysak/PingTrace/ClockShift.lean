/-
# Delays and the absolute clock
-/

import Mathlib.Data.UInt
import Sysak.PingTrace.Recorder

namespace Sysak.PingTrace

open List

def TsList.shift (c : UInt32) (tsl : TsList) : TsList :=
  { tsl with list := tsl.list.map fun t => { t with ts := t.ts + c } }

def TsList.at? (tsl : TsList) (point : ℕ) : Option UInt32 :=
  (tsl.list.reverse.find? fun t => t.functionId.toNat == point).map Timestamp.ts

def Before (a b : UInt32) : Prop := (a - b).toInt32 < 0

structure ShiftInvariant (r : EcsTimeStampRecorder) (tsl : TsList) (dstip seq c : UInt32) :
    Prop where
  delays : (r.process (tsl.shift c) dstip seq).map (fun res => res.2.delay) =
    (r.process tsl dstip seq).map fun res => res.2.delay
  wakeup : tsl.timeout = false → ∀ {vp w s}, processOrderedTimestamps tsl = some vp →
    tsl.at? pLRxWakeup = some w → tsl.at? pLRxSkdataready = some s →
      (vp[pLRxWakeup]?.map PointInfo.mask = some false ↔ Before w s)

def Near (a b : UInt32) : Prop :=
  -2 ^ 31 ≤ a.toInt32.toInt - b.toInt32.toInt ∧ a.toInt32.toInt - b.toInt32.toInt < 2 ^ 31

def seen (vp : List PointInfo) (i : ℕ) : Option UInt32 :=
  vp[i]?.bind fun p => if p.mask then some p.ts else none

variable {vp : List PointInfo} {i : ℕ}

theorem seen_eq {p : PointInfo} (h : vp[i]? = some p) :
    seen vp i = if p.mask then some p.ts else none := by
  rw [seen, h]
  rfl

theorem seen_set (hi : i < vp.length) (p : PointInfo) (j : ℕ) :
    seen (vp.set i p) j =
      if i = j then (if p.mask then some p.ts else none) else seen vp j := by
  rw [seen, getElem?_set, if_pos hi]
  by_cases hij : i = j
  · rw [if_pos hij, if_pos hij, Option.bind_some]
  · rw [if_neg hij, if_neg hij]
    rfl

theorem seen_placeTimestamp {vp vp' : List PointInfo} {t : Timestamp}
    (h : placeTimestamp vp t = some vp') (hi : i < ppNum) :
    seen vp' i = if t.functionId.toNat = i then some t.ts else seen vp i := by
  rw [placeTimestamp] at h
  split_ifs at h with hpp hlen
  · rw [← Option.some.inj h, seen_set hlen]
    rfl
  · rw [← Option.some.inj h, if_neg (by omega)]

theorem seen_placeTimestamps {ts : List Timestamp} : ∀ {vp vp' : List PointInfo},
    placeTimestamps vp ts = some vp' → ∀ {i}, i < ppNum →
      seen vp' i = ((ts.reverse.find? fun t => t.functionId.toNat == i).map Timestamp.ts).or
        (seen vp i) := by
  induction ts with
  | nil =>
    intro vp vp' h i _
    rw [← Option.some.inj h]
    rfl
  | cons t ts ih =>
    intro vp vp' h i hi
    rw [placeTimestamps] at h
    obtain ⟨vp₁, hone, hrest⟩ := Option.bind_eq_some_iff.mp h
    rw [ih hrest hi, seen_placeTimestamp hone hi, reverse_cons, find?_append,
      Option.map_or, Option.or_assoc]
    congr 1
    rw [find?_singleton]
    by_cases hti : t.functionId.toNat = i
    · simp [hti]
    · simp [hti]

theorem seen_emptyPoints (i : ℕ) : seen emptyPoints i = none := by
  rw [seen, Option.bind_eq_none_iff]
  intro p hp
  obtain ⟨j, -, rfl⟩ := mem_map.mp (mem_of_getElem? hp)
  rfl

variable {tsl : TsList}

theorem seen_placed (h : placeTimestamps emptyPoints tsl.list = some vp) (hi : i < ppNum) :
    seen vp i = tsl.at? i := by
  rw [seen_placeTimestamps h hi, seen_emptyPoints, Option.or_none]
  rfl

def discards (w s : Option UInt32) : Bool :=
  (w.bind fun w => s.map fun s => decide (w.toInt32 < s.toInt32)).getD false

theorem discards_none_left (s : Option UInt32) : discards none s = false := rfl

theorem discards_none_right (w : Option UInt32) : discards w none = false := by
  cases w <;> rfl

theorem discards_some (w s : UInt32) :
    discards (some w) (some s) = decide (w.toInt32 < s.toInt32) := rfl

theorem discards_shift_iff (w s : Option UInt32) (c : UInt32) :
    discards (w.map (· + c)) (s.map (· + c)) = discards w s ↔
      ∀ a b, w = some a → s = some b →
        ((a + c).toInt32 < (b + c).toInt32 ↔ a.toInt32 < b.toInt32) := by
  cases w with
  | none => simp [discards_none_left]
  | some a =>
    cases s with
    | none => simp [discards_none_right]
    | some b => simp [discards_some]

theorem dropEarlyWakeup_spec (hlen : vp.length = 11) :
    ∃ vp', dropEarlyWakeup vp = some vp' ∧ vp'.length = 11 ∧
      ∀ i, seen vp' i = if pLRxWakeup = i ∧ discards (seen vp pLRxWakeup) (seen vp pLRxSkdataready)
        then none else seen vp i := by
  have hw : vp[pLRxWakeup]? = some vp[7] := getElem?_eq_getElem _
  have hr : vp[pLRxSkdataready]? = some vp[6] := getElem?_eq_getElem _
  have hdec : discards (seen vp pLRxWakeup) (seen vp pLRxSkdataready) =
      (vp[7].mask && vp[6].mask && decide (vp[7].ts.toInt32 < vp[6].ts.toInt32)) := by
    rw [seen_eq hw, seen_eq hr]
    cases vp[7].mask <;> cases vp[6].mask <;> rfl
  rw [dropEarlyWakeup, hw, hr, hdec]
  simp only [Option.bind_eq_bind, Option.bind_some]
  split_ifs with h
  · refine ⟨_, rfl, by rw [length_set, hlen], fun i => ?_⟩
    rw [seen_set (by rw [hlen]; decide)]
    simp only [h, and_true]
    rfl
  · refine ⟨vp, rfl, hlen, fun i => ?_⟩
    rw [if_neg fun hi => h hi.2]

def delayBetween (seen : ℕ → Option UInt32) (d : NormalDelayInfo) : Option DelayInfo :=
  (seen d.startPointId).bind fun start =>
    (seen d.endPointId).map fun fin => ⟨(fin - start).toInt32, true⟩

variable {tsr : Results}

theorem processNormalDelay_eq {d : NormalDelayInfo} (hs : d.startPointId < tsr.points.length)
    (he : d.endPointId < tsr.points.length) :
    processNormalDelay tsr d =
      some ((delayBetween (seen tsr.points) d).elim tsr (tsr.setDelay d.delayId)) := by
  rw [processNormalDelay, delayBetween, getElem?_eq_getElem hs, getElem?_eq_getElem he,
    seen_eq (getElem?_eq_getElem hs), seen_eq (getElem?_eq_getElem he)]
  simp only [Option.bind_eq_bind, Option.bind_some]
  cases tsr.points[d.startPointId].mask <;> cases tsr.points[d.endPointId].mask <;> rfl

structure Shifted (c : UInt32) (tsr tsr' : Results) : Prop where
  length : tsr.points.length = 11 ∧ tsr'.points.length = 11
  seen : ∀ i, seen tsr'.points i = (seen tsr.points i).map (· + c)
  delay : tsr'.delay = tsr.delay

variable {hist : Delay → DelayRecorder} {u : (Delay → DelayRecorder) × Results}

namespace Shifted

variable {c : UInt32} {tsr tsr' : Results}

theorem setDelay (h : Shifted c tsr tsr') (d : Delay) (i : DelayInfo) :
    Shifted c (tsr.setDelay d i) (tsr'.setDelay d i) where
  length := h.length
  seen := h.seen
  delay := by
    simp only [Results.setDelay, h.delay]

theorem delayBetween_eq (h : Shifted c tsr tsr') (d : NormalDelayInfo) :
    delayBetween (PingTrace.seen tsr'.points) d = delayBetween (PingTrace.seen tsr.points) d := by
  rw [delayBetween, delayBetween, h.seen, h.seen]
  cases PingTrace.seen tsr.points d.startPointId with
  | none => rfl
  | some start =>
    cases PingTrace.seen tsr.points d.endPointId with
    | none => rfl
    | some fin =>
      simp only [Option.map_some, Option.bind_some]
      rw [add_sub_add_right_eq_sub]

theorem processNormalDelays : ∀ {ds : List NormalDelayInfo} {tsr tsr' u : Results},
    (∀ d ∈ ds, d.startPointId < 11 ∧ d.endPointId < 11) → Shifted c tsr tsr' →
      PingTrace.processNormalDelays ds tsr = some u →
        ∃ u', PingTrace.processNormalDelays ds tsr' = some u' ∧ Shifted c u u' := by
  intro ds
  induction ds with
  | nil =>
    intro tsr tsr' u _ h hu
    exact ⟨tsr', rfl, Option.some.inj hu ▸ h⟩
  | cons d ds ih =>
    intro tsr tsr' u hds h hu
    obtain ⟨⟨hs, he⟩, hds⟩ := forall_mem_cons.mp hds
    rw [PingTrace.processNormalDelays, processNormalDelay_eq (by rwa [h.length.1])
      (by rwa [h.length.1]), Option.bind_some] at hu
    rw [PingTrace.processNormalDelays, processNormalDelay_eq (by rwa [h.length.2])
      (by rwa [h.length.2]), Option.bind_some, h.delayBetween_eq]
    refine ih hds ?_ hu
    cases delayBetween (PingTrace.seen tsr.points) d with
    | none => exact h
    | some i => exact h.setDelay d.delayId i

theorem lastSeen (h : Shifted c tsr tsr') {ids : List ℕ} : ∀ found : Option UInt32,
    (∀ id ∈ ids, id < 11) → PingTrace.lastSeen tsr'.points ids (found.map (· + c)) =
      (PingTrace.lastSeen tsr.points ids found).map (Option.map (· + c)) := by
  induction ids with
  | nil =>
    intro found _
    rfl
  | cons id ids ih =>
    intro found hids
    obtain ⟨hid, hids⟩ := forall_mem_cons.mp hids
    obtain ⟨p, hp⟩ : ∃ p, tsr.points[id]? = some p :=
      ⟨_, getElem?_eq_getElem (by rwa [h.length.1])⟩
    obtain ⟨p', hp'⟩ : ∃ p', tsr'.points[id]? = some p' :=
      ⟨_, getElem?_eq_getElem (by rwa [h.length.2])⟩
    have hseen := h.seen id
    rw [seen_eq hp, seen_eq hp'] at hseen
    rw [PingTrace.lastSeen, PingTrace.lastSeen, hp, hp', Option.bind_some, Option.bind_some,
      ← ih _ hids]
    congr 1
    cases hm : p.mask <;> cases hm' : p'.mask <;> simp_all

theorem record_add (r : DelayRecorder) (start fin c : UInt32) :
    r.record (start + c) (fin + c) = r.record start fin := by
  rw [DelayRecorder.record, DelayRecorder.record, add_sub_add_right_eq_sub]

theorem processRelativeDelay (h : Shifted c tsr tsr') {d : RelativeDelayInfo}
    (hs : ∀ id ∈ d.startCandidate, id < 11) (he : ∀ id ∈ d.endCandidate, id < 11)
    (hu : PingTrace.processRelativeDelay hist tsr d = some u) :
    ∃ u', PingTrace.processRelativeDelay hist tsr' d = some u' ∧ u.1 = u'.1 ∧
      Shifted c u.2 u'.2 := by
  rw [PingTrace.processRelativeDelay] at hu ⊢
  simp only [Option.bind_eq_bind, Option.bind_eq_some_iff] at hu
  obtain ⟨start, hstart, fin, hfin, hu⟩ := hu
  have hstart' := h.lastSeen none hs
  have hfin' := h.lastSeen none he
  rw [hstart, Option.map_none, Option.map_some] at hstart'
  rw [hfin, Option.map_none, Option.map_some] at hfin'
  simp only [hstart', hfin', Option.bind_eq_bind, Option.bind_some]
  cases start with
  | none => exact ⟨_, rfl, by rw [← Option.some.inj hu], Option.some.inj hu ▸ ⟨h.1, h.2, h.3⟩⟩
  | some start =>
    cases fin with
    | none => exact ⟨_, rfl, by rw [← Option.some.inj hu], Option.some.inj hu ▸ ⟨h.1, h.2, h.3⟩⟩
    | some fin =>
      refine ⟨_, rfl, ?_, ?_⟩
      · rw [← Option.some.inj hu, record_add]
      · have hset := h.setDelay d.delayId ⟨((hist d.delayId).record start fin).1.toInt32, true⟩
        rw [← Option.some.inj hu, record_add]
        exact ⟨hset.1, hset.2, hset.3⟩

theorem processRelativeDelays : ∀ {ds : List RelativeDelayInfo} {hist : Delay → DelayRecorder}
    {tsr tsr' : Results} {u : (Delay → DelayRecorder) × Results},
    (∀ d ∈ ds, (∀ id ∈ d.startCandidate, id < 11) ∧ ∀ id ∈ d.endCandidate, id < 11) →
      Shifted c tsr tsr' → PingTrace.processRelativeDelays ds hist tsr = some u →
        ∃ u', PingTrace.processRelativeDelays ds hist tsr' = some u' ∧ Shifted c u.2 u'.2 := by
  intro ds
  induction ds with
  | nil =>
    intro hist tsr tsr' u _ h hu
    exact ⟨_, rfl, Option.some.inj hu ▸ h⟩
  | cons d ds ih =>
    intro hist tsr tsr' u hds h hu
    obtain ⟨⟨hs, he⟩, hds⟩ := forall_mem_cons.mp hds
    rw [PingTrace.processRelativeDelays] at hu ⊢
    obtain ⟨⟨hist₁, tsr₁⟩, hone, hrest⟩ := Option.bind_eq_some_iff.mp hu
    obtain ⟨u₁, hone', hshift⟩ := h.processRelativeDelay hs he hone
    rw [hone', Option.bind_some, ← hshift.1]
    exact ih hds hshift.2 hrest

theorem computeDelays (h : Shifted c tsr tsr') (hist : Delay → DelayRecorder) :
    (PingTrace.computeDelays hist tsr').map (fun u => u.2.delay) =
      (PingTrace.computeDelays hist tsr).map fun u => u.2.delay := by
  have hrel : ∀ d ∈ relativeDelays, (∀ id ∈ d.startCandidate, id < 11) ∧
      ∀ id ∈ d.endCandidate, id < 11 := by decide
  have hnormal : ∀ d ∈ normalDelays, d.startPointId < tsr.points.length ∧
      d.endPointId < tsr.points.length := by
    rw [h.length.1]
    decide
  obtain ⟨u, hu, hpts⟩ := processNormalDelays_eq_some tsr hnormal
  obtain ⟨u', hu', hshift⟩ := h.processNormalDelays (by decide) hu
  obtain ⟨v, hv⟩ := processRelativeDelays_eq_some hist u (by rw [hpts, h.length.1]; exact hrel)
  obtain ⟨v', hv', hshift'⟩ := hshift.processRelativeDelays hrel hv
  rw [PingTrace.computeDelays, PingTrace.computeDelays, hu, hu']
  simp only [Option.bind_eq_bind, Option.bind_some, hv, hv', processViewDelays, viewDelays,
    foldl_cons, foldl_nil, Results.setDelay, hshift'.delay]
  rfl

end Shifted

theorem mask_processNormalDelays (e : Delay) : ∀ {ds : List NormalDelayInfo} {tsr u : Results},
    (∀ d ∈ ds, d.startPointId < 11 ∧ d.endPointId < 11) → tsr.points.length = 11 →
      processNormalDelays ds tsr = some u →
        (u.delay e).mask = ((tsr.delay e).mask || ds.any fun d =>
          decide (d.delayId = e) && (delayBetween (seen tsr.points) d).isSome) := by
  intro ds
  induction ds with
  | nil =>
    intro tsr u _ _ hu
    rw [← Option.some.inj hu, any_nil, Bool.or_false]
  | cons d ds ih =>
    intro tsr u hds hlen hu
    obtain ⟨⟨hs, he⟩, hds⟩ := forall_mem_cons.mp hds
    rw [processNormalDelays, processNormalDelay_eq (by rwa [hlen]) (by rwa [hlen]),
      Option.bind_some] at hu
    rw [any_cons, ← Bool.or_assoc]
    cases hd : delayBetween (seen tsr.points) d with
    | none =>
      rw [hd, Option.elim_none] at hu
      rw [ih hds hlen hu, Option.isSome_none, Bool.and_false, Bool.or_false]
    | some i =>
      have hmask : i.mask = true := by
        obtain ⟨start, -, hi⟩ := Option.bind_eq_some_iff.mp hd
        obtain ⟨fin, -, rfl⟩ := Option.map_eq_some_iff.mp hi
        rfl
      rw [hd, Option.elim_some] at hu
      rw [ih hds (show (tsr.setDelay d.delayId i).points.length = 11 from hlen) hu]
      congr 1
      by_cases heq : e = d.delayId
      · simp [Results.setDelay, heq, hmask]
      · simp [Results.setDelay, heq, Ne.symm heq]

theorem delay_processRelativeDelays (e : Delay) : ∀ {ds : List RelativeDelayInfo}
    {hist : Delay → DelayRecorder} {tsr : Results} {u : (Delay → DelayRecorder) × Results},
    (∀ d ∈ ds, d.delayId ≠ e) → processRelativeDelays ds hist tsr = some u →
      u.2.delay e = tsr.delay e := by
  intro ds
  induction ds with
  | nil =>
    intro hist tsr u _ hu
    rw [← Option.some.inj hu]
  | cons d ds ih =>
    intro hist tsr u hds hu
    obtain ⟨hd, hds⟩ := forall_mem_cons.mp hds
    rw [processRelativeDelays] at hu
    obtain ⟨⟨hist₁, tsr₁⟩, hone, hrest⟩ := Option.bind_eq_some_iff.mp hu
    rw [ih hds hrest]
    rw [processRelativeDelay] at hone
    simp only [Option.bind_eq_bind, Option.bind_eq_some_iff] at hone
    obtain ⟨start, -, fin, -, hone⟩ := hone
    split at hone
    · cases hone
      simp only [Results.setDelay, if_neg (Ne.symm hd)]
    · cases hone
      rfl

theorem mask_taskWaking (hlen : tsr.points.length = 11)
    (hnew : (tsr.delay .lRxTaskWaking).mask = false) (hu : computeDelays hist tsr = some u) :
    (u.2.delay .lRxTaskWaking).mask =
      ((seen tsr.points pLRxSkdataready).isSome && (seen tsr.points pLRxWakeup).isSome) := by
  rw [computeDelays] at hu
  simp only [Option.bind_eq_bind, Option.bind_eq_some_iff] at hu
  obtain ⟨tsr₁, hnormal, ⟨hist₂, tsr₂⟩, hrel, hu⟩ := hu
  cases hu
  have hview : (processViewDelays tsr₂).delay .lRxTaskWaking = tsr₂.delay .lRxTaskWaking := rfl
  have hrel' : tsr₂.delay .lRxTaskWaking = tsr₁.delay .lRxTaskWaking :=
    delay_processRelativeDelays _ (by decide) hrel
  rw [hview, hrel', mask_processNormalDelays _ (by decide) hlen hnormal, hnew, Bool.false_or]
  simp only [normalDelays, any_cons, any_nil, reduceCtorEq, decide_false, decide_true,
    Bool.false_and, Bool.true_and, Bool.false_or, Bool.or_false, delayBetween]
  cases seen tsr.points pLRxSkdataready <;> cases seen tsr.points pLRxWakeup <;> rfl

theorem lt_iff_before_iff_near (a b : UInt32) :
    (a.toInt32 < b.toInt32 ↔ Before a b) ↔ Near a b := by
  have ha := a.toInt32.toInt_lt
  have ha' := a.toInt32.le_toInt
  have hb := b.toInt32.toInt_lt
  have hb' := b.toInt32.le_toInt
  rw [Before, Near, UInt32.toInt32_sub, Int32.lt_iff_toInt_lt, Int32.lt_iff_toInt_lt,
    Int32.toInt_sub, Int.bmod_def, Int32.toInt_zero]
  split_ifs <;> omega

theorem before_add (a b c : UInt32) : Before (a + c) (b + c) ↔ Before a b := by
  rw [Before, Before, add_sub_add_right_eq_sub]

theorem at?_shift (tsl : TsList) (c : UInt32) (i : ℕ) :
    (tsl.shift c).at? i = (tsl.at? i).map (· + c) := by
  simp only [TsList.at?, TsList.shift, ← map_reverse, find?_map, Option.map_map]
  rfl

theorem misplaced_shift (tsl : TsList) (c : UInt32) :
    (∀ t ∈ (tsl.shift c).list, ¬ t.Misplaced) ↔ ∀ t ∈ tsl.list, ¬ t.Misplaced := by
  simp only [TsList.shift, forall_mem_map]
  rfl

structure Placed (tsl : TsList) (vp : List PointInfo) : Prop where
  points : processOrderedTimestamps tsl = some vp
  length : vp.length = 11
  seen : ∀ {i}, i < ppNum → seen vp i = if pLRxWakeup = i ∧
    discards (tsl.at? pLRxWakeup) (tsl.at? pLRxSkdataready) then none else tsl.at? i

theorem exists_placed (h : ∀ t ∈ tsl.list, ¬ t.Misplaced) : ∃ vp, Placed tsl vp := by
  obtain ⟨vp, hvp, hlen⟩ := placeTimestamps_eq_some length_emptyPoints h
  obtain ⟨vp', hvp', hlen', hseen⟩ := dropEarlyWakeup_spec hlen
  refine ⟨vp', ?_, hlen', fun {i} hi => ?_⟩
  · rw [processOrderedTimestamps, hvp, Option.bind_some, hvp']
  · rw [hseen, seen_placed hvp hi, seen_placed hvp (by decide), seen_placed hvp (by decide)]

namespace Placed

variable {tsl : TsList} {vp vp' : List PointInfo} {c : UInt32}

theorem shift (h : Placed tsl vp) (h' : Placed (tsl.shift c) vp')
    (hdisc : discards ((tsl.at? pLRxWakeup).map (· + c)) ((tsl.at? pLRxSkdataready).map (· + c)) =
      discards (tsl.at? pLRxWakeup) (tsl.at? pLRxSkdataready)) (i : ℕ) :
    PingTrace.seen vp' i = (PingTrace.seen vp i).map (· + c) := by
  by_cases hi : i < ppNum
  · rw [h.seen hi, h'.seen hi, at?_shift, at?_shift, at?_shift, hdisc]
    split_ifs <;> rfl
  · have hppNum : 11 ≤ ppNum := by decide
    have hlen := h.length
    have hlen' := h'.length
    rw [PingTrace.seen, PingTrace.seen, getElem?_eq_none (by omega),
      getElem?_eq_none (by omega)]
    rfl

theorem mask_wakeup_iff (h : Placed tsl vp) {w : UInt32} (hw : tsl.at? pLRxWakeup = some w) :
    vp[pLRxWakeup]?.map PointInfo.mask = some false ↔
      discards (tsl.at? pLRxWakeup) (tsl.at? pLRxSkdataready) = true := by
  have hlen := h.length
  have hp : vp[pLRxWakeup]? = some vp[7] := getElem?_eq_getElem _
  have hat := h.seen (i := pLRxWakeup) (by decide)
  rw [seen_eq hp, hw] at hat
  rw [hp, hw]
  cases hm : vp[7].mask <;>
    cases hd : discards (some w) (tsl.at? pLRxSkdataready) <;> simp_all

theorem mask_taskWaking (h : Placed tsl vp) (hpoints : tsr.points = vp)
    (hnew : (tsr.delay .lRxTaskWaking).mask = false) (hu : computeDelays hist tsr = some u) :
    (u.2.delay .lRxTaskWaking).mask =
      ((tsl.at? pLRxSkdataready).isSome && (tsl.at? pLRxWakeup).isSome &&
        !discards (tsl.at? pLRxWakeup) (tsl.at? pLRxSkdataready)) := by
  have hne : pLRxWakeup ≠ pLRxSkdataready := by decide
  rw [PingTrace.mask_taskWaking (hpoints ▸ h.length) hnew hu, hpoints, h.seen (by decide),
    h.seen (by decide)]
  simp only [hne, false_and, if_false, true_and]
  cases discards (tsl.at? pLRxWakeup) (tsl.at? pLRxSkdataready) <;> simp

end Placed

theorem process_delay {r : EcsTimeStampRecorder} (hto : tsl.timeout = false)
    (hvp : processOrderedTimestamps tsl = some vp) (dstip seq : UInt32) :
    (r.process tsl dstip seq).map (fun res => res.2.delay) =
      (computeDelays r.delayHistorys { startResults tsl dstip seq with points := vp }).map
        fun u => u.2.delay := by
  simp only [EcsTimeStampRecorder.process, hto, hvp, Bool.false_eq_true, if_false,
    Option.bind_eq_bind, Option.bind_some]
  cases computeDelays r.delayHistorys { startResults tsl dstip seq with points := vp } <;> rfl

section Shift

variable {r : EcsTimeStampRecorder} {tsl : TsList} {dstip seq c : UInt32}

theorem process_delay_shift_iff (hto : tsl.timeout = false) (hmis : ∀ t ∈ tsl.list, ¬ t.Misplaced) :
    (r.process (tsl.shift c) dstip seq).map (fun res => res.2.delay) =
        (r.process tsl dstip seq).map (fun res => res.2.delay) ↔
      discards ((tsl.at? pLRxWakeup).map (· + c)) ((tsl.at? pLRxSkdataready).map (· + c)) =
        discards (tsl.at? pLRxWakeup) (tsl.at? pLRxSkdataready) := by
  obtain ⟨vp, h⟩ := exists_placed hmis
  obtain ⟨vp', h'⟩ := exists_placed ((misplaced_shift tsl c).mpr hmis)
  rw [process_delay hto h.points,
    process_delay (show (tsl.shift c).timeout = false from hto) h'.points]
  set tsr : Results := { startResults tsl dstip seq with points := vp }
  set tsr' : Results := { startResults (tsl.shift c) dstip seq with points := vp' }
  constructor
  · intro heq
    obtain ⟨u, hu⟩ : ∃ u, computeDelays r.delayHistorys tsr = some u :=
      computeDelays_eq_some _ h.length
    obtain ⟨u', hu'⟩ : ∃ u, computeDelays r.delayHistorys tsr' = some u :=
      computeDelays_eq_some _ h'.length
    rw [hu, hu', Option.map_some, Option.map_some, Option.some.injEq] at heq
    have hmask := h'.mask_taskWaking rfl rfl hu'
    rw [heq, h.mask_taskWaking rfl rfl hu, at?_shift, at?_shift, Option.isSome_map,
      Option.isSome_map] at hmask
    -- nothing is discarded unless the two points are given
    cases hs : tsl.at? pLRxSkdataready with
    | none => rw [Option.map_none, discards_none_right, discards_none_right]
    | some s =>
      cases hw : tsl.at? pLRxWakeup with
      | none => rw [Option.map_none, discards_none_left, discards_none_left]
      | some w =>
        rw [hs, hw, Option.isSome_some, Option.isSome_some, Bool.and_self, Bool.true_and,
          Bool.true_and, Bool.not_eq_eq_eq_not, Bool.not_not] at hmask
        exact hmask.symm
  · intro hdisc
    have htsr : Shifted c tsr tsr' := ⟨⟨h.length, h'.length⟩, h.shift h' hdisc, rfl⟩
    exact htsr.computeDelays _

theorem shiftInvariant_of_timeout (hto : tsl.timeout = true) :
    ShiftInvariant r tsl dstip seq c := by
  have hprocess : ∀ t : TsList, t.timeout = true →
      (r.process t dstip seq).map (fun res => res.2.delay) = some fun _ => ⟨0, false⟩ := by
    intro t ht
    rw [EcsTimeStampRecorder.process, ht]
    rfl
  refine ⟨?_, fun h => absurd (hto.symm.trans h) (by decide)⟩
  rw [hprocess tsl hto, hprocess (tsl.shift c) hto]

theorem shiftInvariant_of_misplaced (hto : tsl.timeout = false)
    (hmis : ∃ t ∈ tsl.list, t.Misplaced) : ShiftInvariant r tsl dstip seq c := by
  have hprocess : ∀ t : TsList, t.timeout = false → (¬ ∀ u ∈ t.list, ¬ u.Misplaced) →
      r.process t dstip seq = none := by
    intro t ht hm
    rw [← Option.not_isSome_iff_eq_none, process_isSome_iff, ht]
    simpa using hm
  have hnot : ¬ ∀ t ∈ tsl.list, ¬ t.Misplaced := by
    push Not
    exact hmis
  refine ⟨?_, fun _ {vp w s} hvp => ?_⟩
  · rw [hprocess tsl hto hnot, hprocess (tsl.shift c) hto (mt (misplaced_shift tsl c).mp hnot)]
  · rw [processOrderedTimestamps, placeTimestamps_eq_none length_emptyPoints hmis] at hvp
    cases hvp

theorem shiftInvariant_iff_near (hto : tsl.timeout = false)
    (hmis : ∀ t ∈ tsl.list, ¬ t.Misplaced) :
    ShiftInvariant r tsl dstip seq c ↔
      ∀ w s, tsl.at? pLRxWakeup = some w → tsl.at? pLRxSkdataready = some s →
        Near w s ∧ Near (w + c) (s + c) := by
  obtain ⟨vp, hplaced⟩ := exists_placed hmis
  have hwakeup : ∀ {vp w s}, processOrderedTimestamps tsl = some vp →
      tsl.at? pLRxWakeup = some w → tsl.at? pLRxSkdataready = some s →
        (vp[pLRxWakeup]?.map PointInfo.mask = some false ↔ w.toInt32 < s.toInt32) := by
    intro vp w s hvp hw hs
    rw [hplaced.points] at hvp
    cases hvp
    rw [hplaced.mask_wakeup_iff hw, hw, hs, discards_some, decide_eq_true_iff]
  constructor
  · intro hinv w s hw hs
    have hsame := (process_delay_shift_iff hto hmis).mp hinv.delays
    have horder := (discards_shift_iff _ _ c).mp hsame w s hw hs
    have hbefore := (hwakeup hplaced.points hw hs).symm.trans
      (hinv.wakeup hto hplaced.points hw hs)
    rw [← lt_iff_before_iff_near, ← lt_iff_before_iff_near, before_add, horder]
    exact ⟨hbefore, hbefore⟩
  · intro hnear
    refine ⟨(process_delay_shift_iff hto hmis).mpr ?_, fun _ {vp w s} hvp hw hs => ?_⟩
    · refine (discards_shift_iff _ _ c).mpr fun w s hw hs => ?_
      obtain ⟨h, h'⟩ := hnear w s hw hs
      rw [(lt_iff_before_iff_near _ _).mpr h', (lt_iff_before_iff_near _ _).mpr h, before_add]
    · rw [hwakeup hvp hw hs]
      exact (lt_iff_before_iff_near w s).mpr (hnear w s hw hs).1

end Shift

theorem clock_shift_iff (r : EcsTimeStampRecorder) (tsl : TsList) (dstip seq c : UInt32) :
    ShiftInvariant r tsl dstip seq c ↔
      tsl.timeout = true ∨ (∃ t ∈ tsl.list, t.Misplaced) ∨
        ∀ w s, tsl.at? pLRxWakeup = some w → tsl.at? pLRxSkdataready = some s →
          Near w s ∧ Near (w + c) (s + c) := by
  by_cases hmis : ∃ t ∈ tsl.list, t.Misplaced
  · cases hto : tsl.timeout with
    | true => exact iff_of_true (shiftInvariant_of_timeout hto) (.inl rfl)
    | false => exact iff_of_true (shiftInvariant_of_misplaced hto hmis) (.inr (.inl hmis))
  · cases hto : tsl.timeout with
    | true => exact iff_of_true (shiftInvariant_of_timeout hto) (.inl rfl)
    | false =>
      simp only [hmis, Bool.false_eq_true, false_or]
      push Not at hmis
      exact shiftInvariant_iff_near hto hmis

def aroundWrap : TsList :=
  ⟨0, 0, [⟨0, 0, 0, 6, 0x7ffffffe⟩, ⟨0, 0, 0, 7, 0x80000004⟩], false⟩

theorem clock_shift_wrap :
    (((EcsTimeStampRecorder.new 0).process aroundWrap 0 0).map
        fun res => (res.2.delay .lRxTaskWaking).mask) = some false ∧
      (((EcsTimeStampRecorder.new 0).process (aroundWrap.shift 16) 0 0).map
        fun res => (res.2.delay .lRxTaskWaking).mask) = some true ∧
      ¬ ShiftInvariant (EcsTimeStampRecorder.new 0) aroundWrap 0 0 16 := by
  have h : (((EcsTimeStampRecorder.new 0).process aroundWrap 0 0).map
      fun res => (res.2.delay .lRxTaskWaking).mask) = some false := by decide +kernel
  have h' : (((EcsTimeStampRecorder.new 0).process (aroundWrap.shift 16) 0 0).map
      fun res => (res.2.delay .lRxTaskWaking).mask) = some true := by decide +kernel
  refine ⟨h, h', fun hinv => ?_⟩
  have hsame := congrArg (Option.map fun d => (d Delay.lRxTaskWaking).mask) hinv.delays
  rw [Option.map_map, Option.map_map] at hsame
  exact absurd (h'.symm.trans (hsame.trans h)) (by decide)

end Sysak.PingTrace
