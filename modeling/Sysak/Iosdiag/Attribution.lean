/-
# From the line to the statistics

A line **survives** if it is JSON, its delays add up to its total, the reader raises nothing, and
each delay is in the statistics of the component named with it, and in no others (`Survives`).
-/

import Sysak.Iosdiag.Analysis
import Mathlib.Data.Fin.VecNotation

namespace Sysak.Iosdiag

open Lib Lib.Json List Option

inductive Component where
  | block
  | driver
  | disk
  | complete
deriving DecidableEq, Repr

namespace Component

def inLine : Component → Bytes
  | block => bytes "block"
  | driver => bytes "driver"
  | disk => bytes "disk"
  | complete => bytes "complete"

def inStats : Component → Bytes
  | block => bytes "os(block)"
  | driver => bytes "os(driver)"
  | disk => bytes "disk"
  | complete => bytes "os(complete)"

def place : Component → ℕ
  | block => 0
  | driver => 1
  | disk => 2
  | complete => 3

end Component

def entryOf : Json → Option (Bytes × ℤ)
  | .obj l =>
    match (orderedDict l).lookup (bytes "component"), (orderedDict l).lookup (bytes "delay") with
    | some (.str name), some (.int z) => some (name, z)
    | _, _ => none
  | _ => none

def entries (s : List (Bytes × Json)) : List (Bytes × ℤ) :=
  match s.lookup (bytes "delays") with
  | some (.arr l) => l.filterMap entryOf
  | _ => []

def delaysOf (s : List (Bytes × Json)) (c : Component) : List ℤ :=
  ((entries s).filter fun p => p.1 == c.inLine).map Prod.snd

def AddsUp (s : List (Bytes × Json)) : Prop :=
  s.lookup (bytes "totaldelay") = some (.int ((entries s).map Prod.snd).sum)

def Attributed (a a' : LatencyAnalysis) (s : List (Bytes × Json)) : Prop :=
  ∃ disk, s.lookup (bytes "diskname") = some (.str disk) ∧
    (∀ c : Component, ∃ st, a.stat disk c.inStats = some st ∧
      a'.stat disk c.inStats = some ((delaysOf s c).foldl addDelay st)) ∧
    ∀ d, d ≠ disk → a'.stats d = a.stats d

def Survives (ms : ℤ → Bytes) (a : LatencyAnalysis) (line : Bytes) : Prop :=
  ∃ l a', loads line = some (.obj l) ∧ AddsUp (orderedDict l) ∧ readLine ms a line = .ok a' ∧
    Attributed a a' (orderedDict l)

section Line

variable (date : Bytes) (iop : IosdiagReq)

theorem orderedDict_lineJson : orderedDict (lineJson date iop) = lineJson date iop := rfl

theorem lookup_totaldelay :
    (lineJson date iop).lookup (bytes "totaldelay") =
      some (.int (micros iop.ts 0 4).toNat) := rfl

theorem lookup_abnormal : (lineJson date iop).lookup (bytes "abnormal") = none := rfl

theorem entries_lineJson :
    entries (lineJson date iop) =
      (delays iop.ts).map fun p => (percentS (delayIdxToStr p.1), (p.2.toNat : ℤ)) := by
  show ((delays iop.ts).map delayJson).filterMap entryOf = _
  rw [filterMap_map]
  exact congrFun filterMap_eq_map (delays iop.ts)

theorem delayAt_lineJson (idx : ℕ) :
    delayAt (lineJson date iop) idx =
      ((delays iop.ts)[idx]?).elim (.error .indexError) fun p => .ok (p.2.toNat : ℤ) := by
  show ((pyIndex ((delays iop.ts).map delayJson) idx >>= asDict) >>= fun entry =>
    pyGet entry (bytes "delay") >>= asInt) = _
  rw [pyIndex, getElem?_map]
  cases (delays iop.ts)[idx]? with
  | none => rfl
  | some p => rfl

end Line

variable {iop : IosdiagReq} {ms : ℤ → Bytes} {a a' : LatencyAnalysis} {date line : Bytes}

theorem four_le_of_readLine (ha : a.WellFormed)
    (hload : loads line = some (.obj (lineJson date iop))) (hok : readLine ms a line = .ok a') :
    4 ≤ (delays iop.ts).length := by
  rcases readLine_cases ha hok with ⟨hnone, -⟩ | ⟨v, s, disk, c, hv, hs, -, -, hline⟩
  · rw [hload] at hnone
    cases hnone
  · cases hload.symm.trans hv
    cases hs
    rw [orderedDict_lineJson, lookup_abnormal] at hline
    obtain ⟨-, hok⟩ := hline.resolve_left fun h => by cases h.1
    obtain ⟨total, delay, -, hdelay⟩ := reads_of_processLatencyDelays hok
    have h3 := hdelay 3 (by decide)
    rw [delayAt_lineJson] at h3
    cases hget : (delays iop.ts)[3]? with
    | none =>
      rw [hget] at h3
      cases h3
    | some p => exact (List.getElem?_eq_some_iff.mp hget).1

def delayOf (ts : Point → UInt64) (idx : ℕ) : ℤ := ((delays ts)[idx]?).elim 0 fun p => p.2.toNat

theorem readLine_of_increasing (ms : ℤ → Bytes) (ha : a.WellFormed) (hinc : Increasing iop.ts)
    (hload : loads line = some (.obj (lineJson date iop))) :
    ∃ a', readLine ms a line = .ok a' ∧ ∀ d, a'.stats d =
      if d = iop.diskname.text then withDelays (delayOf iop.ts) (a.stats d) else a.stats d := by
  obtain ⟨b, c, hb, hc, hmet⟩ := ha.meets iop.diskname.text
  have hdelay : ∀ idx < 4, delayAt (lineJson date iop) idx = .ok (delayOf iop.ts idx) := by
    intro idx hidx
    have hlt : idx < (delays iop.ts).length := by rwa [(length_delays_iff _).mpr hinc]
    rw [delayAt_lineJson, delayOf, getElem?_eq_getElem hlt]
    rfl
  obtain ⟨a', hok, hdelayed⟩ := processLatencyDelays_spec hmet.wellFormed (s := lineJson date iop)
    rfl ((hmet.met _).mpr (.inr rfl)) rfl hdelay
  refine ⟨a', ?_, fun d => by rw [hdelayed.stats, hmet.stats]⟩
  rw [readLine, hload]
  refine bind_eq_ok_iff.mpr ⟨_, rfl, bind_eq_ok_iff.mpr ⟨iop.diskname.text, rfl,
    bind_eq_ok_iff.mpr ⟨b, hb, bind_eq_ok_iff.mpr ⟨c, hc, ?_⟩⟩⟩⟩
  rw [orderedDict_lineJson, lookup_abnormal, if_neg (by decide)]
  exact hok

theorem find_component {l : List ComponentStat}
    (h : l.map ComponentStat.component = componentDicts.map Prod.fst)
    (c : Component) : (l.find? fun st => st.component == c.inStats) = l[c.place]? := by
  obtain ⟨s₀, s₁, s₂, s₃, rfl⟩ := exists_four h
  simp only [map_cons, map_nil, componentDicts, List.cons.injEq, and_true] at h
  obtain ⟨h₀, h₁, h₂, h₃⟩ := h
  cases c with
  | block =>
    rw [find?_cons_of_pos (by rw [h₀]; decide)]
    rfl
  | driver =>
    rw [find?_cons_of_neg (by rw [h₀]; decide), find?_cons_of_pos (by rw [h₁]; decide)]
    rfl
  | disk =>
    rw [find?_cons_of_neg (by rw [h₀]; decide), find?_cons_of_neg (by rw [h₁]; decide),
      find?_cons_of_pos (by rw [h₂]; decide)]
    rfl
  | complete =>
    rw [find?_cons_of_neg (by rw [h₀]; decide), find?_cons_of_neg (by rw [h₁]; decide),
      find?_cons_of_neg (by rw [h₂]; decide), find?_cons_of_pos (by rw [h₃]; decide)]
    rfl

theorem addsUp_of_increasing (hinc : Increasing iop.ts) (date : Bytes) :
    AddsUp (lineJson date iop) := by
  have hsum := sum_delays (lt_of_increasing hinc)
  rw [AddsUp, lookup_totaldelay, entries_lineJson, ← hsum, delays_of_increasing hinc]
  simp only [map_cons, map_nil, sum_cons, sum_nil, Nat.cast_add,
    Nat.cast_zero]

theorem delaysOf_of_increasing (hinc : Increasing iop.ts) (date : Bytes) (c : Component) :
    delaysOf (lineJson date iop) c = [delayOf iop.ts c.place] := by
  simp only [delaysOf, delayOf, entries_lineJson, delays_of_increasing hinc]
  cases c <;> rfl

theorem survives_of_increasing (ha : a.WellFormed) (hdate : ∀ c ∈ date, Plain c)
    (hinc : Increasing iop.ts) : Survives ms a (delayConvertToJson date iop) := by
  have hload := loads_line hdate (.inl (lt_of_increasing hinc))
  obtain ⟨a', hok, hstats⟩ := readLine_of_increasing ms ha hinc hload
  refine ⟨_, a', hload, addsUp_of_increasing hinc date, hok, iop.diskname.text, rfl, fun c => ?_,
    fun d hd => by rw [hstats, if_neg hd]⟩
  -- before and after, the statistics of a component are at its place
  have hnames := ha.map_stats iop.diskname.text
  obtain ⟨s₀, s₁, s₂, s₃, hfour⟩ := exists_four hnames
  rw [LatencyAnalysis.stat, LatencyAnalysis.stat, find_component hnames,
    find_component ((wellFormed_readLine ha hok).map_stats _), hstats, if_pos rfl, hfour,
    orderedDict_lineJson, delaysOf_of_increasing hinc]
  cases c with
  | block => exact ⟨s₀, rfl, rfl⟩
  | driver => exact ⟨s₁, rfl, rfl⟩
  | disk => exact ⟨s₂, rfl, rfl⟩
  | complete => exact ⟨s₃, rfl, rfl⟩

theorem attribution_iff {ms : ℤ → Bytes} {lines : List Bytes} {a : LatencyAnalysis}
    (ha : readLines ms lines = .ok a) (t : CheckTime) (iop : IosdiagReq) :
    Survives ms a (delayConvertToJson (setCheckTimeDate t) iop) ↔ Increasing iop.ts := by
  have hdate := plain_setCheckTimeDate t
  constructor
  · rintro ⟨l, a', hload, -, hok, -⟩
    rw [← length_delays_iff]
    by_cases hread : iop.ts (lastBase iop.ts) < iop.ts 4 ∨ delays iop.ts = []
    · have hfour := four_le_of_readLine (wellFormed_readLines ha) (loads_line hdate hread) hok
      exact le_antisymm (length_delays_le iop.ts) hfour
    · obtain ⟨hlast, hne⟩ := not_or.mp hread
      rw [loads_line_eq_none hdate hlast hne] at hload
      cases hload
  · exact survives_of_increasing (wellFormed_readLines ha) hdate

def sdaReq (ts : Point → UInt64) : IosdiagReq := ⟨⟨bytes "sda", by decide⟩, ts⟩

def someTime : CheckTime := ⟨123, 6, 14, 10, 20, 30, 456000⟩

theorem attribution_in_order :
    Survives (fun _ => []) .init (delayConvertToJson (setCheckTimeDate someTime)
      (sdaReq ![1000000, 2000000, 3000000, 4000000, 5000000])) := by
  have hstart : readLines (fun _ => []) [] = .ok .init := rfl
  exact (attribution_iff hstart someTime _).mpr (by decide)

theorem attribution_fails :
    (entries (lineJson (setCheckTimeDate someTime)
        (sdaReq ![1000000, 2000000, 0, 4000000, 5000000])))[1]? = some (bytes "disk", 2000) ∧
      readLine (fun _ => []) .init (delayConvertToJson (setCheckTimeDate someTime)
        (sdaReq ![1000000, 2000000, 0, 4000000, 5000000])) = .error .indexError ∧
      ¬ Survives (fun _ => []) .init (delayConvertToJson (setCheckTimeDate someTime)
        (sdaReq ![1000000, 2000000, 0, 4000000, 5000000])) ∧
      loads (delayConvertToJson (setCheckTimeDate someTime)
        (sdaReq ![1000000, 2000000, 3000000, 4000000, 4000000])) = none := by
  have hdate := plain_setCheckTimeDate someTime
  have herr : readLine (fun _ => []) .init (delayConvertToJson (setCheckTimeDate someTime)
      (sdaReq ![1000000, 2000000, 0, 4000000, 5000000])) = .error .indexError := by
    rw [readLine, loads_line hdate (.inl (by decide))]
    rfl
  refine ⟨?_, herr, ?_, loads_line_eq_none hdate (by decide) (by decide)⟩
  · rw [entries_lineJson]
    rfl
  · rintro ⟨l, a', -, -, hok, -⟩
    rw [herr] at hok
    cases hok

end Sysak.Iosdiag
