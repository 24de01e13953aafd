/-
# The least delay of the last ones
-/

import Sysak.Lib.SuffixMinima
import Sysak.PingTrace.Recorder

namespace Sysak.PingTrace

open Lib List

def diff (p : UInt32 × UInt32) : ℤ := (p.2 - p.1).toInt32.toInt

theorem diff_bounds (p : UInt32 × UInt32) : -2 ^ 31 ≤ diff p ∧ diff p < 2 ^ 31 :=
  ⟨Int32.le_toInt _, Int32.toInt_lt _⟩

namespace DelayRecorder

def recordAll (r : DelayRecorder) (ps : List (UInt32 × UInt32)) : DelayRecorder :=
  ps.foldl (fun r p => (r.record p.1 p.2).2) r

structure Right (r : DelayRecorder) (ps : List (UInt32 × UInt32)) (p : UInt32 × UInt32) : Prop where
  least : IsLeast {d | d ∈ lastN r.maxNum.toNat ((ps ++ [p]).map diff)}
    (r.recordAll (ps ++ [p])).query.toInt
  returned : (((r.recordAll ps).record p.1 p.2).1.toNat : ℤ) =
    diff p - (r.recordAll (ps ++ [p])).query.toInt

theorem recordAll_concat (r : DelayRecorder) (ps : List (UInt32 × UInt32)) (p : UInt32 × UInt32) :
    r.recordAll (ps ++ [p]) = ((r.recordAll ps).record p.1 p.2).2 := by
  rw [recordAll, foldl_append]
  rfl

def stamps (first : UInt32) (ps : List (UInt32 × UInt32)) : List (UInt32 × Int64) :=
  ps.mapIdx fun i p => (first + UInt32.ofNat i, (p.2 - p.1).toInt32.toInt64)

variable {first : UInt32} {ps : List (UInt32 × UInt32)} {p : UInt32 × UInt32}

@[simp] theorem length_stamps : (stamps first ps).length = ps.length := length_mapIdx

theorem stamps_concat : stamps first (ps ++ [p]) =
    stamps first ps ++ [(first + UInt32.ofNat ps.length, (p.2 - p.1).toInt32.toInt64)] :=
  mapIdx_concat

theorem map_stamps (first : UInt32) (ps : List (UInt32 × UInt32)) :
    (stamps first ps).map (fun e => e.2.toInt) = ps.map diff := by
  refine ext_getElem (by simp) fun i _ _ => ?_
  simp [stamps, diff]

theorem stamps_idx {e : UInt32 × Int64} {j : ℕ} (h : (stamps first ps)[j]? = some e)
    (hj : first.toNat + j < 2 ^ 32) : e.1.toNat = first.toNat + j := by
  rw [stamps, getElem?_mapIdx] at h
  obtain ⟨q, -, rfl⟩ := Option.map_eq_some_iff.mp h
  show (first + UInt32.ofNat j).toNat = _
  rw [UInt32.toNat_add, UInt32.toNat_ofNat', Nat.add_mod_mod, Nat.mod_eq_of_lt hj]

def value (e : UInt32 × Int64) : ℤ := e.2.toInt

theorem add_q (r : DelayRecorder) (v : Int64) :
    (r.add v).q = (r.q.rdropWhile (fun d => decide (value (r.idx + 1, v) ≤ value d)) ++
      [(r.idx + 1, v)]).dropWhile fun e => decide (e.1 + r.maxNum ≤ r.idx + 1) := by
  have hvalue : (fun d : UInt32 × Int64 => decide (value (r.idx + 1, v) ≤ value d)) =
      fun d => decide (v ≤ d.2) :=
    funext fun d => decide_eq_decide.mpr Int64.le_iff_toInt_le.symm
  rw [hvalue]
  rfl

def after (idx maxNum : UInt32) (ps : List (UInt32 × UInt32)) : DelayRecorder :=
  ⟨idx + UInt32.ofNat ps.length,
    suffixMinima value (lastN maxNum.toNat (stamps (idx + 1) ps)), maxNum⟩

variable {idx maxNum : UInt32}

theorem record_after (hbound : (idx + 1).toNat + ps.length + maxNum.toNat < 2 ^ 32)
    (p : UInt32 × UInt32) :
    ((after idx maxNum ps).record p.1 p.2).2 = after idx maxNum (ps ++ [p]) := by
  have hidx : idx + UInt32.ofNat ps.length + 1 = idx + 1 + UInt32.ofNat ps.length := by
    rw [UInt32.add_assoc, UInt32.add_comm (UInt32.ofNat _), ← UInt32.add_assoc]
  have hidx' : idx + UInt32.ofNat (ps ++ [p]).length = idx + 1 + UInt32.ofNat ps.length := by
    rw [length_append, UInt32.ofNat_add, ← hidx, UInt32.add_assoc]
    rfl
  have hnat : (idx + 1 + UInt32.ofNat ps.length).toNat = (idx + 1).toNat + ps.length := by
    rw [UInt32.toNat_add, UInt32.toNat_ofNat', Nat.add_mod_mod, Nat.mod_eq_of_lt (by omega)]
  have hq : ((after idx maxNum ps).add (p.2 - p.1).toInt32.toInt64).q =
      suffixMinima value (lastN maxNum.toNat (stamps (idx + 1) (ps ++ [p]))) := by
    rw [add_q, stamps_concat]
    simp only [after, hidx]
    refine suffixMinima_lastN_concat value fun {j e} hj => ?_
    rw [← stamps_concat] at hj
    have hlt := (List.getElem?_eq_some_iff.mp hj).1
    rw [length_stamps, length_append, length_singleton] at hlt
    have he := stamps_idx hj (by omega)
    rw [decide_eq_decide, UInt32.le_iff_toNat_le, UInt32.toNat_add, he,
      Nat.mod_eq_of_lt (by omega), hnat, length_stamps]
    omega
  show DelayRecorder.mk (idx + UInt32.ofNat ps.length + 1)
    ((after idx maxNum ps).add (p.2 - p.1).toInt32.toInt64).q maxNum = _
  rw [hq, hidx, ← hidx']
  rfl

theorem recordAll_eq : ∀ {ps : List (UInt32 × UInt32)},
    (idx + 1).toNat + ps.length + maxNum.toNat ≤ 2 ^ 32 →
      recordAll ⟨idx, [], maxNum⟩ ps = after idx maxNum ps := by
  intro ps
  induction ps using reverseRecOn with
  | nil =>
    intro _
    simp [recordAll, after, stamps, lastN, suffixMinima]
  | append_singleton ps p ih =>
    intro hbound
    rw [length_append, length_singleton] at hbound
    rw [recordAll_concat, ih (by omega), record_after (by omega)]

theorem isLeast_query (hne : ps ≠ []) (hmax : 0 < maxNum.toNat) :
    IsLeast {d | d ∈ lastN maxNum.toNat (ps.map diff)} (after idx maxNum ps).query.toInt := by
  have hwindow : lastN maxNum.toNat (ps.map diff) =
      (lastN maxNum.toNat (stamps (idx + 1) ps)).map value := by
    rw [lastN, lastN, map_drop, ← map_stamps (idx + 1), length_map]
    rfl
  have hne' : lastN maxNum.toNat (stamps (idx + 1) ps) ≠ [] := by
    rw [← length_pos_iff, length_lastN, length_stamps]
    exact lt_min (length_pos_iff.mpr hne) hmax
  obtain ⟨e, he, hhead, hleast⟩ := head?_suffixMinima value hne'
  have hquery : (after idx maxNum ps).query = e.2 := by
    rw [query, after, hhead]
    rfl
  rw [hwindow, hquery]
  refine ⟨mem_map.mpr ⟨e, he, rfl⟩, fun d hd => ?_⟩
  obtain ⟨e', he', rfl⟩ := mem_map.mp hd
  exact hleast e' he'

theorem returned_eq {r : DelayRecorder} {p q : UInt32 × UInt32}
    (hquery : (r.record p.1 p.2).2.query.toInt = diff q) (hle : diff q ≤ diff p) :
    ((r.record p.1 p.2).1.toNat : ℤ) = diff p - diff q := by
  have hp := diff_bounds p
  have hq := diff_bounds q
  have hval : (p.2 - p.1).toInt32.toInt64.toInt = diff p := Int32.toInt_toInt64 _
  have hsub : ((p.2 - p.1).toInt32.toInt64 - (r.record p.1 p.2).2.query).toInt =
      diff p - diff q := by
    rw [Int64.toInt_sub, hval, hquery]
    exact Int.bmod_eq_of_le (by omega) (by omega)
  have hnonneg : 0 ≤ (p.2 - p.1).toInt32.toInt64 - (r.record p.1 p.2).2.query := by
    rw [Int64.le_iff_toInt_le, hsub]
    exact Int.sub_nonneg_of_le hle
  show ((((p.2 - p.1).toInt32.toInt64 - (r.record p.1 p.2).2.query).toUInt64.toUInt32.toNat : ℕ) :
    ℤ) = _
  rw [UInt64.toNat_toUInt32, Int64.toNat_toUInt64_of_le hnonneg, Int64.toNatClampNeg, hsub,
    Nat.mod_eq_of_lt (by omega)]
  omega

theorem right_of_lt (hmax : 0 < maxNum.toNat) (p : UInt32 × UInt32)
    (hbound : (idx + 1).toNat + ps.length + maxNum.toNat < 2 ^ 32) :
    Right ⟨idx, [], maxNum⟩ ps p := by
  have hafter : recordAll ⟨idx, [], maxNum⟩ (ps ++ [p]) = after idx maxNum (ps ++ [p]) := by
    refine recordAll_eq ?_
    rw [length_append, length_singleton]
    omega
  have hleast : IsLeast {d | d ∈ lastN maxNum.toNat ((ps ++ [p]).map diff)}
      (after idx maxNum (ps ++ [p])).query.toInt :=
    isLeast_query (by simp) hmax
  have hnewest : diff p ∈ lastN maxNum.toNat ((ps ++ [p]).map diff) := by
    rw [map_append, lastN, length_append, map_singleton, length_singleton,
      drop_append_of_le_length (by omega)]
    exact mem_append_right _ (mem_singleton_self _)
  obtain ⟨q, -, hq⟩ := mem_map.mp (mem_of_mem_drop hleast.1)
  refine ⟨hafter ▸ hleast, ?_⟩
  rw [hafter, ← hq]
  refine returned_eq ?_ (hq ▸ hleast.2 hnewest)
  rw [← recordAll_concat, hafter, hq]

def minusOne : UInt32 × UInt32 := (1, 0)

theorem record_minusOne {r : DelayRecorder} (hr : ∀ e ∈ r.q, e.2 = -1) :
    (r.record minusOne.1 minusOne.2).2.q =
      [(r.idx + 1, -1)].dropWhile fun e => decide (e.1 + r.maxNum ≤ r.idx + 1) := by
  show (r.add (-1)).q = _
  have hgo : r.q.rdropWhile (fun d => decide (value (r.idx + 1, -1) ≤ value d)) = [] := by
    refine rdropWhile_eq_nil_iff.mpr fun e he => decide_eq_true ?_
    rw [value, value, hr e he]
  rw [add_q, hgo, nil_append]

theorem recordAll_minusOne (idx maxNum : UInt32) (k : ℕ) :
    (∀ e ∈ (recordAll ⟨idx, [], maxNum⟩ (replicate k minusOne)).q, e.2 = -1) ∧
      (recordAll ⟨idx, [], maxNum⟩ (replicate k minusOne)).idx = idx + UInt32.ofNat k ∧
      (recordAll ⟨idx, [], maxNum⟩ (replicate k minusOne)).maxNum = maxNum := by
  induction k with
  | zero => exact ⟨fun e he => absurd he not_mem_nil, (UInt32.add_zero idx).symm, rfl⟩
  | succ k ih =>
    obtain ⟨hq, hidx, hmax⟩ := ih
    rw [replicate_succ', recordAll_concat]
    refine ⟨fun e he => ?_, ?_, hmax⟩
    · rw [record_minusOne hq] at he
      rw [mem_singleton.mp (dropWhile_subset _ he)]
    · show (recordAll ⟨idx, [], maxNum⟩ (replicate k minusOne)).idx + 1 = _
      rw [hidx, UInt32.ofNat_add, UInt32.add_assoc]
      rfl

theorem not_right_minusOne {k : ℕ} (hidx : (idx + 1).toNat + k < 2 ^ 32)
    (hend : 2 ^ 32 ≤ (idx + 1).toNat + k + maxNum.toNat) :
    ¬ Right ⟨idx, [], maxNum⟩ (replicate k minusOne) minusOne := by
  intro hright
  obtain ⟨hq, hidx', hmax⟩ := recordAll_minusOne idx maxNum k
  have hnil : (recordAll ⟨idx, [], maxNum⟩ (replicate k minusOne ++ [minusOne])).q = [] := by
    rw [recordAll_concat, record_minusOne hq, dropWhile_eq_nil_iff]
    intro e he
    have hnat : (idx + UInt32.ofNat k + 1).toNat = (idx + 1).toNat + k := by
      rw [UInt32.add_assoc, UInt32.add_comm (UInt32.ofNat k), ← UInt32.add_assoc,
        UInt32.toNat_add, UInt32.toNat_ofNat', Nat.add_mod_mod, Nat.mod_eq_of_lt hidx]
    have hlt := maxNum.toNat_lt
    rw [mem_singleton.mp he, hmax, hidx', decide_eq_true_iff, UInt32.le_iff_toNat_le,
      UInt32.toNat_add, hnat, Nat.mod_eq_sub_mod (by omega), Nat.mod_eq_of_lt (by omega)]
    omega
  have hquery : (recordAll ⟨idx, [], maxNum⟩
      (replicate k minusOne ++ [minusOne])).query.toInt = 0 := by
    rw [query, hnil]
    rfl
  obtain ⟨p, hp, hzero⟩ := mem_map.mp (mem_of_mem_drop hright.least.1)
  rw [hquery, ← replicate_succ'] at *
  rw [eq_of_mem_replicate hp] at hzero
  exact absurd hzero (by decide)

end DelayRecorder

theorem delay_recorder_iff (idx maxNum : UInt32) (hmax : 0 < maxNum) (n : ℕ) :
    (∀ ps p, ps.length ≤ n → DelayRecorder.Right ⟨idx, [], maxNum⟩ ps p) ↔
      (idx + 1).toNat + n + maxNum.toNat < 2 ^ 32 := by
  have hpos : 0 < maxNum.toNat := UInt32.lt_iff_toNat_lt.mp hmax
  constructor
  · intro hright
    by_contra hend
    -- the first index whose window ends behind 2^32
    have hfirst := (idx + 1).toNat_lt
    refine DelayRecorder.not_right_minusOne (k := 2 ^ 32 - maxNum.toNat - (idx + 1).toNat)
      (by omega) (by omega) (hright _ _ ?_)
    rw [length_replicate]
    omega
  · intro hbound ps p hps
    exact DelayRecorder.right_of_lt hpos p (by omega)

theorem delay_recorder_iff_zero :
    (0 : UInt32) < 10000 ∧ ∀ ps p, ps.length ≤ 9 → DelayRecorder.Right ⟨0, [], 10000⟩ ps p :=
  ⟨by decide, (delay_recorder_iff 0 10000 (by decide) 9).mpr (by decide)⟩

theorem delay_recorder_wraps :
    (DelayRecorder.recordAll ⟨4294967294, [], 10000⟩ [(1, 0)]).query = 0 ∧ diff (1, 0) = -1 ∧
      ¬ DelayRecorder.Right ⟨4294967294, [], 10000⟩ [] (1, 0) := by
  refine ⟨by decide, by decide, fun hright => ?_⟩
  have hmem := hright.least.1
  revert hmem
  decide

end Sysak.PingTrace
