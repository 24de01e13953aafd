/-
# Histograms from a BPF map
-/

import Mathlib.Algebra.BigOperators.Group.List.Basic
import Mathlib.Data.List.GetD
import Mathlib.Data.UInt
import Sysak.Lib.Overwrite

namespace Sysak.Collector

open Lib List

def distArraySize : ℕ := 20

abbrev DistArray : Type := { l : List UInt64 // l.length = distArraySize }

def keyNext (n key : ℕ) : Option ℕ := if key + 1 < n then some (key + 1) else none

def getDistLoop (map : List UInt64) : ℕ → ℕ → ℕ → List UInt64 → Option (ℕ × List UInt64)
  | 0, _, i, locals => some (i, locals)
  | n + 1, key, i, locals =>
    match keyNext map.length key with
    | none => some (i, locals)
    | some next =>
      if i < locals.length then getDistLoop map n next (i + 1) (locals.set i (map.getD next 0))
      else none

def getDist (map locals : List UInt64) : Option (ℕ × List UInt64) :=
  getDistLoop map (distArraySize + 1) 0 0 locals

def singleStep (locals : List UInt64) (st : List UInt64 × List UInt64) (i : ℕ) :
    List UInt64 × List UInt64 :=
  (st.1.set i (locals.getD i 0 - st.2.getD i 0), st.2.set i (locals.getD i 0))

def restStep (locals : List UInt64) (j : ℕ) (st : List UInt64 × List UInt64) (i : ℕ) :
    List UInt64 × List UInt64 :=
  (st.1.set j (st.1.getD j 0 + (locals.getD i 0 - st.2.getD i 0)), st.2.set i (locals.getD i 0))

def calDist (index : ℕ) (map locals values rec : List UInt64) :
    Option (List UInt64 × List UInt64) :=
  (getDist map locals).map fun r =>
    let st := (range (index - 1)).foldl (singleStep r.2) (values, rec)
    (range' (index - 1) (r.1 - (index - 1))).foldl (restStep r.2 (index - 1))
      (st.1.set (index - 1) 0, st.2)

def cpuDistIndex : ℕ := 8

def netDistIndex : ℕ := 4

def Cpudist.calDist : List UInt64 → List UInt64 → List UInt64 → List UInt64 →
    Option (List UInt64 × List UInt64) := Collector.calDist cpuDistIndex

def NetHealth.calDist : List UInt64 → List UInt64 → List UInt64 → List UInt64 →
    Option (List UInt64 × List UInt64) := Collector.calDist netDistIndex

section Walk

variable {map locals : List UInt64}

theorem getDistLoop_eq {n i : ℕ} (hmap : map.length ≤ locals.length) (hi : i < map.length)
    (hn : map.length - 1 - i < n) :
    getDistLoop map n i i (overwrite locals ((map.drop 1).take i)) =
      some (map.length - 1, overwrite locals (map.drop 1)) := by
  induction n generalizing i with
  | zero => exact absurd hn (Nat.not_lt_zero _)
  | succ n ih =>
    have hlen : ((map.drop 1).take i).length = i := by
      rw [length_take, length_drop]
      omega
    unfold getDistLoop keyNext
    by_cases hnext : i + 1 < map.length
    · have hset := set_overwrite locals ((map.drop 1).take i) (by omega) (map.getD (i + 1) 0)
      have htake : (map.drop 1).take i ++ [map.getD (i + 1) 0] = (map.drop 1).take (i + 1) := by
        rw [take_add_one, getElem?_drop, Nat.add_comm 1 i,
          getElem?_eq_getElem hnext, getD_eq_getElem _ _ hnext]
        rfl
      rw [hlen, htake] at hset
      have hroom : i < (overwrite locals ((map.drop 1).take i)).length := by
        rw [length_overwrite (by omega)]
        omega
      simp only [if_pos hnext, if_pos hroom, hset]
      exact ih hnext (by omega)
    · obtain rfl : i = map.length - 1 := by omega
      simp only [if_neg hnext]
      rw [take_of_length_le (by rw [length_drop])]

theorem getDist_eq (hmap : map.length = distArraySize) (hlocals : locals.length = distArraySize) :
    getDist map locals = some (distArraySize - 1, overwrite locals (map.drop 1)) := by
  have hrun := getDistLoop_eq (n := distArraySize + 1) (i := 0) (hmap.trans hlocals.symm).le
    (by rw [hmap]; decide) (by rw [hmap]; decide)
  rw [take_zero, hmap] at hrun
  exact hrun

theorem getD_locals (hmap : map.length = distArraySize) {i : ℕ} (hi : i + 1 < distArraySize) :
    (overwrite locals (map.drop 1)).getD i 0 = map.getD (i + 1) 0 := by
  have hsome : (map.drop 1)[i]? = some (map.getD (i + 1) 0) := by
    rw [getElem?_drop, Nat.add_comm 1 i, getElem?_eq_getElem (by omega),
      getD_eq_getElem _ _ (by omega)]
  rw [getD_eq_getElem?_getD, getElem?_overwrite, hsome]
  rfl

end Walk

section Loops

variable {locals values rec : List UInt64}

variable {n : ℕ}

theorem getD_overwrite_length (buf r : List UInt64) (hn : r.length ≤ n) :
    (overwrite buf r).getD n 0 = buf.getD n 0 := by
  rw [getD_eq_getElem?_getD, getElem?_overwrite, getElem?_eq_none hn, Option.none_or,
    ← getD_eq_getElem?_getD]

theorem take_concat_getD (hn : n < locals.length) :
    locals.take n ++ [locals.getD n 0] = locals.take (n + 1) := by
  rw [take_add_one, getElem?_eq_getElem hn, getD_eq_getElem _ _ hn]
  rfl

theorem set_rec (hlocals : n < locals.length) (hrec : n < rec.length) :
    (overwrite rec (locals.take n)).set n (locals.getD n 0) =
      overwrite rec (locals.take (n + 1)) := by
  have hlen : (locals.take n).length = n := length_take_of_le hlocals.le
  have hset := set_overwrite rec (locals.take n) (by omega) (locals.getD n 0)
  rw [hlen, take_concat_getD hlocals] at hset
  exact hset

theorem foldl_singleStep (hlocals : n ≤ locals.length) (hvalues : n ≤ values.length)
    (hrec : n ≤ rec.length) :
    (range n).foldl (singleStep locals) (values, rec) =
      (overwrite values ((range n).map fun i => locals.getD i 0 - rec.getD i 0),
        overwrite rec (locals.take n)) := by
  induction n with
  | zero => rfl
  | succ n ih =>
    have hlen : ((range n).map fun i => locals.getD i 0 - rec.getD i 0).length = n := by
      rw [length_map, length_range]
    have hset := set_overwrite values ((range n).map fun i => locals.getD i 0 - rec.getD i 0)
      (by omega) (locals.getD n 0 - rec.getD n 0)
    rw [hlen] at hset
    rw [range_succ, foldl_append, ih (by omega) (by omega) (by omega), foldl_cons,
      foldl_nil, map_append, map_singleton, singleStep,
      getD_overwrite_length rec _ (length_take_le _ _), hset, set_rec hlocals hrec]

def restSum (locals rec : List UInt64) (a c : ℕ) : UInt64 :=
  (range' a c).foldl (fun s i => s + (locals.getD i 0 - rec.getD i 0)) 0

theorem foldl_restStep {a c j : ℕ} (hj : j < values.length) (hlocals : a + c ≤ locals.length)
    (hrec : a + c ≤ rec.length) :
    (range' a c).foldl (restStep locals j) (values.set j 0, overwrite rec (locals.take a)) =
      (values.set j (restSum locals rec a c), overwrite rec (locals.take (a + c))) := by
  induction c with
  | zero => rfl
  | succ c ih =>
    have hget : (values.set j (restSum locals rec a c)).getD j 0 = restSum locals rec a c := by
      rw [getD_eq_getElem?_getD, getElem?_set_self hj]
      rfl
    have hsum : restSum locals rec a (c + 1) =
        restSum locals rec a c + (locals.getD (a + c) 0 - rec.getD (a + c) 0) := by
      unfold restSum
      rw [range'_1_concat, foldl_append]
      rfl
    rw [range'_1_concat, foldl_append, ih (by omega) (by omega), foldl_cons,
      foldl_nil]
    simp only [restStep, hget, getD_overwrite_length rec _ (length_take_le _ _),
      set_set, ← hsum, set_rec (n := a + c) hlocals hrec, Nat.add_assoc]

end Loops

def increase (prev map : List UInt64) (b : ℕ) : UInt64 := map.getD b 0 - prev.getD b 0

def restIncrease (index : ℕ) (prev map : List UInt64) : UInt64 :=
  (range' index (distArraySize - index)).foldl (fun s b => s + increase prev map b) 0

def emitted (index : ℕ) (prev map : List UInt64) : List UInt64 :=
  (range (index - 1)).map (fun i => increase prev map (i + 1)) ++ [restIncrease index prev map]

structure Caches (rec prev : List UInt64) : Prop where
  length_eq : rec.length = distArraySize
  getD_eq : ∀ i, i + 1 < distArraySize → rec.getD i 0 = prev.getD (i + 1) 0

section Poll

variable {index : ℕ} {map locals values rec prev : List UInt64}

theorem restSum_eq (hmap : map.length = distArraySize) (hrec : Caches rec prev) (hpos : 0 < index)
    (hindex : index < distArraySize) :
    restSum (overwrite locals (map.drop 1)) rec (index - 1) (distArraySize - 1 - (index - 1)) =
      restIncrease index prev map := by
  obtain ⟨k, rfl⟩ := Nat.exists_eq_succ_of_ne_zero hpos.ne'
  unfold restSum restIncrease
  rw [Nat.succ_eq_add_one, Nat.add_sub_cancel, Nat.sub_sub, Nat.add_comm 1 k,
    show range' (k + 1) (distArraySize - (k + 1)) =
      (range' k (distArraySize - (k + 1))).map (1 + ·) by
        rw [map_add_range', Nat.add_comm], foldl_map]
  refine foldl_ext _ _ _ fun s i hi => ?_
  obtain ⟨hi₁, hi₂⟩ := mem_range'_1.mp hi
  rw [getD_locals hmap (by omega), hrec.getD_eq i (by omega), Nat.add_comm 1 i]
  rfl

theorem calDist_spec (hmap : map.length = distArraySize) (hlocals : locals.length = distArraySize)
    (hvalues : values.length = index) (hrec : Caches rec prev) (hpos : 0 < index)
    (hindex : index < distArraySize) :
    ∃ rec', calDist index map locals values rec = some (emitted index prev map, rec') ∧
      Caches rec' map := by
  have hlen : (overwrite locals (map.drop 1)).length = distArraySize := by
    rw [length_overwrite (by rw [length_drop, hmap, hlocals]; omega), hlocals]
  have htake : (overwrite locals (map.drop 1)).take (distArraySize - 1) = map.drop 1 := by
    rw [overwrite, take_left' (by rw [length_drop, hmap])]
  have hsingle : (range (index - 1)).map
      (fun i => (overwrite locals (map.drop 1)).getD i 0 - rec.getD i 0) =
        (range (index - 1)).map fun i => increase prev map (i + 1) := by
    refine map_congr_left fun i hi => ?_
    have hi' := mem_range.mp hi
    rw [getD_locals hmap (by omega), hrec.getD_eq i (by omega)]
    rfl
  refine ⟨overwrite rec (map.drop 1), ?_, ?_, fun i hi => ?_⟩
  · rw [calDist, getDist_eq hmap hlocals, Option.map_some]
    dsimp only
    rw [foldl_singleStep (by omega) (by omega) (by rw [hrec.length_eq]; omega), hsingle]
    have hsum : index - 1 + (distArraySize - 1 - (index - 1)) = distArraySize - 1 := by omega
    have hroom : ((range (index - 1)).map fun i => increase prev map (i + 1)).length ≤
        values.length := by
      rw [length_map, length_range]
      omega
    rw [foldl_restStep (by rw [length_overwrite hroom]; omega) (by omega)
      (by rw [hrec.length_eq]; omega), hsum, htake, restSum_eq hmap hrec hpos hindex]
    have hset := set_overwrite values ((range (index - 1)).map fun i =>
      increase prev map (i + 1)) (by rw [length_map, length_range]; omega)
      (restIncrease index prev map)
    rw [length_map, length_range] at hset
    rw [hset, overwrite, drop_of_length_le, append_nil]
    · rfl
    · rw [length_append, length_map, length_range, length_singleton]
      omega
  · rw [length_overwrite (by rw [length_drop, hmap, hrec.length_eq]; omega), hrec.length_eq]
  · exact getD_locals hmap hi

end Poll

structure DistPoll (index : ℕ) where
  map : DistArray
  locals : DistArray
  values : { l : List UInt64 // l.length = index }

def runDist {index : ℕ} (cal : List UInt64 → List UInt64 → List UInt64 → List UInt64 →
    Option (List UInt64 × List UInt64)) : List UInt64 → List (DistPoll index) →
    Option (List (List UInt64))
  | _, [] => some []
  | rec, p :: ps =>
    (cal p.map.1 p.locals.1 p.values.1 rec).bind fun r => (runDist cal r.2 ps).map (r.1 :: ·)

def emissions (index : ℕ) : List UInt64 → List (List UInt64) → List (List UInt64)
  | _, [] => []
  | prev, m :: ms => emitted index prev m :: emissions index m ms

variable {index : ℕ}

theorem runDist_eq {rec prev : List UInt64} (hrec : Caches rec prev) (hpos : 0 < index)
    (hindex : index < distArraySize) (ps : List (DistPoll index)) :
    runDist (calDist index) rec ps = some (emissions index prev (ps.map (·.map.1))) := by
  induction ps generalizing rec prev with
  | nil => rfl
  | cons p ps ih =>
    obtain ⟨rec', hcal, hrec'⟩ := calDist_spec p.map.2 p.locals.2 p.values.2 hrec hpos hindex
    rw [runDist, hcal, Option.bind_some, ih hrec']
    rfl

def counter (map : List UInt64) (b : ℕ) : ℕ := (map.getD b 0).toNat

def columnSum (outs : List (List UInt64)) (j : ℕ) : ℕ := (outs.map (counter · j)).sum

def Rising (a b : List UInt64) : Prop := ∀ i, counter a i ≤ counter b i

variable {prev map : List UInt64}

theorem toNat_increase (h : Rising prev map) (b : ℕ) :
    (increase prev map b).toNat = counter map b - counter prev b :=
  UInt64.toNat_sub_of_le _ _ (UInt64.le_iff_toNat_le.mpr (h b))

def restTotal (index : ℕ) (prev map : List UInt64) : ℕ :=
  ((range' index (distArraySize - index)).map fun b => counter map b - counter prev b).sum

theorem toNat_foldl_add (f : ℕ → UInt64) (g : ℕ → ℕ) (h : ∀ b, (f b).toNat = g b) (l : List ℕ)
    (s : UInt64) :
    (l.foldl (fun s b => s + f b) s).toNat = (s.toNat + (l.map g).sum) % 2 ^ 64 := by
  induction l generalizing s with
  | nil => exact (Nat.mod_eq_of_lt s.toNat_lt).symm
  | cons b l ih =>
    rw [foldl_cons, ih, UInt64.toNat_add, h, map_cons, sum_cons, Nat.mod_add_mod,
      Nat.add_assoc]

theorem toNat_restIncrease (h : Rising prev map) :
    (restIncrease index prev map).toNat = restTotal index prev map % 2 ^ 64 := by
  unfold restIncrease restTotal
  rw [toNat_foldl_add _ _ (toNat_increase h), UInt64.toNat_zero, Nat.zero_add]

theorem counter_emitted_single {index j : ℕ} (h : Rising prev map) (hj : j < index - 1) :
    counter (emitted index prev map) j = counter map (j + 1) - counter prev (j + 1) := by
  have hlen : j < ((range (index - 1)).map fun i => increase prev map (i + 1)).length := by
    rwa [length_map, length_range]
  rw [counter, emitted, getD_append _ _ _ _ hlen, getD_eq_getElem _ _ hlen,
    getElem_map, getElem_range, toNat_increase h]

theorem counter_emitted_rest (h : Rising prev map) :
    counter (emitted index prev map) (index - 1) = restTotal index prev map % 2 ^ 64 := by
  have hlen : ((range (index - 1)).map fun i => increase prev map (i + 1)).length =
      index - 1 := by
    rw [length_map, length_range]
  rw [counter, emitted, getD_append_right _ _ _ _ hlen.le, hlen, Nat.sub_self,
    ← toNat_restIncrease h]
  rfl

def lastMap (prev : List UInt64) (ms : List (List UInt64)) : List UInt64 := ms.getLastD prev

def restTotals (index : ℕ) : List UInt64 → List (List UInt64) → List ℕ
  | _, [] => []
  | prev, m :: ms => restTotal index prev m :: restTotals index m ms

variable {ms : List (List UInt64)}

theorem rising_lastMap {prev : List UInt64} (h : (prev :: ms).Pairwise Rising) :
    Rising prev (lastMap prev ms) := by
  unfold lastMap
  rcases ms.eq_nil_or_concat with rfl | ⟨ms, m, rfl⟩
  · exact fun _ => le_rfl
  · rw [concat_eq_append, getLastD_concat]
    exact rel_of_pairwise_cons h (by simp)

theorem lastMap_cons (prev m : List UInt64) (ms : List (List UInt64)) :
    lastMap prev (m :: ms) = lastMap m ms := getLastD_cons ..

theorem columnSum_single {index j : ℕ} {prev : List UInt64} (h : (prev :: ms).Pairwise Rising)
    (hj : j < index - 1) :
    columnSum (emissions index prev ms) j + counter prev (j + 1) =
      counter (lastMap prev ms) (j + 1) := by
  induction ms generalizing prev with
  | nil => exact Nat.zero_add _
  | cons m ms ih =>
    obtain ⟨hm, hms⟩ := pairwise_cons.mp h
    have hle := hm m mem_cons_self
    have hone := hle (j + 1)
    have := ih hms
    unfold columnSum at this ⊢
    rw [emissions, map_cons, sum_cons, counter_emitted_single hle hj, lastMap_cons]
    omega

theorem columnSum_rest {prev : List UInt64} (h : (prev :: ms).Pairwise Rising) :
    columnSum (emissions index prev ms) (index - 1) =
      ((restTotals index prev ms).map (· % 2 ^ 64)).sum := by
  induction ms generalizing prev with
  | nil => rfl
  | cons m ms ih =>
    obtain ⟨hm, hms⟩ := pairwise_cons.mp h
    have := ih hms
    unfold columnSum at this ⊢
    rw [emissions, map_cons, sum_cons, counter_emitted_rest (hm m mem_cons_self),
      this]
    rfl

theorem sum_map_sub_add {f g k : ℕ → ℕ} (l : List ℕ) (hf : ∀ b, f b ≤ g b) (hg : ∀ b, g b ≤ k b) :
    (l.map fun b => g b - f b).sum + (l.map fun b => k b - g b).sum =
      (l.map fun b => k b - f b).sum := by
  induction l with
  | nil => rfl
  | cons b l ih =>
    have := hf b
    have := hg b
    simp only [map_cons, sum_cons]
    omega

theorem sum_restTotals {prev : List UInt64} (h : (prev :: ms).Pairwise Rising) :
    (restTotals index prev ms).sum = restTotal index prev (lastMap prev ms) := by
  induction ms generalizing prev with
  | nil =>
    unfold restTotals restTotal lastMap
    simp
  | cons m ms ih =>
    obtain ⟨hm, hms⟩ := pairwise_cons.mp h
    rw [restTotals, sum_cons, ih hms, lastMap_cons]
    exact sum_map_sub_add _ (hm m mem_cons_self) (rising_lastMap hms)

theorem sum_mod_eq_add_iff {n x : ℕ} (hn : 0 < n) (l : List ℕ) :
    (l.map (· % n)).sum = x + l.sum ↔ x = 0 ∧ ∀ s ∈ l, s < n := by
  induction l generalizing x with
  | nil => simp [eq_comm]
  | cons s l ih =>
    have hdiv := Nat.mod_add_div s n
    have hquot : n * (s / n) = 0 ↔ s < n := by
      rw [Nat.mul_eq_zero, or_iff_right hn.ne', Nat.div_eq_zero_iff, or_iff_right hn.ne']
    rw [map_cons, sum_cons, sum_cons, forall_mem_cons]
    calc s % n + (l.map (· % n)).sum = x + (s + l.sum)
        ↔ (l.map (· % n)).sum = (x + n * (s / n)) + l.sum := by omega
      _ ↔ (x = 0 ∧ s < n) ∧ ∀ s ∈ l, s < n := by rw [ih, Nat.add_eq_zero_iff, hquot]
      _ ↔ x = 0 ∧ s < n ∧ ∀ s ∈ l, s < n := and_assoc

def zeroCounters : List UInt64 := replicate distArraySize 0

theorem getD_zeroCounters (b : ℕ) : zeroCounters.getD b 0 = 0 := by
  unfold zeroCounters
  rw [getD_eq_getElem?_getD, getElem?_replicate]
  split_ifs <;> rfl

theorem counter_zeroCounters (b : ℕ) : counter zeroCounters b = 0 := by
  rw [counter, getD_zeroCounters]
  rfl

theorem caches_zeroCounters : Caches zeroCounters zeroCounters where
  length_eq := length_replicate
  getD_eq i _ := by rw [getD_zeroCounters, getD_zeroCounters]

structure DistHistory (index : ℕ) where
  polls : List (DistPoll index)
  rising : (polls.map (·.map.1)).Pairwise Rising

namespace DistHistory

variable {index : ℕ} (h : DistHistory index)

def final : List UInt64 := lastMap zeroCounters (h.polls.map (·.map.1))

def rests : List ℕ := restTotals index zeroCounters (h.polls.map (·.map.1))

structure Conserved (outs : List (List UInt64)) : Prop where
  single : ∀ j < index - 1, columnSum outs j = counter h.final j
  rest : columnSum outs (index - 1) =
    ((range' (index - 1) (distArraySize - (index - 1))).map (counter h.final)).sum

structure Unaffected : Prop where
  small : ∀ b < index, counter h.final b = 0
  rests : ∀ s ∈ h.rests, s < 2 ^ 64

theorem pairwise_rising : (zeroCounters :: h.polls.map (·.map.1)).Pairwise Rising :=
  pairwise_cons.mpr ⟨fun _ _ b => by rw [counter_zeroCounters]; exact Nat.zero_le _, h.rising⟩

theorem restTotal_final : restTotal index zeroCounters h.final =
    ((range' index (distArraySize - index)).map (counter h.final)).sum := by
  unfold restTotal
  simp only [counter_zeroCounters, Nat.sub_zero]

theorem conserved_emissions_iff (hpos : 0 < index) (hindex : index < distArraySize) :
    h.Conserved (emissions index zeroCounters (h.polls.map (·.map.1))) ↔ h.Unaffected := by
  have hrising := h.pairwise_rising
  have hsingle : ∀ j < index - 1, columnSum (emissions index zeroCounters
      (h.polls.map (·.map.1))) j = counter h.final (j + 1) := fun j hj => by
    have := columnSum_single hrising hj
    rwa [counter_zeroCounters] at this
  have hrange : range' (index - 1) (distArraySize - (index - 1)) =
      (index - 1) :: range' index (distArraySize - index) := by
    rw [show distArraySize - (index - 1) = distArraySize - index + 1 by omega, range'_succ,
      Nat.sub_add_cancel hpos]
  -- The last column has everything but the bucket before it.
  have hrest : columnSum (emissions index zeroCounters (h.polls.map (·.map.1))) (index - 1) =
      ((range' (index - 1) (distArraySize - (index - 1))).map (counter h.final)).sum ↔
        counter h.final (index - 1) = 0 ∧ ∀ s ∈ h.rests, s < 2 ^ 64 := by
    rw [columnSum_rest hrising, hrange, map_cons, sum_cons, ← restTotal_final,
      final, ← sum_restTotals hrising]
    exact sum_mod_eq_add_iff (by decide) _
  constructor
  · intro hcons
    obtain ⟨hlast, hrests⟩ := hrest.mp hcons.rest
    refine ⟨fun b hb => ?_, hrests⟩
    -- Each bucket below has the counter of the next one, so all are 0 as the last of them is.
    obtain ⟨k, hk⟩ := Nat.exists_eq_add_of_le (Nat.le_sub_one_of_lt hb)
    induction k generalizing b with
    | zero => rwa [hk] at hlast
    | succ k ih =>
      have hb' : b < index - 1 := by omega
      rw [← hcons.single b hb', hsingle b hb']
      exact ih (b + 1) (by omega) (by omega)
  · intro hsmall
    refine ⟨fun j hj => ?_, hrest.mpr ⟨hsmall.small _ (by omega), hsmall.rests⟩⟩
    rw [hsingle j hj, hsmall.small j (by omega), hsmall.small (j + 1) (by omega)]

end DistHistory

theorem dist_conserved_iff (cpu : DistHistory cpuDistIndex) (net : DistHistory netDistIndex) :
    ((∃ outs, runDist Cpudist.calDist zeroCounters cpu.polls = some outs ∧ cpu.Conserved outs) ↔
      cpu.Unaffected) ∧
    ((∃ outs, runDist NetHealth.calDist zeroCounters net.polls = some outs ∧ net.Conserved outs) ↔
      net.Unaffected) := by
  constructor
  · rw [Cpudist.calDist, runDist_eq caches_zeroCounters (by decide) (by decide),
      ← cpu.conserved_emissions_iff (by decide) (by decide)]
    simp only [Option.some.injEq, exists_eq_left']
  · rw [NetHealth.calDist, runDist_eq caches_zeroCounters (by decide) (by decide),
      ← net.conserved_emissions_iff (by decide) (by decide)]
    simp only [Option.some.injEq, exists_eq_left']

def firstBucket : DistHistory cpuDistIndex where
  polls := [⟨⟨1 :: replicate 19 0, rfl⟩, ⟨zeroCounters, rfl⟩, ⟨replicate 8 0, rfl⟩⟩]
  rising := pairwise_singleton ..

theorem firstBucket_not_conserved :
    runDist Cpudist.calDist zeroCounters firstBucket.polls = some [replicate 8 0] ∧
      ¬ firstBucket.Conserved [replicate 8 0] := by
  refine ⟨by decide +kernel, fun hcons => ?_⟩
  have := hcons.single 0 (by decide)
  revert this
  decide +kernel

end Sysak.Collector
