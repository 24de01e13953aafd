/-
# The summary of scheduling delays
-/

import Mathlib.Data.List.Induction
import Mathlib.Data.Vector.Defs
import Mathlib.Order.Nat
import Mathlib.Algebra.GroupWithZero.Nat
import Sysak.Lib.CString
import Sysak.Lib.TopN

namespace Sysak.Sched

open Lib
open List hiding Vector

abbrev cpuArryLen : ℕ := 4

structure JitMaxN where
  delay : UInt64
  stamp : UInt64
  cpu : Int32
  pid : Int32
  comm : CharArray 16
  deriving DecidableEq

structure JitLastN where
  cpu : Int32
  delay : UInt64
  con : CharArray 13
  deriving DecidableEq

structure SchedJitSummary where
  minIdx : Fin cpuArryLen
  num : UInt64
  total : UInt64
  topNmin : UInt64
  maxNArray : Vector JitMaxN cpuArryLen
  lastNArray : Vector JitLastN cpuArryLen
  less10ms : UInt64
  less50ms : UInt64
  less100ms : UInt64
  less500ms : UInt64
  less1s : UInt64
  plus1s : UInt64
  deriving DecidableEq

def nulArray (n : ℕ) : CharArray n := ⟨replicate n 0, length_replicate⟩

def JitLastN.zero : JitLastN := ⟨0, 0, nulArray 13⟩

def SchedJitSummary.zero : SchedJitSummary where
  minIdx := 0
  num := 0
  total := 0
  topNmin := 0
  maxNArray := Vector.replicate cpuArryLen ⟨0, 0, 0, 0, nulArray 16⟩
  lastNArray := Vector.replicate cpuArryLen JitLastN.zero
  less10ms := 0
  less50ms := 0
  less100ms := 0
  less500ms := 0
  less1s := 0
  plus1s := 0

structure JitEvent where
  delay : UInt64
  stamp : UInt64
  cpu : Int32
  pid : Int32
  comm : CStr
  container : Option CStr
  deriving DecidableEq

def fillMaxN (e : JitEvent) : JitMaxN := ⟨e.delay, e.stamp, e.cpu, e.pid, strncpy e.comm 16⟩

def noContainer : CStr := ⟨replicate 12 48, by decide⟩

def fillLastN (e : JitEvent) : JitLastN :=
  ⟨e.cpu, e.delay, strncpy (e.container.getD noContainer) 13⟩

def ridx (num : ℕ) : Fin cpuArryLen := ⟨num % cpuArryLen, Nat.mod_lt _ (by decide)⟩

namespace SchedJitSummary

def add (s : SchedJitSummary) (e : JitEvent) : SchedJitSummary :=
  { s with num := s.num + 1, total := s.total + e.delay }

def count (s : SchedJitSummary) (e : JitEvent) : SchedJitSummary :=
  if e.delay < 10 then { s with less10ms := s.less10ms + 1 }
  else if e.delay < 50 then { s with less50ms := s.less50ms + 1 }
  else if e.delay < 100 then { s with less100ms := s.less100ms + 1 }
  else if e.delay < 500 then { s with less500ms := s.less500ms + 1 }
  else if e.delay < 1000 then { s with less1s := s.less1s + 1 }
  else { s with plus1s := s.plus1s + 1 }

def recordLast (s : SchedJitSummary) (e : JitEvent) : SchedJitSummary :=
  { s with lastNArray := s.lastNArray.set (ridx s.num.toNat) (fillLastN e) }

end SchedJitSummary

def scanMin (a : Vector JitMaxN cpuArryLen) : UInt64 × Fin cpuArryLen :=
  ([1, 2, 3] : List (Fin cpuArryLen)).foldl
    (fun t i => if a[i].delay < t.1 then (a[i].delay, i) else t) (a[0].delay, 0)

def SchedJitSummary.keepMax (s : SchedJitSummary) (e : JitEvent) : SchedJitSummary :=
  if s.topNmin < e.delay then
    let (tmp, idx) := scanMin s.maxNArray
    { s with topNmin := tmp, minIdx := idx, maxNArray := s.maxNArray.set idx (fillMaxN e) }
  else
    s

def updateSummary (s : SchedJitSummary) (e : JitEvent) : SchedJitSummary :=
  (((s.add e).count e).recordLast e).keepMax e

def summaryOf (es : List JitEvent) : SchedJitSummary := es.foldl updateSummary .zero

@[simp] theorem summaryOf_append (es : List JitEvent) (e : JitEvent) :
    summaryOf (es ++ [e]) = updateSummary (summaryOf es) e := by
  rw [summaryOf, summaryOf, foldl_append, foldl_cons, foldl_nil]

namespace SchedJitSummary

variable (s : SchedJitSummary) (e : JitEvent)

def counted : ℕ :=
  s.less10ms.toNat + s.less50ms.toNat + s.less100ms.toNat + s.less500ms.toNat + s.less1s.toNat +
    s.plus1s.toNat

theorem count_frame : (s.count e).num = s.num ∧ (s.count e).total = s.total ∧
    (s.count e).topNmin = s.topNmin ∧ (s.count e).maxNArray = s.maxNArray ∧
    (s.count e).lastNArray = s.lastNArray := by
  rw [count]
  split_ifs <;> exact ⟨rfl, rfl, rfl, rfl, rfl⟩

theorem count_counted (h : s.counted + 1 < 2 ^ 64) : (s.count e).counted = s.counted + 1 := by
  have hsucc : ∀ c : UInt64, c.toNat + 1 < 2 ^ 64 → (c + 1).toNat = c.toNat + 1 := by
    intro c hc
    rw [UInt64.toNat_add, UInt64.toNat_one, Nat.mod_eq_of_lt hc]
  rw [counted] at h
  rw [count]
  split_ifs <;> simp only [counted] <;> rw [hsucc _ (by omega)] <;> omega

theorem keepMax_frame : (s.keepMax e).num = s.num ∧ (s.keepMax e).total = s.total ∧
    (s.keepMax e).lastNArray = s.lastNArray ∧ (s.keepMax e).counted = s.counted := by
  rw [keepMax]
  split_ifs <;> exact ⟨rfl, rfl, rfl, rfl⟩

end SchedJitSummary

section Step

variable (s : SchedJitSummary) (e : JitEvent)

theorem updateSummary_num : (updateSummary s e).num = s.num + 1 := by
  rw [updateSummary, (SchedJitSummary.keepMax_frame _ e).1]
  exact ((s.add e).count_frame e).1

theorem updateSummary_total : (updateSummary s e).total = s.total + e.delay := by
  rw [updateSummary, (SchedJitSummary.keepMax_frame _ e).2.1]
  exact ((s.add e).count_frame e).2.1

theorem updateSummary_counted : (updateSummary s e).counted = ((s.add e).count e).counted := by
  rw [updateSummary, (SchedJitSummary.keepMax_frame _ e).2.2.2]
  rfl

theorem updateSummary_lastNArray : (updateSummary s e).lastNArray =
    s.lastNArray.set (ridx (s.num + 1).toNat) (fillLastN e) := by
  obtain ⟨hnum, -, -, -, hlast⟩ := (s.add e).count_frame e
  rw [updateSummary, (SchedJitSummary.keepMax_frame _ e).2.2.1, SchedJitSummary.recordLast]
  simp only [hnum, hlast]
  rfl

theorem updateSummary_max :
    (s.topNmin < e.delay ∧ (updateSummary s e).topNmin = (scanMin s.maxNArray).1 ∧
      (updateSummary s e).maxNArray = s.maxNArray.set (scanMin s.maxNArray).2 (fillMaxN e)) ∨
    e.delay ≤ s.topNmin ∧ (updateSummary s e).topNmin = s.topNmin ∧
      (updateSummary s e).maxNArray = s.maxNArray := by
  obtain ⟨-, -, htop, hmax, -⟩ := (s.add e).count_frame e
  have htop' : (((s.add e).count e).recordLast e).topNmin = s.topNmin := htop
  have hmax' : (((s.add e).count e).recordLast e).maxNArray = s.maxNArray := hmax
  rw [updateSummary, SchedJitSummary.keepMax, htop']
  split_ifs with h
  · left
    refine ⟨h, ?_, ?_⟩ <;> simp only [hmax']
  · right
    exact ⟨UInt64.not_lt.mp h, htop', hmax'⟩

end Step

variable (a : Vector JitMaxN cpuArryLen)

theorem foldl_scan (is : List (Fin cpuArryLen)) :
    ∀ t : UInt64 × Fin cpuArryLen, t.1 = a[t.2].delay →
      ∃ r, is.foldl (fun t i => if a[i].delay < t.1 then (a[i].delay, i) else t) t = r ∧
        r.1 = a[r.2].delay ∧ r.1 ≤ t.1 ∧ ∀ i ∈ is, r.1 ≤ a[i].delay := by
  induction is with
  | nil =>
    intro t ht
    exact ⟨t, rfl, ht, UInt64.le_refl _, fun _ h => absurd h not_mem_nil⟩
  | cons i is ih =>
    intro t ht
    rw [foldl_cons]
    split_ifs with hlt
    · obtain ⟨r, heq, hr, hle, hall⟩ := ih (a[i].delay, i) rfl
      refine ⟨r, heq, hr, UInt64.le_of_lt (UInt64.lt_of_le_of_lt hle hlt), ?_⟩
      intro j hj
      rcases mem_cons.mp hj with rfl | hj
      · exact hle
      · exact hall j hj
    · obtain ⟨r, heq, hr, hle, hall⟩ := ih t ht
      refine ⟨r, heq, hr, hle, ?_⟩
      intro j hj
      rcases mem_cons.mp hj with rfl | hj
      · exact UInt64.le_trans hle (UInt64.not_lt.mp hlt)
      · exact hall j hj

theorem scanMin_spec :
    (scanMin a).1 = a[(scanMin a).2].delay ∧ ∀ i : Fin cpuArryLen, (scanMin a).1 ≤ a[i].delay := by
  obtain ⟨_, rfl, hr, hle, hall⟩ := foldl_scan a [1, 2, 3] (a[0].delay, 0) rfl
  refine ⟨hr, fun i => ?_⟩
  have hslot : ∀ i : Fin cpuArryLen, i = 0 ∨ i ∈ ([1, 2, 3] : List (Fin cpuArryLen)) := by decide
  rcases hslot i with rfl | hi
  · exact hle
  · exact hall i hi

def SchedJitSummary.maxDelays (s : SchedJitSummary) : List ℕ :=
  s.maxNArray.toList.map fun m => m.delay.toNat

structure Exact (es : List JitEvent) (s : SchedJitSummary) : Prop where
  num : s.num.toNat = es.length
  total : s.total.toNat = (es.map fun e => e.delay.toNat).sum
  counted : s.counted = s.num.toNat
  max : Perm s.maxDelays (largest cpuArryLen (es.map fun e => e.delay.toNat))
  last : ∀ k (h : k < es.length), es.length ≤ k + cpuArryLen →
    s.lastNArray[ridx (k + 1)] = fillLastN es[k]
  free : ∀ i, (∀ k < es.length, ridx (k + 1) ≠ i) → s.lastNArray[i] = JitLastN.zero

structure Fits (s : SchedJitSummary) (e : JitEvent) : Prop where
  num : s.num.toNat + 1 < 2 ^ 64
  total : s.total.toNat + e.delay.toNat < 2 ^ 64
  max : e.delay ≤ s.topNmin ∨ ∃ m ∈ s.maxNArray.toList, m.delay ≤ e.delay

theorem exact_nil : Exact [] .zero where
  num := rfl
  total := rfl
  counted := rfl
  max := (IsTop.perm_largest_iff rfl).mpr ⟨[], .refl _, fun _ _ _ hy => absurd hy not_mem_nil⟩
  last := fun j h => absurd h (Nat.not_lt_zero j)
  free := by decide

section Step

variable {s : SchedJitSummary} {e : JitEvent} {es : List JitEvent}

theorem mem_maxNArray (s : SchedJitSummary) (i : Fin cpuArryLen) :
    s.maxNArray[i] ∈ s.maxNArray.toList := by
  rw [Vector.mem_toList_iff]
  exact Vector.getElem_mem _

theorem scanMin_le (s : SchedJitSummary) :
    ∀ m ∈ s.maxNArray.toList, (scanMin s.maxNArray).1 ≤ m.delay := by
  intro m hm
  obtain ⟨i, hi, rfl⟩ := getElem_of_mem hm
  rw [Vector.length_toList] at hi
  exact (scanMin_spec s.maxNArray).2 ⟨i, hi⟩

def Bounds (s : SchedJitSummary) : Prop := ∀ m ∈ s.maxNArray.toList, s.topNmin ≤ m.delay

theorem Fits.bounds (hfit : Fits s e) (h : Bounds s) : Bounds (updateSummary s e) := by
  intro m hm
  obtain ⟨hlt, htop, hmax⟩ | ⟨-, htop, hmax⟩ := updateSummary_max s e
  · rw [htop]
    rw [hmax, Vector.toList_set] at hm
    rcases mem_or_eq_of_mem_set hm with hm | rfl
    · exact scanMin_le s m hm
    · -- the minimum before the event is not above its delay
      rcases hfit.max with hle | ⟨m, hm, hle⟩
      · exact absurd hlt (UInt64.not_lt.mpr hle)
      · exact UInt64.le_trans (scanMin_le s m hm) hle
  · rw [htop]
    rw [hmax] at hm
    exact h m hm

theorem maxDelays_perm (s : SchedJitSummary) (i : Fin cpuArryLen) :
    Perm (s.maxNArray[i].delay.toNat ::
      (s.maxNArray.toList.eraseIdx i).map fun m => m.delay.toNat) s.maxDelays := by
  have hi : i.1 < s.maxNArray.toList.length := by
    rw [Vector.length_toList]
    exact i.2
  exact (getElem_cons_eraseIdx_perm hi).map fun m => m.delay.toNat

theorem maxDelays_set_perm (i : Fin cpuArryLen) (e : JitEvent) :
    Perm ((a.set i (fillMaxN e)).toList.map fun m => m.delay.toNat)
      (e.delay.toNat :: (a.toList.eraseIdx i).map fun m => m.delay.toNat) := by
  have hi : i.1 < a.toList.length := by
    rw [Vector.length_toList]
    exact i.2
  rw [Vector.toList_set]
  exact (set_perm_cons_eraseIdx hi (fillMaxN e)).map fun m => m.delay.toNat

theorem max_step_iff (hb : Bounds s)
    (h : IsTop s.maxDelays (replicate cpuArryLen ⊥ ++ es.map fun e => e.delay.toNat)) :
    IsTop (updateSummary s e).maxDelays
        (e.delay.toNat :: (replicate cpuArryLen ⊥ ++ es.map fun e => e.delay.toNat)) ↔
      e.delay ≤ s.topNmin ∨ ∃ m ∈ s.maxNArray.toList, m.delay ≤ e.delay := by
  obtain ⟨hlt, -, hmax⟩ | ⟨hle, -, hmax⟩ := updateSummary_max s e
  · obtain ⟨hval, hmin⟩ := scanMin_spec s.maxNArray
    have hold := h.congr (maxDelays_perm s (scanMin s.maxNArray).2).symm
    have hnew := maxDelays_set_perm s.maxNArray (scanMin s.maxNArray).2 e
    rw [← hmax] at hnew
    constructor
    · intro htop
      right
      by_contra hno
      push Not at hno
      refine hold.not_replace ?_ (htop.congr hnew)
      exact UInt64.lt_iff_toNat_lt.mp (UInt64.not_le.mp (hno _ (mem_maxNArray s _)))
    · intro hkeep
      refine (hold.replace ?_ ?_).congr hnew.symm
      · intro d hd
        obtain ⟨m, hm, rfl⟩ := List.mem_map.mp hd
        rw [← hval]
        exact scanMin_le s m (mem_of_mem_eraseIdx hm)
      · rw [← hval]
        rcases hkeep with hle | ⟨m, hm, hle⟩
        · exact absurd hlt (UInt64.not_lt.mpr hle)
        · exact UInt64.le_trans (scanMin_le s m hm) hle
  · refine iff_of_true ?_ (.inl hle)
    rw [SchedJitSummary.maxDelays, hmax]
    refine h.skip fun d hd => ?_
    obtain ⟨m, hm, rfl⟩ := List.mem_map.mp hd
    exact UInt64.le_trans hle (hb m hm)

theorem ridx_ne {a b : ℕ} (hlt : a < b) (hle : b < a + cpuArryLen) : ridx b ≠ ridx a := by
  intro heq
  have hmod : b % 4 = a % 4 := congrArg Fin.val heq
  have hle' : b < a + 4 := hle
  omega

theorem lastNArray_step (hnum : (s.num + 1).toNat = es.length + 1) (i : Fin cpuArryLen) :
    (updateSummary s e).lastNArray[i] =
      if ridx (es.length + 1) = i then fillLastN e else s.lastNArray[i] := by
  rw [updateSummary_lastNArray, Fin.getElem_fin, Vector.getElem_set, hnum]
  simp only [Fin.ext_iff]
  rfl

theorem isTop_iff (s : SchedJitSummary) (es : List JitEvent) :
    Perm s.maxDelays (largest cpuArryLen (es.map fun e => e.delay.toNat)) ↔
      IsTop s.maxDelays (replicate cpuArryLen ⊥ ++ es.map fun e => e.delay.toNat) := by
  refine IsTop.perm_largest_iff ?_
  rw [SchedJitSummary.maxDelays, length_map, Vector.length_toList]

theorem delays_append (es : List JitEvent) (e : JitEvent) :
    Perm (replicate cpuArryLen ⊥ ++ (es ++ [e]).map fun e => e.delay.toNat)
      (e.delay.toNat :: (replicate cpuArryLen ⊥ ++ es.map fun e => e.delay.toNat)) := by
  rw [map_append, ← append_assoc]
  exact perm_append_singleton _ _

theorem exact_step_iff (hb : Bounds s) (h : Exact es s) :
    Exact (es ++ [e]) (updateSummary s e) ↔ Fits s e := by
  have hmax : Perm (updateSummary s e).maxDelays
      (largest cpuArryLen ((es ++ [e]).map fun e => e.delay.toNat)) ↔
        e.delay ≤ s.topNmin ∨ ∃ m ∈ s.maxNArray.toList, m.delay ≤ e.delay := by
    rw [isTop_iff, IsTop.seen_congr (delays_append es e)]
    exact max_step_iff hb ((isTop_iff s es).mp h.max)
  have hlen : (es ++ [e]).length = es.length + 1 := length_append
  have hsum : ((es ++ [e]).map fun e => e.delay.toNat).sum =
      (es.map fun e => e.delay.toNat).sum + e.delay.toNat := by
    rw [map_append, List.sum_append]
    rfl
  constructor
  · intro h'
    have hnum := h'.num
    have htotal := h'.total
    rw [updateSummary_num, hlen, ← h.num] at hnum
    rw [updateSummary_total, hsum, ← h.total] at htotal
    exact ⟨hnum ▸ UInt64.toNat_lt _, htotal ▸ UInt64.toNat_lt _, hmax.mp h'.max⟩
  · intro hfit
    have hnum : (s.num + 1).toNat = es.length + 1 := by
      rw [UInt64.toNat_add, UInt64.toNat_one, Nat.mod_eq_of_lt hfit.num, h.num]
    refine ⟨?_, ?_, ?_, hmax.mpr hfit.max, ?_, ?_⟩
    · rw [updateSummary_num, hnum, hlen]
    · rw [updateSummary_total, UInt64.toNat_add, Nat.mod_eq_of_lt hfit.total, h.total, hsum]
    · have hadd : (s.add e).counted = s.num.toNat := h.counted
      rw [updateSummary_counted, updateSummary_num, SchedJitSummary.count_counted, hadd, h.num,
        hnum]
      rw [hadd]
      exact hfit.num
    · intro k hk hle
      rw [lastNArray_step hnum]
      rw [hlen] at hk hle
      rcases Nat.lt_succ_iff_lt_or_eq.mp hk with hk | rfl
      · rw [if_neg (ridx_ne (by omega) (by omega)), h.last k hk (by omega),
          getElem_append_left hk]
      · simp
    · intro i hi
      rw [hlen] at hi
      rw [lastNArray_step hnum, if_neg (hi es.length (Nat.lt_succ_self _))]
      exact h.free i fun k hk => hi k (Nat.lt_succ_of_lt hk)

end Step

structure Event where
  pid : UInt32
  cpu : UInt32
  delay : UInt64
  stamp : UInt64
  exit : UInt64
  comm : CStr

structure RqEvent where
  task : CStr
  delay : UInt64
  stamp : UInt64
  pid : Int32
  cpuid : Int32

def Event.jit (e : Event) (container : Option CStr) : JitEvent :=
  ⟨e.delay / 1000000, e.stamp, e.cpu.toInt32, e.pid.toInt32, e.comm, container⟩

def RqEvent.jit (e : RqEvent) (container : Option CStr) : JitEvent :=
  ⟨e.delay / 1000000, e.stamp, e.cpuid, e.pid, e.task, container⟩

def Irqoff.handleEvent (nrCpus : UInt32) (s : SchedJitSummary) (x : Event × Option CStr) :
    SchedJitSummary :=
  if nrCpus - 1 < x.1.cpu then s else updateSummary s (x.1.jit x.2)

def Nosched.handleEvent (nrCpus : UInt32) (s : SchedJitSummary) (x : Event × Option CStr) :
    SchedJitSummary :=
  if nrCpus - 1 < x.1.cpu then s
  else if x.1.exit ≠ 0 then updateSummary s (x.1.jit x.2)
  else s

def Runqslower.handleEvent (nrCpus : Int32) (s : SchedJitSummary) (x : RqEvent × Option CStr) :
    SchedJitSummary :=
  if nrCpus - 1 < x.1.cpuid then s else updateSummary s (x.1.jit x.2)

theorem exists_foldl_updateSummary {χ : Type*} {handle : SchedJitSummary → χ → SchedJitSummary}
    (h : ∀ s x, handle s x = s ∨ ∃ e, handle s x = updateSummary s e) (xs : List χ) :
    ∃ es, xs.foldl handle .zero = summaryOf es := by
  induction xs using reverseRecOn with
  | nil => exact ⟨[], rfl⟩
  | append_singleton xs x ih =>
    obtain ⟨es, hes⟩ := ih
    rw [foldl_append, foldl_cons, foldl_nil, hes]
    rcases h (summaryOf es) x with heq | ⟨e, heq⟩
    · exact ⟨es, heq⟩
    · exact ⟨es ++ [e], heq.trans (summaryOf_append es e).symm⟩

theorem exists_summaryOf_eq (nrCpus : UInt32) (nrCpus' : Int32) (xs : List (Event × Option CStr))
    (ys : List (RqEvent × Option CStr)) :
    (∃ es, xs.foldl (Irqoff.handleEvent nrCpus) .zero = summaryOf es) ∧
    (∃ es, xs.foldl (Nosched.handleEvent nrCpus) .zero = summaryOf es) ∧
    ∃ es, ys.foldl (Runqslower.handleEvent nrCpus') .zero = summaryOf es := by
  refine ⟨exists_foldl_updateSummary (fun s x => ?_) xs,
    exists_foldl_updateSummary (fun s x => ?_) xs, exists_foldl_updateSummary (fun s x => ?_) ys⟩
  · rw [Irqoff.handleEvent]
    split_ifs
    · exact .inl rfl
    · exact .inr ⟨_, rfl⟩
  · rw [Nosched.handleEvent]
    split_ifs
    · exact .inl rfl
    · exact .inr ⟨_, rfl⟩
    · exact .inl rfl
  · rw [Runqslower.handleEvent]
    split_ifs
    · exact .inl rfl
    · exact .inr ⟨_, rfl⟩

theorem bounds_zero : Bounds SchedJitSummary.zero := fun m _ => Nat.zero_le m.delay.toNat

theorem summary_exact_iff (es : List JitEvent) :
    (∀ pre, pre <+: es → Exact pre (summaryOf pre)) ↔
      ∀ pre e, pre ++ [e] <+: es → Fits (summaryOf pre) e := by
  constructor
  · intro h
    have hfit : ∀ pre e, pre ++ [e] <+: es → Bounds (summaryOf pre) → Fits (summaryOf pre) e := by
      intro pre e hpre hb
      have hexact := h _ hpre
      rw [summaryOf_append] at hexact
      exact (exact_step_iff hb (h pre ((prefix_append pre [e]).trans hpre))).mp hexact
    have hb : ∀ pre, pre <+: es → Bounds (summaryOf pre) := by
      intro pre
      induction pre using reverseRecOn with
      | nil => exact fun _ => bounds_zero
      | append_singleton pre e ih =>
        intro hpre
        have hb := ih ((prefix_append pre [e]).trans hpre)
        rw [summaryOf_append]
        exact (hfit pre e hpre hb).bounds hb
    exact fun pre e hpre => hfit pre e hpre (hb pre ((prefix_append pre [e]).trans hpre))
  · intro h
    have hall : ∀ pre, pre <+: es → Exact pre (summaryOf pre) ∧ Bounds (summaryOf pre) := by
      intro pre
      induction pre using reverseRecOn with
      | nil => exact fun _ => ⟨exact_nil, bounds_zero⟩
      | append_singleton pre e ih =>
        intro hpre
        obtain ⟨hexact, hb⟩ := ih ((prefix_append pre [e]).trans hpre)
        have hfit := h pre e hpre
        rw [summaryOf_append]
        exact ⟨(exact_step_iff hb hexact).mpr hfit, hfit.bounds hb⟩
    exact fun pre hpre => (hall pre hpre).1

def delayed (delay : UInt64) : JitEvent := ⟨delay, 0, 0, 1, .empty, none⟩

theorem summary_loses_delay :
    (summaryOf ([10, 20, 30, 40, 5].map delayed)).maxDelays = [5, 20, 30, 40] ∧
      Perm (largest cpuArryLen [10, 20, 30, 40, 5]) [10, 20, 30, 40] := by
  refine ⟨by decide, Perm.symm ?_⟩
  refine (IsTop.perm_largest_iff rfl).mpr ⟨[0, 0, 0, 0, 5], by decide, by decide⟩

end Sysak.Sched
