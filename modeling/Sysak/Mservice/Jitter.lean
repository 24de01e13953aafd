/-
# The jitter of a container, from the tools to the columns
-/

import Mathlib.Algebra.Group.Prod
import Mathlib.Tactic.FinCases
import Sysak.Lib.Checkpoints
import Sysak.Lib.LittleEndian
import Sysak.Mservice.CgInfo
import Sysak.Sched.JitSummary

namespace Sysak.Mservice
namespace Cgroup

open Lib Sched
open List hiding Vector

def dockerToken (line : CStr) : Option Bytes :=
  match (line.bytes.splitOn 47).dropWhile fun token => !(bytes "docker").isPrefixOf token with
  | _ :: token :: _ => some token
  | _ => none

def cutString (token : Bytes) (n : ℕ) : CStr :=
  ⟨(stringAt token).take n, fun h => by simpa using mem_takeWhile_imp (mem_of_mem_take h)⟩

def getContainer (file : Option (List CStr)) : Option CStr :=
  (file.bind fun lines => lines.findSome? dockerToken).map fun token => cutString token 12

def initialLastN : Sched.JitLastN := ⟨0, 0, ⟨replicate 13 48, length_replicate⟩⟩

def initialSummary : SchedJitSummary :=
  { SchedJitSummary.zero with lastNArray := Vector.replicate cpuArryLen initialLastN }

theorem length_behind (a b : ℕ) : (leBytes 8 a ++ leBytes 5 b).length = 13 := by
  rw [length_append, length_leBytes, length_leBytes]

def behindRing (s : SchedJitSummary) : Sched.JitLastN where
  cpu := s.less10ms.toUInt32.toInt32
  delay := s.less50ms
  con := ⟨leBytes 8 s.less100ms.toNat ++ leBytes 5 s.less500ms.toNat, length_behind _ _⟩

def jititem : ℤ := 4

def loopIndices : ℕ → ℤ → List ℕ
  | 0, _ => []
  | fuel + 1, i => if i < jititem then (i + 1).toNat :: loopIndices fuel (i + 1) else []

def indices : List ℕ := loopIndices 6 (-1)

example : indices = [0, 1, 2, 3, 4] := by decide

def lastN (s : SchedJitSummary) (i : ℕ) : Sched.JitLastN :=
  if h : i < cpuArryLen then s.lastNArray[i] else behindRing s

def looked (s : SchedJitSummary) : List Sched.JitLastN := indices.map (lastN s)

def asCell (l : Sched.JitLastN) : JitLastN := ⟨l.delay, stringAt l.con.1⟩

local instance neZeroThree : NeZero 3 := ⟨Nat.succ_ne_zero 2⟩

def asShm (shm : Fin 3 → SchedJitSummary) : JitterShm where
  nosched := (looked (shm 0)).map asCell
  irqoff := (looked (shm 1)).map asCell
  rqslow := (looked (shm 2)).map asCell

inductive Tool where
  | nosched | irqoff | rqslow
deriving Repr, DecidableEq

def Tool.kind : Tool → Fin 3
  | .nosched => 0
  | .irqoff => 1
  | .rqslow => 2

def Tool.sump : Tool → Fin 3 := fun _ => 0

inductive Action where
  | start (tool : Tool)
  | event (tool : Tool) (e : JitEvent) (file : Option (List CStr))
  | collect

def Action.isCollect : Action → Bool
  | .collect => true
  | _ => false

def recorded (e : JitEvent) (file : Option (List CStr)) : JitEvent :=
  { e with container := getContainer file }

structure JitState where
  shm : Fin 3 → SchedJitSummary
  info : Fin 3 → JitterInfo

def JitState.init : JitState := ⟨fun _ => initialSummary, fun _ => ⟨0, 0⟩⟩

def JitState.step (id : ContainerId) (s : JitState) : Action → JitState
  | .start tool => { s with shm := Function.update s.shm tool.sump .zero }
  | .event tool e file =>
    { s with shm := Function.update s.shm tool.sump
                      (updateSummary (s.shm tool.sump) (recorded e file)) }
  | .collect => { s with info := getJitterStats id.name s.info (asShm s.shm) }

def jitRun (id : ContainerId) (acts : List Action) : JitState := acts.foldl (JitState.step id) .init

def Action.reads : Action → List (Fin 3 × ℕ)
  | .collect => (finRange 3).flatMap fun j => indices.map (j, ·)
  | _ => []

def RingOnly (acts : List Action) : Prop := ∀ r ∈ acts.flatMap Action.reads, r.2 < cpuArryLen

def Action.delay (id : ContainerId) (j : Fin 3) : Action → Option UInt64
  | .event tool e file =>
    if tool.kind = j ∧ getContainer file = some (cutString id.name 12) then some e.delay else none
  | _ => none

def delaysOf (id : ContainerId) (j : Fin 3) (acts : List Action) : List UInt64 :=
  acts.filterMap (Action.delay id j)

def delaySum (ds : List UInt64) : ℕ := (ds.map UInt64.toNat).sum

def CountedOnce (id : ContainerId) (acts : List Action) : Prop :=
  ∀ p, p ++ [.collect] <+: acts → ∀ j,
    ((jitRun id (p ++ [.collect])).info j).num.toNat = (delaysOf id j p).length ∧
      ((jitRun id (p ++ [.collect])).info j).time.toNat = delaySum (delaysOf id j p)

namespace ContainerId

variable (id : ContainerId)

def compared : Bytes := id.name.take 13

theorem length_compared : id.compared.length = 13 := by
  rw [compared, length_take, id.length_name]
  rfl

end ContainerId

variable (id : ContainerId)

theorem jitterCgroupMatched_asCell (l : Sched.JitLastN) :
    jitterCgroupMatched id.name (asCell l) = decide (l.con.1 = id.compared) := by
  have hpre : stringAt l.con.1 <+: l.con.1 := takeWhile_prefix _
  have htake : (stringAt l.con.1).take 13 = stringAt l.con.1 :=
    take_of_length_le (hpre.length_le.trans l.con.2.le)
  rw [jitterCgroupMatched, asCell, htake, ← ContainerId.compared, Bool.eq_iff_iff, beq_iff_eq,
    decide_eq_true_iff]
  constructor
  · intro heq
    have hlen : (stringAt l.con.1).length = l.con.1.length := by
      rw [← heq, id.length_compared, l.con.2]
    rw [heq, hpre.eq_of_length hlen]
  · intro heq
    have hnul : ∀ b ∈ l.con.1, (b != 0) = true := by
      intro b hb
      rw [heq] at hb
      exact bne_iff_ne.mpr fun h => id.notMem_name (by decide) (h ▸ mem_of_mem_take hb)
    rw [stringAt, takeWhile_eq_self_iff.mpr hnul, heq]

def found (id : ContainerId) (ls : List Sched.JitLastN) : List UInt64 :=
  (ls.filter fun l => l.con.1 = id.compared).map (·.delay)

def tally (ds : List UInt64) : UInt64 × UInt64 :=
  (UInt64.ofNat ds.length, UInt64.ofNat (delaySum ds))

theorem tally_append (ds es : List UInt64) : tally (ds ++ es) = tally ds + tally es := by
  rw [tally, delaySum, map_append, List.sum_append, length_append, UInt64.ofNat_add,
    UInt64.ofNat_add]
  rfl

theorem tally_singleton (d : UInt64) : tally [d] = (1, d) := by
  rw [tally, delaySum, map_singleton, sum_singleton, UInt64.ofNat_toNat]
  rfl

def JitterInfo.counts (jit : JitterInfo) : UInt64 × UInt64 := (jit.num, jit.time)

theorem found_append (ls ms : List Sched.JitLastN) :
    found id (ls ++ ms) = found id ls ++ found id ms := by
  rw [found, filter_append, map_append, found, found]

theorem counts_countJitter (jit : JitterInfo) (l : Sched.JitLastN) :
    (countJitter id.name jit (asCell l)).counts = jit.counts + tally (found id [l]) := by
  rw [countJitter, jitterCgroupMatched_asCell]
  by_cases hl : l.con.1 = id.compared
  · have hfound : found id [l] = [l.delay] := by simp [found, hl]
    rw [if_pos (decide_eq_true hl), hfound, tally_singleton]
    rfl
  · have hfound : found id [l] = [] := by simp [found, hl]
    rw [if_neg (by simpa using hl), hfound]
    exact Prod.ext (UInt64.add_zero _).symm (UInt64.add_zero _).symm

open UInt64.CommRing in
theorem counts_foldl (ls : List Sched.JitLastN) (jit : JitterInfo) :
    ((ls.map asCell).foldl (countJitter id.name) jit).counts =
      jit.counts + tally (found id ls) := by
  induction ls using reverseRecOn with
  | nil => exact (add_zero _).symm
  | append_singleton ls l ih =>
    rw [map_append, foldl_append, map_singleton, foldl_cons, foldl_nil,
      counts_countJitter, ih, found_append, tally_append, add_assoc]

section Run

variable (id : ContainerId)

theorem jitRun_concat (p : List Action) (x : Action) :
    jitRun id (p ++ [x]) = (jitRun id p).step id x := by
  rw [jitRun, foldl_append, foldl_cons, foldl_nil, jitRun]

theorem jitsum_asShm (shm : Fin 3 → SchedJitSummary) (j : Fin 3) :
    jitsum j (asShm shm) = (looked (shm j)).map asCell := by
  fin_cases j <;> rfl

theorem counts_jitRun_concat (p : List Action) (x : Action) (j : Fin 3) :
    ((jitRun id (p ++ [x])).info j).counts =
      if x.isCollect then
        ((jitRun id p).info j).counts + tally (found id (looked ((jitRun id p).shm j)))
      else ((jitRun id p).info j).counts := by
  rw [jitRun_concat]
  cases x with
  | start tool => rfl
  | event tool e file => rfl
  | collect =>
    rw [← counts_foldl, ← jitsum_asShm]
    rfl

open UInt64.CommRing in
def checkpoints (j : Fin 3) : Checkpoints Action (UInt64 × UInt64) where
  mark := Action.isCollect
  due p := tally (delaysOf id j p)
  gain p := tally (found id (looked ((jitRun id p).shm j)))
  due_append p q := by rw [delaysOf, filterMap_append, tally_append, delaysOf, delaysOf]
  due_mark x hx := by
    cases x with
    | collect => rfl
    | start tool => rfl
    | event tool e file => exact nomatch hx

open UInt64.CommRing in
theorem checkpoints_adds (j : Fin 3) :
    (checkpoints id j).Adds fun p => ((jitRun id p).info j).counts :=
  ⟨rfl, fun p x => counts_jitRun_concat id p x j⟩

def Fit (p : List Action) (j : Fin 3) : Prop :=
  (delaysOf id j p).length < 18446744073709551616 ∧
    delaySum (delaysOf id j p) < 18446744073709551616

def Balanced (acts : List Action) : Prop :=
  ∀ p, p ++ [.collect] <+: acts → ∀ j,
    tally (found id (looked ((jitRun id p).shm j))) =
        tally (delaysOf id j (p.rtakeWhile fun x => !x.isCollect)) ∧ Fit id p j

end Run

theorem toNat_eq_iff (x : UInt64) (n : ℕ) :
    x.toNat = n ↔ x = UInt64.ofNat n ∧ n < 18446744073709551616 := by
  constructor
  · rintro rfl
    exact ⟨UInt64.ofNat_toNat.symm, x.toNat_lt⟩
  · rintro ⟨rfl, hlt⟩
    rw [UInt64.toNat_ofNat', Nat.mod_eq_of_lt hlt]

theorem counts_eq_tally_iff (jit : JitterInfo) (ds : List UInt64) :
    jit.num.toNat = ds.length ∧ jit.time.toNat = delaySum ds ↔
      jit.counts = tally ds ∧
        ds.length < 18446744073709551616 ∧ delaySum ds < 18446744073709551616 := by
  rw [toNat_eq_iff, toNat_eq_iff, JitterInfo.counts, tally, Prod.mk.injEq]
  exact and_and_and_comm

open UInt64.CommRing in
theorem counts_right_iff (acts : List Action) (j : Fin 3) :
    (∀ p, p ++ [.collect] <+: acts →
      ((jitRun id (p ++ [.collect])).info j).counts = tally (delaysOf id j p)) ↔
      ∀ p, p ++ [.collect] <+: acts → tally (found id (looked ((jitRun id p).shm j))) =
        tally (delaysOf id j (p.rtakeWhile fun x => !x.isCollect)) := by
  have hmarks : ∀ P : List Action → Prop, (checkpoints id j).AtMarks acts P ↔
      ∀ p, p ++ [.collect] <+: acts → P p := by
    intro P
    constructor
    · exact fun h p => h p .collect rfl
    · intro h p x hx
      cases x with
      | collect => exact h p
      | start tool => exact nomatch hx
      | event tool e file => exact nomatch hx
  have hiff := Checkpoints.total_eq_due_iff (checkpoints_adds id j) acts
  rw [hmarks, hmarks] at hiff
  refine Iff.trans (forall₂_congr fun p _ => ?_) hiff
  rw [counts_jitRun_concat]
  exact Iff.rfl

variable (acts : List Action)

theorem countedOnce_iff_balanced : CountedOnce id acts ↔ Balanced id acts := by
  constructor
  · intro h p hp j
    have hright := fun q hq => (counts_eq_tally_iff _ _).mp (h q hq j)
    exact ⟨(counts_right_iff id acts j).mp (fun q hq => (hright q hq).1) p hp, (hright p hp).2⟩
  · intro h p hp j
    have hright := (counts_right_iff id acts j).mpr (fun q hq => (h q hq j).1) p hp
    exact (counts_eq_tally_iff _ _).mpr ⟨hright, (h p hp j).2⟩

theorem ringOnly_iff : RingOnly acts ↔ ∀ x ∈ acts, x.isCollect = false := by
  constructor
  · intro h x hx
    cases x with
    | start tool => rfl
    | event tool e file => rfl
    | collect =>
      have hread : ((0 : Fin 3), 4) ∈ Action.reads .collect := by decide
      exact absurd (h _ (mem_flatMap.mpr ⟨_, hx, hread⟩)) (by decide)
  · intro h r hr
    obtain ⟨x, hx, hread⟩ := mem_flatMap.mp hr
    have hno := h x hx
    cases x with
    | start tool => exact nomatch hread
    | event tool e file => exact nomatch hread
    | collect => exact nomatch hno

def cgroupA : CStr := ⟨bytes "0::/docker/" ++ containerA.name ++ [10], by decide⟩

def oneEvent : List Action :=
  [.start .nosched, .event .nosched ⟨20, 0, 0, 1, .empty, none⟩ (some [cgroupA])]

end Cgroup
end Sysak.Mservice
