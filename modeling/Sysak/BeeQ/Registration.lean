/-
# Threads that come and go
-/

import Sysak.BeeQ.Shutdown

namespace Sysak.BeeQ

open Lib List Option

variable {α : Type*}

structure Threads (α : Type*) where
  q : BeeQ α
  live : Finset ℕ

inductive ThreadEvent where
  | start (tid : ℕ)
  | exit (tid : ℕ)
deriving DecidableEq

def ThreadEvent.isExit : ThreadEvent → Bool
  | .start _ => false
  | .exit _ => true

namespace Threads

def initial (α : Type*) (size : ℕ) : Threads α := ⟨fresh α size, ∅⟩

def step (t : Threads α) : ThreadEvent → Option (Threads α)
  | .start tid =>
    if tid ≠ 0 ∧ tid ∉ t.live then
      let (ret, q) := t.q.register tid
      some ⟨q, if ret = 0 then insert tid t.live else t.live⟩
    else none
  | .exit tid => if tid ∈ t.live then some ⟨t.q.threadExit tid, t.live.erase tid⟩ else none

def run (t : Threads α) : List ThreadEvent → Option (Threads α)
  | [] => some t
  | e :: es => (t.step e).bind fun t' => t'.run es

structure Counted (t : Threads α) : Prop where
  count : t.q.tidCount = (t.q.tids.filter (· ≠ 0)).length
  room : t.live.card < beeqTids → ∀ tid ≠ 0, tid ∉ t.live →
    (t.q.register tid).1 = 0 ∧ tid ∈ (t.q.register tid).2.tids

structure Inv (t : Threads α) (exits : ℕ) : Prop where
  running : t.q.stop = false
  enrolled : t.q.Enrolled t.live
  count : t.q.tidCount = t.live.card + exits

theorem inv_initial (α : Type*) (size : ℕ) : (initial α size).Inv 0 :=
  ⟨rfl, enrolled_fresh size, rfl⟩

variable {t t' : Threads α} {n tid : ℕ}

theorem Inv.enrol (h : t.Inv n) (hroom : t.q.tidCount < beeqTids) (hne : tid ≠ 0)
    (hnew : tid ∉ t.live) : (⟨t.q.enrol tid, insert tid t.live⟩ : Threads α).Inv n where
  running := h.running
  enrolled := h.enrolled.enrol (by have := h.count; omega) hne hnew
  count := by
    show t.q.tidCount + 1 = (insert tid t.live).card + n
    rw [Finset.card_insert_of_notMem hnew, h.count]
    omega

theorem Inv.exit (h : t.Inv n) (hmem : tid ∈ t.live) :
    (⟨t.q.threadExit tid, t.live.erase tid⟩ : Threads α).Inv (n + 1) := by
  obtain ⟨-, hstop, hcount⟩ := t.q.threadExit_keeps tid
  have hne : tid ≠ 0 := ((h.enrolled.slots.mem tid).mp hmem).2
  have hempty : t.q.tidCount = 0 → t.live = ∅ := fun hzero =>
    Finset.card_eq_zero.mp (by have := h.count; omega)
  refine ⟨hstop.trans h.running, h.enrolled.threadExit hempty hne, ?_⟩
  show (t.q.threadExit tid).tidCount = (t.live.erase tid).card + (n + 1)
  have hpos : 0 < t.live.card := Finset.card_pos.mpr ⟨tid, hmem⟩
  rw [hcount, h.count, Finset.card_erase_of_mem hmem]
  omega

theorem Inv.step {e : ThreadEvent} (h : t.Inv n) (hstep : t.step e = some t') :
    t'.Inv (n + if e.isExit then 1 else 0) := by
  cases e with
  | start tid =>
    rw [Threads.step] at hstep
    split_ifs at hstep with hnew
    rcases World.register_cases t.q tid with ⟨hreg, -⟩ | ⟨hreg, -, hroom⟩
    · rw [hreg] at hstep
      cases hstep
      exact h
    · rw [hreg] at hstep
      cases hstep
      exact h.enrol hroom hnew.1 hnew.2
  | exit tid =>
    rw [Threads.step] at hstep
    split_ifs at hstep with hmem
    cases hstep
    exact h.exit hmem

theorem Inv.run {es : List ThreadEvent} (h : t.Inv n) (hrun : t.run es = some t') :
    t'.Inv (n + es.countP ThreadEvent.isExit) := by
  induction es generalizing t n with
  | nil =>
    cases hrun
    exact h
  | cons e es ih =>
    obtain ⟨t₁, hstep, hrun⟩ := bind_eq_some_iff.mp hrun
    rw [countP_cons, Nat.add_comm (es.countP _), ← Nat.add_assoc]
    exact ih (h.step hstep) hrun

theorem Inv.counted_iff (h : t.Inv n) : t.Counted ↔ n = 0 := by
  have hcard := h.enrolled.slots.card_eq
  have hcount := h.count
  constructor
  · intro hcounted
    have := hcounted.count
    omega
  · rintro rfl
    refine ⟨by omega, fun hlt tid hne hnew => ?_⟩
    rcases World.register_cases t.q tid with ⟨-, hstop | hfull⟩ | ⟨hreg, -, hroom⟩
    · rw [h.running] at hstop
      cases hstop
    · omega
    · rw [hreg]
      have hslot := (h.enrol hroom hne hnew).enrolled.slots.mem tid
      exact ⟨rfl, (hslot.mp (Finset.mem_insert_self ..)).1⟩

theorem registration_iff (size : ℕ) {es : List ThreadEvent} {t : Threads α}
    (hrun : (initial α size).run es = some t) : t.Counted ↔ ∀ e ∈ es, e.isExit = false := by
  have hinv := (inv_initial α size).run hrun
  rw [hinv.counted_iff, Nat.zero_add, countP_eq_zero]
  simp only [Bool.not_eq_true]

theorem registration_iff_two :
    ∃ t, (initial ℕ 8).run [.start 1, .start 2] = some t ∧ t.q.tidCount = 2 ∧
      (t.Counted ↔ ∀ e ∈ [ThreadEvent.start 1, .start 2], e.isExit = false) :=
  ⟨_, rfl, rfl, registration_iff 8 rfl⟩

theorem registration_worn_out :
    ∃ t, (initial ℕ 8).run (replicate 32 [.start 1, .exit 1]).flatten = some t ∧
      t.live = ∅ ∧ t.q.tidCount = 32 ∧ (t.q.register 1).1 = -ENOENT ∧ ¬ t.Counted := by
  have hrun : ((initial ℕ 8).run (replicate 32 [.start 1, .exit 1]).flatten).map
      (fun t => (t.live, t.q.tidCount, (t.q.register 1).1)) = some (∅, 32, -ENOENT) := by
    decide +kernel
  obtain ⟨t, ht, heq⟩ := map_eq_some_iff.mp hrun
  obtain ⟨hlive, hcount, hret⟩ := by simpa only [Prod.mk.injEq] using heq
  refine ⟨t, ht, hlive, hcount, hret, fun hcounted => ?_⟩
  have hroom := (hcounted.room (by rw [hlive]; decide) 1 one_ne_zero (by simp [hlive])).1
  rw [hret] at hroom
  exact absurd hroom (by decide)

end Threads
end Sysak.BeeQ
