/-
# Stopping a queue
-/

import Sysak.Lib.SlotTable
import Sysak.BeeQ.World

namespace Sysak.BeeQ

open Lib List

inductive Phase where
  | unborn
  | live
  | ended
  deriving DecidableEq, Repr

def RecvPc.phase {α : Type*} : RecvPc α → Phase
  | .start => .unborn
  | .done => .ended
  | _ => .live

def SenderPc.phase {α : Type*} : SenderPc α → Phase
  | .absent | .created => .unborn
  | .done => .ended
  | _ => .live

section Slots

variable {α : Type*}

structure Enrolled (q : BeeQ α) (s : Finset ℕ) : Prop where
  size : q.tids.length = beeqTids
  slots : SlotTable.Holds q.tids s

theorem enrolled_fresh (size : ℕ) : (fresh α size).Enrolled ∅ :=
  ⟨rfl, SlotTable.holds_replicate beeqTids⟩

theorem threadExit_tids (q : BeeQ α) (tid : ℕ) :
    (q.threadExit tid).tids =
      if q.tidCount = 0 then q.tids else SlotTable.overwrite q.tids tid 0 := by
  rw [BeeQ.threadExit]
  split_ifs <;> rfl

namespace Enrolled

variable {q : BeeQ α} {s : Finset ℕ} {tid : ℕ}

theorem enrol (h : q.Enrolled s) (hroom : s.card < beeqTids) (hne : tid ≠ 0) (hnew : tid ∉ s) :
    (q.enrol tid).Enrolled (insert tid s) where
  size := (SlotTable.length_overwrite q.tids 0 tid).trans h.size
  slots := h.slots.put (by rwa [h.size]) hne hnew

theorem threadExit (h : q.Enrolled s) (hcount : q.tidCount = 0 → s = ∅) (hne : tid ≠ 0) :
    (q.threadExit tid).Enrolled (s.erase tid) := by
  constructor
  · rw [threadExit_tids]
    split_ifs
    · exact h.size
    · rw [SlotTable.length_overwrite, h.size]
  · rw [threadExit_tids]
    split_ifs with hzero
    · rw [hcount hzero, Finset.erase_empty, ← hcount hzero]
      exact h.slots
    · exact h.slots.drop hne

end Enrolled

end Slots

namespace World

variable {α : Type*} {w w' : World α}

def phase (w : World α) : ℕ → Phase
  | 0 => .unborn
  | 1 => w.recv.phase
  | t + 2 => (w.senders t).phase

theorem ended_iff (w : World α) (tid : ℕ) : w.ended tid = true ↔ w.phase tid = .ended := by
  rcases tid with _ | _ | t
  · simp [ended, phase]
  · simp only [ended, phase]
    cases w.recv <;> simp [RecvPc.phase]
  · simp only [ended, phase]
    cases w.senders t <;> simp [SenderPc.phase]

theorem phase_signalled (pc : RecvPc α) : pc.signalled.phase = pc.phase := by
  cases pc <;> rfl

theorem phase_recvTid (w : World α) : w.phase recvTid = w.recv.phase := rfl

theorem phase_senderTid (w : World α) (t : ℕ) : w.phase (senderTid t) = (w.senders t).phase := rfl

theorem phase_setSender (w : World α) (t : ℕ) (pc : SenderPc α) :
    (w.setSender t pc).phase (senderTid t) = pc.phase := by
  show (Function.update w.senders t pc t).phase = pc.phase
  rw [Function.update_self]

theorem phase_of_ne_recv (hs : w'.senders = w.senders) (tid : ℕ) (hne : tid ≠ recvTid) :
    w'.phase tid = w.phase tid := by
  rcases tid with _ | _ | t
  · rfl
  · exact absurd rfl hne
  · simp only [phase, hs]

variable {t : ℕ}

theorem phase_of_ne_sender {pc : SenderPc α} (hr : w'.recv.phase = w.recv.phase)
    (hs : w'.senders = Function.update w.senders t pc) (tid : ℕ) (hne : tid ≠ senderTid t) :
    w'.phase tid = w.phase tid := by
  rcases tid with _ | _ | t'
  · rfl
  · exact hr
  · have ht : t' ≠ t := fun heq => hne (by rw [heq, senderTid])
    simp only [phase, hs, Function.update_of_ne ht]

theorem phase_update {pc : SenderPc α} (h : pc.phase = (w.senders t).phase) (t' : ℕ) :
    (Function.update w.senders t pc t').phase = (w.senders t').phase := by
  by_cases ht : t' = t
  · rw [ht, Function.update_self, h]
  · rw [Function.update_of_ne ht]

inductive Moves (w w' : World α) (tid : ℕ) : Prop
  | quiet : w'.q.tids = w.q.tids → w'.q.tidCount = w.q.tidCount → w'.regs = w.regs →
      (w'.phase tid = w.phase tid ∨ w.phase tid = .unborn ∨
        (w'.phase tid = .ended ∧ tid ∉ w.regs)) → Moves w w' tid
  | register : w.q.stop = false → w.q.tidCount < beeqTids → w'.q = w.q.enrol tid →
      w'.regs = w.regs ++ [tid] → tid ≠ 0 → w.phase tid = .unborn → w'.phase tid = .live →
      Moves w w' tid
  | exit : w'.q = w.q.threadExit tid → w'.regs = w.regs → tid ≠ 0 → w'.phase tid = .ended →
      Moves w w' tid

theorem moves_of_phase (hr : w'.recv.phase = w.recv.phase)
    (hs : ∀ t, (w'.senders t).phase = (w.senders t).phase)
    (hq : w'.q.tids = w.q.tids ∧ w'.q.tidCount = w.q.tidCount) (hregs : w'.regs = w.regs) :
    ∃ tid, (∀ tid' ≠ tid, w'.phase tid' = w.phase tid') ∧ w.Moves w' tid := by
  refine ⟨0, fun tid _ => ?_, .quiet hq.1 hq.2 hregs (Or.inl rfl)⟩
  rcases tid with _ | _ | t
  · rfl
  · exact hr
  · exact hs t

theorem clear_keeps (n : ℕ) (q : BeeQ α) :
    (q.clear n).tids = q.tids ∧ (q.clear n).tidCount = q.tidCount ∧ (q.clear n).stop = q.stop := by
  induction n generalizing q with
  | zero => exact ⟨rfl, rfl, rfl⟩
  | succ n ih =>
    rw [BeeQ.clear]
    split_ifs
    · exact ⟨rfl, rfl, rfl⟩
    · exact ih _

theorem look_keeps {m : α} {l : Look α} (hl : w.Looks t m l) :
    l.q.tids = w.q.tids ∧ l.q.tidCount = w.q.tidCount ∧ l.q.stop = w.q.stop := by
  rcases hl.isLook.cases with ⟨hq, -⟩ | ⟨-, rfl⟩
  · rw [hq]
    exact ⟨rfl, rfl, rfl⟩
  · exact ⟨rfl, rfl, rfl⟩

theorem look_phase {m : α} {l : Look α} (hl : w.Looks t m l) :
    (l.next.pc m).phase = (w.senders t).phase := by
  have hpc : (l.next.pc m).phase = .live := by
    cases l.next <;> rfl
  rw [hpc]
  rcases hl with ⟨hs, -⟩ | ⟨loop, hs, -⟩
  · rw [hs]
    rfl
  · rw [hs]
    rfl

theorem signalled_if_phase (c : Bool) (pc : RecvPc α) :
    (if c then pc.signalled else pc).phase = pc.phase := by
  cases c
  · rfl
  · exact phase_signalled pc

theorem Step.moves (h : w.Step w') :
    ∃ tid, (∀ tid' ≠ tid, w'.phase tid' = w.phase tid') ∧ w.Moves w' tid := by
  cases h with
  | stop => exact moves_of_phase (signalled_if_phase _ _) (fun _ => rfl) ⟨rfl, rfl⟩ rfl
  | free =>
    obtain ⟨ht, hc, -⟩ := clear_keeps w.q.size w.q
    exact moves_of_phase rfl (fun _ => rfl) ⟨ht, hc⟩ rfl
  | recvRefused _ hpc =>
    refine ⟨recvTid, phase_of_ne_recv rfl, .quiet rfl rfl rfl (Or.inr (Or.inl ?_))⟩
    rw [phase_recvTid, hpc]
    rfl
  | recvRegister _ hpc hstop hcount =>
    refine ⟨recvTid, phase_of_ne_recv rfl, .register hstop hcount rfl rfl (by decide) ?_ rfl⟩
    rw [phase_recvTid, hpc]
    rfl
  | recvInit _ hpc =>
    refine moves_of_phase ?_ (fun _ => rfl) ⟨rfl, rfl⟩ rfl
    rw [hpc]
    show (if w.initOk then RecvPc.ready else .leaving : RecvPc α).phase = _
    split_ifs <;> rfl
  | recvReady _ hpc =>
    refine moves_of_phase ?_ (fun _ => rfl) ⟨rfl, rfl⟩ rfl
    rw [hpc]
    show (if w.q.stop then RecvPc.leaving else .waiting : RecvPc α).phase = _
    split_ifs <;> rfl
  | recvEmpty _ hpc =>
    refine moves_of_phase ?_ (fun _ => rfl) ⟨rfl, rfl⟩ rfl
    have hlive : w.recv.phase = .live := by
      rcases hpc with hpc | ⟨m, hpc⟩ <;> (rw [hpc]; rfl)
    rw [hlive]
    show (if w.q.stop then RecvPc.leaving else .waiting : RecvPc α).phase = _
    split_ifs <;> rfl
  | recvTake _ hpc =>
    refine moves_of_phase ?_ (fun _ => rfl) ⟨rfl, rfl⟩ rfl
    rcases hpc with hpc | ⟨m, hpc⟩ <;> (rw [hpc]; rfl)
  | recvExit _ hpc => exact ⟨recvTid, phase_of_ne_recv rfl, .exit rfl rfl (by decide) rfl⟩
  | wakeup hpc => exact moves_of_phase (by rw [hpc]; rfl) (fun _ => rfl) ⟨rfl, rfl⟩ rfl
  | spawn t _ hpc => exact moves_of_phase rfl (phase_update (by rw [hpc]; rfl)) ⟨rfl, rfl⟩ rfl
  | enter t _ hpc =>
    refine ⟨senderTid t, phase_of_ne_sender rfl rfl, .quiet rfl rfl rfl (Or.inr (Or.inl ?_))⟩
    rw [phase_senderTid, hpc]
    rfl
  | refused t _ hpc =>
    refine ⟨senderTid t, phase_of_ne_sender rfl rfl, .quiet rfl rfl rfl (Or.inr (Or.inl ?_))⟩
    rw [phase_senderTid, hpc]
    rfl
  | register t _ hpc hstop hcount =>
    refine ⟨senderTid t, phase_of_ne_sender rfl rfl,
      .register hstop hcount rfl rfl (Nat.succ_ne_zero _) ?_ ?_⟩
    · rw [phase_senderTid, hpc]
      rfl
    · exact phase_setSender w t .running
  | call t m _ hpc => exact moves_of_phase rfl (phase_update (by rw [hpc]; rfl)) ⟨rfl, rfl⟩ rfl
  | look t m l _ hl =>
    obtain ⟨ht, hc, -⟩ := look_keeps hl
    exact moves_of_phase (signalled_if_phase _ _) (phase_update (look_phase hl)) ⟨ht, hc⟩ rfl
  | resume t m ret fate _ hpc =>
    exact moves_of_phase rfl (phase_update (by rw [hpc]; rfl)) ⟨rfl, rfl⟩ rfl
  | exit t =>
    exact ⟨senderTid t, phase_of_ne_sender rfl rfl, .exit rfl rfl (Nat.succ_ne_zero _)
      (phase_setSender w t .done)⟩
  | leave t _ _ hreg =>
    exact ⟨senderTid t, phase_of_ne_sender rfl rfl, .quiet rfl rfl rfl
      (Or.inr (Or.inr ⟨phase_setSender w t .done, hreg⟩))⟩
  | _ => exact moves_of_phase rfl (fun _ => rfl) ⟨rfl, rfl⟩ rfl

variable {tid : ℕ}

theorem Step.ended_mono (h : w.Step w') (he : w.phase tid = .ended) : w'.phase tid = .ended := by
  obtain ⟨tid₀, hothers, hmoves⟩ := h.moves
  by_cases hne : tid = tid₀
  · subst hne
    cases hmoves with
    | quiet _ _ _ hphase =>
      rcases hphase with heq | hunborn | ⟨hended, -⟩
      · rw [heq, he]
      · rw [he] at hunborn
        cases hunborn
      · exact hended
    | register _ _ _ _ _ hunborn =>
      rw [he] at hunborn
      cases hunborn
    | exit _ _ _ hended => exact hended
  · rw [hothers tid hne, he]

def roster (w : World α) : Finset ℕ := w.regs.toFinset.filter fun tid => w.phase tid ≠ .ended

theorem mem_roster : tid ∈ w.roster ↔ tid ∈ w.regs ∧ w.phase tid ≠ .ended := by
  rw [roster, Finset.mem_filter, List.mem_toFinset]

theorem roster_of_moves (hothers : ∀ tid' ≠ tid, w'.phase tid' = w.phase tid')
    (hregs : ∀ tid' ≠ tid, tid' ∈ w'.regs ↔ tid' ∈ w.regs) :
    (tid ∈ w'.roster → w'.roster = insert tid w.roster) ∧
      (tid ∉ w'.roster → w'.roster = w.roster.erase tid) := by
  have hne {tid' : ℕ} (hne : tid' ≠ tid) : tid' ∈ w'.roster ↔ tid' ∈ w.roster := by
    rw [mem_roster, mem_roster, hregs tid' hne, hothers tid' hne]
  constructor
  · intro hin
    ext tid'
    by_cases heq : tid' = tid
    · simp [heq, hin]
    · rw [hne heq, Finset.mem_insert, or_iff_right heq]
  · intro hout
    ext tid'
    by_cases heq : tid' = tid
    · simp [heq, hout]
    · rw [hne heq, Finset.mem_erase, and_iff_right heq]

structure Registered (w : World α) : Prop where
  born : ∀ tid ∈ w.regs, w.phase tid ≠ .unborn
  count : w.q.tidCount = w.regs.length
  size : w.q.tids.length = beeqTids
  slots : SlotTable.Holds w.q.tids w.roster

theorem registered_start (size : ℕ) (init : Option ℤ) : (start α size init).Registered where
  born := fun _ h => by cases h
  count := rfl
  size := (enrolled_fresh size).size
  slots := (enrolled_fresh size).slots

theorem Registered.enrolled (h : w.Registered) : w.q.Enrolled w.roster := ⟨h.size, h.slots⟩

theorem Registered.step (hstep : w.Step w') (h : w.Registered) : w'.Registered := by
  obtain ⟨tid, hothers, hmoves⟩ := hstep.moves
  cases hmoves with
  | quiet htids hcount hregs hphase =>
    have hsame : ∀ tid' ∈ w.regs, w'.phase tid' = w.phase tid' := by
      intro tid' hmem
      by_cases hne : tid' = tid
      · subst hne
        rcases hphase with heq | hunborn | ⟨-, hnot⟩
        · exact heq
        · exact absurd hunborn (h.born _ hmem)
        · exact absurd hmem hnot
      · exact hothers tid' hne
    have hroster : w'.roster = w.roster := by
      ext tid'
      rw [mem_roster, mem_roster, hregs]
      exact and_congr_right fun hmem => by rw [hsame tid' hmem]
    refine ⟨fun tid' hmem => ?_, by rw [hcount, hregs, h.count], by rw [htids, h.size], ?_⟩
    · rw [hregs] at hmem
      rw [hsame tid' hmem]
      exact h.born tid' hmem
    · rw [htids, hroster]
      exact h.slots
  | register _ hroom hq hregs hne hunborn hlive =>
    have hnot : tid ∉ w.regs := fun hmem => h.born tid hmem hunborn
    have hroster : w'.roster = insert tid w.roster :=
      (roster_of_moves hothers fun tid' hne => by simp [hregs, hne]).1
        (mem_roster.mpr ⟨by simp [hregs], by simp [hlive]⟩)
    have hcard : w.roster.card < beeqTids :=
      ((Finset.card_filter_le _ _).trans (toFinset_card_le _)).trans_lt (h.count ▸ hroom)
    have henrolled : w'.q.Enrolled w'.roster := by
      rw [hroster, hq]
      exact h.enrolled.enrol hcard hne fun hmem => hnot (mem_roster.mp hmem).1
    refine ⟨fun tid' hmem => ?_, ?_, henrolled.size, henrolled.slots⟩
    · by_cases heq : tid' = tid
      · rw [heq, hlive]
        exact Phase.noConfusion
      · rw [hregs] at hmem
        rw [hothers tid' heq]
        exact h.born tid' (by simpa [heq] using hmem)
    · rw [hq, hregs, length_append, ← h.count]
      rfl
  | exit hq hregs hne hended =>
    have hroster : w'.roster = w.roster.erase tid :=
      (roster_of_moves hothers fun tid' _ => by rw [hregs]).2
        fun hin => (mem_roster.mp hin).2 hended
    have hempty : w.q.tidCount = 0 → w.roster = ∅ := by
      intro hcount
      rw [roster, eq_nil_of_length_eq_zero (h.count.symm.trans hcount)]
      rfl
    have henrolled : w'.q.Enrolled w'.roster := by
      rw [hroster, hq]
      exact h.enrolled.threadExit hempty hne
    refine ⟨fun tid' hmem => ?_, ?_, henrolled.size, henrolled.slots⟩
    · rw [hregs] at hmem
      by_cases heq : tid' = tid
      · rw [heq, hended]
        exact Phase.noConfusion
      · rw [hothers tid' heq]
        exact h.born tid' hmem
    · rw [hq, hregs, ← h.count, (w.q.threadExit_keeps tid).2.2]

def slot (w : World α) (i : ℕ) : ℕ := w.q.tids.getD i 0

variable {i : ℕ}

theorem Registered.slot_mem (h : w.Registered) (hi : w.slot i ≠ 0) :
    w.slot i ∈ w.regs ∧ w.phase (w.slot i) ≠ .ended :=
  mem_roster.mp (h.slots.getD_mem hi)

def Walk (w : World α) : Prop :=
  match w.creator with
  | .scanning i => w.q.stop = true ∧ ∀ j < i, w.slot j = 0
  | .joining i tid => w.q.stop = true ∧ (∀ j < i, w.slot j = 0) ∧
      (w.slot i = tid ∧ tid ≠ 0 ∨ w.slot i = 0 ∧ w.phase tid = .ended)
  | .inJoin i arg => w.q.stop = true ∧ (∀ j < i, w.slot j = 0) ∧ (w.slot i = arg ∨ w.slot i = 0)
  | .joined | .freed => w.q.stop = true ∧ ∀ j, w.slot j = 0
  | _ => True

theorem Step.slot (h : w.Step w') (hstop : w.q.stop = true) (i : ℕ) :
    w'.slot i = w.slot i ∨ (w'.slot i = 0 ∧ w'.phase (w.slot i) = .ended) := by
  obtain ⟨tid, -, hmoves⟩ := h.moves
  cases hmoves with
  | quiet htids => exact Or.inl (by rw [World.slot, htids, World.slot])
  | register hrun =>
    rw [hstop] at hrun
    cases hrun
  | exit hq _ _ hended =>
    rw [World.slot, hq, threadExit_tids]
    split_ifs
    · exact Or.inl rfl
    · rcases SlotTable.getD_overwrite w.q.tids tid 0 0 i with heq | ⟨hold, hnew⟩
      · exact Or.inl heq
      · exact Or.inr ⟨hnew, by rw [World.slot, hold, hended]⟩

theorem Step.stopped (h : w.Step w') (hstop : w.q.stop = true) : w'.q.stop = true := by
  cases h with
  | stop => rfl
  | free => exact (clear_keeps _ _).2.2.trans hstop
  | recvExit => exact (w.q.threadExit_keeps recvTid).2.1.trans hstop
  | exit t => exact (w.q.threadExit_keeps (senderTid t)).2.1.trans hstop
  | look t m l _ hl => exact (look_keeps hl).2.2.trans hstop
  | _ => exact hstop

theorem Step.slot_zero (h : w.Step w') (hstop : w.q.stop = true) (hi : w.slot i = 0) :
    w'.slot i = 0 := by
  rcases h.slot hstop i with heq | ⟨hzero, -⟩
  · rw [heq, hi]
  · exact hzero

theorem Walk.of_creator_eq (h : w.Walk) (hstep : w.Step w') (hc : w'.creator = w.creator) :
    w'.Walk := by
  unfold Walk at h ⊢
  rw [hc]
  cases hpc : w.creator with
  | scanning i =>
    rw [hpc] at h
    exact ⟨hstep.stopped h.1, fun j hj => hstep.slot_zero h.1 (h.2 j hj)⟩
  | joining i tid =>
    rw [hpc] at h
    obtain ⟨hstop, hbehind, hat⟩ := h
    refine ⟨hstep.stopped hstop, fun j hj => hstep.slot_zero hstop (hbehind j hj), ?_⟩
    rcases hat with ⟨hslot, hne⟩ | ⟨hslot, hended⟩
    · rcases hstep.slot hstop i with heq | ⟨hzero, hended⟩
      · exact Or.inl ⟨heq.trans hslot, hne⟩
      · exact Or.inr ⟨hzero, hslot ▸ hended⟩
    · exact Or.inr ⟨hstep.slot_zero hstop hslot, hstep.ended_mono hended⟩
  | inJoin i arg =>
    rw [hpc] at h
    obtain ⟨hstop, hbehind, hat⟩ := h
    refine ⟨hstep.stopped hstop, fun j hj => hstep.slot_zero hstop (hbehind j hj), ?_⟩
    rcases hat with hslot | hslot
    · rcases hstep.slot hstop i with heq | ⟨hzero, -⟩
      · exact Or.inl (heq.trans hslot)
      · exact Or.inr hzero
    · exact Or.inr (hstep.slot_zero hstop hslot)
  | joined =>
    rw [hpc] at h
    exact ⟨hstep.stopped h.1, fun j => hstep.slot_zero h.1 (h.2 j)⟩
  | freed =>
    rw [hpc] at h
    exact ⟨hstep.stopped h.1, fun j => hstep.slot_zero h.1 (h.2 j)⟩
  | _ => trivial

theorem slot_of_nextTid {i j : ℕ} (h : w.q.nextTid i = some j) :
    w.slot j ≠ 0 ∧ ∀ k, i ≤ k → k < j → w.slot k = 0 := by
  obtain ⟨hj, -, hskip⟩ := find?_range'_eq_some.mp h
  exact ⟨by simpa [slot] using hj, fun k hik hkj => by simpa [slot] using hskip k hik hkj⟩

theorem slot_of_nextTid_none (hsize : w.q.tids.length = beeqTids) (h : w.q.nextTid i = none) (k : ℕ)
    (hik : i ≤ k) : w.slot k = 0 := by
  by_cases hk : k < beeqTids
  · simpa [slot] using find?_range'_eq_none.mp h k hik (by omega)
  · exact getD_eq_default _ _ (by omega)

theorem signalled_cases (pc : CreatorPc) : pc.signalled = pc ∨ pc.signalled = .woken := by
  cases pc <;> first | exact Or.inl rfl | exact Or.inr rfl

theorem Walk.step (hstep : w.Step w') (hreg : w.Registered) (h : w.Walk) : w'.Walk := by
  have hkeep : w'.creator = w.creator → w'.Walk := h.of_creator_eq hstep
  cases hstep with
  | creatorWait => trivial
  | creatorReturn => trivial
  | stop => exact ⟨rfl, fun j hj => absurd hj (Nat.not_lt_zero j)⟩
  | scan i j hpc hnext =>
    rw [Walk, hpc] at h
    obtain ⟨hne, hskip⟩ := slot_of_nextTid hnext
    refine ⟨h.1, fun k hk => ?_, Or.inl ⟨rfl, hne⟩⟩
    by_cases hki : k < i
    · exact h.2 k hki
    · exact hskip k (Nat.le_of_not_lt hki) hk
  | scanEnd i hpc hnext =>
    rw [Walk, hpc] at h
    refine ⟨h.1, fun k => ?_⟩
    by_cases hki : k < i
    · exact h.2 k hki
    · exact slot_of_nextTid_none hreg.size hnext k (Nat.le_of_not_lt hki)
  | join i tid hpc =>
    rw [Walk, hpc] at h
    exact ⟨h.1, h.2.1, Or.inl rfl⟩
  | joinEnd i arg hpc hdone =>
    rw [Walk, hpc] at h
    obtain ⟨hstop, hbehind, hat⟩ := h
    have hfree : w.slot i = 0 := by
      rcases hat with hslot | hslot
      · rcases hdone with hzero | hended
        · rw [hslot, hzero]
        · by_contra hne
          exact (hreg.slot_mem hne).2 (hslot ▸ (ended_iff w arg).mp hended)
      · exact hslot
    refine ⟨hstop, fun j hj => ?_⟩
    rcases Nat.lt_succ_iff_lt_or_eq.mp hj with hlt | rfl
    · exact hbehind j hlt
    · exact hfree
  | free hpc =>
    rw [Walk, hpc] at h
    obtain ⟨htids, -, hstop⟩ := clear_keeps w.q.size w.q
    refine ⟨hstop.trans h.1, fun j => ?_⟩
    show (w.q.clear w.q.size).tids.getD j 0 = 0
    rw [htids]
    exact h.2 j
  | recvReady =>
    rcases signalled_cases w.creator with heq | heq
    · exact hkeep heq
    · unfold Walk
      simp only [heq]
  | _ => exact hkeep rfl

def Joined (w : World α) : Prop :=
  ∀ arg ∈ w.joins, arg = 0 ∨ w.phase arg = .ended ∨ ∃ i, w.creator = .inJoin i arg

theorem Joined.step (hstep : w.Step w') (h : w.Joined) : w'.Joined := by
  have hkeep (hj : w'.joins = w.joins)
      (hc : ∀ i arg, w.creator = .inJoin i arg → arg = 0 ∨ w'.phase arg = .ended ∨
        w'.creator = .inJoin i arg) : w'.Joined := by
    intro arg harg
    rw [hj] at harg
    rcases h arg harg with hzero | hended | ⟨i, hpc⟩
    · exact Or.inl hzero
    · exact Or.inr (Or.inl (hstep.ended_mono hended))
    · rcases hc i arg hpc with hzero | hended | hpc'
      · exact Or.inl hzero
      · exact Or.inr (Or.inl hended)
      · exact Or.inr (Or.inr ⟨i, hpc'⟩)
  cases hstep with
  | join i tid hpc =>
    intro arg harg
    rcases mem_append.mp harg with hold | hnew
    · rcases h arg hold with hzero | hended | ⟨j, hj⟩
      · exact Or.inl hzero
      · exact Or.inr (Or.inl hended)
      · rw [hpc] at hj
        cases hj
    · rw [mem_singleton.mp hnew]
      exact Or.inr (Or.inr ⟨i, rfl⟩)
  | joinEnd i arg hpc hdone =>
    refine hkeep rfl fun j arg' hj => ?_
    rw [hpc] at hj
    cases hj
    rcases hdone with hzero | hended
    · exact Or.inl hzero
    · exact Or.inr (Or.inl ((ended_iff w arg).mp hended))
  | creatorWait hpc => exact hkeep rfl fun i arg h => by rw [hpc] at h; cases h
  | creatorReturn hpc => exact hkeep rfl fun i arg h => by rw [hpc] at h; cases h
  | stop hpc => exact hkeep rfl fun i arg h => by rw [hpc] at h; cases h
  | scan i j hpc => exact hkeep rfl fun i arg h => by rw [hpc] at h; cases h
  | scanEnd i hpc => exact hkeep rfl fun i arg h => by rw [hpc] at h; cases h
  | free hpc => exact hkeep rfl fun i arg h => by rw [hpc] at h; cases h
  | recvReady =>
    refine hkeep rfl fun i arg h => Or.inr (Or.inr ?_)
    show w.creator.signalled = _
    rw [h]
    rfl
  | _ => exact hkeep rfl fun i arg h => Or.inr (Or.inr h)

theorem shutdown_of_reaches {size : ℕ} {init : Option ℤ} (h : (start α size init).Reaches w) :
    w.Registered ∧ w.Walk ∧ w.Joined := by
  refine h.keeps (P := fun w => w.Registered ∧ w.Walk ∧ w.Joined) ?_
    ⟨registered_start size init, trivial, fun arg harg => by cases harg⟩
  rintro w w' hstep ⟨hreg, hwalk, hjoined⟩
  exact ⟨hreg.step hstep, hwalk.step hstep hreg, hjoined.step hstep⟩

def GoodJoin (w : World α) (arg : ℕ) : Prop := arg ≠ 0 ∧ arg ∈ w.regs ∧ arg ∉ w.joins

theorem join_good_iff {size : ℕ} {init : Option ℤ} (h : (start α size init).Reaches w) :
    (∀ i tid w', w.creator = .joining i tid → w.step .creator = some w' →
        ∃ arg, w'.joins = w.joins ++ [arg] ∧ (w.GoodJoin arg ↔ w.ended tid = false)) ∧
      (w.creator = .freed → ∀ tid ∈ w.regs, w.ended tid = true) := by
  obtain ⟨hreg, hwalk, hjoined⟩ := shutdown_of_reaches h
  constructor
  · intro i tid w' hpc hstep
    rw [step, creatorStep, hpc] at hstep
    cases hstep
    refine ⟨w.slot i, rfl, ?_⟩
    rw [Walk, hpc] at hwalk
    rw [← Bool.not_eq_true, ended_iff]
    rcases hwalk.2.2 with ⟨hslot, hne⟩ | ⟨hslot, hended⟩
    · obtain ⟨hmem, hlive⟩ := hreg.slot_mem (hslot ▸ hne)
      refine iff_of_true ⟨hslot ▸ hne, hmem, fun hold => ?_⟩ (hslot ▸ hlive)
      rcases hjoined _ hold with hzero | hended | ⟨j, hj⟩
      · exact hne (hslot ▸ hzero)
      · exact hlive hended
      · rw [hpc] at hj
        cases hj
    · exact iff_of_false (fun hgood => hgood.1 hslot) (fun hlive => hlive hended)
  · intro hpc tid hmem
    rw [Walk, hpc] at hwalk
    have hempty := hreg.slots.eq_empty hwalk.2
    rw [ended_iff]
    by_contra hne
    exact absurd (mem_roster.mpr ⟨hmem, hne⟩) (by rw [hempty]; exact Finset.notMem_empty tid)

theorem join_good_sample :
    ∃ w w' : World ℕ, (start ℕ 2 none).run [.creator, .recv, .recv, .recv, .creator, .stop,
        .creator] = some w ∧ w.creator = .joining 0 recvTid ∧ w.step .creator = some w' ∧
      ∃ arg, w'.joins = [arg] ∧ w.GoodJoin arg := by
  have hreach : (start ℕ 2 none).Reaches _ :=
    reaches_of_run [.creator, .recv, .recv, .recv, .creator, .stop, .creator] rfl
  obtain ⟨arg, hjoins, hgood⟩ := (join_good_iff hreach).1 0 recvTid _ rfl rfl
  exact ⟨_, _, rfl, rfl, rfl, arg, hjoins, hgood.mpr rfl⟩

theorem join_bad :
    ∃ w, (start ℕ 2 none).run [.creator, .recv, .recv, .recv, .creator, .stop, .creator, .recv,
        .recv, .creator] = some w ∧ w.joins = [0] :=
  ⟨_, rfl, rfl⟩

end World
end Sysak.BeeQ
