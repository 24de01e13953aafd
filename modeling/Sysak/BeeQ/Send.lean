/-
# What `beeQ_send` returns, and that what is sent can be handed over
-/

import Sysak.BeeQ.Fifo
import Sysak.BeeQ.Wakeup

namespace Sysak.BeeQ

open List Option

def RecvPc.left {α : Type*} : RecvPc α → Bool
  | .leaving | .done => true
  | _ => false

namespace World

variable {α : Type*} {w w' : World α}

def Delivers (w : World α) (n : ℕ) : Prop :=
  ∀ w', w.Reaches w' → w'.recv.left = true → n ≤ w'.handed.length

def Truthful (w : World α) (ret : ℤ) (fate : Fate) : Prop :=
  (ret = 0 ↔ fate = .placed ∧ w.Delivers w.sent.length) ∧ (ret < 0 ↔ fate = .freed)

structure Delivering (n : ℕ) (w : World α) : Prop where
  fifo : w.Fifo
  late : w.recv.early = false
  sent : n ≤ w.sent.length
  handed : w.recv.left = true → n ≤ w.handed.length

theorem Fifo.length_handed (h : w.Fifo) (hc : w.creator ≠ .freed) (hempty : w.q.isempty = true) :
    w.handed.length = w.sent.length := by
  obtain hfreed | ⟨l, hl, hsent⟩ := h
  · exact absurd hfreed hc
  · obtain rfl := hl.isempty_iff.mp hempty
    simpa using congrArg List.length hsent

theorem left_signalled (pc : RecvPc α) : pc.signalled.left = pc.left := by
  cases pc <;> rfl

theorem Step.recv_late (h : w.Step w') (hlate : w.recv.early = false) :
    w'.recv.early = false ∧
      (w'.recv.left = true → w.recv.left = true ∨
        w.creator ≠ .freed ∧ w.q.isempty = true ∧ w'.handed = w.handed) := by
  cases h with
  | stop =>
    show (if w.q.isempty then w.recv.signalled else w.recv).early = false ∧
      ((if w.q.isempty then w.recv.signalled else w.recv).left = true → _)
    split_ifs
    · rw [early_signalled, left_signalled]
      exact ⟨hlate, Or.inl⟩
    · exact ⟨hlate, Or.inl⟩
  | look t m l =>
    show (if l.signal then w.recv.signalled else w.recv).early = false ∧
      ((if l.signal then w.recv.signalled else w.recv).left = true → _)
    split_ifs
    · rw [early_signalled, left_signalled]
      exact ⟨hlate, Or.inl⟩
    · exact ⟨hlate, Or.inl⟩
  | recvRefused _ hpc =>
    rw [hpc] at hlate
    cases hlate
  | recvRegister _ hpc =>
    rw [hpc] at hlate
    cases hlate
  | recvInit _ hpc =>
    rw [hpc] at hlate
    cases hlate
  | recvReady _ hpc =>
    rw [hpc] at hlate
    cases hlate
  | recvEmpty hc hpc hempty =>
    constructor
    · show (if w.q.stop then RecvPc.leaving else .waiting : RecvPc α).early = false
      split_ifs <;> rfl
    · exact fun _ => Or.inr ⟨hc, hempty, rfl⟩
  | recvTake => exact ⟨rfl, fun h => by cases h⟩
  | recvExit _ hpc => exact ⟨rfl, fun _ => Or.inl (by rw [hpc]; rfl)⟩
  | wakeup => exact ⟨rfl, fun h => by cases h⟩
  | _ => exact ⟨hlate, Or.inl⟩

theorem Delivering.step {n : ℕ} (hstep : w.Step w') (h : w.Delivering n) : w'.Delivering n := by
  obtain ⟨hlate, hleft⟩ := hstep.recv_late h.late
  obtain ⟨hhanded, hsent⟩ := hstep.logs
  refine ⟨h.fifo.step hstep, hlate, h.sent.trans hsent.length_le, fun hl => ?_⟩
  rcases hleft hl with hold | ⟨hc, hempty, heq⟩
  · exact (h.handed hold).trans hhanded.length_le
  · rw [heq, h.fifo.length_handed hc hempty]
    exact h.sent

theorem Fifo.delivers (h : w.Fifo) (hlate : w.recv.early = false) (hleft : w.recv.left = false) :
    w.Delivers w.sent.length := by
  intro w' hr hl
  have hw : w.Delivering w.sent.length :=
    ⟨h, hlate, le_rfl, fun hl => by rw [hleft] at hl; cases hl⟩
  exact (hr.keeps Delivering.step hw).handed hl

theorem Fifo.not_delivers (h : w.Fifo) (hc : w.creator ≠ .freed) (hempty : w.q.isempty = false)
    (hleft : w.recv.left = true) : ¬ w.Delivers w.sent.length := by
  intro hd
  have hle : w.sent.length ≤ w.handed.length := hd w .refl hleft
  obtain hfreed | ⟨l, hl, hsent⟩ := h
  · exact hc hfreed
  · have hlen := congrArg List.length hsent
    simp only [length_append, length_map] at hlen
    obtain rfl : l = [] := eq_nil_of_length_eq_zero (by omega)
    rw [hl.isempty_iff.mpr rfl] at hempty
    cases hempty

variable {t : ℕ} {m : α} {ret : ℤ}

theorem look_returned {fate : Fate} (hstep : w.step (.sender t .look) = some w')
    (hret : w'.senders t = .returned m ret fate) :
    w.creator.usable = true ∧
      ∃ l, w.Looks t m l ∧ l.next = .ret ret fate ∧ w' = w.looked t m l := by
  have hpc {m' : α} {l : Look α} (hret : (w.looked t m' l).senders t = .returned m ret fate) :
      m' = m ∧ l.next = .ret ret fate := by
    change Function.update w.senders t (l.next.pc m') t = _ at hret
    rw [Function.update_self] at hret
    cases hnext : l.next with
    | retry loop =>
      rw [hnext] at hret
      cases hret
    | ret ret' fate' =>
      rw [hnext] at hret
      cases hret
      exact ⟨rfl, rfl⟩
  rw [step] at hstep
  split_ifs at hstep with hu
  refine ⟨hu, ?_⟩
  cases hs : w.senders t with
  | sending m' =>
    simp only [senderStep, hs] at hstep
    cases hstep
    obtain ⟨rfl, hnext⟩ := hpc hret
    exact ⟨_, Or.inl ⟨hs, rfl⟩, hnext, rfl⟩
  | retrying m' loop =>
    simp only [senderStep, hs] at hstep
    cases hstep
    obtain ⟨rfl, hnext⟩ := hpc hret
    exact ⟨_, Or.inr ⟨loop, hs, rfl⟩, hnext, rfl⟩
  | _ => simp [senderStep, hs] at hstep

theorem Looks.returned_cases {l : Look α} (hl : w.Looks t m l) {fate : Fate}
    (hnext : l.next = .ret ret fate) :
    (ret = -1 ∧ fate = .freed ∧ w.senders t = .sending m ∧ w.q.stop = true) ∨
      (ret = 0 ∧ ¬ (w.senders t = .sending m ∧ w.q.stop = true) ∧
        (fate = .freed ∧ w.q.isfull = true ∨ fate = .placed ∧ w.q.isfull = false)) := by
  have hlook {loop : ℕ} (heq : l = w.q.sendLook loop m) :
      ret = 0 ∧ (fate = .freed ∧ w.q.isfull = true ∨ fate = .placed ∧ w.q.isfull = false) := by
    subst heq
    rcases sendLook_cases w.q loop m with ⟨hfull, -, -, ⟨hr, -⟩ | ⟨hr, -⟩⟩ | ⟨hfull, hplace⟩
    · rw [hr] at hnext
      cases hnext
    · rw [hr] at hnext
      cases hnext
      exact ⟨rfl, Or.inl ⟨rfl, hfull⟩⟩
    · rw [hplace] at hnext
      cases hnext
      exact ⟨rfl, Or.inr ⟨rfl, hfull⟩⟩
  rcases hl with ⟨hs, heq⟩ | ⟨loop, hs, heq⟩
  · rcases sendEnter_cases w.q m with ⟨hstop, hq⟩ | ⟨hstop, hq⟩
    · rw [heq, hq] at hnext
      cases hnext
      exact Or.inl ⟨rfl, rfl, hs, hstop⟩
    · obtain ⟨hret, hfate⟩ := hlook (heq.trans hq)
      exact Or.inr ⟨hret, fun h => by simp [hstop] at h, hfate⟩
  · obtain ⟨hret, hfate⟩ := hlook heq
    exact Or.inr ⟨hret, fun h => by simp [hs] at h, hfate⟩

theorem delivers_placed_iff (h : w.Fifo) (hawake : w.Awake) (hu : w.creator.usable = true)
    {l : Look α} (hl : w.Looks t m l) (hplaced : l.next = .ret ret .placed) :
    (w.looked t m l).Delivers (w.looked t m l).sent.length ↔ w.recv.left = false := by
  have hstep : w.Step (w.looked t m l) := .look t m l hu hl
  have hfifo := h.step hstep
  have hleft : (w.looked t m l).recv.left = w.recv.left := by
    show (if l.signal then w.recv.signalled else w.recv).left = w.recv.left
    split_ifs
    · exact left_signalled _
    · rfl
  have hlate : (w.looked t m l).recv.early = false :=
    (hstep.recv_late (hawake.late (not_early_of_usable hu).2)).1
  have hc : w.creator ≠ .freed := fun heq => by
    rw [heq] at hu
    cases hu
  constructor
  · intro hd
    by_contra hne
    have hempty : (w.looked t m l).q.isempty = false := by
      obtain hfreed | ⟨held, hheld, -⟩ := h
      · exact absurd hfreed hc
      rcases hl.isLook.cases with ⟨-, -, hnext⟩ | ⟨hfull, rfl⟩
      · exact absurd hplaced (hnext ret)
      · have hpush := hheld.push hfull m
        rw [Bool.eq_false_iff, Ne]
        intro he
        simpa using hpush.isempty_iff.mp he
    exact hfifo.not_delivers hc hempty (by rw [hleft]; simpa using hne) hd
  · intro hin
    exact hfifo.delivers hlate (hleft.trans hin)

def fullSchedule : List (Op ℕ) :=
  [.creator, .recv, .recv, .recv, .creator, .sender 0 .enter, .sender 0 (.call 7), .sender 0 .look,
    .sender 0 .resume, .recv, .sender 0 (.call 8), .sender 0 .look, .sender 0 .resume,
    .sender 0 (.call 9)] ++ replicate 32 (.sender 0 .look)

def lateSchedule : List (Op ℕ) :=
  [.creator, .recv, .recv, .recv, .creator, .sender 0 .enter, .sender 0 (.call 7), .sender 0 .look,
    .sender 0 .resume, .sender 0 (.call 8), .sender 0 .look, .stop, .recv, .recv, .sender 0 .look]

/-- With a message in the ring the receiver's next turn takes it. -/
theorem recv_takes {size : ℕ} {init : Option ℤ} (h : (start α size init).Reaches w)
    (hc : w.creator.usable = true) (hleft : w.recv.left = false) (hwork : w.q.isempty = false) :
    w.step .recv = some w.take := by
  have hawake := awake_of_reaches h
  have hlate : w.recv.early = false := hawake.late (not_early_of_usable hc).2
  have hfreed : w.creator ≠ .freed := fun heq => by
    rw [heq] at hc
    cases hc
  rw [step, if_neg hfreed, recvStep]
  split <;> rename_i hpc
  case h_4 =>
    -- it does not wait while there is a message
    rw [(hawake.idle hpc).1] at hwork
    cases hwork
  any_goals rfl
  all_goals simp [hpc, RecvPc.early, RecvPc.left] at hlate hleft

theorem drains_of_holds {size : ℕ} {init : Option ℤ} (l : List α) :
    ∀ {w : World α}, (start α size init).Reaches w → w.creator.usable = true →
      w.recv.left = false → w.q.Holds l →
      ∃ w', w.run (replicate l.length .recv) = some w' ∧ w'.handed = w.handed ++ l.map some ∧
        w'.sent = w.sent := by
  induction l with
  | nil => exact fun _ _ _ _ => ⟨_, rfl, (append_nil _).symm, rfl⟩
  | cons x l ih =>
    intro w h hc hleft hl
    have hwork : w.q.isempty = false := by
      rw [← Bool.not_eq_true, hl.isempty_iff]
      exact cons_ne_nil x l
    have hstep := recv_takes h hc hleft hwork
    obtain ⟨hx, hl'⟩ := hl.pop
    have htake : w.take = { w with
        recv := .calling w.q.pop.1
        q := { w.q with toRingBuffer := w.q.pop.2 }
        handed := w.handed ++ [w.q.pop.1] } := by
      rw [take, hwork, if_neg Bool.false_ne_true]
    obtain ⟨w', hw', hh, hs⟩ := ih (h.tail ⟨.recv, hstep⟩) (by rwa [htake]) (by rw [htake]; rfl)
      (by rwa [htake])
    refine ⟨w', ?_, ?_, ?_⟩
    · rw [length_cons, replicate_succ, run, hstep]
      exact hw'
    · rw [hh, htake, hx, map_cons, append_assoc, singleton_append]
    · rw [hs, htake]

end World
end Sysak.BeeQ
