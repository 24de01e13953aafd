/-
# The queue is first in, first out
-/

import Sysak.BeeQ.World

namespace Sysak.BeeQ
namespace World

open List

variable {α : Type*} {w w' : World α}

def Fifo (w : World α) : Prop :=
  w.creator = .freed ∨ ∃ l, w.q.Holds l ∧ w.handed ++ l.map some = w.sent.map some

theorem Step.ring (h : w.Step w') :
    (w'.creator = .freed ∧ w'.sent = w.sent ∧ w'.handed = w.handed) ∨
      (w'.q.toRingBuffer = w.q.toRingBuffer ∧ w'.sent = w.sent ∧ w'.handed = w.handed) ∨
      (∃ m, w.q.isfull = false ∧ w'.q.toRingBuffer = w.q.push m ∧ w'.sent = w.sent ++ [m] ∧
        w'.handed = w.handed) ∨
      (w.q.isempty = false ∧ w'.q.toRingBuffer = w.q.pop.2 ∧ w'.sent = w.sent ∧
        w'.handed = w.handed ++ [w.q.pop.1]) := by
  cases h with
  | free => exact Or.inl ⟨rfl, rfl, rfl⟩
  | recvTake _ _ hempty => exact Or.inr (Or.inr (Or.inr ⟨hempty, rfl, rfl, rfl⟩))
  | recvExit => exact Or.inr (Or.inl ⟨(w.q.threadExit_keeps recvTid).1, rfl, rfl⟩)
  | exit t => exact Or.inr (Or.inl ⟨(w.q.threadExit_keeps (senderTid t)).1, rfl, rfl⟩)
  | look t m l _ hl =>
    rcases hl.isLook.cases with ⟨hq, -, hnext⟩ | ⟨hfull, rfl⟩
    · refine Or.inr (Or.inl ⟨by rw [looked, hq], ?_, rfl⟩)
      simp only [looked]
    · exact Or.inr (Or.inr (Or.inl ⟨m, hfull, rfl, rfl, rfl⟩))
  | _ => exact Or.inr (Or.inl ⟨rfl, rfl, rfl⟩)

theorem Step.freed (h : w.Step w') (hf : w.creator = .freed) : w'.creator = .freed := by
  cases h <;> simp_all [CreatorPc.usable]

theorem Fifo.step (h : w.Step w') (hf : w.Fifo) : w'.Fifo := by
  rcases hf with hfreed | ⟨l, hl, hsent⟩
  · exact Or.inl (h.freed hfreed)
  rcases h.ring with ⟨hfreed, -⟩ | ⟨hq, hs, hh⟩ | ⟨m, hfull, hq, hs, hh⟩ | ⟨hempty, hq, hs, hh⟩
  · exact Or.inl hfreed
  · exact Or.inr ⟨l, by rwa [hq], by rw [hs, hh, hsent]⟩
  · refine Or.inr ⟨l ++ [m], by rw [hq]; exact hl.push hfull m, ?_⟩
    rw [hs, hh, map_append, map_append, ← append_assoc, hsent]
  · have hne : l ≠ [] := fun heq => by
      rw [hl.isempty_iff.mpr heq] at hempty
      cases hempty
    obtain ⟨x, l, rfl⟩ := exists_cons_of_ne_nil hne
    obtain ⟨hx, hl'⟩ := hl.pop
    refine Or.inr ⟨l, by rwa [hq], ?_⟩
    rw [hs, hh, hx, ← hsent, map_cons, append_assoc]
    rfl

theorem fifo_start {size : ℕ} (hsize : 0 < size) (init : Option ℤ) : (start α size init).Fifo :=
  Or.inr ⟨[], Lib.RingBuffer.holds_empty hsize, rfl⟩

theorem fifo_of_reaches {size : ℕ} (hsize : 0 < size) {init : Option ℤ}
    (h : (start α size init).Reaches w) : w.Fifo :=
  h.keeps Fifo.step (fifo_start hsize init)

theorem Step.logs (h : w.Step w') : w.handed <+: w'.handed ∧ w.sent <+: w'.sent := by
  rcases h.ring with ⟨-, hs, hh⟩ | ⟨-, hs, hh⟩ | ⟨m, -, -, hs, hh⟩ | ⟨-, -, hs, hh⟩
  · rw [hs, hh]
    exact ⟨prefix_rfl, prefix_rfl⟩
  · rw [hs, hh]
    exact ⟨prefix_rfl, prefix_rfl⟩
  · rw [hs, hh]
    exact ⟨prefix_rfl, prefix_append ..⟩
  · rw [hs, hh]
    exact ⟨prefix_append .., prefix_rfl⟩

theorem handed_prefix_sent {size : ℕ} (hsize : 2 ≤ size) {init : Option ℤ}
    (h : (start α size init).Reaches w) (hq : w.creator ≠ .freed) :
    w.handed <+: w.sent.map some ∧ w.q.contents = (w.sent.drop w.handed.length).map some ∧
      ∀ op w', w.step op = some w' → w.handed <+: w'.handed ∧ w.sent <+: w'.sent := by
  obtain hfreed | ⟨l, hl, hsent⟩ := fifo_of_reaches (by omega) h
  · exact absurd hfreed hq
  · refine ⟨⟨_, hsent⟩, ?_, fun op w' hstep => (step_cases hstep).logs⟩
    rw [hl.contents_eq, map_drop, ← hsent, drop_left]

def sampleSchedule : List (Op ℕ) :=
  [.creator, .recv, .recv, .recv, .creator, .sender 0 .enter, .sender 0 (.call 7), .sender 0 .look,
    .sender 0 .resume, .sender 0 (.call 8), .sender 0 .look, .recv, .sender 0 .look]

theorem handed_prefix_sent_sample :
    ∃ w, (start ℕ 2 none).run sampleSchedule = some w ∧ w.handed = [some 7] ∧ w.sent = [7, 8] ∧
      w.q.contents = [some 8] := by
  have hend : ((start ℕ 2 none).run sampleSchedule).map
      (fun w => (w.creator, w.handed, w.sent)) = some (.returned, [some 7], [7, 8]) := by decide
  obtain ⟨w, hw, heq⟩ := Option.map_eq_some_iff.mp hend
  obtain ⟨hc, hh, hs⟩ : w.creator = .returned ∧ w.handed = [some 7] ∧ w.sent = [7, 8] := by
    simpa using heq
  have hslots := (handed_prefix_sent (by decide) (reaches_of_run _ hw) (by simp [hc])).2.1
  rw [hh, hs] at hslots
  exact ⟨w, hw, hh, hs, hslots⟩

end World
end Sysak.BeeQ
