/-
# The queue between threads
-/

import Sysak.Lib.RingBuffer

namespace Sysak

open Lib List

structure BeeQ (α : Type*) extends RingBuffer α where
  stop : Bool
  tidCount : ℕ
  tids : List ℕ
  deriving DecidableEq, Repr

namespace BeeQ

variable {α : Type*}

def ENOENT : ℤ := 2

def beeqTids : ℕ := 32

def loopQueueMax : ℕ := 32

def fresh (α : Type*) (size : ℕ) : BeeQ α where
  size := size
  send := 0
  recv := 0
  msgs := replicate size none
  stop := false
  tidCount := 0
  tids := replicate beeqTids 0

def enrol (q : BeeQ α) (tid : ℕ) : BeeQ α :=
  { q with tids := q.tids.set (q.tids.findIdx (· == 0)) tid, tidCount := q.tidCount + 1 }

def register (q : BeeQ α) (tid : ℕ) : ℤ × BeeQ α :=
  if q.stop ∨ beeqTids ≤ q.tidCount then (-ENOENT, q) else (0, q.enrol tid)

def threadExit (q : BeeQ α) (tid : ℕ) : BeeQ α :=
  if q.tidCount = 0 then q else { q with tids := q.tids.set (q.tids.findIdx (· == tid)) 0 }

theorem threadExit_keeps (q : BeeQ α) (tid : ℕ) :
    (q.threadExit tid).toRingBuffer = q.toRingBuffer ∧ (q.threadExit tid).stop = q.stop ∧
      (q.threadExit tid).tidCount = q.tidCount := by
  unfold threadExit
  split_ifs <;> exact ⟨rfl, rfl, rfl⟩

def nextTid (q : BeeQ α) (i : ℕ) : Option ℕ :=
  (range' i (beeqTids - i)).find? fun j => q.tids.getD j 0 != 0

inductive Fate where
  | placed
  | freed
  deriving DecidableEq, Repr

inductive SendNext where
  | retry (loop : ℕ)
  | ret (ret : ℤ) (fate : Fate)
  deriving DecidableEq, Repr

structure Look (α : Type*) where
  next : SendNext
  q : BeeQ α
  signal : Bool
  deriving DecidableEq, Repr

def sendLook (q : BeeQ α) (loop : ℕ) (msg : α) : Look α :=
  if q.isfull then
    if loop + 1 < loopQueueMax then
      ⟨.retry (loop + 1), q, false⟩
    else
      -- "message que is full now."
      ⟨.ret 0 .freed, q, false⟩
  else
    ⟨.ret 0 .placed, { q with toRingBuffer := q.push msg }, q.isempty⟩

def sendEnter (q : BeeQ α) (msg : α) : Look α :=
  if q.stop then ⟨.ret (-1) .freed, q, false⟩ else q.sendLook 0 msg

theorem sendLook_cases (q : BeeQ α) (loop : ℕ) (msg : α) :
    (q.isfull = true ∧ (q.sendLook loop msg).q = q ∧ (q.sendLook loop msg).signal = false ∧
        ((q.sendLook loop msg).next = .retry (loop + 1) ∧ loop + 1 < loopQueueMax ∨
          (q.sendLook loop msg).next = .ret 0 .freed ∧ loopQueueMax ≤ loop + 1)) ∨
      (q.isfull = false ∧
        q.sendLook loop msg =
          ⟨.ret 0 .placed, { q with toRingBuffer := q.push msg }, q.isempty⟩) := by
  rw [sendLook]
  split_ifs with hfull hloop
  · exact Or.inl ⟨hfull, rfl, rfl, Or.inl ⟨rfl, hloop⟩⟩
  · exact Or.inl ⟨hfull, rfl, rfl, Or.inr ⟨rfl, Nat.le_of_not_lt hloop⟩⟩
  · exact Or.inr ⟨Bool.not_eq_true _ ▸ hfull, rfl⟩

theorem sendEnter_cases (q : BeeQ α) (msg : α) :
    (q.stop = true ∧ q.sendEnter msg = ⟨.ret (-1) .freed, q, false⟩) ∨
      (q.stop = false ∧ q.sendEnter msg = q.sendLook 0 msg) := by
  rw [sendEnter]
  split_ifs with hstop
  · exact Or.inl ⟨hstop, rfl⟩
  · exact Or.inr ⟨Bool.not_eq_true _ ▸ hstop, rfl⟩

def IsLook (q : BeeQ α) (msg : α) (l : Look α) : Prop :=
  l = q.sendEnter msg ∨ ∃ loop, l = q.sendLook loop msg

theorem IsLook.cases {q : BeeQ α} {msg : α} {l : Look α} (h : q.IsLook msg l) :
    (l.q = q ∧ l.signal = false ∧ ∀ ret, l.next ≠ .ret ret .placed) ∨
      (q.isfull = false ∧
        l = ⟨.ret 0 .placed, { q with toRingBuffer := q.push msg }, q.isempty⟩) := by
  have hlook : (∃ loop, l = q.sendLook loop msg) ∨ l = ⟨.ret (-1) .freed, q, false⟩ := by
    rcases h with rfl | hloop
    · rcases sendEnter_cases q msg with ⟨-, heq⟩ | ⟨-, heq⟩
      · exact Or.inr heq
      · exact Or.inl ⟨0, heq⟩
    · exact Or.inl hloop
  rcases hlook with ⟨loop, rfl⟩ | rfl
  · rcases sendLook_cases q loop msg with ⟨-, hq, hs, ⟨hnext, -⟩ | ⟨hnext, -⟩⟩ | hplace
    · exact Or.inl ⟨hq, hs, fun ret => by rw [hnext]; exact SendNext.noConfusion⟩
    · exact Or.inl ⟨hq, hs, fun ret => by rw [hnext]; simp⟩
    · exact Or.inr hplace
  · exact Or.inl ⟨rfl, rfl, fun ret => by simp⟩

def clear : ℕ → BeeQ α → BeeQ α
  | 0, q => q
  | n + 1, q => if q.isempty then q else clear n { q with toRingBuffer := q.pop.2 }

end BeeQ
end Sysak
