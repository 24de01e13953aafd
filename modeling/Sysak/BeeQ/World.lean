/-
# The threads of a queue

The creator calls `beeQ_init` and later `beeQ_stop`; the receiver runs `beeQ_proc`; the others are
senders, those of `beeQ_send_thread` registered.  A step is a critical section of one thread, or
what it does without the mutex.  Before `beeQ_init` has returned only the creator can be waiting,
and afterwards only the receiver, so no signal has a choice.  The receiver has the id 1, sender `t`
the id `t + 2`.  The world also records the ids that registered, the arguments of `pthread_join`,
and the messages sent and handed over.
-/

import Mathlib.Logic.Function.Basic
import Mathlib.Logic.Relation
import Sysak.BeeQ.Basic

namespace Sysak.BeeQ

open Lib

inductive CreatorPc where
  | created
  | waiting
  | woken
  | returned
  | scanning (i : ℕ)
  | joining (i tid : ℕ)
  | inJoin (i arg : ℕ)
  | joined
  | freed
  deriving DecidableEq, Repr

def CreatorPc.usable : CreatorPc → Bool
  | .created | .waiting | .woken | .freed => false
  | .returned | .scanning _ | .joining _ _ | .inJoin _ _ | .joined => true

inductive RecvPc (α : Type*) where
  | start
  | registered
  | ready
  | waiting
  | woken
  | calling (msg : Option α)
  | leaving
  | done
  deriving DecidableEq, Repr

inductive SenderPc (α : Type*) where
  | absent
  | created
  | running
  | sending (msg : α)
  | retrying (msg : α) (loop : ℕ)
  | returned (msg : α) (ret : ℤ) (fate : Fate)
  | done
  deriving DecidableEq, Repr

def CreatorPc.signalled : CreatorPc → CreatorPc
  | .waiting => .woken
  | pc => pc

def RecvPc.signalled {α : Type*} : RecvPc α → RecvPc α
  | .waiting => .woken
  | pc => pc

def SendNext.pc {α : Type*} (msg : α) : SendNext → SenderPc α
  | .retry loop => .retrying msg loop
  | .ret res fate => .returned msg res fate

structure World (α : Type*) where
  q : BeeQ α
  init : Option ℤ
  creator : CreatorPc
  recv : RecvPc α
  senders : ℕ → SenderPc α
  regs : List ℕ
  joins : List ℕ
  sent : List α
  handed : List (Option α)

inductive SenderOp (α : Type*) where
  | spawn
  | enter
  | register
  | call (msg : α)
  | look
  | resume
  | exit

inductive Op (α : Type*) where
  | creator
  | stop
  | recv
  | wakeup
  | sender (t : ℕ) (op : SenderOp α)

def recvTid : ℕ := 1

def senderTid (t : ℕ) : ℕ := t + 2

namespace World

variable {α : Type*}

def start (α : Type*) (size : ℕ) (init : Option ℤ) : World α where
  q := fresh α size
  init := init
  creator := .created
  recv := .start
  senders := fun _ => .absent
  regs := []
  joins := []
  sent := []
  handed := []

def initOk (w : World α) : Bool :=
  match w.init with
  | none => true
  | some res => !decide (res < 0)

def ended (w : World α) : ℕ → Bool
  | 0 => false
  | 1 => match w.recv with
    | .done => true
    | _ => false
  | t + 2 => match w.senders t with
    | .done => true
    | _ => false

def setSender (w : World α) (t : ℕ) (pc : SenderPc α) : World α :=
  { w with senders := Function.update w.senders t pc }

def take (w : World α) : World α :=
  if w.q.isempty then
    { w with recv := if w.q.stop then .leaving else .waiting }
  else
    { w with
      recv := .calling w.q.pop.1
      q := { w.q with toRingBuffer := w.q.pop.2 }
      handed := w.handed ++ [w.q.pop.1] }

def recvStep (w : World α) : Option (World α) :=
  match w.recv with
  | .start =>
    let (res, q) := w.q.register recvTid
    if res ≠ 0 then some { w with recv := .done }
    else some { w with recv := .registered, q := q, regs := w.regs ++ [recvTid] }
  | .registered => some { w with recv := if w.initOk then .ready else .leaving }
  | .ready =>
    some { w with
      creator := w.creator.signalled
      recv := if w.q.stop then .leaving else .waiting }
  | .waiting => none
  | .woken => some w.take
  | .calling _ => some w.take
  | .leaving => some { w with recv := .done, q := w.q.threadExit recvTid }
  | .done => none

def creatorStep (w : World α) : Option (World α) :=
  match w.creator with
  | .created => some { w with creator := .waiting }
  | .waiting => none
  | .woken => some { w with creator := .returned }
  | .returned => none
  | .scanning i =>
    match w.q.nextTid i with
    | some j => some { w with creator := .joining j (w.q.tids.getD j 0) }
    | none => some { w with creator := .joined }
  | .joining i _ =>
    -- the slot is read again, without the mutex
    let arg := w.q.tids.getD i 0
    some { w with creator := .inJoin i arg, joins := w.joins ++ [arg] }
  | .inJoin i arg =>
    -- nothing is known of `pthread_join(0)`; it returns here
    if arg = 0 ∨ w.ended arg then some { w with creator := .scanning (i + 1) } else none
  | .joined => some { w with creator := .freed, q := w.q.clear w.q.size }
  | .freed => none

def stopStep (w : World α) : Option (World α) :=
  match w.creator with
  | .returned =>
    some { w with
      creator := .scanning 0
      recv := if w.q.isempty then w.recv.signalled else w.recv
      q := { w.q with stop := true } }
  | _ => none

def looked (w : World α) (t : ℕ) (msg : α) (l : Look α) : World α :=
  { w with
    q := l.q
    recv := if l.signal then w.recv.signalled else w.recv
    senders := Function.update w.senders t (l.next.pc msg)
    sent := match l.next with
      | .ret _ .placed => w.sent ++ [msg]
      | _ => w.sent }

def Looks (w : World α) (t : ℕ) (msg : α) (l : Look α) : Prop :=
  (w.senders t = .sending msg ∧ l = w.q.sendEnter msg) ∨
    ∃ loop, w.senders t = .retrying msg loop ∧ l = w.q.sendLook loop msg

theorem Looks.isLook {w : World α} {t : ℕ} {msg : α} {l : Look α} (h : w.Looks t msg l) :
    w.q.IsLook msg l := by
  rcases h with ⟨-, hl⟩ | ⟨loop, -, hl⟩
  · exact Or.inl hl
  · exact Or.inr ⟨loop, hl⟩

def senderStep (w : World α) (t : ℕ) (op : SenderOp α) : Option (World α) :=
  match op, w.senders t with
  | .spawn, .absent => some (if w.q.stop then w else w.setSender t .created)
  | .enter, .absent => some (w.setSender t .running)
  | .register, .created =>
    let (res, q) := w.q.register (senderTid t)
    if res ≠ 0 then some (w.setSender t .done)
    else some { w.setSender t .running with q := q, regs := w.regs ++ [senderTid t] }
  | .call msg, .running => some (w.setSender t (.sending msg))
  | .look, .sending msg => some (w.looked t msg (w.q.sendEnter msg))
  | .look, .retrying msg loop => some (w.looked t msg (w.q.sendLook loop msg))
  | .resume, .returned _ _ _ => some (w.setSender t .running)
  | .exit, .running =>
    if senderTid t ∈ w.regs then
      some { w.setSender t .done with q := w.q.threadExit (senderTid t) }
    else
      some (w.setSender t .done)
  | _, _ => none

def step (w : World α) : Op α → Option (World α)
  | .creator => w.creatorStep
  | .stop => w.stopStep
  | .recv => if w.creator = .freed then none else w.recvStep
  | .wakeup => match w.recv with
    | .waiting => some { w with recv := .woken }
    | _ => none
  | .sender t op => if w.creator.usable then w.senderStep t op else none

inductive Step (w : World α) : World α → Prop
  | creatorWait : w.creator = .created → Step w { w with creator := .waiting }
  | creatorReturn : w.creator = .woken → Step w { w with creator := .returned }
  | stop : w.creator = .returned → Step w { w with
      creator := .scanning 0
      recv := if w.q.isempty then w.recv.signalled else w.recv
      q := { w.q with stop := true } }
  | scan (i j : ℕ) : w.creator = .scanning i → w.q.nextTid i = some j →
      Step w { w with creator := .joining j (w.q.tids.getD j 0) }
  | scanEnd (i : ℕ) : w.creator = .scanning i → w.q.nextTid i = none →
      Step w { w with creator := .joined }
  | join (i tid : ℕ) : w.creator = .joining i tid → Step w { w with
      creator := .inJoin i (w.q.tids.getD i 0)
      joins := w.joins ++ [w.q.tids.getD i 0] }
  | joinEnd (i arg : ℕ) : w.creator = .inJoin i arg → arg = 0 ∨ w.ended arg = true →
      Step w { w with creator := .scanning (i + 1) }
  | free : w.creator = .joined → Step w { w with creator := .freed, q := w.q.clear w.q.size }
  | recvRefused : w.creator ≠ .freed → w.recv = .start →
      w.q.stop = true ∨ beeqTids ≤ w.q.tidCount → Step w { w with recv := .done }
  | recvRegister : w.creator ≠ .freed → w.recv = .start → w.q.stop = false →
      w.q.tidCount < beeqTids → Step w { w with
        recv := .registered
        q := w.q.enrol recvTid
        regs := w.regs ++ [recvTid] }
  | recvInit : w.creator ≠ .freed → w.recv = .registered →
      Step w { w with recv := if w.initOk then .ready else .leaving }
  | recvReady : w.creator ≠ .freed → w.recv = .ready → Step w { w with
      creator := w.creator.signalled
      recv := if w.q.stop then .leaving else .waiting }
  | recvEmpty : w.creator ≠ .freed → w.recv = .woken ∨ (∃ m, w.recv = .calling m) →
      w.q.isempty = true → Step w { w with recv := if w.q.stop then .leaving else .waiting }
  | recvTake : w.creator ≠ .freed → w.recv = .woken ∨ (∃ m, w.recv = .calling m) →
      w.q.isempty = false → Step w { w with
        recv := .calling w.q.pop.1
        q := { w.q with toRingBuffer := w.q.pop.2 }
        handed := w.handed ++ [w.q.pop.1] }
  | recvExit : w.creator ≠ .freed → w.recv = .leaving →
      Step w { w with recv := .done, q := w.q.threadExit recvTid }
  | wakeup : w.recv = .waiting → Step w { w with recv := .woken }
  | spawnRefused : Step w w
  | spawn (t : ℕ) : w.creator.usable = true → w.senders t = .absent →
      Step w (w.setSender t .created)
  | enter (t : ℕ) : w.creator.usable = true → w.senders t = .absent →
      Step w (w.setSender t .running)
  | refused (t : ℕ) : w.creator.usable = true → w.senders t = .created →
      Step w (w.setSender t .done)
  | register (t : ℕ) : w.creator.usable = true → w.senders t = .created → w.q.stop = false →
      w.q.tidCount < beeqTids → Step w { w.setSender t .running with
        q := w.q.enrol (senderTid t)
        regs := w.regs ++ [senderTid t] }
  | call (t : ℕ) (m : α) : w.creator.usable = true → w.senders t = .running →
      Step w (w.setSender t (.sending m))
  | look (t : ℕ) (m : α) (l : Look α) : w.creator.usable = true →
      w.Looks t m l → Step w (w.looked t m l)
  | resume (t : ℕ) (m : α) (ret : ℤ) (fate : Fate) : w.creator.usable = true →
      w.senders t = .returned m ret fate → Step w (w.setSender t .running)
  | exit (t : ℕ) : w.creator.usable = true → w.senders t = .running → senderTid t ∈ w.regs →
      Step w { w.setSender t .done with q := w.q.threadExit (senderTid t) }
  | leave (t : ℕ) : w.creator.usable = true → w.senders t = .running → senderTid t ∉ w.regs →
      Step w (w.setSender t .done)

theorem register_cases (q : BeeQ α) (tid : ℕ) :
    (q.register tid = (-ENOENT, q) ∧ (q.stop = true ∨ beeqTids ≤ q.tidCount)) ∨
      (q.register tid = (0, q.enrol tid) ∧ q.stop = false ∧ q.tidCount < beeqTids) := by
  rw [BeeQ.register]
  by_cases hq : q.stop = true ∨ beeqTids ≤ q.tidCount
  · rw [if_pos hq]
    exact Or.inl ⟨rfl, hq⟩
  · rw [if_neg hq]
    push Not at hq
    exact Or.inr ⟨rfl, Bool.not_eq_true _ ▸ hq.1, hq.2⟩

theorem take_cases {w : World α} (hc : w.creator ≠ .freed)
    (h : w.recv = .woken ∨ ∃ m, w.recv = .calling m) : w.Step w.take := by
  rw [take]
  split_ifs with hempty hstop
  · simpa [hstop] using Step.recvEmpty hc h hempty
  · simpa [hstop] using Step.recvEmpty hc h hempty
  · exact .recvTake hc h (Bool.not_eq_true _ ▸ hempty)

variable {w w' : World α}

theorem recvStep_cases (hc : w.creator ≠ .freed) (h : w.recvStep = some w') : w.Step w' := by
  rw [recvStep] at h
  split at h
  · rename_i hpc
    rcases register_cases w.q recvTid with ⟨hres, hq⟩ | ⟨hres, hstop, hcount⟩
    · rw [hres] at h
      cases h
      exact .recvRefused hc hpc hq
    · rw [hres] at h
      cases h
      exact .recvRegister hc hpc hstop hcount
  · rename_i hpc
    cases h
    exact .recvInit hc hpc
  · rename_i hpc
    cases h
    exact .recvReady hc hpc
  · cases h
  · rename_i hpc
    cases h
    exact take_cases hc (Or.inl hpc)
  · rename_i m hpc
    cases h
    exact take_cases hc (Or.inr ⟨m, hpc⟩)
  · rename_i hpc
    cases h
    exact .recvExit hc hpc
  · cases h

theorem creatorStep_cases (h : w.creatorStep = some w') : w.Step w' := by
  rw [creatorStep] at h
  split at h
  · rename_i hpc
    cases h
    exact .creatorWait hpc
  · cases h
  · rename_i hpc
    cases h
    exact .creatorReturn hpc
  · cases h
  · rename_i i hpc
    split at h
    · rename_i j hj
      cases h
      exact .scan i j hpc hj
    · rename_i hj
      cases h
      exact .scanEnd i hpc hj
  · rename_i i tid hpc
    cases h
    exact .join i tid hpc
  · rename_i i arg hpc
    split_ifs at h with harg
    cases h
    exact .joinEnd i arg hpc harg
  · rename_i hpc
    cases h
    exact .free hpc
  · cases h

theorem senderStep_cases {t : ℕ} {op : SenderOp α} (hu : w.creator.usable = true)
    (h : w.senderStep t op = some w') : w.Step w' := by
  unfold senderStep at h
  split at h
  · rename_i hpc
    split_ifs at h
    · cases h
      exact .spawnRefused
    · cases h
      exact .spawn t hu hpc
  · rename_i hpc
    cases h
    exact .enter t hu hpc
  · rename_i hpc
    rcases register_cases w.q (senderTid t) with ⟨hres, -⟩ | ⟨hres, hstop, hcount⟩
    · rw [hres] at h
      cases h
      exact .refused t hu hpc
    · rw [hres] at h
      cases h
      exact .register t hu hpc hstop hcount
  · rename_i m hpc
    cases h
    exact .call t m hu hpc
  · rename_i m hpc
    cases h
    exact .look t m _ hu (Or.inl ⟨hpc, rfl⟩)
  · rename_i m loop hpc
    cases h
    exact .look t m _ hu (Or.inr ⟨loop, hpc, rfl⟩)
  · rename_i m ret fate hpc
    cases h
    exact .resume t m ret fate hu hpc
  · rename_i hpc
    split_ifs at h with hreg
    · cases h
      exact .exit t hu hpc hreg
    · cases h
      exact .leave t hu hpc hreg
  · cases h

theorem step_cases {op : Op α} (h : w.step op = some w') : w.Step w' := by
  cases op with
  | creator => exact creatorStep_cases h
  | stop =>
    rw [step, stopStep] at h
    split at h
    · rename_i hpc
      cases h
      exact .stop hpc
    · cases h
  | recv =>
    rw [step] at h
    split_ifs at h with hc
    exact recvStep_cases hc h
  | wakeup =>
    rw [step] at h
    split at h
    · rename_i hpc
      cases h
      exact .wakeup hpc
    · cases h
  | sender t op =>
    rw [step] at h
    split_ifs at h with hu
    exact senderStep_cases hu h

def Reaches : World α → World α → Prop :=
  Relation.ReflTransGen fun w w' => ∃ op, w.step op = some w'

theorem Reaches.keeps {P : World α → Prop} (hstep : ∀ {w w' : World α}, w.Step w' → P w → P w')
    (h : w.Reaches w') (hw : P w) : P w' := by
  induction h with
  | refl => exact hw
  | tail _ hlast ih =>
    obtain ⟨op, hop⟩ := hlast
    exact hstep (step_cases hop) ih

def run (w : World α) : List (Op α) → Option (World α)
  | [] => some w
  | op :: ops => (w.step op).bind fun w' => w'.run ops

theorem reaches_of_run (ops : List (Op α)) : ∀ {w w' : World α}, w.run ops = some w' →
    w.Reaches w' := by
  induction ops with
  | nil =>
    intro w w' h
    cases h
    exact .refl
  | cons op ops ih =>
    intro w w' h
    obtain ⟨w₁, hstep, hrun⟩ := Option.bind_eq_some_iff.mp h
    exact .head ⟨op, hstep⟩ (ih hrun)

end World
end Sysak.BeeQ
