/-
# The connections of the server
-/

import Sysak.Beaver.LocalBeaver
import Sysak.Lib.Ledger

namespace Sysak.Beaver

open Lib List Option

abbrev Fd := ℕ

inductive Co where
  | reading
  | writing (alive : Bool)
  | dead
deriving DecidableEq, Repr

inductive FrameRes where
  | more
  | answer (alive : Bool)
  | nothing
  | raises

inductive RecvRes where
  | bytes (frame : FrameRes)
  | empty
  | fails

inductive Sent where
  | all
  | part
  | fails

structure Env where
  recv : RecvRes
  sent : Sent

inductive Resumed where
  | waits (co : Co)
  | exits
  | raises

def procWrite (alive : Bool) : Sent → Resumed
  | .all => if alive then .waits .reading else .exits
  | .part => .waits (.writing alive)
  | .fails => .raises

def resume (co : Co) (e : Event) (env : Env) : Resumed :=
  match co with
  | .reading =>
    if 0 < e.evClose then .exits
    else if 0 < e.evIn then
      match env.recv with
      | .bytes .more => .waits .reading
      | .bytes (.answer alive) => procWrite alive env.sent
      | .bytes .nothing => .exits
      | .bytes .raises => .raises
      | .empty => .exits
      | .fails => .raises
    else
      .exits
  -- `e.ev_out` is a number, which is never false
  | .writing alive => if 0 < e.evClose then .exits else procWrite alive env.sent
  | .dead => .raises

structure World where
  cos : Fd → Option Co
  tmos : Fd → Option ℤ
  last : ℤ
  epoll : Fd → Bool
  opened : Fd → Bool
  log : List (Act Fd)

def World.init (last : ℤ) : World :=
  ⟨fun _ => none, fun _ => none, last, fun _ => false, fun _ => false, []⟩

inductive PollError where
  | notSetup
  | resumeNil
  | raised
  | bindClosed
  | acceptFailed
  | addFailed
deriving DecidableEq, Repr

def installTmo (w : World) (fd : Fd) (now : ℤ) : World :=
  { w with tmos := Function.update w.tmos fd (some now) }

def delFd (w : World) (fd : Fd) : World :=
  { w with
    epoll := Function.update w.epoll fd false
    opened := Function.update w.opened fd false
    log := w.log ++ [.release fd] }

def coExit (w : World) (fd : Fd) : World :=
  { delFd w fd with
    cos := Function.update w.cos fd none
    tmos := Function.update w.tmos fd none }

def coAdd (w : World) (fd : Fd) : World :=
  { w with
    cos := Function.update w.cos fd (some .reading)
    epoll := Function.update w.epoll fd true
    opened := Function.update w.opened fd true
    log := w.log ++ [.acquire fd] }

def runCo (w : World) (fd : Fd) : Resumed → World
  | .waits co => { w with cos := Function.update w.cos fd (some co) }
  | .exits => coExit w fd
  | .raises => { w with cos := Function.update w.cos fd (some .dead) }

structure Entry where
  fd : Fd
  e : Event
  now : ℤ
  accepted : Option Fd
  taken : Bool
  env : Env

def accept (w : World) (en : Entry) : Except PollError World :=
  if 0 < en.e.evClose then .error .bindClosed
  else
    match en.accepted with
    | none => .error .acceptFailed
    | some nfd =>
      if en.taken then .ok (installTmo (coAdd w nfd) nfd en.now) else .error .addFailed

def pollEvent (bfd : Fd) (w : World) (en : Entry) : Except PollError World :=
  if en.fd = bfd then accept w en
  else
    match w.cos en.fd with
    | none => .error .notSetup
    | some co =>
      match resume co en.e en.env with
      | .raises => .error .raised
      | r => .ok (runCo (installTmo w en.fd en.now) en.fd r)

def pollEvents (bfd : Fd) : World → List Entry → Except PollError World
  | w, [] => .ok w
  | w, en :: ens => do
      let w' ← pollEvent bfd w en
      pollEvents bfd w' ens

def tmoEvent : Event := ⟨0, 0, 1⟩

def checkFd (now : ℤ) (tmos : Fd → Option ℤ) (env : Fd → Env) (w : World) (fd : Fd) :
    Except PollError World :=
  match tmos fd with
  | none => .ok w
  | some t =>
    if 10 * 60 ≤ now - t then
      match w.cos fd with
      | none => .error .resumeNil
      | some co => .ok (runCo w fd (resume co tmoEvent (env fd)))
    else
      .ok w

def checkFds (now : ℤ) (tmos : Fd → Option ℤ) (env : Fd → Env) :
    World → List Fd → Except PollError World
  | w, [] => .ok w
  | w, fd :: fds => do
      let w' ← checkFd now tmos env w fd
      checkFds now tmos env w' fds

structure Batch where
  entries : List Entry
  now : ℤ
  order : List Fd
  env : Fd → Env

def checkTmo (w : World) (b : Batch) : Except PollError World :=
  if 30 ≤ b.now - w.last then do
    let w' ← checkFds b.now w.tmos b.env w b.order
    return { w' with last := b.now }
  else
    .ok w

def pollFd (bfd : Fd) (w : World) (b : Batch) : Except PollError World := do
  let w' ← pollEvents bfd w b.entries
  checkTmo w' b

def del (w : World) (order : List Fd) : World := order.foldl delFd w

def Fresh (bfd : Fd) (w : World) (en : Entry) : Prop :=
  en.fd = bfd → ∀ nfd, en.accepted = some nfd → nfd ≠ bfd ∧ w.opened nfd = false

def AllFresh (bfd : Fd) : World → List Entry → Prop
  | _, [] => True
  | w, en :: ens =>
    Fresh bfd w en ∧ ∀ w', pollEvent bfd w en = .ok w' → AllFresh bfd w' ens

def Enumerates {α : Type*} (order : List Fd) (t : Fd → Option α) : Prop :=
  order.Nodup ∧ ∀ fd, fd ∈ order ↔ (t fd).isSome = true

structure Batch.Valid (bfd : Fd) (w : World) (b : Batch) : Prop where
  nodup : (b.entries.map Entry.fd).Nodup
  registered : ∀ en ∈ b.entries, en.fd = bfd ∨ w.epoll en.fd = true
  fresh : AllFresh bfd w b.entries
  order : ∀ w', pollEvents bfd w b.entries = .ok w' → Enumerates b.order w'.tmos

inductive Reachable (bfd : Fd) : World → Prop
  | init (last : ℤ) : Reachable bfd (World.init last)
  | poll {w w' : World} {b : Batch} : Reachable bfd w → b.Valid bfd w → pollFd bfd w b = .ok w' →
      Reachable bfd w'

structure Consistent (w : World) : Prop where
  cos : ∀ fd, (w.cos fd).isSome = w.epoll fd
  tmos : ∀ fd, (w.tmos fd).isSome = w.epoll fd
  opened : ∀ fd, w.opened fd = w.epoll fd
  log : ∀ fd, held w.log fd = some (w.epoll fd)

section Table

variable {α : Type*} {t : Fd → Option α} {f : Fd → Bool} (h : ∀ fd, (t fd).isSome = f fd)

include h

theorem isSome_add (fd : Fd) (v : α) (fd' : Fd) :
    (Function.update t fd (some v) fd').isSome = Function.update f fd true fd' := by
  rw [Function.update_apply, Function.update_apply]
  split_ifs
  · rfl
  · exact h fd'

theorem isSome_remove (fd fd' : Fd) :
    (Function.update t fd none fd').isSome = Function.update f fd false fd' := by
  rw [Function.update_apply, Function.update_apply]
  split_ifs
  · rfl
  · exact h fd'

theorem isSome_put {fd : Fd} (hfd : f fd = true) (v : α) (fd' : Fd) :
    (Function.update t fd (some v) fd').isSome = f fd' := by
  rw [isSome_add h, ← hfd, Function.update_eq_self]

end Table

namespace Consistent

variable {w : World} {fd : Fd}

theorem init (last : ℤ) : Consistent (World.init last) where
  cos _ := rfl
  tmos _ := rfl
  opened _ := rfl
  log _ := rfl

theorem installTmo (h : Consistent w) (hfd : w.epoll fd = true) (now : ℤ) :
    Consistent (installTmo w fd now) where
  cos := h.cos
  tmos := isSome_put h.tmos hfd now
  opened := h.opened
  log := h.log

theorem setCo (h : Consistent w) (hfd : w.epoll fd = true) (co : Co) :
    Consistent { w with cos := Function.update w.cos fd (some co) } where
  cos := isSome_put h.cos hfd co
  tmos := h.tmos
  opened := h.opened
  log := h.log

theorem coExit (h : Consistent w) (hfd : w.epoll fd = true) : Consistent (coExit w fd) where
  cos := isSome_remove h.cos fd
  tmos := isSome_remove h.tmos fd
  opened fd' := by simp only [Beaver.coExit, delFd, funext h.opened]
  log := held_release h.log hfd

theorem accepted (h : Consistent w) (hfd : w.epoll fd = false) (now : ℤ) :
    Consistent (Beaver.installTmo (coAdd w fd) fd now) where
  cos := isSome_add h.cos fd .reading
  tmos := isSome_add h.tmos fd now
  opened fd' := by simp only [Beaver.installTmo, coAdd, funext h.opened]
  log := held_acquire h.log hfd

theorem runCo (h : Consistent w) (hfd : w.epoll fd = true) (r : Resumed) :
    Consistent (runCo w fd r) := by
  cases r with
  | waits co => exact h.setCo hfd co
  | exits => exact h.coExit hfd
  | raises => exact h.setCo hfd .dead

end Consistent

theorem epoll_runCo (w : World) {fd fd' : Fd} (hne : fd' ≠ fd) (r : Resumed) :
    (runCo w fd r).epoll fd' = w.epoll fd' := by
  cases r with
  | exits => exact Function.update_of_ne hne false w.epoll
  | waits co => rfl
  | raises => rfl

def Ends (r : Except PollError World) (P : World → Prop) : Prop :=
  match r with
  | .error err => err ≠ .notSetup ∧ err ≠ .resumeNil
  | .ok w => P w

theorem Ends.bind {r : Except PollError World} {P Q : World → Prop} (h : Ends r P)
    {f : World → Except PollError World} (hf : ∀ w, r = .ok w → P w → Ends (f w) Q) :
    Ends (r >>= f) Q := by
  cases r with
  | error err => exact h
  | ok w => exact hf w rfl h

variable {bfd : Fd} {w : World}

theorem pollEvent_ends {en : Entry} (h : Consistent w) (hfresh : Fresh bfd w en)
    (hreg : en.fd = bfd ∨ w.epoll en.fd = true) :
    Ends (pollEvent bfd w en) fun w' =>
      Consistent w' ∧ ∀ fd, fd ≠ en.fd → w.epoll fd = true → w'.epoll fd = true := by
  rw [pollEvent]
  split_ifs with hbfd
  · rw [accept]
    by_cases hclose : 0 < en.e.evClose
    · rw [if_pos hclose]
      exact ⟨by simp, by simp⟩
    rw [if_neg hclose]
    cases hacc : en.accepted with
    | none => exact ⟨by simp, by simp⟩
    | some nfd =>
      have hnew : w.epoll nfd = false := by
        rw [← h.opened]
        exact (hfresh hbfd nfd hacc).2
      cases en.taken with
      | false => exact ⟨by simp, by simp⟩
      | true =>
        refine ⟨h.accepted hnew en.now, fun fd _ hfd => ?_⟩
        rcases eq_or_ne fd nfd with rfl | hne
        · exact Function.update_self fd true w.epoll
        · exact (Function.update_of_ne hne true w.epoll).trans hfd
  · have hepoll := hreg.resolve_left hbfd
    obtain ⟨co, hco⟩ : ∃ co, w.cos en.fd = some co := by
      rw [← isSome_iff_exists, h.cos, hepoll]
    have hrun : ∀ r, Consistent (runCo (installTmo w en.fd en.now) en.fd r) ∧
        ∀ fd, fd ≠ en.fd → w.epoll fd = true →
          (runCo (installTmo w en.fd en.now) en.fd r).epoll fd = true := by
      intro r
      refine ⟨(h.installTmo hepoll en.now).runCo hepoll r, fun fd hne hfd => ?_⟩
      rw [epoll_runCo _ hne]
      exact hfd
    rw [hco]
    simp only
    cases resume co en.e en.env with
    | raises => exact ⟨by simp, by simp⟩
    | waits co' => exact hrun (.waits co')
    | exits => exact hrun .exits

theorem pollEvents_ends {ens : List Entry} : ∀ {w : World}, Consistent w →
    AllFresh bfd w ens → (ens.map Entry.fd).Nodup →
    (∀ en ∈ ens, en.fd = bfd ∨ w.epoll en.fd = true) →
    Ends (pollEvents bfd w ens) Consistent := by
  induction ens with
  | nil => exact fun h _ _ _ => h
  | cons en ens ih =>
    intro w h hfresh hnodup hreg
    obtain ⟨hen, hnodup⟩ := nodup_cons.mp hnodup
    obtain ⟨hreg₁, hreg⟩ := forall_mem_cons.mp hreg
    rw [pollEvents]
    refine (pollEvent_ends h hfresh.1 hreg₁).bind fun w' hw' ⟨h', hkeep⟩ => ?_
    refine ih h' (hfresh.2 w' hw') hnodup fun en' hen' => (hreg en' hen').imp_right ?_
    refine hkeep en'.fd ?_
    rintro heq
    exact hen (heq ▸ mem_map_of_mem hen')

theorem checkFd_ends {now : ℤ} {tmos : Fd → Option ℤ} {env : Fd → Env} {fd : Fd} (h : Consistent w)
    (hreg : w.epoll fd = true) :
    Ends (checkFd now tmos env w fd) fun w' =>
      Consistent w' ∧ ∀ fd', fd' ≠ fd → w'.epoll fd' = w.epoll fd' := by
  obtain ⟨co, hco⟩ : ∃ co, w.cos fd = some co := by
    rw [← isSome_iff_exists, h.cos, hreg]
  rw [checkFd]
  cases tmos fd with
  | none => exact ⟨h, fun _ _ => rfl⟩
  | some t =>
    simp only [hco]
    split_ifs
    · exact ⟨h.runCo hreg _, fun fd' hne => epoll_runCo w hne _⟩
    · exact ⟨h, fun _ _ => rfl⟩

theorem checkFds_ends {now : ℤ} {tmos : Fd → Option ℤ} {env : Fd → Env} {fds : List Fd} :
    ∀ {w : World}, Consistent w → fds.Nodup → (∀ fd ∈ fds, w.epoll fd = true) →
      Ends (checkFds now tmos env w fds) Consistent := by
  induction fds with
  | nil => exact fun h _ _ => h
  | cons fd fds ih =>
    intro w h hnodup hreg
    obtain ⟨hfd, hnodup⟩ := nodup_cons.mp hnodup
    obtain ⟨hreg₁, hreg⟩ := forall_mem_cons.mp hreg
    rw [checkFds]
    refine (checkFd_ends h hreg₁).bind fun w' _ ⟨h', hkeep⟩ => ?_
    refine ih h' hnodup fun fd' hfd' => ?_
    rw [hkeep fd' fun heq => hfd (heq ▸ hfd')]
    exact hreg fd' hfd'

theorem checkTmo_ends {b : Batch} (h : Consistent w) (horder : Enumerates b.order w.tmos) :
    Ends (checkTmo w b) Consistent := by
  have hreg : ∀ fd ∈ b.order, w.epoll fd = true := by
    intro fd hfd
    rw [← h.tmos]
    exact (horder.2 fd).mp hfd
  rw [checkTmo]
  split_ifs
  · refine (checkFds_ends h horder.1 hreg).bind fun w' _ h' => ?_
    exact ⟨h'.cos, h'.tmos, h'.opened, h'.log⟩
  · exact h

theorem pollFd_ends {b : Batch} (h : Consistent w) (hb : b.Valid bfd w) :
    Ends (pollFd bfd w b) Consistent := by
  rw [pollFd]
  refine (pollEvents_ends h hb.fresh hb.nodup hb.registered).bind fun w' hw' h' => ?_
  exact checkTmo_ends h' (hb.order w' hw')

theorem Reachable.consistent (h : Reachable bfd w) : Consistent w := by
  induction h with
  | init last => exact Consistent.init last
  | poll _ hb hpoll ih =>
    have hends := pollFd_ends ih hb
    rw [hpoll] at hends
    exact hends

theorem held_del {order : List Fd} : ∀ {w : World}, (∀ fd, held w.log fd = some (w.epoll fd)) →
    order.Nodup → (∀ fd, fd ∈ order ↔ w.epoll fd = true) →
    ∀ fd, held (del w order).log fd = some false := by
  induction order with
  | nil =>
    intro w h _ hreg fd
    rw [del, foldl_nil, h]
    congr 1
    exact Bool.eq_false_iff.mpr fun hfd => absurd ((hreg fd).mpr hfd) not_mem_nil
  | cons fd₀ order ih =>
    intro w h hnodup hreg
    obtain ⟨hfd₀, hnodup⟩ := nodup_cons.mp hnodup
    have hreg₀ : w.epoll fd₀ = true := (hreg fd₀).mp mem_cons_self
    refine @ih (delFd w fd₀) (held_release h hreg₀) hnodup fun fd => ?_
    rw [delFd]
    simp only
    rw [Function.update_apply]
    split_ifs with heq
    · simp [heq, hfd₀]
    · rw [← hreg fd, mem_cons]
      simp [heq]

theorem reachable_consistent {bfd : Fd} {w : World} (h : Reachable bfd w) :
    (∀ fd, (w.cos fd).isSome = w.epoll fd ∧ (w.tmos fd).isSome = w.epoll fd) ∧
    (∀ fd, held w.log fd = some (w.epoll fd) ∧
      w.log.count (.acquire fd) = w.log.count (.release fd) + (w.epoll fd).toNat) ∧
    (∀ order, Enumerates order w.cos → ∀ fd, held (del w order).log fd = some false ∧
      (del w order).log.count (.acquire fd) = (del w order).log.count (.release fd)) ∧
    ∀ b : Batch, b.Valid bfd w →
      pollFd bfd w b ≠ .error .notSetup ∧ pollFd bfd w b ≠ .error .resumeNil := by
  have hw := h.consistent
  refine ⟨fun fd => ⟨hw.cos fd, hw.tmos fd⟩,
    fun fd => ⟨hw.log fd, count_acquire_eq (hw.log fd)⟩, ?_, ?_⟩
  · intro order horder fd
    have hreg : ∀ fd, fd ∈ order ↔ w.epoll fd = true := by
      intro fd
      rw [horder.2, hw.cos]
    have hdel := held_del hw.log horder.1 hreg fd
    exact ⟨hdel, count_acquire_eq hdel⟩
  · intro b hb
    have hends := pollFd_ends hw hb
    cases hpoll : pollFd bfd w b with
    | ok w' => exact ⟨by simp, by simp⟩
    | error err =>
      rw [hpoll] at hends
      refine ⟨?_, ?_⟩
      · rintro heq
        exact hends.1 (Except.error.inj heq)
      · rintro heq
        exact hends.2 (Except.error.inj heq)

def comes : Batch where
  entries := [⟨3, ⟨1, 0, 0⟩, 0, some 5, true, ⟨.empty, .all⟩⟩]
  now := 0
  order := [5]
  env _ := ⟨.empty, .all⟩

def timesOut : Batch where
  entries := []
  now := 600
  order := [5]
  env _ := ⟨.empty, .all⟩

theorem enumerates_five : Enumerates [5] (installTmo (coAdd (World.init 0) 5) 5 0).tmos := by
  refine ⟨by decide, fun fd => ?_⟩
  rw [installTmo]
  simp only
  rw [Function.update_apply]
  split_ifs with heq
  · simp [heq]
  · simp [heq, coAdd, World.init]

theorem comes_valid : comes.Valid 3 (World.init 0) where
  nodup := by decide
  registered en hen := .inl (by rw [mem_singleton.mp hen])
  fresh := by
    refine ⟨fun _ nfd hnfd => ?_, fun _ _ => trivial⟩
    obtain rfl : 5 = nfd := some.inj hnfd
    exact ⟨by decide, rfl⟩
  order w' hw' := by
    obtain rfl := Except.ok.inj hw'
    exact enumerates_five

theorem timesOut_valid : timesOut.Valid 3 (installTmo (coAdd (World.init 0) 5) 5 0) where
  nodup := by decide
  registered en hen := absurd hen not_mem_nil
  fresh := trivial
  order w' hw' := by
    obtain rfl := Except.ok.inj hw'
    exact enumerates_five

theorem reachable_consistent_timesOut :
    Reachable 3 { coExit (installTmo (coAdd (World.init 0) 5) 5 0) 5 with last := 600 } ∧
    held (coExit (installTmo (coAdd (World.init 0) 5) 5 0) 5).log 5 = some false := by
  have h : Reachable 3 { coExit (installTmo (coAdd (World.init 0) 5) 5 0) 5 with last := 600 } :=
    .poll (.poll (.init 0) comes_valid rfl) timesOut_valid rfl
  exact ⟨h, ((reachable_consistent h).2.1 5).1⟩

end Sysak.Beaver
