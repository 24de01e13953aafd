/-
# Signals and waits
-/

import Sysak.BeeQ.World

namespace Sysak.BeeQ

def CreatorPc.early : CreatorPc → Bool
  | .created | .waiting | .woken => true
  | _ => false

def CreatorPc.unsignalled : CreatorPc → Bool
  | .created | .waiting => true
  | _ => false

def RecvPc.early {α : Type*} : RecvPc α → Bool
  | .start | .registered | .ready => true
  | _ => false

namespace World

variable {α : Type*} {w w' : World α}

structure Awake (w : World α) : Prop where
  idle : w.recv = .waiting → w.q.isempty = true ∧ w.q.stop = false
  unused : w.creator.early = true → w.q.isempty = true ∧ w.q.stop = false
  order : w.recv.early = true → w.creator.unsignalled = true
  alone : w.recv = .start → w.q.tidCount = 0
  ready : w.recv = .ready → w.initOk = true

theorem awake_start (size : ℕ) (init : Option ℤ) : (start α size init).Awake where
  idle := fun h => by cases h
  unused := fun _ => ⟨rfl, rfl⟩
  order := fun _ => rfl
  alone := fun _ => rfl
  ready := fun h => by cases h

variable {pc : CreatorPc}

theorem early_of_unsignalled (h : pc.unsignalled = true) : pc.early = true := by
  cases pc <;> first | rfl | cases h

theorem not_early_of_usable (h : pc.usable = true) : pc.early = false ∧ pc.unsignalled = false := by
  cases pc <;> first | exact ⟨rfl, rfl⟩ | cases h

theorem signalled_ne_waiting (pc : RecvPc α) : pc.signalled ≠ .waiting := by
  cases pc <;> simp [RecvPc.signalled]

theorem early_signalled (pc : RecvPc α) : pc.signalled.early = pc.early := by
  cases pc <;> rfl

theorem Awake.of_recv_eq (h : w.Awake) (hrecv : w'.recv = w.recv) (hinit : w'.init = w.init)
    (hq : w'.q.toRingBuffer = w.q.toRingBuffer ∧ w'.q.stop = w.q.stop ∧
      w'.q.tidCount = w.q.tidCount)
    (hearly : w'.creator.early = true → w.creator.early = true)
    (hsig : w.creator.unsignalled = true → w'.creator.unsignalled = true) : w'.Awake := by
  obtain ⟨hring, hstop, hcount⟩ := hq
  have hempty : w'.q.isempty = w.q.isempty := congrArg Lib.RingBuffer.isempty hring
  constructor
  · intro hpc
    rw [hempty, hstop]
    exact h.idle (hrecv ▸ hpc)
  · intro hc
    rw [hempty, hstop]
    exact h.unused (hearly hc)
  · intro hpc
    exact hsig (h.order (hrecv ▸ hpc))
  · intro hpc
    rw [hcount]
    exact h.alone (hrecv ▸ hpc)
  · intro hpc
    rw [initOk, hinit]
    exact h.ready (hrecv ▸ hpc)

theorem Awake.of_late (hrecv : w'.recv.early = false)
    (hidle : w'.recv = .waiting → w'.q.isempty = true ∧ w'.q.stop = false)
    (hunused : w'.creator.early = true → w'.q.isempty = true ∧ w'.q.stop = false) : w'.Awake where
  idle := hidle
  unused := hunused
  order := fun h => absurd h (by rw [hrecv]; decide)
  alone := fun h => by rw [h] at hrecv; cases hrecv
  ready := fun h => by rw [h] at hrecv; cases hrecv

theorem Awake.late (h : w.Awake) (hc : w.creator.unsignalled = false) : w.recv.early = false := by
  by_contra hne
  rw [h.order (by simpa using hne)] at hc
  cases hc

theorem Awake.of_creator (h : w.Awake) (hsig : w.creator.unsignalled = false)
    (hpc : pc.early = false) (joins : List ℕ) : { w with creator := pc, joins := joins }.Awake :=
  .of_late (h.late hsig) h.idle fun hearly => by
    rw [show pc.early = true from hearly] at hpc
    cases hpc

theorem Awake.of_signal (h : w.Awake) (hsig : w.creator.unsignalled = false)
    (hearly : w'.creator.early = false) {signal : Bool}
    (hrecv : w'.recv = if signal then w.recv.signalled else w.recv)
    (hidle : signal = false → w.recv = .waiting → w'.q.isempty = true ∧ w'.q.stop = false) :
    w'.Awake := by
  have hlate := h.late hsig
  have hunused : w'.creator.early = true → w'.q.isempty = true ∧ w'.q.stop = false := by
    intro hc
    rw [hearly] at hc
    cases hc
  cases signal with
  | true =>
    refine .of_late (by rw [hrecv]; exact (early_signalled _).trans hlate) (fun hpc => ?_) hunused
    exact absurd (hrecv.symm.trans hpc) (signalled_ne_waiting _)
  | false =>
    refine .of_late (by rw [hrecv]; exact hlate) (fun hpc => ?_) hunused
    exact hidle rfl (hrecv.symm.trans hpc)

theorem Awake.look (h : w.Awake) (hu : w.creator.usable = true) {t : ℕ} {m : α} {l : Look α}
    (hl : w.q.IsLook m l) : (w.looked t m l).Awake := by
  obtain ⟨hearly, hsig⟩ := not_early_of_usable hu
  refine h.of_signal hsig hearly rfl fun hs hpc => ?_
  rcases hl.cases with ⟨hq, -⟩ | ⟨-, rfl⟩
  · show l.q.isempty = true ∧ l.q.stop = false
    rw [hq]
    exact h.idle hpc
  · have hne : w.q.isempty = false := hs
    rw [(h.idle hpc).1] at hne
    cases hne

theorem clear_of_isempty {q : BeeQ α} (h : q.isempty = true) (n : ℕ) : q.clear n = q := by
  cases n with
  | zero => rfl
  | succ n => rw [BeeQ.clear, if_pos h]

theorem Awake.step (hstep : w.Step w') (h : w.Awake) : w'.Awake := by
  cases hstep with
  | creatorWait hc =>
    exact h.of_recv_eq rfl rfl ⟨rfl, rfl, rfl⟩ (fun _ => by rw [hc]; rfl) fun _ => rfl
  | creatorReturn hc => exact h.of_creator (by rw [hc]; rfl) rfl w.joins
  | stop hc =>
    refine h.of_signal (by rw [hc]; rfl) rfl rfl fun hempty hpc => ?_
    rw [(h.idle hpc).1] at hempty
    cases hempty
  | scan i j hc => exact h.of_creator (by rw [hc]; rfl) rfl w.joins
  | scanEnd i hc => exact h.of_creator (by rw [hc]; rfl) rfl w.joins
  | join i tid hc => exact h.of_creator (by rw [hc]; rfl) rfl _
  | joinEnd i arg hc => exact h.of_creator (by rw [hc]; rfl) rfl w.joins
  | free hc =>
    have hlate := h.late (by rw [hc]; rfl)
    refine .of_late hlate (fun hpc => ?_) fun hc => by cases hc
    show (w.q.clear w.q.size).isempty = true ∧ (w.q.clear w.q.size).stop = false
    rw [clear_of_isempty (h.idle hpc).1]
    exact h.idle hpc
  | recvRefused _ hpc hq => exact .of_late rfl (fun h => by cases h) h.unused
  | recvRegister _ hpc =>
    exact ⟨fun h => (by cases h), h.unused, fun _ => h.order (by rw [hpc]; rfl),
      fun h => (by cases h), fun h => (by cases h)⟩
  | recvInit _ hpc =>
    have hc := h.order (by rw [hpc]; rfl)
    by_cases hok : w.initOk = true
    · rw [if_pos hok]
      exact ⟨fun h => (by cases h), h.unused, fun _ => hc, fun h => (by cases h), fun _ => hok⟩
    · rw [if_neg hok]
      exact .of_late rfl (fun h => by cases h) h.unused
  | recvReady _ hpc =>
    have hu := h.unused (early_of_unsignalled (h.order (by rw [hpc]; rfl)))
    rw [hu.2]
    exact .of_late rfl (fun _ => hu) fun _ => hu
  | recvEmpty _ hpc hempty =>
    refine .of_late ?_ ?_ h.unused
    · show (if w.q.stop then RecvPc.leaving else .waiting : RecvPc α).early = false
      split_ifs <;> rfl
    · intro hwait
      change (if w.q.stop then RecvPc.leaving else .waiting) = RecvPc.waiting at hwait
      split_ifs at hwait with hstop
      exact ⟨hempty, Bool.not_eq_true _ ▸ hstop⟩
  | recvTake _ hpc hempty =>
    refine .of_late rfl (fun h => by cases h) fun hc => ?_
    rw [(h.unused hc).1] at hempty
    cases hempty
  | recvExit _ hpc =>
    obtain ⟨hring, hstop, -⟩ := w.q.threadExit_keeps recvTid
    refine .of_late rfl (fun h => by cases h) fun hc => ?_
    obtain ⟨hempty, hrun⟩ := h.unused hc
    exact ⟨(congrArg Lib.RingBuffer.isempty hring).trans hempty, hstop.trans hrun⟩
  | wakeup hpc => exact .of_late rfl (fun h => by cases h) h.unused
  | spawnRefused => exact h
  | look t m l hu hl => exact h.look hu hl.isLook
  | register t hu =>
    exact .of_late (h.late (not_early_of_usable hu).2) h.idle h.unused
  | exit t hu =>
    exact h.of_recv_eq rfl rfl (w.q.threadExit_keeps (senderTid t)) id id
  | _ => exact h.of_recv_eq rfl rfl ⟨rfl, rfl, rfl⟩ id id

theorem awake_of_reaches {size : ℕ} {init : Option ℤ} (h : (start α size init).Reaches w) :
    w.Awake :=
  h.keeps Awake.step (awake_start size init)

def Hung (w : World α) : Prop := w.creator = .waiting ∧ (w.recv = .waiting ∨ w.recv = .done)

def InTime (w : World α) : Prop :=
  w.creator.unsignalled = false ∨
    (w.recv.early = true ∧ w.creator = .waiting ∧ w.initOk = true)

theorem InTime.not_hung (h : w.InTime) : ¬ w.Hung := by
  rintro ⟨hc, hrecv⟩
  rcases h with hsig | ⟨hearly, -⟩
  · rw [hc] at hsig
    cases hsig
  · rcases hrecv with hpc | hpc
    · rw [hpc] at hearly
      cases hearly
    · rw [hpc] at hearly
      cases hearly

theorem Step.signalled (h : w.Step w') (hc : w.creator.unsignalled = false) :
    w'.creator.unsignalled = false := by
  cases h with
  | creatorWait hpc =>
    rw [hpc] at hc
    cases hc
  | recvReady =>
    show w.creator.signalled.unsignalled = false
    generalize w.creator = pc at hc
    cases pc <;> first | rfl | cases hc
  | _ => first | exact hc | rfl

theorem InTime.step (hstep : w.Step w') (hawake : w.Awake) (h : w.InTime) : w'.InTime := by
  rcases h with hsig | ⟨hearly, hwait, hok⟩
  · exact Or.inl (hstep.signalled hsig)
  have hunused := hawake.unused (by rw [hwait]; rfl)
  have husable : w.creator.usable = false := by
    rw [hwait]
    rfl
  cases hstep with
  | recvRefused _ hpc hq =>
    -- the receiver is the first to register
    rcases hq with hstop | hcount
    · rw [hunused.2] at hstop
      cases hstop
    · rw [hawake.alone hpc] at hcount
      cases hcount
  | recvRegister => exact Or.inr ⟨rfl, hwait, hok⟩
  | recvInit =>
    rw [if_pos hok]
    exact Or.inr ⟨rfl, hwait, hok⟩
  | recvReady =>
    refine Or.inl ?_
    show w.creator.signalled.unsignalled = false
    rw [hwait]
    rfl
  | recvEmpty _ hpc =>
    rcases hpc with hpc | ⟨m, hpc⟩ <;> (rw [hpc] at hearly; cases hearly)
  | recvTake _ hpc =>
    rcases hpc with hpc | ⟨m, hpc⟩ <;> (rw [hpc] at hearly; cases hearly)
  | recvExit _ hpc =>
    rw [hpc] at hearly
    cases hearly
  | wakeup hpc =>
    rw [hpc] at hearly
    cases hearly
  | spawnRefused => exact Or.inr ⟨hearly, hwait, hok⟩
  | _ => simp_all

theorem InTime.of_reaches (h : w.Reaches w') (hawake : w.Awake) (hw : w.InTime) : w'.InTime :=
  (h.keeps (P := fun w => w.Awake ∧ w.InTime)
    (fun hstep hw => ⟨hw.1.step hstep, hw.2.step hstep hw.1⟩) ⟨hawake, hw⟩).2

theorem created_or_waiting (h : pc.unsignalled = true) : pc = .created ∨ pc = .waiting := by
  cases pc <;> first | exact Or.inl rfl | exact Or.inr rfl | cases h

theorem reaches_recv (hc : w.creator.unsignalled = true) (h : w.recvStep = some w') :
    w.Reaches w' := by
  refine .single ⟨.recv, ?_⟩
  have hfreed : w.creator ≠ .freed := fun heq => by
    rw [heq] at hc
    cases hc
  rw [step, if_neg hfreed, h]

theorem recvStep_registered (h : w.recv = .registered) :
    w.recvStep = some { w with recv := if w.initOk then .ready else .leaving } := by
  rw [recvStep, h]

theorem exists_decided (h : w.Awake) (hearly : w.recv.early = true) :
    ∃ w', w.Reaches w' ∧ w'.Awake ∧ w'.creator = w.creator ∧
      w'.recv = if w.initOk then .ready else .leaving := by
  have hc := h.order hearly
  have hunused := h.unused (early_of_unsignalled hc)
  suffices hreach : ∃ w', w.Reaches w' ∧ w'.creator = w.creator ∧
      w'.recv = if w.initOk then .ready else .leaving by
    obtain ⟨w', hr, hc', hpc⟩ := hreach
    exact ⟨w', hr, hr.keeps Awake.step h, hc', hpc⟩
  cases hpc : w.recv with
  | start =>
    have hreg : w.q.register recvTid = (0, w.q.enrol recvTid) := by
      rw [BeeQ.register, hunused.2, h.alone hpc]
      rfl
    have hstep : w.recvStep = some { w with
        recv := .registered
        q := w.q.enrol recvTid
        regs := w.regs ++ [recvTid] } := by
      rw [recvStep, hpc]
      simp only [hreg]
      rfl
    exact ⟨_, (reaches_recv hc hstep).trans (reaches_recv hc (recvStep_registered rfl)), rfl, rfl⟩
  | registered => exact ⟨_, reaches_recv hc (recvStep_registered hpc), rfl, rfl⟩
  | ready => exact ⟨w, .refl, rfl, by rw [hpc, h.ready hpc]; rfl⟩
  | _ =>
    rw [hpc] at hearly
    cases hearly

theorem exists_hung_of_mute (hc : w.creator.unsignalled = true)
    (hpc : w.recv = .waiting ∨ w.recv = .done) : ∃ w', w.Reaches w' ∧ w'.Hung := by
  rcases created_or_waiting hc with hcreated | hwait
  · refine ⟨{ w with creator := .waiting }, .single ⟨.creator, ?_⟩, rfl, hpc⟩
    rw [step, creatorStep, hcreated]
  · exact ⟨w, .refl, hwait, hpc⟩

theorem exists_hung (h : w.Awake) (hearly : w.recv.early = true)
    (hbad : ¬ (w.creator = .waiting ∧ w.initOk = true)) : ∃ w', w.Reaches w' ∧ w'.Hung := by
  have hc := h.order hearly
  obtain ⟨w₁, hr₁, h₁, hc₁, hpc₁⟩ := exists_decided h hearly
  rw [← hc₁] at hc
  by_cases hok : w.initOk = true
  · have hcreated : w₁.creator = .created := (created_or_waiting hc).resolve_right fun hwait =>
      hbad ⟨hc₁ ▸ hwait, hok⟩
    rw [if_pos hok] at hpc₁
    have hstop := (h₁.unused (early_of_unsignalled hc)).2
    have hstep : w₁.recvStep = some { w₁ with creator := .created, recv := .waiting } := by
      rw [recvStep, hpc₁]
      simp only [hstop, hcreated]
      rfl
    obtain ⟨w₂, hr₂, hhung⟩ := exists_hung_of_mute
      (w := { w₁ with creator := .created, recv := .waiting }) rfl (Or.inl rfl)
    exact ⟨w₂, (hr₁.trans (reaches_recv hc hstep)).trans hr₂, hhung⟩
  · rw [if_neg hok] at hpc₁
    have hstep : w₁.recvStep = some { w₁ with recv := .done, q := w₁.q.threadExit recvTid } := by
      rw [recvStep, hpc₁]
    obtain ⟨w₂, hr₂, hhung⟩ := exists_hung_of_mute
      (w := { w₁ with recv := .done, q := w₁.q.threadExit recvTid }) hc (Or.inr rfl)
    exact ⟨w₂, (hr₁.trans (reaches_recv hc hstep)).trans hr₂, hhung⟩

theorem handshake_iff {size : ℕ} {init : Option ℤ} (h : (start α size init).Reaches w)
    (hearly : w.recv.early = true) :
    (∀ w', w.Reaches w' → ¬ w'.Hung) ↔ w.creator = .waiting ∧ w.initOk = true := by
  have hawake := awake_of_reaches h
  constructor
  · intro hsafe
    by_contra hbad
    obtain ⟨w', hr, hhung⟩ := exists_hung hawake hearly hbad
    exact hsafe w' hr hhung
  · rintro ⟨hwait, hok⟩ w' hr
    exact (InTime.of_reaches hr hawake (Or.inr ⟨hearly, hwait, hok⟩)).not_hung

theorem handshake_sample :
    ∃ w : World ℕ, (start ℕ 2 none).run [.creator] = some w ∧ ∀ w', w.Reaches w' → ¬ w'.Hung :=
  ⟨_, rfl, (handshake_iff (reaches_of_run [.creator] rfl) rfl).mpr ⟨rfl, rfl⟩⟩

theorem handshake_hangs :
    (∃ w, (start ℕ 2 none).run [.recv, .recv, .recv, .creator] = some w ∧
        w.creator = .waiting ∧ w.recv = .waiting) ∧
      ∃ w, (start ℕ 2 (some (-1))).run [.creator, .recv, .recv, .recv] = some w ∧
        w.creator = .waiting ∧ w.recv = .done :=
  ⟨⟨_, rfl, rfl, rfl⟩, ⟨_, rfl, rfl, rfl⟩⟩

end World
end Sysak.BeeQ
