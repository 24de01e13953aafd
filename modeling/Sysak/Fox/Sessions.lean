/-
# Writer sessions
-/

import Sysak.Fox.Recovery

namespace Sysak.Fox

open List Option

def entryOf (bs : Bytes) : Entry := ⟨FoxHead.decode (bs.take headSize), bs.drop headSize⟩

theorem entryOf_bytes (e : Entry) : entryOf e.bytes = e := by
  rw [entryOf, Entry.bytes, take_left' e.head.length_encode,
    drop_left' e.head.length_encode, FoxHead.decode_encode]

def bytesOf (fs : Fs) (n : FName) : Bytes := (fs n).getD []

def logGrowth (fs fs' : Fs) (log : FName → List Entry) (n : FName) : List Entry :=
  let grown := (bytesOf fs' n).drop (bytesOf fs n).length
  if grown = [] then log n else log n ++ [entryOf grown]

structure World where
  fs : Fs
  man : FoxManager
  log : FName → List Entry

def World.init : World := ⟨fun _ => none, .zero, fun _ => []⟩

inductive WriterOp where
  | setup (io : SetupIO) (d : FoxDate) (now : UInt64)
  | write (io : SetupIO) (d : FoxDate) (s : Sample)
  | close

def World.step (w : World) : WriterOp → Option World
  | .setup io d now =>
    (foxSetupWrite io w.fs .zero d now).map fun (_, man, fs) =>
      ⟨fs, man, logGrowth w.fs fs w.log⟩
  | .write io d s =>
    (foxWrite io (.ok s.data.length s.pad) w.fs w.man d s.us s.data).map fun (_, man, fs) =>
      ⟨fs, man, logGrowth w.fs fs w.log⟩
  | .close => some { w with man := { w.man with fd := none } }

def World.Reaches (ok : World → WriterOp → Prop) : World → World → Prop :=
  Relation.ReflTransGen fun w w' => ∃ op, ok w op ∧ w.step op = some w'

def World.Agrees (w : World) : Prop := ∀ n, bytesOf w.fs n = content (w.log n)

theorem World.init_agrees : World.init.Agrees := fun _ => rfl

theorem bytesOf_openCreate (fs : Fs) (name n : FName) :
    bytesOf (openCreate fs name) n = bytesOf fs n := by
  by_cases h : n = name
  · subst h
    simp [bytesOf, openCreate]
  · simp [bytesOf, openCreate, Function.update_of_ne h]

theorem logGrowth_same {fs fs' : Fs} (h : ∀ n, bytesOf fs' n = bytesOf fs n)
    (log : FName → List Entry) : logGrowth fs fs' log = log := by
  funext n
  simp [logGrowth, h n]

theorem logGrowth_append {fs fs' : Fs} {name : FName} {e : Entry}
    (hname : bytesOf fs' name = bytesOf fs name ++ e.bytes)
    (hother : ∀ n, n ≠ name → bytesOf fs' n = bytesOf fs n) (log : FName → List Entry) :
    logGrowth fs fs' log = Function.update log name (log name ++ [e]) := by
  funext n
  by_cases h : n = name
  · subst h
    have hne : e.bytes ≠ [] := ne_nil_of_length_pos e.bytes_pos
    simp [logGrowth, hname, hne, entryOf_bytes]
  · simp [logGrowth, hother n h, Function.update_of_ne h]

structure OpenedOn (log : FName → List Entry) (man : FoxManager) (d : FoxDate) (now : UInt64) :
    Prop where
  fd : man.fd = some (packFname d)
  now_eq : man.now = now
  walk : ∃ man₀ man₁ ret, foxCheckHead (content (log (packFname d))) man₀ = some (ret, man₁) ∧
    0 ≤ ret ∧ man.pos = man₁.pos ∧ man.lastPos = man₁.lastPos

variable {io : SetupIO} {d : FoxDate} {now : UInt64} {fs : Fs}

theorem foxSetupWrite_cases {w : World} (hw : w.Agrees) {man₀ man : FoxManager} {ret : ℤ}
    (h : foxSetupWrite io w.fs man₀ d now = some (ret, man, fs)) :
    (∀ n, bytesOf fs n = bytesOf w.fs n) ∧
      ((ret < 0 ∧ man.fd = none) ∨ (0 ≤ ret ∧ OpenedOn w.log man d now)) := by
  unfold foxSetupWrite at h
  by_cases hopen : io.opened = true
  · simp only [hopen, Bool.not_true, Bool.false_eq_true, if_false] at h
    obtain ⟨⟨r, m⟩, hcheck, heq⟩ := map_eq_some_iff.mp h
    by_cases hr : r < 0
    · simp only [hr, if_true, Prod.mk.injEq] at heq
      obtain ⟨rfl, rfl, rfl⟩ := heq
      exact ⟨bytesOf_openCreate w.fs _, Or.inl ⟨hr, rfl⟩⟩
    · simp only [hr, if_false, Prod.mk.injEq] at heq
      obtain ⟨rfl, rfl, rfl⟩ := heq
      refine ⟨bytesOf_openCreate w.fs _, Or.inr ⟨by omega, ?_⟩⟩
      unfold foxCheck at hcheck
      by_cases hlock : io.lock = true
      · simp only [hlock, Bool.not_true, Bool.false_eq_true, if_false] at hcheck
        obtain ⟨⟨r', m'⟩, hwalk, heq⟩ := map_eq_some_iff.mp hcheck
        simp only [Prod.mk.injEq] at heq
        obtain ⟨hr', rfl⟩ := heq
        have hfile : (w.fs (packFname d)).getD [] = content (w.log (packFname d)) := hw _
        rw [hfile] at hwalk
        have hframe := foxCheckHeadLoop_frame _ hwalk
        have hret : 0 ≤ r' := by
          split_ifs at hr' <;> omega
        exact ⟨by rw [hframe], rfl, _, _, r', hwalk, hret, rfl, rfl⟩
      · simp only [hlock, Bool.not_false, if_true, some.injEq, Prod.mk.injEq] at hcheck
        omega
  · simp only [hopen, Bool.not_false, if_true, some.injEq, Prod.mk.injEq] at h
    obtain ⟨rfl, rfl, rfl⟩ := h
    exact ⟨fun _ => rfl, Or.inl ⟨by decide, rfl⟩⟩

variable {man : FoxManager}

theorem foxWriteDay_cases {w : World} (hw : w.Agrees) {us : UInt64} {ret : ℤ}
    (h : foxWriteDay io w.fs w.man d us = some (ret, man, fs)) :
    (∀ n, bytesOf fs n = bytesOf w.fs n) ∧
      ((ret < 0 ∧ man.fd = none) ∨
        (0 ≤ ret ∧ checkPmanDate w.man d = true ∧ man = { w.man with newDay := 0 }) ∨
        (0 ≤ ret ∧ checkPmanDate w.man d = false ∧ OpenedOn w.log man d us)) := by
  rcases Bool.eq_false_or_eq_true (checkPmanDate w.man d) with hd | hd
  · rw [foxWriteDay_same hd] at h
    cases h
    exact ⟨fun _ => rfl, Or.inr (Or.inl ⟨le_rfl, hd, rfl⟩)⟩
  · simp only [foxWriteDay, hd, Bool.not_false, if_true] at h
    obtain ⟨⟨r, m, fs'⟩, hsetup, heq⟩ := map_eq_some_iff.mp h
    obtain ⟨hfs, ⟨hr, hfd⟩ | ⟨hr, hopen⟩⟩ := foxSetupWrite_cases hw hsetup
    · simp only [hr, if_true, Prod.mk.injEq] at heq
      obtain ⟨rfl, rfl, rfl⟩ := heq
      exact ⟨hfs, Or.inl ⟨hr, hfd⟩⟩
    · simp only [show ¬ r < 0 by omega, if_false, Prod.mk.injEq] at heq
      obtain ⟨rfl, rfl, rfl⟩ := heq
      exact ⟨hfs, Or.inr (Or.inr ⟨hr, hd, hopen.fd, hopen.now_eq, hopen.walk⟩)⟩

def Continues (w : World) (man : FoxManager) (d : FoxDate) (us : UInt64) : Prop :=
  (checkPmanDate w.man d = true ∧ man = { w.man with newDay := 0 }) ∨
    (checkPmanDate w.man d = false ∧ OpenedOn w.log man d us)

variable {w w' : World}

theorem World.write_cases (hw : w.Agrees) {s : Sample} (h : w.step (.write io d s) = some w') :
    (w'.log = w.log ∧ (w'.man.fd = none ∨ Continues w w'.man d s.us) ∧ w'.Agrees) ∨
      ∃ man name, Continues w man d s.us ∧ man.now ≤ s.us ∧ man.fd = some name ∧
        w'.man = man.advance s.us s.data.length s.pad ∧
        w'.log = Function.update w.log name
          (w.log name ++ [foxWriteEntry man s.us s.data s.pad]) ∧ w'.Agrees := by
  simp only [World.step] at h
  obtain ⟨⟨ret, man', fs'⟩, hwrite, rfl⟩ := map_eq_some_iff.mp h
  unfold foxWrite at hwrite
  obtain ⟨⟨res, man, fs⟩, hday, heq⟩ := map_eq_some_iff.mp hwrite
  obtain ⟨hfs, hcases⟩ := foxWriteDay_cases hw hday
  -- without an append the files hold what they held, and so do the logs
  have hkeep : logGrowth w.fs fs w.log = w.log := logGrowth_same hfs w.log
  have hagree (man : FoxManager) : World.Agrees ⟨fs, man, w.log⟩ := fun n => (hfs n).trans (hw n)
  rcases hcases with ⟨hres, hfd⟩ | hcont
  · simp only [hres, if_true, Prod.mk.injEq] at heq
    obtain ⟨rfl, rfl, rfl⟩ := heq
    exact Or.inl ⟨hkeep, Or.inl hfd, by rw [hkeep]; exact hagree _⟩
  · have hres : ¬ res < 0 := by rcases hcont with h | h <;> omega
    have hcont' : Continues w man d s.us := hcont.imp (fun h => h.2) (fun h => h.2)
    by_cases hnow : man.now ≤ s.us
    · simp only [hres, if_false, hnow, if_true, foxWriteData_ok, Prod.mk.injEq] at heq
      obtain ⟨rfl, rfl, rfl⟩ := heq
      cases hfd : man.fd with
      | none =>
        refine Or.inl ⟨hkeep, Or.inl hfd, ?_⟩
        show World.Agrees ⟨fs, _, logGrowth w.fs fs w.log⟩
        rw [hkeep]
        exact hagree _
      | some name =>
        have hname : bytesOf (appendFd fs (some name) (foxWriteEntry man s.us s.data s.pad).bytes)
            name = bytesOf w.fs name ++ (foxWriteEntry man s.us s.data s.pad).bytes := by
          rw [← hfs name]
          simp [bytesOf, appendFd]
        have hother : ∀ n, n ≠ name →
            bytesOf (appendFd fs (some name) (foxWriteEntry man s.us s.data s.pad).bytes) n =
              bytesOf w.fs n := by
          intro n hn
          rw [← hfs n]
          simp [bytesOf, appendFd, Function.update_of_ne hn]
        have hgrow := logGrowth_append hname hother w.log
        refine Or.inr ⟨man, name, hcont', hnow, hfd, rfl, hgrow, fun n => ?_⟩
        show bytesOf _ n = content (logGrowth _ _ w.log n)
        rw [hgrow]
        by_cases hn : n = name
        · subst hn
          rw [hname, hw n, Function.update_self, content_append, content_singleton]
        · rw [hother n hn, hw n, Function.update_of_ne hn]
    · simp only [hres, if_false, hnow, Prod.mk.injEq] at heq
      obtain ⟨rfl, rfl, rfl⟩ := heq
      exact Or.inl ⟨hkeep, Or.inr hcont', by rw [hkeep]; exact hagree _⟩

theorem World.setup_cases (hw : w.Agrees) (h : w.step (.setup io d now) = some w') :
    w'.log = w.log ∧ (w'.man.fd = none ∨ OpenedOn w.log w'.man d now) ∧ w'.Agrees := by
  simp only [World.step] at h
  obtain ⟨⟨ret, man, fs⟩, hsetup, rfl⟩ := map_eq_some_iff.mp h
  obtain ⟨hfs, hcases⟩ := foxSetupWrite_cases hw hsetup
  have hkeep : logGrowth w.fs fs w.log = w.log := logGrowth_same hfs w.log
  refine ⟨hkeep, hcases.imp (fun h => h.2) (fun h => h.2), fun n => ?_⟩
  rw [hkeep]
  exact (hfs n).trans (hw n)

theorem World.Reaches.agrees {ok : World → WriterOp → Prop} {w : World}
    (h : World.Reaches ok .init w) : w.Agrees := by
  induction h with
  | refl => exact World.init_agrees
  | tail _ hstep ih =>
    obtain ⟨op, -, hstep⟩ := hstep
    cases op with
    | setup io d now => exact (World.setup_cases ih hstep).2.2
    | write io d s =>
      rcases World.write_cases ih hstep with ⟨-, -, h⟩ | ⟨_, _, _, _, _, _, _, h⟩ <;> exact h
    | close =>
      cases hstep
      exact ih

def WriterOp.Opens (w : World) (d : FoxDate) (now : UInt64) : WriterOp → Prop
  | .setup _ d' now' => d' = d ∧ now' = now
  | .write _ d' s => checkPmanDate w.man d' = false ∧ d' = d ∧ s.us = now
  | .close => False

variable {op : WriterOp}

theorem World.step_keeps {P : List Entry → Prop} {Q : FoxManager → List Entry → Prop}
    (hw : w.Agrees) (h : w.step op = some w') (hP : ∀ n, P (w.log n))
    (hQ : ∀ n, w.man.fd = some n → Q w.man (w.log n))
    (hday : ∀ man es, Q man es → Q { man with newDay := 0 } es)
    (hopen : ∀ man d now, op.Opens w d now → OpenedOn w.log man d now → Q man (w.log (packFname d)))
    (happ : ∀ io d s man name, op = .write io d s → Continues w man d s.us →
      man.fd = some name → man.now ≤ s.us → Q man (w.log name) →
      P (w.log name ++ [foxWriteEntry man s.us s.data s.pad]) ∧
        Q (man.advance s.us s.data.length s.pad)
          (w.log name ++ [foxWriteEntry man s.us s.data s.pad])) :
    (∀ n, P (w'.log n)) ∧ ∀ n, w'.man.fd = some n → Q w'.man (w'.log n) := by
  cases op with
  | setup io d now =>
    obtain ⟨hlog, hman, -⟩ := World.setup_cases hw h
    refine ⟨fun n => hlog ▸ hP n, fun n hn => ?_⟩
    rcases hman with hfd | hopened
    · simp [hfd] at hn
    · obtain rfl : packFname d = n := by simpa [hopened.fd] using hn
      rw [hlog]
      exact hopen _ d now ⟨rfl, rfl⟩ hopened
  | write io d s =>
    have hcont (man : FoxManager) (hman : Continues w man d s.us) (n : FName)
        (hn : man.fd = some n) : Q man (w.log n) := by
      rcases hman with ⟨-, rfl⟩ | ⟨hd, hopened⟩
      · exact hday _ _ (hQ n hn)
      · obtain rfl : packFname d = n := by simpa [hopened.fd] using hn
        exact hopen _ d s.us ⟨hd, rfl, rfl⟩ hopened
    rcases World.write_cases hw h with
      ⟨hlog, hman, -⟩ | ⟨man, name, hman, hnow, hfd, hman', hlog, -⟩
    · refine ⟨fun n => hlog ▸ hP n, fun n hn => ?_⟩
      rcases hman with hfd | hman
      · simp [hfd] at hn
      · rw [hlog]
        exact hcont _ hman n hn
    · obtain ⟨hP', hQ'⟩ := happ io d s man name rfl hman hfd hnow (hcont man hman name hfd)
      refine ⟨fun n => ?_, fun n hn => ?_⟩
      · rw [hlog]
        by_cases hn : n = name
        · subst hn
          rwa [Function.update_self]
        · rw [Function.update_of_ne hn]
          exact hP n
      · obtain rfl : name = n := by
          rw [hman'] at hn
          simpa [FoxManager.advance, hfd] using hn
        rwa [hlog, hman', Function.update_self]
  | close =>
    cases h
    exact ⟨hP, fun n hn => by simp at hn⟩

structure World.Chained (w : World) : Prop where
  linked : ∀ n, Linked (w.log n)
  man : ∀ n, w.man.fd = some n → w.man.pos = (content (w.log n)).length ∧
    w.man.lastPos = off (w.log n) ((w.log n).length - 1)

def World.target (w : World) (d : FoxDate) : Option FName :=
  if checkPmanDate w.man d then w.man.fd else some (packFname d)

def ShortOpen (w : World) : WriterOp → Prop
  | .setup _ d _ => (w.log (packFname d)).length ≤ 1
  | .write _ d s =>
    (checkPmanDate w.man d = false → (w.log (packFname d)).length ≤ 1) ∧
      ∀ n, w.target d = some n →
        (content (w.log n)).length + headSize + s.data.length < 2 ^ 31
  | .close => True

theorem OpenedOn.at_last {log : FName → List Entry} (h : OpenedOn log man d now)
    (hl : Linked (log (packFname d))) (hshort : (log (packFname d)).length ≤ 1) :
    man.pos = (content (log (packFname d))).length ∧
      man.lastPos = off (log (packFname d)) ((log (packFname d)).length - 1) := by
  obtain ⟨man₀, man₁, ret, hwalk, -, hpos, hlast⟩ := h.walk
  rw [foxCheckHead_content hl.toFramed] at hwalk
  cases hwalk
  exact ⟨hpos, hlast.trans (hl.lastHead_prev_eq_iff.mpr hshort)⟩

theorem Continues.target {w : World} {us : UInt64} {n : FName} (h : Continues w man d us)
    (hn : man.fd = some n) : w.target d = some n := by
  rcases h with ⟨hd, rfl⟩ | ⟨hd, hopen⟩
  · simpa [World.target, hd] using hn
  · simpa [World.target, hd, hopen.fd] using hn

theorem World.Chained.step (hw : w.Agrees) (hc : w.Chained) (hok : ShortOpen w op)
    (h : w.step op = some w') : w'.Chained := by
  have hkeep := World.step_keeps (P := Linked) (Q := fun man es =>
      man.pos = (content es).length ∧ man.lastPos = off es (es.length - 1)) hw h
    hc.linked hc.man (fun _ _ hq => hq) ?_ ?_
  · exact ⟨hkeep.1, hkeep.2⟩
  · intro man d now hop hopen
    refine hopen.at_last (hc.linked _) ?_
    cases op with
    | setup io d' now' =>
      obtain ⟨rfl, -⟩ := hop
      exact hok
    | write io d' s =>
      obtain ⟨hd, rfl, -⟩ := hop
      exact hok.1 hd
    | close => cases hop
  · rintro io d s man name rfl hman hfd - ⟨hpos, hlast⟩
    have hsmall := hok.2 name (hman.target hfd)
    have hfit : (content (w.log name)).length + headSize + s.data.length < 2 ^ 32 := by omega
    refine ⟨(hc.linked name).append_entry hpos hfit hlast s.us s.pad,
      FoxManager.advance_pos hpos hfit s.us s.pad, ?_⟩
    rw [off_append_singleton]
    exact hpos

def prevOffsets (file : Bytes) : ℕ → ℕ → List ℕ
  | 0, _ => []
  | fuel + 1, o =>
    let (ret, head) := foxReadHead file o ⟨0, 0, 0, 0, 0, 0⟩
    if 0 < ret then
      o :: if o = 0 then [] else prevOffsets file fuel head.prev.toNat
    else []

variable {es : List Entry}

theorem Linked.prevOffsets_eq (hl : Linked es) :
    ∀ {i fuel : ℕ}, i < es.length → i < fuel →
      prevOffsets (content es) fuel (off es i) = (range (i + 1)).reverse.map (off es) := by
  intro i
  induction i with
  | zero =>
    intro fuel hi hfuel
    obtain ⟨fuel, rfl⟩ : ∃ m, fuel = m + 1 := ⟨fuel - 1, by omega⟩
    rw [prevOffsets, hl.readable_content 0 hi]
    simp [headSize]
  | succ i ih =>
    intro fuel hi hfuel
    obtain ⟨fuel, rfl⟩ : ∃ m, fuel = m + 1 := ⟨fuel - 1, by omega⟩
    have hne : off es (i + 1) ≠ 0 := by
      rw [Ne, off_eq_zero (by omega)]
      omega
    have hprev : es[i + 1].head.prev.toNat = off es i := hl.prev (i + 1) hi
    rw [prevOffsets, hl.readable_content (i + 1) hi]
    simp only [headSize_pos, if_true, hne, if_false, hprev,
      ih (show i < es.length by omega) (show i < fuel by omega)]
    rw [range_succ (n := i + 1), reverse_append, reverse_singleton,
      singleton_append, map_cons]

def Resumes (fs : Fs) (man : FoxManager) (d : FoxDate) (now : UInt64) (es : List Entry) : Prop :=
  ∃ man' fs', foxSetupWrite .ok fs man d now = some (0, man', fs') ∧
    man'.pos = (content es).length ∧ man'.lastPos = off es (es.length - 1) ∧
    ∀ ss, (content es).length + sampleBytes (accepted now ss) < 2 ^ 31 →
      ∃ man'' fs'' new, foxWrites fs' man' d ss = some (man'', fs'') ∧
        fs'' (packFname d) = some (content (es ++ new)) ∧
        new.map Entry.pair = (accepted now ss).map Sample.pair ∧ Linked (es ++ new)

theorem Linked.resumes_iff (hl : Linked es) (hfile : bytesOf fs (packFname d) = content es)
    (man : FoxManager) (now : UInt64) : Resumes fs man d now es ↔ es.length ≤ 1 := by
  have hsetup := foxSetupWrite_content hfile hl.toFramed man now
  constructor
  · rintro ⟨man', fs', h, -, hlast, -⟩
    rw [hsetup] at h
    cases h
    exact hl.lastHead_prev_eq_iff.mp hlast
  · intro hshort
    have hlast := hl.lastHead_prev_eq_iff.mpr hshort
    refine ⟨_, _, hsetup, rfl, hlast, fun ss hfit => ?_⟩
    obtain ⟨man', fs', new, hrun, hon, hnew, hlink, -⟩ :=
      foxWrites_spec ss (WriterOn.of_setup (d := d) hl.toFramed fs man now) (by
        show _ + sampleBytes (accepted now ss) < _
        omega)
    exact ⟨man', fs', new, hrun, hon.file, hnew, hlink hl hlast⟩

theorem backward_links_iff {es : List Entry} {fs : Fs} {d : FoxDate} (hl : Linked es)
    (hfile : bytesOf fs (packFname d) = content es) (man : FoxManager) (now : UInt64) :
    (Resumes fs man d now es ↔ es.length ≤ 1) ∧
      ∀ w, World.Reaches ShortOpen .init w → ∀ n,
        bytesOf w.fs n = content (w.log n) ∧ Linked (w.log n) ∧
          prevOffsets (bytesOf w.fs n) (w.log n).length
              (off (w.log n) ((w.log n).length - 1)) =
            (range (w.log n).length).reverse.map (off (w.log n)) := by
  refine ⟨hl.resumes_iff hfile man now, fun w hw n => ?_⟩
  have hagree := hw.agrees
  have hchain : w.Chained := by
    induction hw with
    | refl => exact ⟨fun _ => linked_nil, fun _ h => by cases h⟩
    | tail hpre hstep ih =>
      obtain ⟨op, hok, hstep⟩ := hstep
      exact (ih (World.Reaches.agrees hpre)).step (World.Reaches.agrees hpre) hok hstep
  refine ⟨hagree n, hchain.linked n, ?_⟩
  rw [hagree n]
  rcases Nat.eq_zero_or_pos (w.log n).length with h0 | hpos
  · rw [h0]
    rfl
  · rw [(hchain.linked n).prevOffsets_eq (by omega) (by omega), Nat.sub_add_cancel hpos]

theorem backward_links_sample :
    Resumes sampleFs .zero sampleDate 5 [] ∧
      ∃ w, World.Reaches ShortOpen .init w ∧
        (w.log (packFname sampleDate)).length = 1 ∧
        Linked (w.log (packFname sampleDate)) := by
  have hfile : bytesOf sampleFs (packFname sampleDate) = content [] := by
    simp [bytesOf, sampleFs]
  have hlinks := backward_links_iff linked_nil hfile .zero 5
  refine ⟨hlinks.1.mpr (by decide), ?_⟩
  have hreach : ∃ w, World.Reaches ShortOpen .init w ∧
      (w.log (packFname sampleDate)).length = 1 := by
    refine ⟨_, .tail (.tail .refl ⟨.setup .ok sampleDate 5, Nat.zero_le 1, rfl⟩)
      ⟨.write .ok sampleDate ⟨5, [7], 0⟩, ⟨by decide, fun n hn => ?_⟩, rfl⟩, by decide⟩
    obtain rfl := some.inj hn
    decide
  obtain ⟨w, hw, hlen⟩ := hreach
  exact ⟨w, hw, hlen, (hlinks.2 w hw _).2.1⟩

theorem backward_links_broken :
    Linked (samplePair 5 6) ∧
      ¬ Resumes
        (Function.update (fun _ => none) (packFname sampleDate)
          (some (content (samplePair 5 6))))
        .zero sampleDate 7 (samplePair 5 6) := by
  have hl := linked_samplePair 5 6
  refine ⟨hl, fun h => ?_⟩
  have := (hl.resumes_iff (by simp [bytesOf]) _ _).mp h
  exact absurd this (by decide)

structure World.Ordered (w : World) : Prop where
  sorted : ∀ n, Sorted (w.log n)
  man : ∀ n, w.man.fd = some n → ∀ e ∈ w.log n, e.head.tUs ≤ w.man.now

def NotBeforeLast (w : World) (d : FoxDate) (now : UInt64) : Prop :=
  ∀ e, (w.log (packFname d)).getLast? = some e → e.head.tUs ≤ now

def LateOpen (w : World) : WriterOp → Prop
  | .setup _ d now => NotBeforeLast w d now
  | .write _ d s => checkPmanDate w.man d = false → NotBeforeLast w d s.us
  | .close => True

theorem Sorted.le_of_last (hs : Sorted es) (h : ∀ e, es.getLast? = some e → e.head.tUs ≤ now) :
    ∀ e ∈ es, e.head.tUs ≤ now := by
  intro e he
  obtain ⟨i, hi, rfl⟩ := getElem_of_mem he
  have hlast : es.getLast? = some es[es.length - 1] := by
    rw [getLast?_eq_getElem?, getElem?_eq_getElem (by omega)]
  exact UInt64.le_trans (hs.le (show i ≤ es.length - 1 by omega) (by omega)) (h _ hlast)

theorem Sorted.append (hs : Sorted es) {e : Entry} (h : ∀ e' ∈ es, e'.head.tUs ≤ e.head.tUs) :
    Sorted (es ++ [e]) :=
  pairwise_append.mpr ⟨hs, pairwise_singleton .., fun a ha b hb => by
    obtain rfl := mem_singleton.mp hb
    exact h a ha⟩

theorem World.Ordered.step (hw : w.Agrees) (ho : w.Ordered) (hok : LateOpen w op)
    (h : w.step op = some w') : w'.Ordered := by
  have hkeep := World.step_keeps (P := Sorted) (Q := fun man es =>
      ∀ e ∈ es, e.head.tUs ≤ man.now) hw h
    ho.sorted ho.man (fun _ _ hq => hq) ?_ ?_
  · exact ⟨hkeep.1, hkeep.2⟩
  · intro man d now hop hopen
    rw [hopen.now_eq]
    refine (ho.sorted _).le_of_last ?_
    cases op with
    | setup io d' now' =>
      obtain ⟨rfl, rfl⟩ := hop
      exact hok
    | write io d' s =>
      obtain ⟨hd, rfl, rfl⟩ := hop
      exact hok hd
    | close => cases hop
  · rintro io d s man name rfl - - hnow hle
    have hle' (e : Entry) (he : e ∈ w.log name) : e.head.tUs ≤ s.us :=
      UInt64.le_trans (hle e he) hnow
    refine ⟨(ho.sorted name).append hle', fun e he => ?_⟩
    rcases mem_append.mp he with he | he
    · exact hle' e he
    · obtain rfl := mem_singleton.mp he
      exact UInt64.le_refl _

theorem sorted_of_lateOpen {w : World} (h : World.Reaches LateOpen .init w) (n : FName) :
    bytesOf w.fs n = content (w.log n) ∧ Sorted (w.log n) := by
  refine ⟨h.agrees n, World.Ordered.sorted ?_ n⟩
  induction h with
  | refl => exact ⟨fun _ => List.Pairwise.nil, fun _ h => by cases h⟩
  | tail hpre hstep ih =>
    obtain ⟨op, hok, hstep⟩ := hstep
    exact ih.step (World.Reaches.agrees hpre) hok hstep

theorem sorted_of_lateOpen_sample :
    ∃ w, World.Reaches LateOpen .init w ∧
      (w.log (packFname sampleDate)).map (fun e => e.head.tUs) = [5, 7] ∧
      Sorted (w.log (packFname sampleDate)) := by
  have hreach : ∃ w, World.Reaches LateOpen .init w ∧
      (w.log (packFname sampleDate)).map (fun e => e.head.tUs) = [5, 7] := by
    refine ⟨_, .tail (.tail (.tail (.tail .refl
      ⟨.setup .ok sampleDate 5, (fun e he => nomatch he), rfl⟩)
      ⟨.write .ok sampleDate ⟨5, [7], 0⟩, (fun h => absurd h (by decide)), rfl⟩)
      ⟨.setup .ok sampleDate 6, (fun e he => ?_), rfl⟩)
      ⟨.write .ok sampleDate ⟨7, [8], 0⟩, (fun h => absurd h (by decide)), rfl⟩, by decide⟩
    obtain rfl := some.inj he
    decide
  obtain ⟨w, hw, hlog⟩ := hreach
  exact ⟨w, hw, hlog, (sorted_of_lateOpen hw _).2⟩

theorem unsorted_after_clock_step_back :
    ∃ w, World.Reaches (fun _ _ => True) .init w ∧
      (w.log (packFname sampleDate)).map (fun e => e.head.tUs) = [100, 60] ∧
      ¬ Sorted (w.log (packFname sampleDate)) := by
  refine ⟨_, .tail (.tail (.tail (.tail .refl
    ⟨.setup .ok sampleDate 100, trivial, rfl⟩)
    ⟨.write .ok sampleDate ⟨100, [7], 0⟩, trivial, rfl⟩)
    ⟨.setup .ok sampleDate 50, trivial, rfl⟩)
    ⟨.write .ok sampleDate ⟨60, [8], 0⟩, trivial, rfl⟩, by decide, ?_⟩
  rw [Sorted]
  decide

end Sysak.Fox
