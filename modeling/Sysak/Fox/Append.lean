/-
# One append, and what its failures leave behind
-/

import Sysak.Fox.Writer
import Sysak.Fox.DayFile

namespace Sysak.Fox

open List Option

def foxWriteEntry (man : FoxManager) (us : UInt64) (data : Bytes) (pad : UInt32) : Entry :=
  ⟨foxWriteHead man us data.length pad, data⟩

@[simp] theorem foxWriteEntry_pair (man : FoxManager) (us : UInt64) (data : Bytes) (pad : UInt32) :
    (foxWriteEntry man us data pad).pair = (us, data) := rfl

def FoxManager.advance (man : FoxManager) (us : UInt64) (len : ℕ) (pad : UInt32) : FoxManager :=
  { man with
    now := us
    lastPos := man.pos
    pos := (foxWriteHead man us len pad).next.toNat }

variable {man : FoxManager}

theorem foxWriteHead_next {len : ℕ} (h : man.pos + headSize + len < 2 ^ 32) (us : UInt64)
    (pad : UInt32) : (foxWriteHead man us len pad).next.toNat = man.pos + headSize + len := by
  simpa [foxWriteHead, Nat.mod_eq_of_lt] using h

theorem foxWriteHead_prev (h : man.lastPos < 2 ^ 32) (us : UInt64) (len : ℕ) (pad : UInt32) :
    (foxWriteHead man us len pad).prev.toNat = man.lastPos := by
  simpa [foxWriteHead, Nat.mod_eq_of_lt] using h

theorem foxWriteData_ok (man : FoxManager) (us : UInt64) (data : Bytes) (pad : UInt32) :
    foxWriteData (.ok data.length pad) man us data =
      (0, man.advance us data.length pad, (foxWriteEntry man us data pad).bytes) := by
  have hhead : write (some headSize) (foxWriteHead man us data.length pad).encode =
      ((headSize : ℤ), (foxWriteHead man us data.length pad).encode) := by
    rw [write, take_of_length_le (by simp), FoxHead.length_encode]
  have hdata : write (some data.length) data = ((data.length : ℤ), data) := by
    rw [write, take_length]
  simp only [foxWriteData, WriteIO.ok, hhead, hdata, Bool.not_true, Bool.false_eq_true, if_false]
  rw [if_neg (by omega), if_neg (by omega)]
  rfl

section AtEnd

variable {man : FoxManager} {es : List Entry} {data : Bytes}
  (hpos : man.pos = (content es).length)
  (hfit : (content es).length + headSize + data.length < 2 ^ 32)

include hpos hfit

theorem foxWriteEntry_next (us : UInt64) (pad : UInt32) :
    (foxWriteEntry man us data pad).head.next.toNat =
      (content es).length + headSize + data.length := by
  rw [← hpos] at hfit ⊢
  exact foxWriteHead_next hfit us pad

theorem Framed.append_entry (hf : Framed es) (us : UInt64) (pad : UInt32) :
    Framed (es ++ [foxWriteEntry man us data pad]) :=
  hf.append rfl (foxWriteEntry_next hpos hfit us pad)

theorem Linked.append_entry (hl : Linked es) (hlast : man.lastPos = off es (es.length - 1))
    (us : UInt64) (pad : UInt32) : Linked (es ++ [foxWriteEntry man us data pad]) := by
  refine hl.append rfl (foxWriteEntry_next hpos hfit us pad) ?_
  have hlt : man.lastPos < 2 ^ 32 := hlast ▸ hl.off_lt _
  exact (foxWriteHead_prev hlt us _ pad).trans hlast

theorem FoxManager.advance_pos (us : UInt64) (pad : UInt32) :
    (man.advance us data.length pad).pos =
      (content (es ++ [foxWriteEntry man us data pad])).length := by
  rw [content_append, content_singleton, length_append, Entry.length_bytes, ← Nat.add_assoc]
  exact foxWriteEntry_next hpos hfit us pad

end AtEnd

structure WriterOn (fs : Fs) (man : FoxManager) (d : FoxDate) (name : FName)
    (es : List Entry) : Prop where
  fd : man.fd = some name
  file : fs name = some (content es)
  date : checkPmanDate man d = true
  framed : Framed es
  pos : man.pos = (content es).length

variable {d : FoxDate}

theorem foxWriteDay_same (h : checkPmanDate man d = true) (sio : SetupIO) (fs : Fs) (us : UInt64) :
    foxWriteDay sio fs man d us = some (0, { man with newDay := 0 }, fs) := by
  simp [foxWriteDay, h]

variable {us : UInt64}

theorem foxWrite_of_day {sio : SetupIO} {fs fs₁ : Fs} {man man₁ : FoxManager} {res : ℤ}
    (hday : foxWriteDay sio fs man d us = some (res, man₁, fs₁)) (hres : ¬ res < 0)
    (hnow : man₁.now ≤ us) (io : WriteIO) (data : Bytes) :
    foxWrite sio io fs man d us data =
      some ((foxWriteData io man₁ us data).1, (foxWriteData io man₁ us data).2.1,
        appendFd fs₁ man₁.fd (foxWriteData io man₁ us data).2.2) := by
  simp [foxWrite, hday, hres, hnow]

variable {fs : Fs} {name : FName} {es : List Entry}

theorem WriterOn.appendFd (hw : WriterOn fs man d name es) (bs : Bytes) :
    appendFd fs man.fd bs = Function.update fs name (some (content es ++ bs)) := by
  simp [Fox.appendFd, hw.fd, hw.file]

theorem WriterOn.appendFd_nil (hw : WriterOn fs man d name es) :
    Fox.appendFd fs man.fd [] = fs := by
  rw [hw.appendFd, append_nil, ← hw.file, Function.update_eq_self]

theorem foxWrite_append (hw : WriterOn fs man d name es) (hnow : man.now ≤ us) (sio : SetupIO)
    (data : Bytes) (pad : UInt32) :
    foxWrite sio (.ok data.length pad) fs man d us data =
      some (0, { man.advance us data.length pad with newDay := 0 },
        Function.update fs name (some (content (es ++ [foxWriteEntry man us data pad])))) := by
  rw [foxWrite_of_day (foxWriteDay_same hw.date sio fs us) (by omega) hnow, foxWriteData_ok,
    content_append, content_singleton, ← hw.appendFd]
  rfl

theorem foxWrite_reject (hdate : checkPmanDate man d = true) (hnow : ¬ man.now ≤ us) (sio : SetupIO)
    (io : WriteIO) (data : Bytes) :
    foxWrite sio io fs man d us data = some (0, { man with newDay := 0 }, fs) := by
  simp [foxWrite, foxWriteDay_same hdate, hnow]

theorem WriterOn.advance (hw : WriterOn fs man d name es) {data : Bytes}
    (hfit : (content es).length + headSize + data.length < 2 ^ 32) (us : UInt64) (pad : UInt32) :
    WriterOn
      (Function.update fs name (some (content (es ++ [foxWriteEntry man us data pad]))))
      { man.advance us data.length pad with newDay := 0 } d name
      (es ++ [foxWriteEntry man us data pad]) where
  fd := hw.fd
  file := Function.update_self ..
  date := hw.date
  framed := hw.framed.append_entry hw.pos hfit us pad
  pos := FoxManager.advance_pos hw.pos hfit us pad

def WriteIO.written (io : WriteIO) (len : ℕ) : ℕ :=
  match io.head with
  | none => 0
  | some k₁ => min k₁ headSize + match io.data with
    | none => 0
    | some k₂ => min k₂ len

def WriteIO.Complete (io : WriteIO) (len : ℕ) : Prop :=
  ∃ k₁ k₂, io.head = some k₁ ∧ io.data = some k₂ ∧ headSize ≤ k₁ ∧ len ≤ k₂

def WriteIO.Clean (io : WriteIO) (size len : ℕ) : Prop :=
  io.lock = false ∨
    (io.unlock = false ∧
      (io.written len = 0 ∨ 2 ^ 32 ≤ size + io.written len + headSize)) ∨
    (io.unlock = true ∧ io.Complete len ∧ size + headSize + len < 2 ^ 32)

theorem foxWriteData_locked {io : WriteIO} (hlock : io.lock = true) (man : FoxManager)
    (us : UInt64) (data : Bytes) :
    ∃ bs : Bytes, bs.length = io.written data.length ∧
      (io.Complete data.length → bs = (foxWriteEntry man us data io.pad).bytes) ∧
      foxWriteData io man us data =
        (if io.unlock then 0 else -EACCES,
          if io.head.isSome ∧ io.data.isSome ∧ io.unlock = true then
            man.advance us data.length io.pad
          else man, bs) := by
  obtain ⟨lock, head, dat, unlock, pad⟩ := io
  subst hlock
  have hneg (n : ℕ) : ¬ ((n : ℤ) < 0) := by omega
  cases head with
  | none =>
    refine ⟨[], rfl, fun ⟨_, _, h, _⟩ => by simp at h, ?_⟩
    cases unlock <;> simp [foxWriteData, write]
  | some k₁ =>
    cases dat with
    | none =>
      refine ⟨(foxWriteHead man us data.length pad).encode.take k₁, by simp [ WriteIO.written],
        fun ⟨_, _, _, h, _⟩ => by simp at h, ?_⟩
      cases unlock <;> simp [foxWriteData, write]
    | some k₂ =>
      refine ⟨(foxWriteHead man us data.length pad).encode.take k₁ ++ data.take k₂,
        by simp [ WriteIO.written], ?_, ?_⟩
      · rintro ⟨_, _, h₁, h₂, hk₁, hk₂⟩
        obtain rfl := some.inj h₁
        obtain rfl := some.inj h₂
        rw [take_of_length_le (by simpa using hk₁), take_of_length_le hk₂]
        rfl
      · cases unlock <;> simp [foxWriteData, write, hneg, FoxManager.advance]

structure AppendFaithful (C : List Entry → Prop) (d : FoxDate) (name : FName)
    (es : List Entry) (e : Entry) (ret : ℤ) (man : FoxManager) (fs : Fs) : Prop where
  success : 0 ≤ ret → fs name = some (content (es ++ [e])) ∧
    man.pos = (content (es ++ [e])).length
  failure : ret < 0 → ∀ us data pad, man.now ≤ us →
    ((fs name).getD []).length + headSize + data.length < 2 ^ 32 →
    ∃ man' fs' es', foxWrite .ok (.ok data.length pad) fs man d us data = some (0, man', fs') ∧
      fs' name = some (content es') ∧ C es' ∧ es'.getLast?.map Entry.pair = some (us, data)

theorem Framed.length_of_last (hf : Framed es) {pad : UInt32} {before : Bytes}
    (hpos : man.pos + headSize < 2 ^ 32)
    (hfile : content es = before ++ (foxWriteEntry man us [] pad).bytes)
    (hlast : es.getLast?.map Entry.pair = some (us, [])) :
    (content es).length = man.pos + headSize := by
  obtain ⟨e, he, hpair⟩ := map_eq_some_iff.mp hlast
  have hdata : e.data = [] := congrArg Prod.snd hpair
  obtain ⟨init, rfl⟩ := getLast?_eq_some_iff.mp he
  have hbytes : e.bytes = (foxWriteEntry man us [] pad).bytes := by
    rw [content_append, content_singleton] at hfile
    exact (append_inj' hfile (by simp [hdata, foxWriteEntry])).2
  have hhead : e.head = foxWriteHead man us 0 pad := by
    have := congrArg (fun bs => FoxHead.decode (bs.take headSize)) hbytes
    simpa [Entry.bytes, foxWriteEntry, hdata, take_of_length_le, FoxHead.decode_encode]
      using this
  have hnext := hf.next init.length (by simp)
  have hend : off (init ++ [e]) (init.length + 1) = (content (init ++ [e])).length := by
    rw [← off_length]
    simp
  rw [hend] at hnext
  rw [← hnext]
  have hzero : man.pos + headSize + 0 < 2 ^ 32 := hpos
  simpa [hhead] using foxWriteHead_next hzero us pad

section Faithful

variable {sio : SetupIO} {io : WriteIO} {fs fs₁ : Fs} {man man₁ : FoxManager} {d : FoxDate}
  {name : FName} {es : List Entry} {us : UInt64} {data : Bytes} {res : ℤ}

def WriteFaithful (C : List Entry → Prop) (sio : SetupIO) (io : WriteIO) (fs : Fs)
    (man man₁ : FoxManager) (d : FoxDate) (name : FName) (es : List Entry) (us : UInt64)
    (data : Bytes) : Prop :=
  ∃ ret man' fs', foxWrite sio io fs man d us data = some (ret, man', fs') ∧
    AppendFaithful C d name es (foxWriteEntry man₁ us data io.pad) ret man' fs'

variable {C : List Entry → Prop}

theorem WriteFaithful.of_clean (hday : foxWriteDay sio fs man d us = some (res, man₁, fs₁))
    (hres : 0 ≤ res) (hnow : man₁.now ≤ us) (hw : WriterOn fs₁ man₁ d name es)
    (happ : ∀ us data pad, (content es).length + headSize + data.length < 2 ^ 32 →
      C (es ++ [foxWriteEntry man₁ us data pad]))
    (hclean : io.Clean (content es).length data.length) :
    WriteFaithful C sio io fs man man₁ d name es us data := by
  have hcall := foxWrite_of_day hday (by omega) hnow io data
  -- a negative result with nothing appended: the writer is where it was
  have hsame (ret : ℤ) (hret : ret < 0) : AppendFaithful C d name es
      (foxWriteEntry man₁ us data io.pad) ret man₁ (appendFd fs₁ man₁.fd []) := by
    refine ⟨fun h => absurd h (by omega), fun _ us' data' pad' hnow' hfit => ?_⟩
    rw [hw.appendFd_nil] at hfit ⊢
    rw [hw.file, getD_some] at hfit
    exact ⟨_, _, _, foxWrite_append hw hnow' .ok data' pad', Function.update_self ..,
      happ us' data' pad' hfit, by simp⟩
  rcases Bool.eq_false_or_eq_true io.lock with hlock | hlock
  · obtain ⟨bs, hlen, hbs, hdata⟩ := foxWriteData_locked hlock man₁ us data
    rw [hdata] at hcall
    rcases hclean with h | ⟨hun, hzero | hfull⟩ | ⟨hun, hcomplete, hfit⟩
    · exact absurd hlock (by simp [h])
    · have hnil : bs = [] := eq_nil_of_length_eq_zero (by omega)
      rw [hnil, hun] at hcall
      simp only [Bool.false_eq_true, if_false, and_false] at hcall
      exact ⟨_, _, _, hcall, hsame (-EACCES) (by decide)⟩
    · -- no record fits behind the bytes that were written
      rw [hun] at hcall
      simp only [Bool.false_eq_true, if_false, and_false, hw.appendFd] at hcall
      refine ⟨_, _, _, hcall, fun h => absurd h (by decide), fun _ us' data' pad' _ hfit => ?_⟩
      rw [Function.update_self, getD_some, length_append] at hfit
      omega
    · rw [hbs hcomplete, hun] at hcall
      obtain ⟨k₁, k₂, hk₁, hk₂, -⟩ := hcomplete
      simp only [hk₁, hk₂, isSome_some, and_self, if_true, hw.appendFd] at hcall
      refine ⟨_, _, _, hcall, fun _ => ⟨?_, ?_⟩, fun h => absurd h (by decide)⟩
      · rw [Function.update_self, content_append, content_singleton]
      · exact (hw.advance hfit us io.pad).pos
  · have hdata : foxWriteData io man₁ us data = (-EACCES, man₁, []) := by
      simp [foxWriteData, hlock]
    rw [hdata] at hcall
    exact ⟨_, _, _, hcall, hsame (-EACCES) (by decide)⟩

theorem AppendFaithful.complete {bs : Bytes} (hw : WriterOn fs₁ man₁ d name es)
    (hlen : bs.length = io.written data.length)
    (hfaith : AppendFaithful C d name es (foxWriteEntry man₁ us data io.pad) 0
      (if io.head.isSome ∧ io.data.isSome then man₁.advance us data.length io.pad else man₁)
      (Function.update fs₁ name (some (content es ++ bs)))) :
    io.Complete data.length ∧ (content es).length + headSize + data.length < 2 ^ 32 := by
  obtain ⟨hgot, hpos⟩ := hfaith.success le_rfl
  rw [Function.update_self, content_append, content_singleton, some.injEq,
    append_cancel_left_eq] at hgot
  have hwhole : io.written data.length = headSize + data.length := by
    rw [← hlen, hgot]
    simp [foxWriteEntry]
  rw [content_append, content_singleton, length_append, Entry.length_bytes] at hpos
  by_cases hboth : io.head.isSome ∧ io.data.isSome
  · obtain ⟨k₁, hk₁⟩ := isSome_iff_exists.mp hboth.1
    obtain ⟨k₂, hk₂⟩ := isSome_iff_exists.mp hboth.2
    simp only [ WriteIO.written, hk₁, hk₂] at hwhole
    rw [if_pos hboth] at hpos
    have hlt := (foxWriteHead man₁ us data.length io.pad).next.toNat_lt
    simp only [FoxManager.advance, foxWriteEntry] at hpos
    exact ⟨⟨k₁, k₂, hk₁, hk₂, by omega, by omega⟩, by omega⟩
  · rw [if_neg hboth, hw.pos] at hpos
    simp [headSize] at hpos

theorem AppendFaithful.unwritten (hC : ∀ es, C es → Framed es) {e : Entry} {bs : Bytes} {ret : ℤ}
    (hret : ret < 0) (hw : WriterOn fs₁ man₁ d name es) (hnow : man₁.now ≤ us)
    (hfaith : AppendFaithful C d name es e ret man₁
      (Function.update fs₁ name (some (content es ++ bs)))) :
    bs.length = 0 ∨ 2 ^ 32 ≤ (content es).length + bs.length + headSize := by
  refine or_iff_not_imp_right.mpr fun hroom => ?_
  obtain ⟨man'', fs'', es', hcall', hfile', hCes, hlast⟩ :=
    hfaith.failure hret us [] 0 hnow (by
      rw [Function.update_self, getD_some, length_append, length_nil]
      omega)
  have hfs' : fs'' name = some (content es ++ bs ++ (foxWriteEntry man₁ us [] 0).bytes) := by
    rw [foxWrite_of_day (foxWriteDay_same hw.date ..) (by omega) hnow, foxWriteData_ok] at hcall'
    simp only [some.injEq, Prod.mk.injEq] at hcall'
    rw [← hcall'.2.2]
    simp only [hw.fd, appendFd, Function.update_self, getD_some]
    rfl
  rw [hfs', some.injEq] at hfile'
  have hend := (hC es' hCes).length_of_last (by rw [hw.pos]; omega) hfile'.symm hlast
  rw [← hfile', hw.pos] at hend
  simp [foxWriteEntry] at hend ⊢
  omega

theorem WriteFaithful.clean (hday : foxWriteDay sio fs man d us = some (res, man₁, fs₁))
    (hres : 0 ≤ res) (hnow : man₁.now ≤ us) (hw : WriterOn fs₁ man₁ d name es)
    (hC : ∀ es, C es → Framed es) (h : WriteFaithful C sio io fs man man₁ d name es us data) :
    io.Clean (content es).length data.length := by
  obtain ⟨ret, man', fs', hcall, hfaith⟩ := h
  rw [foxWrite_of_day hday (by omega) hnow] at hcall
  rcases Bool.eq_false_or_eq_true io.lock with hlock | hlock
  · obtain ⟨bs, hlen, -, hdata⟩ := foxWriteData_locked hlock man₁ us data
    rw [hdata] at hcall
    simp only [hw.appendFd, some.injEq, Prod.mk.injEq] at hcall
    obtain ⟨rfl, rfl, rfl⟩ := hcall
    rcases Bool.eq_false_or_eq_true io.unlock with hun | hun
    · simp only [hun, and_true, if_true] at hfaith
      exact Or.inr (Or.inr ⟨hun, hfaith.complete hw hlen⟩)
    · simp only [hun, Bool.false_eq_true, and_false, if_false] at hfaith
      have hleft := hfaith.unwritten hC (by decide) hw hnow
      rw [hlen] at hleft
      exact Or.inr (Or.inl ⟨hun, hleft⟩)
  · exact Or.inl hlock

theorem foxWrite_faithful_iff (hday : foxWriteDay sio fs man d us = some (res, man₁, fs₁))
    (hres : 0 ≤ res) (hnow : man₁.now ≤ us) (hw : WriterOn fs₁ man₁ d name es) :
    (WriteFaithful Framed sio io fs man man₁ d name es us data ↔
        io.Clean (content es).length data.length) ∧
      (Linked es → man₁.lastPos = off es (es.length - 1) →
        (WriteFaithful Linked sio io fs man man₁ d name es us data ↔
          io.Clean (content es).length data.length)) :=
  ⟨⟨WriteFaithful.clean hday hres hnow hw fun _ h => h,
    WriteFaithful.of_clean hday hres hnow hw fun us _ pad hfit =>
      hw.framed.append_entry hw.pos hfit us pad⟩,
    fun hl hlast => ⟨WriteFaithful.clean hday hres hnow hw fun _ h => h.toFramed,
      WriteFaithful.of_clean hday hres hnow hw fun us _ pad hfit =>
        hl.append_entry hw.pos hfit hlast us pad⟩⟩

def sampleFs : Fs := Function.update (fun _ => none) (packFname sampleDate) (some [])

def sampleWriter : FoxManager :=
  ⟨0, 0, 0, 0, some (packFname sampleDate), 0, 122, 11, 14⟩

theorem writerOn_sample :
    WriterOn sampleFs sampleWriter sampleDate (packFname sampleDate) [] where
  fd := rfl
  file := Function.update_self ..
  date := rfl
  framed := framed_nil
  pos := rfl

theorem foxWrite_faithful_sample :
    WriteFaithful Framed .ok (.ok 1 0) sampleFs sampleWriter { sampleWriter with newDay := 0 }
        sampleDate (packFname sampleDate) [] 5 [7] ∧
      WriteIO.Clean (.ok 1 0) 0 1 :=
  have hclean : WriteIO.Clean (.ok 1 0) 0 1 :=
    Or.inr (Or.inr ⟨rfl, ⟨headSize, 1, rfl, rfl, le_rfl, le_rfl⟩, by decide⟩)
  ⟨(foxWrite_faithful_iff (foxWriteDay_same rfl .ok sampleFs 5) le_rfl (by decide)
    writerOn_sample).1.2 hclean, hclean⟩

theorem foxWrite_failed_returns_zero :
    foxWrite .ok ⟨true, none, some 1, true, 0⟩ sampleFs sampleWriter sampleDate 5 [7] =
        some (0, sampleWriter, sampleFs) ∧
      ¬ WriteFaithful Framed .ok ⟨true, none, some 1, true, 0⟩ sampleFs sampleWriter
        { sampleWriter with newDay := 0 } sampleDate
        (packFname sampleDate) [] 5 [7] := by
  constructor
  · rw [foxWrite_of_day (foxWriteDay_same rfl .ok sampleFs 5) (by decide) (by decide)]
    exact congrArg (fun fs => some (0, sampleWriter, fs)) writerOn_sample.appendFd_nil
  · intro h
    have hclean := h.clean (foxWriteDay_same rfl .ok sampleFs 5) le_rfl (by decide)
      writerOn_sample fun _ h => h
    obtain h | ⟨h, -⟩ | ⟨-, ⟨_, _, h, -⟩, -⟩ := hclean <;> simp at h

end Faithful

end Sysak.Fox
