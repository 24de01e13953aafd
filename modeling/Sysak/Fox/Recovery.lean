/-
# Opening a day file for writing
-/

import Sysak.Fox.Append

namespace Sysak.Fox

open List

def lastHead (head : FoxHead) (es : List Entry) : FoxHead := es.getLast?.elim head Entry.head

@[simp] theorem lastHead_nil (head : FoxHead) : lastHead head [] = head := rfl

theorem lastHead_cons (head : FoxHead) (e : Entry) (es : List Entry) :
    lastHead head (e :: es) = lastHead e.head es := by
  rw [lastHead, lastHead, getLast?_cons]
  cases es.getLast? <;> rfl

variable {es : List Entry}

theorem lastHead_of_pos (head : FoxHead) (h : 0 < es.length) :
    lastHead head es = es[es.length - 1].head := by
  rw [lastHead, getLast?_eq_getElem?, getElem?_eq_getElem (by omega), Option.elim_some]

theorem foxCheckHeadLoop_frame {file : Bytes} {man man' : FoxManager} {ret : ℤ} (fuel : ℕ) :
    ∀ {o : ℕ} {head : FoxHead}, foxCheckHeadLoop file fuel o head man = some (ret, man') →
      man' = { man with pos := man'.pos, lastPos := man'.lastPos } := by
  induction fuel with
  | zero =>
    intro o head h
    cases h
  | succ fuel ih =>
    intro o head h
    rw [foxCheckHeadLoop] at h
    generalize foxReadHead file o head = r at h
    obtain ⟨r, head'⟩ := r
    simp only at h
    split_ifs at h
    · exact ih h
    · cases h
      rfl
    · cases h
      rfl

theorem foxCheckHeadLoop_walk {file : Bytes} (hr : Readable file es) (hf : Framed es)
    (man : FoxManager) (fuel : ℕ) :
    ∀ (n i : ℕ) (head : FoxHead), i + n = es.length →
      foxCheckHeadLoop file (fuel + n) (off es i) head man =
        foxCheckHeadLoop file fuel (off es es.length) (lastHead head (es.drop i)) man := by
  intro n
  induction n with
  | zero =>
    intro i head h
    obtain rfl : i = es.length := by omega
    simp
  | succ n ih =>
    intro i head h
    have hi : i < es.length := by omega
    rw [← Nat.add_assoc, foxCheckHeadLoop, hr i hi head]
    simp only [headSize_pos, if_true]
    rw [hf.next i hi, ih (i + 1) _ (by omega), drop_eq_getElem_cons hi, lastHead_cons]

theorem foxCheckHead_eq (hf : Framed es) (rest : Bytes) (man : FoxManager) :
    ∃ fuel, 2 ≤ fuel ∧ foxCheckHead (content es ++ rest) man =
      foxCheckHeadLoop (content es ++ rest) fuel (content es).length
        (lastHead ⟨0, 0, 0, 0, 0, 0⟩ es) man := by
  have hle := length_le_content es
  refine ⟨(content es ++ rest).length + 2 - es.length, by rw [length_append]; omega, ?_⟩
  have hwalk := foxCheckHeadLoop_walk (hf.readable rest) hf man
    ((content es ++ rest).length + 2 - es.length) es.length 0 ⟨0, 0, 0, 0, 0, 0⟩ (by omega)
  rw [off_zero, drop_zero, off_length] at hwalk
  rw [← hwalk, foxCheckHead]
  congr 1
  rw [length_append]
  omega

theorem foxCheckHead_content (hf : Framed es) (man : FoxManager) :
    foxCheckHead (content es) man = some (0, { man with
      lastPos := (lastHead ⟨0, 0, 0, 0, 0, 0⟩ es).prev.toNat, pos := (content es).length }) := by
  obtain ⟨fuel, hfuel, heq⟩ := foxCheckHead_eq hf [] man
  obtain ⟨fuel, rfl⟩ : ∃ m, fuel = m + 1 := ⟨fuel - 1, by omega⟩
  rw [append_nil] at heq
  rw [heq, foxCheckHeadLoop, foxReadHead_eof (Nat.le_refl _)]
  rfl

def FoxManager.opened (man : FoxManager) (d : FoxDate) (now : UInt64) (es : List Entry) :
    FoxManager :=
  { man with
    now := now
    pos := (content es).length
    lastPos := (lastHead ⟨0, 0, 0, 0, 0, 0⟩ es).prev.toNat
    fd := some (packFname d)
    year := d.year
    mon := d.mon
    mday := d.mday }

variable {d : FoxDate}

theorem foxSetupWrite_content {fs : Fs} (hfile : (fs (packFname d)).getD [] = content es)
    (hf : Framed es) (man : FoxManager) (now : UInt64) :
    foxSetupWrite .ok fs man d now = some (0, man.opened d now es,
      Function.update fs (packFname d) (some (content es))) := by
  simp only [foxSetupWrite, foxCheck, SetupIO.ok, hfile, foxCheckHead_content hf, openCreate]
  rfl

theorem WriterOn.of_setup (hf : Framed es) (fs : Fs) (man : FoxManager) (now : UInt64) :
    WriterOn (Function.update fs (packFname d) (some (content es))) (man.opened d now es) d
      (packFname d) es where
  fd := rfl
  file := Function.update_self ..
  date := by simp [checkPmanDate, FoxManager.opened]
  framed := hf
  pos := rfl

theorem Linked.lastHead_prev (hl : Linked es) :
    (lastHead ⟨0, 0, 0, 0, 0, 0⟩ es).prev.toNat = off es (es.length - 2) := by
  rcases Nat.eq_zero_or_pos es.length with h | h
  · simp [length_eq_zero_iff.mp h]
  · rw [lastHead_of_pos _ h, hl.prev _ (by omega)]
    rfl

theorem Linked.lastHead_prev_eq_iff (hl : Linked es) :
    (lastHead ⟨0, 0, 0, 0, 0, 0⟩ es).prev.toNat = off es (es.length - 1) ↔ es.length ≤ 1 := by
  rw [hl.lastHead_prev, off_inj (by omega) (by omega)]
  omega

structure Sample where
  us : UInt64
  data : Bytes
  pad : UInt32
  deriving DecidableEq, Repr

def Sample.pair (s : Sample) : UInt64 × Bytes := (s.us, s.data)

def foxWrites (fs : Fs) (man : FoxManager) (d : FoxDate) : List Sample → Option (FoxManager × Fs)
  | [] => some (man, fs)
  | s :: ss =>
    (foxWrite .ok (.ok s.data.length s.pad) fs man d s.us s.data).bind fun (ret, man', fs') =>
      if ret = 0 then foxWrites fs' man' d ss else none

def accepted (now : UInt64) : List Sample → List Sample
  | [] => []
  | s :: ss => if now ≤ s.us then s :: accepted s.us ss else accepted now ss

def sampleBytes (ss : List Sample) : ℕ := (ss.map fun s => headSize + s.data.length).sum

theorem foxWrites_spec {name : FName} (ss : List Sample) :
    ∀ {fs : Fs} {man : FoxManager} {es : List Entry}, WriterOn fs man d name es →
      (content es).length + sampleBytes (accepted man.now ss) < 2 ^ 32 →
      ∃ man' fs' new, foxWrites fs man d ss = some (man', fs') ∧
        WriterOn fs' man' d name (es ++ new) ∧
        new.map Entry.pair = (accepted man.now ss).map Sample.pair ∧
        (Linked es → man.lastPos = off es (es.length - 1) → Linked (es ++ new)) ∧
        ∀ n, n ≠ name → fs' n = fs n := by
  induction ss with
  | nil =>
    intro fs man es hw _
    exact ⟨man, fs, [], rfl, by simpa using hw, rfl, fun hl _ => by simpa using hl,
      fun _ _ => rfl⟩
  | cons s ss ih =>
    intro fs man es hw hfit
    by_cases hnow : man.now ≤ s.us
    · simp only [accepted, hnow, if_true, sampleBytes, map_cons, sum_cons] at hfit
      have hone : (content es).length + headSize + s.data.length < 2 ^ 32 := by omega
      have hlen : (content (es ++ [foxWriteEntry man s.us s.data s.pad])).length =
          (content es).length + headSize + s.data.length := by
        rw [content_append, content_singleton, length_append, Entry.length_bytes,
          Nat.add_assoc]
        rfl
      obtain ⟨man', fs', new, hrun, hw', hnew, hlink, hframe⟩ :=
        ih (hw.advance hone s.us s.pad) (by
          rw [hlen]
          show _ + sampleBytes (accepted s.us ss) < _
          rw [sampleBytes]
          omega)
      refine ⟨man', fs', foxWriteEntry man s.us s.data s.pad :: new, ?_, ?_, ?_, ?_, ?_⟩
      · rw [foxWrites, foxWrite_append hw hnow]
        simpa using hrun
      · simpa using hw'
      · simp only [accepted, hnow, if_true, map_cons, hnew]
        rfl
      · intro hl hlast
        have hl' := hl.append_entry hw.pos hone hlast s.us s.pad
        have hend := off_append_singleton es (foxWriteEntry man s.us s.data s.pad)
        simpa using hlink hl' (hw.pos.trans hend.symm)
      · intro n hn
        rw [hframe n hn, Function.update_of_ne hn]
    · simp only [accepted, hnow, if_false] at hfit
      have hw₀ : WriterOn fs { man with newDay := 0 } d name es :=
        ⟨hw.fd, hw.file, hw.date, hw.framed, hw.pos⟩
      obtain ⟨man', fs', new, hrun, hw', hnew, hlink, hframe⟩ := ih hw₀ hfit
      refine ⟨man', fs', new, ?_, hw', ?_, hlink, hframe⟩
      · rw [foxWrites, foxWrite_reject hw.date hnow]
        simpa using hrun
      · simpa only [accepted, hnow, if_false] using hnew

end Sysak.Fox
