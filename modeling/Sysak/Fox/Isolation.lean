/-
# A reader beside the writer
-/

import Sysak.Fox.Cursor

namespace Sysak.Fox

open List Option

structure SharedWorld where
  done : List Entry
  pending : Option Entry
  writer : FoxManager
  reader : FoxManager
  deriving DecidableEq, Repr

def SharedWorld.all (w : SharedWorld) : List Entry := w.done ++ w.pending.toList

def SharedWorld.file (w : SharedWorld) : Bytes :=
  content w.done ++ w.pending.elim [] fun e => e.head.encode

inductive SharedOp where
  | head (us : UInt64) (data : Bytes) (pad : UInt32)
  | data
  | call (junk : Junk) (c : ReaderCall)

def SharedWorld.step (gmtoff : ℤ) (d : FoxDate) (w : SharedWorld) : SharedOp → Option SharedWorld
  | .head us data pad =>
    match w.pending with
    | some _ => none
    | none => some { w with pending := some (foxWriteEntry w.writer us data pad) }
  | .data =>
    match w.pending with
    | some e => some { w with
        done := w.done ++ [e]
        pending := none
        writer := { w.writer with
          now := e.head.tUs, lastPos := w.writer.pos, pos := e.head.next.toNat } }
    | none => none
  | .call junk c =>
    (c.run gmtoff junk d w.file w.reader).map fun man => { w with reader := man }

variable {gmtoff : ℤ}

def SharedOk (gmtoff : ℤ) (d : FoxDate) (w : SharedWorld) : SharedOp → Prop
  | .head _ data _ => (content w.done).length + headSize + data.length < 2 ^ 32
  | .data => True
  | .call _ (.setup t) => t < dayFirst gmtoff d → headSize ≤ w.file.length
  | .call _ (.move t) =>
    w.reader.fd ≠ none ∧ (t < w.reader.now → w.reader.leftStart + headSize ≤ w.file.length)
  | .call _ (.read stop) =>
    w.reader.fd ≠ none ∧ (w.reader.now ≤ stop → w.reader.pos < (content w.done).length)
  | .call _ .resize => w.reader.fd ≠ none

def SharedWorld.Reaches (gmtoff : ℤ) (d : FoxDate) : SharedWorld → SharedWorld → Prop :=
  Relation.ReflTransGen fun w w' =>
    ∃ op, SharedOk gmtoff d w op ∧ w.step gmtoff d op = some w'

def SharedWorld.start (d : FoxDate) (now : UInt64) (es : List Entry) : SharedWorld :=
  ⟨es, none, FoxManager.zero.opened d now es, .zero⟩

def ReaderOn (d : FoxDate) (es : List Entry) (file : Bytes) (man : FoxManager) : Prop :=
  man.fd ≠ none → OpenOn d man ∧ man.fsize ≤ file.length ∧
    ∃ i j, i ≤ es.length ∧ j ≤ es.length ∧ man.pos = off es i ∧ man.lastPos = off es j

structure SharedWorld.Good (d : FoxDate) (w : SharedWorld) : Prop where
  framed : Framed w.all
  back : BackLinked w.all
  writerPos : w.writer.pos = (content w.done).length
  writerLast : ∃ j ≤ w.done.length, w.writer.lastPos = off w.done j
  reader : ReaderOn d w.all w.file w.reader

section Good

variable {d : FoxDate} {w : SharedWorld}

variable {i : ℕ}

theorem SharedWorld.off_done (w : SharedWorld) (h : i ≤ w.done.length) :
    off w.all i = off w.done i := off_append _ h

theorem SharedWorld.getElem_done (w : SharedWorld) (h : i < w.done.length) (h' : i < w.all.length) :
    w.all[i] = w.done[i] := getElem_append_left h

theorem SharedWorld.drop_file (w : SharedWorld) (h : i < w.all.length) :
    ∃ rest, w.file.drop (off w.all i) = w.all[i].head.encode ++ rest := by
  rcases Nat.lt_or_ge i w.done.length with hi | hi
  · rw [w.off_done hi.le, w.getElem_done hi h]
    exact ⟨_, drop_off_of_lt hi _⟩
  · obtain ⟨done, pending, writer, reader⟩ := w
    cases pending with
    | none => simp [SharedWorld.all] at h hi; omega
    | some e =>
      obtain rfl : i = done.length := by simp [SharedWorld.all] at h hi; omega
      refine ⟨[], ?_⟩
      simp [SharedWorld.file, SharedWorld.all, off_append, off_length]

theorem SharedWorld.Good.readable (hg : w.Good d) : Readable w.file w.all := by
  intro i h head
  obtain ⟨rest, hrest⟩ := w.drop_file h
  exact foxReadHead_encode hrest (hg.framed.magic i h) head

theorem SharedWorld.file_le (w : SharedWorld) : w.file.length ≤ off w.all w.all.length := by
  obtain ⟨done, pending, writer, reader⟩ := w
  rw [off_length]
  cases pending with
  | none => simp [SharedWorld.file, SharedWorld.all]
  | some e => simp [SharedWorld.file, SharedWorld.all, content_append, content_singleton]

theorem SharedWorld.hasPayload_file (w : SharedWorld) (h : i < w.done.length) :
    HasPayload w.file w.all i := by
  intro h'
  rw [w.off_done h.le, w.getElem_done h h']
  exact hasPayload_content w.done _ i h

theorem ReaderOn.grow {es : List Entry} {file file' : Bytes} {man : FoxManager}
    (h : ReaderOn d es file man) (es' : List Entry) (hfile : file.length ≤ file'.length) :
    ReaderOn d (es ++ es') file' man := by
  intro hfd
  obtain ⟨ho, hsize, i, j, hi, hj, hpos, hlast⟩ := h hfd
  exact ⟨ho, hsize.trans hfile, i, j, by simp; omega, by simp; omega, by rw [hpos, off_append _ hi],
    by rw [hlast, off_append _ hj]⟩

theorem SharedWorld.Good.setup (hg : w.Good d) {junk : Junk} {man man' : FoxManager} {d' : FoxDate}
    (hname : packFname d' = packFname d) (hy : d'.year = d.year) (hm : d'.mon = d.mon)
    (hd : d'.mday = d.mday) {t : UInt64} {ret : ℤ}
    (hleft : t < dayFirst gmtoff d' → headSize ≤ w.file.length)
    (hcall : foxSetupRead gmtoff junk (dayFs d w.file) man d' t = some (ret, man')) :
    ReaderOn d w.all w.file man' := by
  have hle := w.file_le
  rw [foxSetupRead_eq (by rw [hname]; exact dayFs_self d w.file)] at hcall
  obtain ⟨⟨r, m⟩, hcur, heq⟩ := map_eq_some_iff.mp hcall
  have hstart : (man.rewound gmtoff d' w.file.length).leftStart = off w.all 0 := by
    rw [FoxManager.leftStart, off_zero]
    split_ifs <;> rfl
  have hmoved : MovedTo w.all w.all.length 0 (man.rewound gmtoff d' w.file.length) m :=
    foxCursor_frame hg.readable hg.framed hg.back le_rfl hle (Nat.zero_le _)
      (off_zero _).symm (off_zero _).symm
      (fun h => ⟨0, (off_lt_iff le_rfl).mp (by
        have := hleft h
        have : 0 < headSize := by decide
        rw [off_zero]
        omega), hstart⟩) hcur
  obtain ⟨i', j', now, hi, hj, rfl⟩ := hmoved
  by_cases hr : r < 0
  · simp only [hr, if_true, Prod.mk.injEq] at heq
    obtain ⟨-, rfl⟩ := heq
    exact fun h => absurd rfl h
  · simp only [hr, if_false, Prod.mk.injEq] at heq
    obtain ⟨-, rfl⟩ := heq
    exact fun _ => ⟨⟨congrArg some hname, hy, hm, hd⟩, le_rfl, i', j', hi, by omega, rfl, rfl⟩

theorem SharedWorld.Good.call (hg : w.Good d) {junk : Junk} {c : ReaderCall}
    (hok : SharedOk gmtoff d w (.call junk c)) {man : FoxManager}
    (hrun : c.run gmtoff junk d w.file w.reader = some man) : ReaderOn d w.all w.file man := by
  have hle := w.file_le
  cases c with
  | setup t =>
    obtain ⟨⟨ret, m⟩, hcall, rfl⟩ := map_eq_some_iff.mp hrun
    exact hg.setup rfl rfl rfl rfl hok hcall
  | move t =>
    obtain ⟨⟨ret, m⟩, hcall, rfl⟩ := map_eq_some_iff.mp hrun
    obtain ⟨ho, hsize, i, j, hi, hj, hpos, hlast⟩ := hg.reader hok.1
    have hleft (h : t < w.reader.now) : ∃ s < w.all.length, w.reader.leftStart = off w.all s := by
      have hstart := hok.2 h
      have hpos' : 0 < headSize := by decide
      unfold FoxManager.leftStart at hstart ⊢
      split_ifs at hstart ⊢
      · exact ⟨j, (off_lt_iff le_rfl).mp (by omega), hlast⟩
      · exact ⟨i, (off_lt_iff le_rfl).mp (by omega), hpos⟩
    obtain ⟨i', j', now, hi', hj', rfl⟩ := foxCursor_frame hg.readable hg.framed hg.back le_rfl
      (hsize.trans hle) hi hpos hlast hleft hcall
    exact fun _ => ⟨⟨ho.fd, ho.year, ho.mon, ho.mday⟩, hsize, i', j', hi', by omega, rfl, rfl⟩
  | read stop =>
    cases hrun
    obtain ⟨ho, hsize, i, j, hi, hj, hpos, hlast⟩ := hg.reader hok.1
    by_cases hnow : w.reader.now ≤ stop
    · have hlt : i < w.all.length := by
        refine (off_lt_iff le_rfl).mp (lt_of_lt_of_le (hpos ▸ hok.2 hnow) ?_)
        rw [← off_length, ← w.off_done le_rfl]
        exact off_mono _ (by simp [SharedWorld.all])
      rcases foxRead_cases hg.readable hg.framed hlt hpos stop with heq | ⟨now, heq⟩
      · rw [heq]
        exact fun _ => ⟨ho, hsize, i, j, hi, hj, hpos, hlast⟩
      · rw [heq]
        exact fun _ => ⟨⟨ho.fd, ho.year, ho.mon, ho.mday⟩, hsize, i + 1, j, hlt, hj, rfl, hlast⟩
    · rw [foxRead_stop _ _ (UInt64.not_le.mp hnow)]
      exact fun _ => ⟨ho, hsize, i, j, hi, hj, hpos, hlast⟩
  | resize =>
    obtain ⟨⟨ret, m⟩, hcall, rfl⟩ := map_eq_some_iff.mp hrun
    obtain ⟨ho, hsize, i, j, hi, hj, hpos, hlast⟩ := hg.reader hok
    have hfd : fdSize (dayFs d w.file) w.reader.fd = w.file.length := by
      rw [fdSize, ho.fd, bind_some, dayFs_self]
    rcases foxReadResize_cases hcall with
      ⟨-, -, now, size, hnew, rfl⟩ | ⟨-, -, rfl⟩ | ⟨ret', hsetup⟩
    · have hsize' : size ≤ w.file.length := by omega
      exact fun _ => ⟨⟨ho.fd, ho.year, ho.mon, ho.mday⟩, hsize', j, j, hj, hj, hlast, hlast⟩
    · exact fun _ => ⟨⟨ho.fd, ho.year, ho.mon, ho.mday⟩, hfd.le, i, j, hi, hj, hpos, hlast⟩
    · have hname : packFname w.reader.midnight = packFname d := by
        simp only [packFname, FoxManager.midnight, ho.year, ho.mon, ho.mday]
      exact hg.setup hname ho.year ho.mon ho.mday (fun h => absurd h (UInt64.lt_irrefl _)) hsetup

theorem SharedWorld.Good.head (hg : w.Good d) (hp : w.pending = none) {us : UInt64}
    {data : Bytes} {pad : UInt32}
    (hfit : (content w.done).length + headSize + data.length < 2 ^ 32) :
    SharedWorld.Good d { w with pending := some (foxWriteEntry w.writer us data pad) } := by
  have hall : w.all = w.done := by simp [SharedWorld.all, hp]
  have hf : Framed w.done := hall ▸ hg.framed
  obtain ⟨j, hj, hlast⟩ := hg.writerLast
  refine ⟨hf.append_entry hg.writerPos hfit us pad, ?_, hg.writerPos, hg.writerLast, ?_⟩
  · intro i h
    rcases Nat.lt_or_ge i w.done.length with hi | hi
    · obtain ⟨p, hp', hprev⟩ := hg.back i (hall ▸ hi)
      refine ⟨p, hp', ?_⟩
      simp only [SharedWorld.all] at hprev ⊢
      rw [getElem_append_left hi, off_append _ (by omega)]
      simpa [SharedWorld.all, hp] using hprev
    · have hie : i = w.done.length := by
        simp [SharedWorld.all] at h
        omega
      subst hie
      refine ⟨j, hj, ?_⟩
      simp only [SharedWorld.all, toList_some]
      rw [off_append _ hj, ← hlast, getElem_concat_length rfl]
      exact foxWriteHead_prev (hlast ▸ hf.off_lt j) us _ pad
  · have hlonger : w.file.length ≤ (SharedWorld.file { w with
        pending := some (foxWriteEntry w.writer us data pad) }).length := by
      simp [SharedWorld.file, hp]
    have hgrow := hg.reader.grow [foxWriteEntry w.writer us data pad] hlonger
    rwa [hall] at hgrow

theorem SharedWorld.Good.data (hg : w.Good d) {e : Entry} (hp : w.pending = some e) :
    SharedWorld.Good d { w with
      done := w.done ++ [e]
      pending := none
      writer := { w.writer with
        now := e.head.tUs, lastPos := w.writer.pos, pos := e.head.next.toNat } } := by
  have hall : w.all = w.done ++ [e] := by simp [SharedWorld.all, hp]
  have hf : Framed (w.done ++ [e]) := hall ▸ hg.framed
  have hnext : e.head.next.toNat = (content (w.done ++ [e])).length := by
    have h := hf.next w.done.length (by simp)
    rw [getElem_concat_length rfl] at h
    rw [h, ← off_length]
    simp
  have hfile : w.file.length ≤ (content (w.done ++ [e])).length := by
    rw [← off_length, ← hall]
    exact w.file_le
  have hsame (w' : SharedWorld) (hd : w'.done = w.done ++ [e]) (hp' : w'.pending = none) :
      w'.all = w.all ∧ w'.file = content (w.done ++ [e]) := by
    simp [SharedWorld.all, SharedWorld.file, hd, hp', hp]
  obtain ⟨hall', hfile'⟩ := hsame { w with
      done := w.done ++ [e]
      pending := none
      writer := { w.writer with
        now := e.head.tUs, lastPos := w.writer.pos, pos := e.head.next.toNat } } rfl rfl
  refine ⟨hall' ▸ hg.framed, hall' ▸ hg.back, hnext, ⟨w.done.length, by simp, ?_⟩, ?_⟩
  · rw [off_append _ le_rfl, off_length, ← hg.writerPos]
  · rw [hall', hfile']
    have hgrow := hg.reader.grow [] hfile
    rwa [append_nil] at hgrow

theorem SharedWorld.Good.step (hg : w.Good d) {w' : SharedWorld} {op : SharedOp}
    (hok : SharedOk gmtoff d w op) (h : w.step gmtoff d op = some w') : w'.Good d := by
  cases op with
  | head us data pad =>
    simp only [SharedWorld.step] at h
    split at h
    · cases h
    · cases h
      exact hg.head ‹_› hok
  | data =>
    simp only [SharedWorld.step] at h
    split at h
    · cases h
      exact hg.data ‹_›
    · cases h
  | call junk c =>
    obtain ⟨man, hrun, rfl⟩ := map_eq_some_iff.mp h
    exact ⟨hg.framed, hg.back, hg.writerPos, hg.writerLast, hg.call hok hrun⟩

theorem SharedWorld.Reaches.good {w₀ : SharedWorld} (h₀ : w₀.Good d)
    (h : SharedWorld.Reaches gmtoff d w₀ w) : w.Good d := by
  induction h with
  | refl => exact h₀
  | tail _ hstep ih =>
    obtain ⟨op, hok, hstep⟩ := hstep
    exact ih.step hok hstep

theorem SharedWorld.good_start {es : List Entry} (hl : Linked es) (now : UInt64) :
    (SharedWorld.start d now es).Good d := by
  have hall : (SharedWorld.start d now es).all = es := append_nil es
  refine ⟨hall.symm ▸ hl.toFramed, hall.symm ▸ hl.backLinked, rfl,
    ⟨es.length - 2, by simp [SharedWorld.start], hl.lastHead_prev⟩, fun h => absurd rfl h⟩

theorem toInt_eq_of_pos {n : ℕ} (h : n < 2 ^ 32) (hpos : 0 < toInt n) : toInt n = n := by
  unfold toInt at hpos ⊢
  omega

theorem SharedWorld.Good.read (hg : w.Good d) (gmtoff : ℤ) (junk : Junk) {stop : UInt64}
    (hok : SharedOk gmtoff d w (.call junk (.read stop)))
    (hret : 0 < (foxRead gmtoff junk w.file w.reader stop).1.ret) :
    ∃ e ∈ w.done, (foxRead gmtoff junk w.file w.reader stop).1 =
      ⟨e.data.length, e.head.tUs, e.data⟩ := by
  obtain ⟨-, -, i, j, hi, hj, hpos, hlast⟩ := hg.reader hok.1
  by_cases hnow : w.reader.now ≤ stop
  · have hdone : i < w.done.length := by
      have hlt := hok.2 hnow
      rw [hpos, ← off_length, ← w.off_done le_rfl] at hlt
      exact (off_lt_iff (by simp [SharedWorld.all])).mp hlt
    have hall : i < w.all.length := by
      rw [SharedWorld.all, length_append]
      omega
    refine ⟨w.done[i], getElem_mem hdone, ?_⟩
    rw [← w.getElem_done hdone hall]
    have hnext := hg.framed.next i hall
    have hsucc := off_succ hall
    have hbound := hg.framed.off_lt (i + 1)
    have hsize : (w.all[i].head.next.toNat : ℤ) - (off w.all i : ℤ) - (headSize : ℤ) =
        (w.all[i].data.length : ℤ) := by omega
    unfold foxRead at hret ⊢
    simp only [hnow, if_true, hpos, hg.readable i hall, headSize_not_neg,
      if_false, hsize] at hret ⊢
    split_ifs at hret ⊢ with h₁ h₂ h₃
    · exact absurd hret (show ¬ (0 : ℤ) < -EACCES by decide)
    · exact absurd hret (lt_irrefl 0)
    · exact absurd (lt_trans hret h₃) (lt_irrefl 0)
    · have hlen := toInt_eq_of_pos (by omega) hret
      simp only [hlen, Int.toNat_natCast,
        foxReadStream_of_hasPayload (w.hasPayload_file hdone) hall]
  · rw [foxRead_stop _ _ (UInt64.not_le.mp hnow)] at hret
    exact absurd hret (lt_irrefl 0)

theorem SharedWorld.Good.read_pending (hg : w.Good d) (gmtoff : ℤ) (junk : Junk) {stop : UInt64}
    {e : Entry} (hp : w.pending = some e) (hfd : w.reader.fd ≠ none)
    (hpos : w.reader.pos = (content w.done).length) (hnow : w.reader.now ≤ stop)
    (hsmall : (content w.done).length < 2 ^ 31) (hlen : e.data.length < 2 ^ 31) :
    (foxRead gmtoff junk w.file w.reader stop).1 =
      ⟨e.data.length, e.head.tUs, (range e.data.length).map junk.heap⟩ := by
  obtain ⟨-, hsize, -⟩ := hg.reader hfd
  have hall : w.done.length < w.all.length := by simp [SharedWorld.all, hp]
  have hget : w.all[w.done.length] = e := by simp [SharedWorld.all, hp]
  have hoff : off w.all w.done.length = (content w.done).length := by
    rw [w.off_done le_rfl, off_length]
  have hfile : w.file.length = (content w.done).length + headSize := by
    simp [SharedWorld.file, hp]
  have hnext := hg.framed.next w.done.length hall
  have hsucc := off_succ hall
  rw [hget, hoff] at hsucc
  rw [hget] at hnext
  have hread := hg.readable w.done.length hall junk.head
  rw [hoff, hget] at hread
  have hdiff : (e.head.next.toNat : ℤ) - ((content w.done).length : ℤ) - (headSize : ℤ) =
      (e.data.length : ℤ) := by omega
  have hstream : foxReadStream junk w.file ((content w.done).length + headSize) e.data.length =
      (range e.data.length).map junk.heap := by
    rw [foxReadStream, drop_eq_nil_of_le hfile.le]
    simp
  have hcur : (foxCurNext gmtoff junk w.file w.reader e.head).1 = 0 := by
    simp only [foxCurNext, hnext]
    rw [if_neg (by omega)]
  simp only [foxRead, hnow, if_true, hpos, lseekInt_nonneg hsmall, if_false, hread,
    headSize_not_neg, hdiff, toInt_of_lt (Int.natCast_nonneg _)
      (show (e.data.length : ℤ) < 2 ^ 31 by omega),
    show ¬ ((e.data.length : ℤ) < 0) by omega, Int.toNat_natCast, hstream, hcur, lt_irrefl]

end Good

theorem foxRead_isolated {gmtoff : ℤ} {d : FoxDate} {es : List Entry} (hl : Linked es)
    (now : UInt64) {w : SharedWorld}
    (h : SharedWorld.Reaches gmtoff d (SharedWorld.start d now es) w) (junk : Junk)
    (stop : UInt64) :
    (SharedOk gmtoff d w (.call junk (.read stop)) →
      0 < (foxRead gmtoff junk w.file w.reader stop).1.ret →
      ∃ e ∈ w.done, (foxRead gmtoff junk w.file w.reader stop).1 =
        ⟨e.data.length, e.head.tUs, e.data⟩) ∧
    ∀ e, w.pending = some e → w.reader.fd ≠ none → w.reader.pos = (content w.done).length →
      w.reader.now ≤ stop → (content w.done).length < 2 ^ 31 → e.data.length < 2 ^ 31 →
      (foxRead gmtoff junk w.file w.reader stop).1 =
        ⟨e.data.length, e.head.tUs, (range e.data.length).map junk.heap⟩ := by
  have hg := h.good (SharedWorld.good_start hl now)
  exact ⟨hg.read gmtoff junk, fun e => hg.read_pending gmtoff junk⟩

def samplePending : SharedWorld where
  done := []
  pending := some ⟨⟨0, 25, 1671000000000000, foxMagic, 0, 0⟩, [7]⟩
  writer := FoxManager.zero.opened sampleDate 1671000000000000 []
  reader := ⟨1670976000000000, 0, 0, 24, some (packFname sampleDate), 0, 122, 11, 14⟩

def sampleAppended : SharedWorld where
  done := [⟨⟨0, 25, 1671000000000000, foxMagic, 0, 0⟩, [7]⟩]
  pending := none
  writer := { FoxManager.zero.opened sampleDate 1671000000000000 [] with
    now := 1671000000000000, lastPos := 0, pos := 25 }
  reader := samplePending.reader

theorem reaches_samplePending :
    SharedWorld.Reaches 0 sampleDate (SharedWorld.start sampleDate 1671000000000000 [])
      samplePending :=
  .tail (.single ⟨.head 1671000000000000 [7] 0, show 0 + headSize + 1 < 2 ^ 32 by decide, rfl⟩)
    ⟨.call sampleJunk (.setup 1670976000000000), fun h => absurd h (by decide), by decide⟩

theorem reaches_sampleAppended :
    SharedWorld.Reaches 0 sampleDate (SharedWorld.start sampleDate 1671000000000000 [])
      sampleAppended :=
  .tail reaches_samplePending ⟨.data, trivial, by decide⟩

theorem foxRead_isolated_sample :
    ∃ e ∈ sampleAppended.done,
      (foxRead 0 sampleJunk sampleAppended.file sampleAppended.reader 1671000000000000).1 =
        ⟨e.data.length, e.head.tUs, e.data⟩ :=
  (foxRead_isolated linked_nil 1671000000000000 reaches_sampleAppended sampleJunk
    1671000000000000).1 ⟨by decide, fun _ => by decide⟩ (by decide)

theorem foxRead_padded_payload :
    SharedWorld.Reaches 0 sampleDate (SharedWorld.start sampleDate 1671000000000000 [])
        samplePending ∧
      samplePending.done = [] ∧
      (foxRead 0 sampleJunk samplePending.file samplePending.reader 1671000000000000).1 =
        ⟨1, 1671000000000000, [0]⟩ :=
  ⟨reaches_samplePending, rfl, by decide⟩

end Sysak.Fox
