/-
# Offsets beyond 2 and 4 GiB
-/

import Sysak.Fox.Cursor

namespace Sysak.Fox

open List

def appendAll (man : FoxManager) (file : Bytes) :
    List (UInt64 × Bytes × UInt32) → FoxManager × Bytes
  | [] => (man, file)
  | (us, data, pad) :: recs =>
    let (_, man', bs) := foxWriteData (.ok data.length pad) man us data
    appendAll man' (file ++ bs) recs

theorem appendAll_cons (man : FoxManager) (file : Bytes) (us : UInt64) (data : Bytes)
    (pad : UInt32) (recs : List (UInt64 × Bytes × UInt32)) :
    appendAll man file ((us, data, pad) :: recs) =
      appendAll (man.advance us data.length pad) (file ++ (foxWriteEntry man us data pad).bytes)
        recs := by
  rw [appendAll, foxWriteData_ok]

theorem length_le_appendAll (recs : List (UInt64 × Bytes × UInt32)) :
    ∀ (man : FoxManager) (file : Bytes), file.length ≤ (appendAll man file recs).2.length := by
  induction recs with
  | nil => exact fun _ _ => le_rfl
  | cons r recs ih =>
    intro man file
    obtain ⟨us, data, pad⟩ := r
    rw [appendAll_cons]
    refine le_trans ?_ (ih _ _)
    rw [length_append]
    exact Nat.le_add_right _ _

theorem appendAll_pos (recs : List (UInt64 × Bytes × UInt32)) :
    ∀ {man : FoxManager} {file : Bytes}, man.pos = file.length →
      (appendAll man file recs).2.length < 2 ^ 32 →
      (appendAll man file recs).1.pos = (appendAll man file recs).2.length := by
  induction recs with
  | nil => exact fun h _ => h
  | cons r recs ih =>
    intro man file hpos hlt
    obtain ⟨us, data, pad⟩ := r
    rw [appendAll_cons] at hlt ⊢
    refine ih ?_ hlt
    have hle := length_le_appendAll recs (man.advance us data.length pad)
      (file ++ (foxWriteEntry man us data pad).bytes)
    rw [length_append, Entry.length_bytes] at hle ⊢
    have hfit : man.pos + headSize + data.length < 2 ^ 32 := by
      rw [hpos]
      exact lt_of_le_of_lt (by rw [Nat.add_assoc]; exact hle) hlt
    rw [FoxManager.advance, foxWriteHead_next hfit, hpos, Nat.add_assoc]
    rfl

def AppendExact (man : FoxManager) (file : Bytes) (us : UInt64) (data : Bytes) (pad : UInt32) :
    Prop :=
  let (_, man', bs) := foxWriteData (.ok data.length pad) man us data
  (foxWriteHead man us data.length pad).next.toNat = (file ++ bs).length ∧
    man'.pos = (file ++ bs).length

theorem append_exact_iff {man : FoxManager} {file : Bytes} (h : man.pos = file.length)
    (recs : List (UInt64 × Bytes × UInt32)) (us : UInt64) (data : Bytes) (pad : UInt32) :
    AppendExact (appendAll man file recs).1 (appendAll man file recs).2 us data pad ↔
      (appendAll man file recs).2.length + headSize + data.length < 2 ^ 32 := by
  have hpos := appendAll_pos recs h
  generalize appendAll man file recs = s at hpos ⊢
  have hlen : (s.2 ++ (foxWriteEntry s.1 us data pad).bytes).length =
      s.2.length + headSize + data.length := by
    rw [length_append, Entry.length_bytes, Nat.add_assoc]
    rfl
  rw [AppendExact, foxWriteData_ok]
  show (foxWriteHead s.1 us data.length pad).next.toNat = _ ∧
    (foxWriteHead s.1 us data.length pad).next.toNat = _ ↔ _
  rw [and_self, hlen]
  constructor
  · intro hexact
    rw [← hexact]
    exact (foxWriteHead s.1 us data.length pad).next.toNat_lt
  · intro hlt
    have hend := hpos (by omega)
    rw [foxWriteHead_next (by omega), hend]

theorem lseekInt_neg_iff {p : ℕ} (h : p < 2 ^ 32) : lseekInt p < 0 ↔ 2 ^ 31 ≤ p := by
  constructor
  · intro hneg
    by_contra hsmall
    exact lseekInt_nonneg (by omega) hneg
  · exact fun hbig => lseekInt_neg hbig h

section Seeks

variable {es : List Entry} {t : UInt64} {man man' : FoxManager}

theorem foxCursorLeftLoop_reported {file : Bytes} (hr : Readable file es) (hl : Linked es)
    (fuel : ℕ) : ∀ {s : ℕ} {lastTUs : UInt64} {head : FoxHead}, s < es.length →
      foxCursorLeftLoop file t fuel (off es s) lastTUs head man = some (-EACCES, man') →
      2 ^ 31 ≤ off es s := by
  induction fuel with
  | zero =>
    intro s lastTUs head _ h
    cases h
  | succ fuel ih =>
    intro s lastTUs head hs h
    rw [foxCursorLeftLoop, hr s hs] at h
    simp only [headSize_not_neg, if_false, hl.prev s hs] at h
    split_ifs at h with hseek
    · exact (lseekInt_neg_iff (hl.off_lt s)).mp hseek
    · cases h
    · cases h
    · exact (ih (by omega) h).trans (off_mono es (Nat.sub_le s 1))

theorem foxCursorLeft_reported_iff (hl : Linked es) {i : ℕ} (hi : i < es.length) (junk : Junk)
    (hstart : man.leftStart = off es i) :
    foxCursorLeft junk (content es) man t = some (-EACCES, man) ↔ 2 ^ 31 ≤ off es i := by
  rw [foxCursorLeft, hstart]
  exact ⟨foxCursorLeftLoop_reported hl.readable_content hl _ hi,
    fun hbig => foxCursorLeftLoop_err hl.toFramed hbig _ _ _ _⟩

theorem foxCursorRight_reported_iff (hf : Framed es) (gmtoff : ℤ) (junk : Junk) {a i k : ℕ}
    (hai : a ≤ i) (hik : i < k) (hk : k ≤ es.length) (hpos : man.pos = off es a)
    (hsize : man.fsize = off es k)
    (hold : ∀ m (h : m < es.length), a ≤ m → m < i → es[m].head.tUs < t)
    (hnew : t ≤ es[i].head.tUs) :
    foxCursorRight gmtoff junk (content es) man t = some (-EACCES, man) ↔ 2 ^ 31 ≤ off es i := by
  obtain ⟨n, rfl⟩ := Nat.exists_eq_add_of_le hai
  obtain ⟨fuel, hfuel⟩ : ∃ fuel, (content es).length + 2 = fuel + n + 1 :=
    ⟨(content es).length + 1 - n, by have := length_le_content es; omega⟩
  rw [foxCursorRight, hpos, hfuel]
  constructor
  · intro hreported
    by_contra hsmall
    rw [foxCursorRightLoop_spec gmtoff hf.readable_content hf hik.le hk hsize (fun _ _ => hnew) n a
      fuel _ _ rfl hold fun m _ hm _ => ((off_mono es hm).trans_lt (Nat.lt_of_not_le hsmall))]
      at hreported
    simp [EACCES] at hreported
  · exact foxCursorRightLoop_err gmtoff hf.readable_content hf hk hsize n a fuel _ _ hik hold

theorem foxCurNext_reported_iff (hf : Framed es) (gmtoff : ℤ) (junk : Junk) {i k : ℕ}
    (hik : i < k) (hk : k ≤ es.length) (hsize : man.fsize = off es k) {head : FoxHead}
    (hnext : head.next.toNat = off es i) :
    (foxCurNext gmtoff junk (content es) man head).1 < 0 ↔ 2 ^ 31 ≤ off es i := by
  rw [← lseekInt_neg_iff (hf.off_lt i)]
  simp only [foxCurNext, hnext, hsize, off_lt hik hk, if_true, hf.readable_content i (by omega),
    headSize_not_neg, if_false]
  split_ifs with hseek
  · exact iff_of_true hseek hseek
  · exact iff_of_false headSize_not_neg hseek

theorem foxRead_reported_iff (hf : Framed es) (gmtoff : ℤ) (junk : Junk) {i : ℕ}
    (hi : i < es.length) (hpos : man.pos = off es i) {stop : UInt64} (hnow : man.now ≤ stop) :
    foxRead gmtoff junk (content es) man stop = (⟨-EACCES, 0, []⟩, man) ↔ 2 ^ 31 ≤ off es i := by
  rw [← lseekInt_neg_iff (hf.off_lt i)]
  constructor
  · intro hreported
    by_contra hseek
    simp only [foxRead, hnow, if_true, hpos, hseek, if_false, hf.readable_content i hi,
      headSize_not_neg] at hreported
    split_ifs at hreported with hsize hnext
    · simp [EACCES] at hreported
    · -- the next record lies elsewhere
      obtain ⟨now, hcur⟩ := foxCurNext_frame gmtoff junk (content es) man es[i].head
      have hmoved : es[i].head.next.toNat = man.pos := by
        rw [hcur] at hreported
        exact congrArg (fun r => r.2.pos) hreported
      rw [hf.next i hi, hpos] at hmoved
      exact absurd hmoved (off_lt (Nat.lt_succ_self i) hi).ne'
    · have hret : toInt (es[i].head.next.toNat - off es i - headSize) = -EACCES :=
        congrArg (fun r => r.1.ret) hreported
      exact hsize (by rw [hret]; decide)
  · intro hseek
    rw [foxRead, if_pos hnow, hpos, if_pos hseek]

end Seeks

structure SeeksTo (es : List Entry) (i : ℕ) (hi : i < es.length) : Prop where
  left : ∀ (junk : Junk) (man : FoxManager) (t : UInt64), man.leftStart = off es i →
    foxCursorLeft junk (content es) man t ≠ some (-EACCES, man)
  right : ∀ (gmtoff : ℤ) (junk : Junk) (man : FoxManager) (t : UInt64) (a k : ℕ), a ≤ i → i < k →
    k ≤ es.length → man.pos = off es a → man.fsize = off es k →
    (∀ m (h : m < es.length), a ≤ m → m < i → es[m].head.tUs < t) → t ≤ es[i].head.tUs →
    foxCursorRight gmtoff junk (content es) man t ≠ some (-EACCES, man)
  next : ∀ (gmtoff : ℤ) (junk : Junk) (man : FoxManager) (head : FoxHead) (k : ℕ), i < k →
    k ≤ es.length → man.fsize = off es k → head.next.toNat = off es i →
    ¬ (foxCurNext gmtoff junk (content es) man head).1 < 0
  read : ∀ (gmtoff : ℤ) (junk : Junk) (man : FoxManager) (stop : UInt64), man.pos = off es i →
    man.now ≤ stop → foxRead gmtoff junk (content es) man stop ≠ (⟨-EACCES, 0, []⟩, man)

theorem seeksTo_iff {es : List Entry} (hl : Linked es) {i : ℕ} (hi : i < es.length) :
    SeeksTo es i hi ↔ off es i < 2 ^ 31 := by
  constructor
  · intro h
    by_contra hbig
    have hpos : ({ FoxManager.zero with pos := off es i } : FoxManager).pos = off es i := rfl
    have hnow : (0 : UInt64) ≤ 0 := UInt64.le_refl 0
    exact h.read 0 sampleJunk _ 0 hpos hnow
      ((foxRead_reported_iff hl.toFramed 0 sampleJunk hi hpos hnow).mpr (Nat.le_of_not_lt hbig))
  · intro hsmall
    have hnot := Nat.not_le.mpr hsmall
    constructor
    · intro junk man t hstart
      exact (not_congr (foxCursorLeft_reported_iff hl hi junk hstart)).mpr hnot
    · intro gmtoff junk man t a k hai hik hk hpos hsize hold hnew
      exact (not_congr (foxCursorRight_reported_iff hl.toFramed gmtoff junk hai hik hk hpos hsize
        hold hnew)).mpr hnot
    · intro gmtoff junk man head k hik hk hsize hnext
      exact (not_congr
        (foxCurNext_reported_iff hl.toFramed gmtoff junk hik hk hsize hnext)).mpr hnot
    · intro gmtoff junk man stop hpos hnow
      exact (not_congr (foxRead_reported_iff hl.toFramed gmtoff junk hi hpos hnow)).mpr hnot

theorem positions_exact_iff {man : FoxManager} {file : Bytes} (h : man.pos = file.length)
    (recs : List (UInt64 × Bytes × UInt32)) (us : UInt64) (data : Bytes) (pad : UInt32)
    {es : List Entry} (hl : Linked es) {i : ℕ} (hi : i < es.length) :
    (AppendExact (appendAll man file recs).1 (appendAll man file recs).2 us data pad ↔
        (appendAll man file recs).2.length + headSize + data.length < 2 ^ 32) ∧
      (SeeksTo es i hi ↔ off es i < 2 ^ 31) :=
  ⟨append_exact_iff h recs us data pad, seeksTo_iff hl hi⟩

theorem positions_exact_sample :
    AppendExact (appendAll .zero [] [(5, [7], 0)]).1 (appendAll .zero [] [(5, [7], 0)]).2 6 [8] 0 ∧
      SeeksTo (samplePair 5 6) 1 (by decide) := by
  have hboth := positions_exact_iff (show FoxManager.zero.pos = ([] : Bytes).length from rfl)
    [(5, [7], 0)] 6 [8] 0 (linked_samplePair 5 6) (show 1 < (samplePair 5 6).length by decide)
  exact ⟨hboth.1.mpr (by decide), hboth.2.mpr (by decide)⟩

theorem appendAll_wraps {data : Bytes} (hlen : data.length = 2 ^ 31 - 1) :
    (appendAll .zero [] [(0, data, 0), (1, data, 0)]).1.pos = 46 ∧
      (appendAll .zero [] [(0, data, 0), (1, data, 0)]).2.length = 2 ^ 32 + 46 := by
  rw [appendAll_cons, appendAll_cons, appendAll]
  constructor
  · have hfirst : (FoxManager.zero.advance 0 data.length 0).pos = 2 ^ 31 + 23 := by
      rw [FoxManager.advance, hlen]
      rfl
    show (UInt32.ofNat ((FoxManager.zero.advance 0 data.length 0).pos + headSize +
      data.length)).toNat = 46
    rw [hfirst, hlen]
    rfl
  · simp only [nil_append, length_append, Entry.length_bytes]
    show headSize + data.length + (headSize + data.length) = _
    rw [hlen]
    rfl

def bigPair (data : Bytes) : List Entry :=
  [⟨⟨0, 2147483648, 0, foxMagic, 0, 0⟩, data⟩, ⟨⟨0, 2147483673, 1, foxMagic, 0, 0⟩, [8]⟩]

theorem off_bigPair {data : Bytes} (hlen : data.length = 2 ^ 31 - 24) :
    off (bigPair data) 1 = 2 ^ 31 ∧ off (bigPair data) 2 = 2 ^ 31 + 25 := by
  have hfirst : off (bigPair data) 1 = 2 ^ 31 := by
    rw [off_succ (show 0 < (bigPair data).length from Nat.succ_pos 1), off_zero]
    show 0 + headSize + data.length = 2 ^ 31
    rw [hlen]
    rfl
  refine ⟨hfirst, ?_⟩
  rw [off_succ (show 1 < (bigPair data).length from Nat.lt_succ_self 1), hfirst]
  rfl

theorem linked_bigPair {data : Bytes} (hlen : data.length = 2 ^ 31 - 24) :
    Linked (bigPair data) := by
  obtain ⟨hfirst, hsecond⟩ := off_bigPair hlen
  refine ⟨⟨fun i h => ?_, fun i h => ?_⟩, fun i h => ?_⟩ <;> change i < 2 at h
  · interval_cases i <;> rfl
  · interval_cases i
    · exact hfirst.symm
    · exact hsecond.symm
  · interval_cases i <;> exact (off_zero _).symm

theorem positions_wrap :
    (∃ data : Bytes, data.length = 2 ^ 31 - 1 ∧
        (appendAll .zero [] [(0, data, 0), (1, data, 0)]).1.pos = 46 ∧
        (appendAll .zero [] [(0, data, 0), (1, data, 0)]).2.length = 2 ^ 32 + 46) ∧
      ∃ data : Bytes, Linked (bigPair data) ∧ off (bigPair data) 1 = 2 ^ 31 ∧
        (foxRead 0 sampleJunk (content (bigPair data)) { FoxManager.zero with pos := 2 ^ 31 } 1).1 =
          ⟨-EACCES, 0, []⟩ := by
  constructor
  · have hlen : (replicate (2 ^ 31 - 1) (0 : UInt8)).length = 2 ^ 31 - 1 :=
      length_replicate
    exact ⟨_, hlen, appendAll_wraps hlen⟩
  · have hlen : (replicate (2 ^ 31 - 24) (0 : UInt8)).length = 2 ^ 31 - 24 :=
      length_replicate
    have hoff := (off_bigPair hlen).1
    have hseek : lseekInt (2 ^ 31) < 0 := lseekInt_neg le_rfl (by decide)
    refine ⟨_, linked_bigPair hlen, hoff, ?_⟩
    rw [foxRead, if_pos (by decide), if_pos hseek]

end Sysak.Fox
