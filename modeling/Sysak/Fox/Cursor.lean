/-
# Cursor moves
-/

import Sysak.Fox.Scan

namespace Sysak.Fox

open List Option

def firstNotBefore (es : List Entry) (k : ℕ) (t : UInt64) : ℕ :=
  (es.take k).findIdx fun e => decide (t ≤ e.head.tUs)

variable {m : ℕ}

section FirstNotBefore

variable {es : List Entry} {k : ℕ} {t : UInt64}

theorem firstNotBefore_le (es : List Entry) (k : ℕ) (t : UInt64) : firstNotBefore es k t ≤ k :=
  (findIdx_le_length).trans (length_take_le k es)

theorem lt_of_lt_firstNotBefore (hm : m < firstNotBefore es k t) (h : m < es.length) :
    es[m].head.tUs < t := by
  have hnot := not_of_lt_findIdx hm
  rw [getElem_take] at hnot
  simpa [UInt64.not_le] using hnot

theorem le_of_firstNotBefore_le (hs : Sorted es) (hk : k ≤ es.length) (hm : m < k)
    (h : firstNotBefore es k t ≤ m) : t ≤ es[m].head.tUs := by
  have hlt : (es.take k).findIdx (fun e => decide (t ≤ e.head.tUs)) < (es.take k).length := by
    rw [length_take, Nat.min_eq_left hk]
    exact lt_of_le_of_lt h hm
  have hat := findIdx_getElem (w := hlt)
  rw [getElem_take, decide_eq_true_eq] at hat
  exact UInt64.le_trans hat (hs.le h (by omega))

theorem lt_firstNotBefore_iff (hs : Sorted es) (hk : k ≤ es.length) (hm : m < k) :
    m < firstNotBefore es k t ↔ es[m].head.tUs < t := by
  refine ⟨fun h => lt_of_lt_firstNotBefore h (by omega), fun h => ?_⟩
  by_contra hn
  exact absurd (le_of_firstNotBefore_le hs hk hm (by omega)) (UInt64.not_le.mpr h)

end FirstNotBefore

section Right

variable {file : Bytes} {es : List Entry} {k q : ℕ} {t : UInt64} {man : FoxManager}

theorem foxCursorRightLoop_older (gmtoff : ℤ) (hr : Readable file es) (hf : Framed es) {i : ℕ}
    (hi : i < k) (hk : k ≤ es.length) (hsize : man.fsize = off es k) (hsmall : off es i < 2 ^ 31)
    (hold : es[i].head.tUs < t) (fuel lastPos : ℕ) (head : FoxHead) :
    foxCursorRightLoop gmtoff file t (fuel + 1) lastPos (off es i) head man =
      foxCursorRightLoop gmtoff file t fuel (off es i) (off es (i + 1)) es[i].head man := by
  have hlt : off es i < off es k := off_lt hi hk
  rw [foxCursorRightLoop, hsize, if_neg (by omega), if_neg (by omega),
    if_neg (lseekInt_nonneg hsmall), hr i (by omega)]
  simp only [headSize_not_neg, if_false, UInt64.not_le.mpr hold,
    hf.next i (by omega)]

theorem foxCursorRightLoop_stop (gmtoff : ℤ) (hr : Readable file es) (hq : q ≤ k)
    (hk : k ≤ es.length) (hsize : man.fsize = off es k) (hsmall : q < k → off es q < 2 ^ 31)
    (hnew : ∀ h : q < es.length, q < k → t ≤ es[q].head.tUs) (fuel lastPos : ℕ)
    (head : FoxHead) :
    foxCursorRightLoop gmtoff file t (fuel + 1) lastPos (off es q) head man =
      some (0, { man with
        pos := off es q
        lastPos := lastPos
        now := nowAt (foxReadDayMax gmtoff man) es k q }) := by
  rcases Nat.lt_or_eq_of_le hq with hlt | rfl
  · have hoff : off es q < off es k := off_lt hlt hk
    rw [foxCursorRightLoop, hsize, if_neg (by omega), if_neg (by omega),
      if_neg (lseekInt_nonneg (hsmall hlt)), hr q (by omega), nowAt_of_lt _ hlt hk]
    simp only [headSize_not_neg, if_false, hnew (by omega) hlt, if_true]
  · rw [foxCursorRightLoop, hsize, if_pos rfl, nowAt_of_ge _ _ le_rfl, ← hsize]

theorem foxCursorRightLoop_spec (gmtoff : ℤ) (hr : Readable file es) (hf : Framed es)
    (hq : q ≤ k) (hk : k ≤ es.length) (hsize : man.fsize = off es k)
    (hnew : ∀ h : q < es.length, q < k → t ≤ es[q].head.tUs) (n : ℕ) :
    ∀ (i fuel lastPos : ℕ) (head : FoxHead), i + n = q →
      (∀ m (h : m < es.length), i ≤ m → m < q → es[m].head.tUs < t) →
      (∀ m, i ≤ m → m ≤ q → m < k → off es m < 2 ^ 31) →
      foxCursorRightLoop gmtoff file t (fuel + n + 1) lastPos (off es i) head man =
        some (0, { man with
          pos := off es q
          lastPos := if n = 0 then lastPos else off es (q - 1)
          now := nowAt (foxReadDayMax gmtoff man) es k q }) := by
  induction n with
  | zero =>
    intro i fuel lastPos head hi _ hsmall
    obtain rfl : i = q := hi
    exact foxCursorRightLoop_stop gmtoff hr hq hk hsize (hsmall i le_rfl le_rfl) hnew ..
  | succ n ih =>
    intro i fuel lastPos head hi hold hsmall
    rw [← Nat.add_assoc, foxCursorRightLoop_older gmtoff hr hf (by omega) hk hsize
      (hsmall i le_rfl (by omega) (by omega)) (hold i (by omega) le_rfl (by omega)),
      ih (i + 1) fuel (off es i) _ (by omega) (fun m h hm => hold m h (by omega))
      (fun m hm => hsmall m (by omega))]
    by_cases hn : n = 0
    · subst hn
      simp only [if_true, Nat.succ_ne_zero, if_false, ← hi, Nat.zero_add, Nat.add_sub_cancel]
    · simp only [hn, if_false, Nat.succ_ne_zero]

theorem foxCursorRightLoop_big (gmtoff : ℤ) (hf : Framed es) {i : ℕ} (hi : i < k)
    (hk : k ≤ es.length) (hsize : man.fsize = off es k) (hbig : 2 ^ 31 ≤ off es i)
    (fuel lastPos : ℕ) (head : FoxHead) :
    foxCursorRightLoop gmtoff file t (fuel + 1) lastPos (off es i) head man =
      some (-EACCES, man) := by
  have hlt : off es i < off es k := off_lt hi hk
  rw [foxCursorRightLoop, hsize, if_neg (by omega), if_neg (by omega),
    if_pos (lseekInt_neg hbig (hf.off_lt i))]

theorem foxCursorRightLoop_err (gmtoff : ℤ) (hr : Readable file es) (hf : Framed es)
    (hk : k ≤ es.length) (hsize : man.fsize = off es k) (n : ℕ) :
    ∀ (i fuel lastPos : ℕ) (head : FoxHead), i + n < k →
      (∀ m (h : m < es.length), i ≤ m → m < i + n → es[m].head.tUs < t) →
      2 ^ 31 ≤ off es (i + n) →
      foxCursorRightLoop gmtoff file t (fuel + n + 1) lastPos (off es i) head man =
        some (-EACCES, man) := by
  induction n with
  | zero =>
    intro i fuel lastPos head hi _ hbig
    exact foxCursorRightLoop_big gmtoff hf hi hk hsize hbig ..
  | succ n ih =>
    intro i fuel lastPos head hi hold hbig
    rcases Nat.lt_or_ge (off es i) (2 ^ 31) with hsmall | hbig'
    · rw [← Nat.add_assoc, foxCursorRightLoop_older gmtoff hr hf (by omega) hk hsize hsmall
        (hold i (by omega) le_rfl (by omega))]
      refine ih (i + 1) fuel (off es i) _ (by omega)
        (fun m h hm hm' => hold m h (by omega) (by omega)) ?_
      rwa [show i + 1 + n = i + (n + 1) by omega]
    · exact foxCursorRightLoop_big gmtoff hf (by omega) hk hsize hbig' ..

end Right

def leftStop (s r : ℕ) : ℕ := if s < r then s + 1 else if r ≤ 1 then 0 else r

theorem leftStop_eq_iff {s r : ℕ} : leftStop s r = r ↔ r ≤ s + 1 ∧ (r = 1 → s = 0) := by
  unfold leftStop
  split_ifs <;> omega

theorem leftStop_le {s r k : ℕ} (hs : s < k) : leftStop s r ≤ k := by
  unfold leftStop
  split_ifs <;> omega

section Left

variable {file : Bytes} {es : List Entry} {k : ℕ} {t : UInt64}

theorem foxCursorLeftLoop_spec (hr : Readable file es) (hl : Linked es) (hs : Sorted es)
    (hk : k ≤ es.length) (dayMax : UInt64) (man : FoxManager) :
    ∀ (s fuel : ℕ) (lastTUs : UInt64) (head : FoxHead), s < k → s < fuel → off es s < 2 ^ 31 →
      foxCursorLeftLoop file t fuel (off es s) lastTUs head man =
        some (0, { man with
          pos := off es (leftStop s (firstNotBefore es k t))
          lastPos := off es (leftStop s (firstNotBefore es k t) - 1)
          now := if s < firstNotBefore es k t then lastTUs
            else nowAt dayMax es k (max (firstNotBefore es k t) (min s 1)) }) := by
  generalize hfirst : firstNotBefore es k t = r
  intro s
  induction s with
  | zero =>
    intro fuel lastTUs head hsk hfuel hsmall
    obtain ⟨fuel, rfl⟩ : ∃ m, fuel = m + 1 := ⟨fuel - 1, by omega⟩
    have hprev : es[0].head.prev.toNat = 0 := by rw [hl.prev 0 (by omega), off_zero]
    have hiff := lt_firstNotBefore_iff (t := t) hs hk hsk
    rw [hfirst] at hiff
    rw [foxCursorLeftLoop, if_neg (lseekInt_nonneg hsmall), hr 0 (by omega)]
    simp only [headSize_not_neg, if_false, ← hiff, hprev, if_true, leftStop,
      hl.next 0 (by omega)]
    by_cases hold : 0 < r
    · simp only [hold, if_true, Nat.add_sub_cancel]
    · obtain rfl : r = 0 := by omega
      simp only [lt_irrefl, if_false, Nat.zero_le, if_true, off_zero, Nat.zero_sub,
        Nat.zero_min, Nat.max_self, nowAt_of_lt _ hsk hk]
  | succ s ih =>
    intro fuel lastTUs head hsk hfuel hsmall
    obtain ⟨fuel, rfl⟩ : ∃ m, fuel = m + 1 := ⟨fuel - 1, by omega⟩
    have hprev : es[s + 1].head.prev.toNat = off es s := hl.prev (s + 1) (by omega)
    have hiff := lt_firstNotBefore_iff (t := t) hs hk hsk
    rw [hfirst] at hiff
    have hlt : off es s < off es (s + 1) := off_lt (Nat.lt_succ_self s) (by omega)
    rw [foxCursorLeftLoop, if_neg (lseekInt_nonneg hsmall), hr (s + 1) (by omega)]
    simp only [headSize_not_neg, if_false, ← hiff, hprev,
      hl.next (s + 1) (by omega)]
    by_cases hold : s + 1 < r
    · simp only [hold, if_true, leftStop, Nat.add_sub_cancel]
    · simp only [hold, if_false]
      by_cases hzero : s = 0
      · -- the record before is the first one, and the walk does not look at it
        subst hzero
        have hstop : leftStop 1 r = 0 := by
          unfold leftStop
          split_ifs <;> omega
        rw [if_pos (off_zero es), hstop, off_zero, show max r (min (0 + 1) 1) = 1 by omega,
          nowAt_of_lt _ hsk hk]
      · have hne : off es s ≠ 0 := by
          rw [Ne, off_eq_zero (by omega)]
          exact hzero
        have hstop : leftStop s r = leftStop (s + 1) r := by
          unfold leftStop
          split_ifs <;> omega
        rw [if_neg hne, ih fuel _ _ (by omega) (by omega) (by omega), hstop,
          show min (s + 1) 1 = min s 1 by omega]
        by_cases hsr : s < r
        · obtain rfl : r = s + 1 := by omega
          rw [if_pos hsr, show max (s + 1) (min s 1) = s + 1 by omega, nowAt_of_lt _ hsk hk]
        · rw [if_neg hsr]

theorem foxCursorLeftLoop_err (hf : Framed es) {s : ℕ} (hbig : 2 ^ 31 ≤ off es s) (fuel : ℕ)
    (lastTUs : UInt64) (head : FoxHead) (man : FoxManager) :
    foxCursorLeftLoop file t (fuel + 1) (off es s) lastTUs head man = some (-EACCES, man) := by
  rw [foxCursorLeftLoop, if_pos (lseekInt_neg hbig (hf.off_lt s))]

end Left

structure ReaderAt (es : List Entry) (man : FoxManager) (i j k : ℕ) : Prop where
  pos : man.pos = off es i
  lastPos : man.lastPos = off es j
  fsize : man.fsize = off es k
  pos_le : i ≤ k
  last_lt : j < k
  known : k ≤ es.length

def leftFrom (i j k : ℕ) : ℕ := if i = k then j else i

def MoveOk (es : List Entry) (i j k : ℕ) (now t : UInt64) : Prop :=
  if t < now then
    off es (leftFrom i j k) < 2 ^ 31 ∧ firstNotBefore es k t ≤ leftFrom i j k + 1 ∧
      (firstNotBefore es k t = 1 → leftFrom i j k = 0)
  else if now < t then
    i ≤ firstNotBefore es k t ∧
      ∀ m, i ≤ m → m ≤ firstNotBefore es k t → m < k → off es m < 2 ^ 31
  else
    i = firstNotBefore es k t

def MoveCorrect (gmtoff : ℤ) (junk : Junk) (file : Bytes) (man : FoxManager) (es : List Entry)
    (k : ℕ) (t : UInt64) : Prop :=
  ∃ man', foxCurMove gmtoff junk file man t = some (0, man') ∧
    man'.pos = off es (firstNotBefore es k t)

variable {gmtoff : ℤ} {junk : Junk}

section Move

variable {file : Bytes} {es : List Entry} {man : FoxManager} {i j k : ℕ} {t : UInt64}

theorem ReaderAt.leftStart (h : ReaderAt es man i j k) :
    man.leftStart = off es (leftFrom i j k) := by
  have hi := h.pos_le
  have hk := h.known
  rw [FoxManager.leftStart, leftFrom, h.pos, h.fsize, h.lastPos]
  simp only [off_inj (show i ≤ es.length by omega) hk]
  split_ifs <;> rfl

theorem ReaderAt.leftFrom_lt (h : ReaderAt es man i j k) : leftFrom i j k < k := by
  have hi := h.pos_le
  have hj := h.last_lt
  unfold leftFrom
  split_ifs <;> omega

theorem ReaderAt.cursorLeft (h : ReaderAt es man i j k) (hr : Readable file es) (hl : Linked es)
    (hs : Sorted es) (hlen : es.length ≤ file.length) (dayMax : UInt64) (junk : Junk) :
    foxCursorLeft junk file man t =
      if off es (leftFrom i j k) < 2 ^ 31 then
        some (0, { man with
          pos := off es (leftStop (leftFrom i j k) (firstNotBefore es k t))
          lastPos := off es (leftStop (leftFrom i j k) (firstNotBefore es k t) - 1)
          now := if leftFrom i j k < firstNotBefore es k t then man.now
            else nowAt dayMax es k (max (firstNotBefore es k t) (min (leftFrom i j k) 1)) })
      else some (-EACCES, man) := by
  have hlt := h.leftFrom_lt
  have hk := h.known
  rw [foxCursorLeft, h.leftStart]
  by_cases hsmall : off es (leftFrom i j k) < 2 ^ 31
  · rw [if_pos hsmall]
    exact foxCursorLeftLoop_spec hr hl hs hk dayMax man _ _ _ _ hlt (by omega) hsmall
  · rw [if_neg hsmall]
    exact foxCursorLeftLoop_err hl.toFramed (Nat.le_of_not_lt hsmall) ..

theorem ReaderAt.cursorRight (h : ReaderAt es man i j k) (hr : Readable file es)
    (hf : Framed es) (hs : Sorted es) (hlen : es.length ≤ file.length) (gmtoff : ℤ)
    (junk : Junk)
    (hsmall : ∀ m, i ≤ m → m ≤ max i (firstNotBefore es k t) → m < k → off es m < 2 ^ 31) :
    foxCursorRight gmtoff junk file man t =
      some (0, { man with
        pos := off es (max i (firstNotBefore es k t))
        lastPos := if firstNotBefore es k t ≤ i then man.lastPos
          else off es (firstNotBefore es k t - 1)
        now := nowAt (foxReadDayMax gmtoff man) es k (max i (firstNotBefore es k t)) }) := by
  have hk := h.known
  have hi := h.pos_le
  have hle := firstNotBefore_le es k t
  have hspec := foxCursorRightLoop_spec gmtoff hr hf (q := max i (firstNotBefore es k t))
    (by omega) hk h.fsize
    (fun _ hq => le_of_firstNotBefore_le hs hk hq (le_max_right ..))
    (max i (firstNotBefore es k t) - i) i
    (file.length + 1 - (max i (firstNotBefore es k t) - i)) man.lastPos junk.head (by omega)
    (fun m hm hm₁ hm₂ => lt_of_lt_firstNotBefore (k := k) (by omega) hm) hsmall
  rw [foxCursorRight, h.pos]
  rw [show file.length + 1 - (max i (firstNotBefore es k t) - i) +
    (max i (firstNotBefore es k t) - i) + 1 = file.length + 2 by omega] at hspec
  rw [hspec]
  by_cases hmax : firstNotBefore es k t ≤ i
  · simp only [max_eq_left hmax, Nat.sub_self, if_true, hmax]
  · simp only [max_eq_right (show i ≤ firstNotBefore es k t by omega), hmax, if_false,
      show firstNotBefore es k t - i ≠ 0 by omega]

theorem ReaderAt.cursorRight_err (h : ReaderAt es man i j k) (hr : Readable file es)
    (hf : Framed es) (hlen : es.length ≤ file.length) (gmtoff : ℤ) (junk : Junk) (hi : i ≤ m)
    (hm : m ≤ max i (firstNotBefore es k t)) (hmk : m < k) (hbig : 2 ^ 31 ≤ off es m) :
    foxCursorRight gmtoff junk file man t = some (-EACCES, man) := by
  have hk := h.known
  have herr := foxCursorRightLoop_err gmtoff hr hf hk h.fsize (t := t) (m - i) i
    (file.length + 1 - (m - i)) man.lastPos junk.head (by omega)
    (fun n hn _ hnm => lt_of_lt_firstNotBefore (k := k) (by omega) hn)
    (by rwa [Nat.add_sub_cancel' hi])
  rw [foxCursorRight, h.pos]
  rwa [show file.length + 1 - (m - i) + (m - i) + 1 = file.length + 2 by omega] at herr

theorem moveCorrect_err (h : foxCurMove gmtoff junk file man t = some (-EACCES, man)) :
    ¬ MoveCorrect gmtoff junk file man es k t := by
  rintro ⟨man', hcall, -⟩
  rw [h] at hcall
  have hret : -EACCES = 0 := congrArg Prod.fst (some.inj hcall)
  exact absurd hret (by decide)

theorem moveCorrect_at {man' : FoxManager} {q : ℕ}
    (h : foxCurMove gmtoff junk file man t = some (0, man')) (hpos : man'.pos = off es q)
    (hq : q ≤ k) (hk : k ≤ es.length) :
    MoveCorrect gmtoff junk file man es k t ↔ q = firstNotBefore es k t := by
  have hle := firstNotBefore_le es k t
  rw [← off_inj (show q ≤ es.length by omega) (show firstNotBefore es k t ≤ es.length by omega),
    ← hpos]
  refine ⟨?_, fun heq => ⟨man', h, heq⟩⟩
  rintro ⟨man'', hcall, heq⟩
  rw [h] at hcall
  cases hcall
  exact heq

theorem ReaderAt.moveCorrect_iff (h : ReaderAt es man i j k) (hr : Readable file es)
    (hl : Linked es) (hs : Sorted es) (hlen : es.length ≤ file.length) (gmtoff : ℤ)
    (junk : Junk) : MoveCorrect gmtoff junk file man es k t ↔ MoveOk es i j k man.now t := by
  have hi := h.pos_le
  have hle := firstNotBefore_le es k t
  have hmove : foxCurMove gmtoff junk file man t = foxCursor gmtoff junk file man t := rfl
  unfold MoveOk
  by_cases hlt : t < man.now
  · rw [if_pos hlt, ← leftStop_eq_iff]
    rw [foxCursor, if_pos hlt, h.cursorLeft hr hl hs hlen 0] at hmove
    by_cases hsmall : off es (leftFrom i j k) < 2 ^ 31
    · rw [if_pos hsmall] at hmove
      simp only [hsmall, true_and]
      exact moveCorrect_at hmove rfl (leftStop_le h.leftFrom_lt) h.known
    · rw [if_neg hsmall] at hmove
      simp only [hsmall, false_and, iff_false]
      exact moveCorrect_err hmove
  rw [if_neg hlt]
  by_cases hgt : man.now < t
  · rw [if_pos hgt]
    rw [foxCursor, if_neg hlt, if_pos hgt] at hmove
    by_cases hsmall : ∀ m, i ≤ m → m ≤ max i (firstNotBefore es k t) → m < k → off es m < 2 ^ 31
    · rw [h.cursorRight hr hl.toFramed hs hlen gmtoff junk hsmall] at hmove
      rw [moveCorrect_at hmove rfl (by omega) h.known]
      exact ⟨fun hmax => ⟨by omega, fun m h₁ h₂ => hsmall m h₁ (by omega)⟩, fun hm => by omega⟩
    · push Not at hsmall
      obtain ⟨m, h₁, h₂, h₃, hbig⟩ := hsmall
      rw [h.cursorRight_err hr hl.toFramed hlen gmtoff junk h₁ h₂ h₃ hbig] at hmove
      refine iff_of_false (moveCorrect_err hmove) fun hok => ?_
      have hir := hok.1
      exact absurd (hok.2 m h₁ (by omega) h₃) (by omega)
  · rw [if_neg hgt]
    rw [foxCursor, if_neg hlt, if_neg hgt] at hmove
    exact moveCorrect_at hmove h.pos hi h.known

end Move

def BackLinked (es : List Entry) : Prop :=
  ∀ i (h : i < es.length), ∃ j ≤ i, es[i].head.prev.toNat = off es j

variable {es : List Entry}

theorem Linked.backLinked (hl : Linked es) : BackLinked es :=
  fun i h => ⟨i - 1, Nat.sub_le i 1, hl.prev i h⟩

def MovedTo (es : List Entry) (k j : ℕ) (man man' : FoxManager) : Prop :=
  ∃ i' j' now, i' ≤ k ∧ (j' < k ∨ j' = j) ∧
    man' = { man with pos := off es i', lastPos := off es j', now := now }

section Frame

variable {file : Bytes} {es : List Entry} {k : ℕ} {t : UInt64} {man man' : FoxManager} {ret : ℤ}

theorem foxCursorLeftLoop_frame (hr : Readable file es) (hf : Framed es) (hb : BackLinked es)
    (hk : k ≤ es.length) {j : ℕ} (hsame : MovedTo es k j man man) (fuel : ℕ) :
    ∀ {s : ℕ} {lastTUs : UInt64} {head : FoxHead}, s < k →
      foxCursorLeftLoop file t fuel (off es s) lastTUs head man = some (ret, man') →
      MovedTo es k j man man' := by
  induction fuel with
  | zero =>
    intro s lastTUs head _ h
    cases h
  | succ fuel ih =>
    intro s lastTUs head hs h
    obtain ⟨p, hp, hprev⟩ := hb s (by omega)
    rw [foxCursorLeftLoop, hr s (by omega)] at h
    simp only [headSize_not_neg, if_false, hf.next s (by omega),
      hprev] at h
    split_ifs at h
    · cases h
      exact hsame
    · cases h
      exact ⟨s + 1, s, _, hs, Or.inl hs, rfl⟩
    · cases h
      exact ⟨0, 0, _, Nat.zero_le k, Or.inl (by omega), by rw [off_zero]⟩
    · exact ih (by omega) h

theorem foxCursorRightLoop_frame (hr : Readable file es) (hf : Framed es) (hk : k ≤ es.length)
    (hsize : man.fsize ≤ off es k) {j : ℕ} (hsame : MovedTo es k j man man) (fuel : ℕ) :
    ∀ {i l : ℕ} {head : FoxHead}, i ≤ k → (l < k ∨ l = j) →
      foxCursorRightLoop gmtoff file t fuel (off es l) (off es i) head man = some (ret, man') →
      MovedTo es k j man man' := by
  induction fuel with
  | zero =>
    intro i l head _ _ h
    cases h
  | succ fuel ih =>
    intro i l head hi hl h
    rw [foxCursorRightLoop] at h
    by_cases hend : off es i = man.fsize
    · simp only [hend, if_true] at h
      cases h
      exact ⟨i, l, _, hi, hl, by rw [hend]⟩
    · simp only [hend, if_false] at h
      by_cases hover : man.fsize < off es i
      · simp only [hover, if_true] at h
        cases h
        exact hsame
      · have hik : i < k := (off_lt_iff hk).mp (by omega)
        simp only [hover, if_false, hr i (by omega), headSize_not_neg,
          hf.next i (by omega)] at h
        split_ifs at h
        · cases h
          exact hsame
        · cases h
          exact ⟨i, l, _, hi, hl, rfl⟩
        · exact ih hik (Or.inl hik) h

theorem foxCursor_frame (hr : Readable file es) (hf : Framed es) (hb : BackLinked es)
    (hk : k ≤ es.length) (hsize : man.fsize ≤ off es k) {i j : ℕ} (hi : i ≤ k)
    (hpos : man.pos = off es i) (hlast : man.lastPos = off es j)
    (hleft : t < man.now → ∃ s < k, man.leftStart = off es s)
    (h : foxCursor gmtoff junk file man t = some (ret, man')) : MovedTo es k j man man' := by
  have hsame : MovedTo es k j man man :=
    ⟨i, j, man.now, hi, Or.inr rfl, by rw [← hpos, ← hlast]⟩
  unfold foxCursor at h
  split_ifs at h with hlt hgt
  · obtain ⟨s, hs, hstart⟩ := hleft hlt
    rw [foxCursorLeft, hstart] at h
    exact foxCursorLeftLoop_frame hr hf hb hk hsame _ hs h
  · rw [foxCursorRight, hpos, hlast] at h
    exact foxCursorRightLoop_frame hr hf hk hsize hsame _ hi (Or.inr rfl) h
  · cases h
    exact hsame

end Frame

inductive ReaderCall where
  | setup (now : UInt64)
  | move (t : UInt64)
  | read (stop : UInt64)
  | resize

def dayFs (d : FoxDate) (file : Bytes) : Fs :=
  Function.update (fun _ => none) (packFname d) (some file)

@[simp] theorem dayFs_self (d : FoxDate) (file : Bytes) :
    dayFs d file (packFname d) = some file := Function.update_self ..

def ReaderCall.run (gmtoff : ℤ) (junk : Junk) (d : FoxDate) (file : Bytes) (man : FoxManager) :
    ReaderCall → Option FoxManager
  | .setup now => (foxSetupRead gmtoff junk (dayFs d file) man d now).map Prod.snd
  | .move t => (foxCurMove gmtoff junk file man t).map Prod.snd
  | .read stop => some (foxRead gmtoff junk file man stop).2
  | .resize => (foxReadResize gmtoff junk (dayFs d file) man).map Prod.snd

structure OpenOn (d : FoxDate) (man : FoxManager) : Prop where
  fd : man.fd = some (packFname d)
  year : man.year = d.year
  mon : man.mon = d.mon
  mday : man.mday = d.mday

def ReaderGood (d : FoxDate) (es : List Entry) (man : FoxManager) : Prop :=
  man.fd ≠ none → OpenOn d man ∧ ∃ i j k, ReaderAt es man i j k

section Calls

variable {d : FoxDate} {es : List Entry} {man man' : FoxManager} {gmtoff : ℤ} {junk : Junk}
  {i j k : ℕ}

theorem ReaderAt.moved (h : ReaderAt es man i j k) {i' j' : ℕ} (hi : i' ≤ k) (hj : j' < k)
    (now : UInt64) :
    ReaderAt es { man with pos := off es i', lastPos := off es j', now := now } i' j' k :=
  ⟨rfl, rfl, h.fsize, hi, hj, h.known⟩

variable {ret : ℤ}

theorem ReaderAt.cursor_cases (h : ReaderAt es man i j k) (hl : Linked es) {t : UInt64}
    (hcall : foxCursor gmtoff junk (content es) man t = some (ret, man')) :
    ∃ i' j' now, i' ≤ k ∧ j' < k ∧
      man' = { man with pos := off es i', lastPos := off es j', now := now } := by
  obtain ⟨i', j', now, hi, hj, rfl⟩ := foxCursor_frame hl.readable_content hl.toFramed
    hl.backLinked h.known h.fsize.le h.pos_le h.pos h.lastPos
    (fun _ => ⟨_, h.leftFrom_lt, h.leftStart⟩) hcall
  have hj' : j' < k := hj.elim id fun heq => heq ▸ h.last_lt
  exact ⟨i', j', now, hi, hj', rfl⟩

theorem foxCurNext_frame (gmtoff : ℤ) (junk : Junk) (file : Bytes) (man : FoxManager)
    (head : FoxHead) : ∃ now, (foxCurNext gmtoff junk file man head).2 =
      { man with pos := head.next.toNat, now := now } := by
  unfold foxCurNext
  simp only
  split_ifs
  · exact ⟨man.now, rfl⟩
  · exact ⟨man.now, rfl⟩
  · exact ⟨_, rfl⟩
  · exact ⟨_, rfl⟩

theorem foxCurBack_frame (gmtoff : ℤ) (junk : Junk) (file : Bytes) (man : FoxManager) :
    ∃ now, (foxCurBack gmtoff junk file man).2 = { man with pos := man.lastPos, now := now } := by
  unfold foxCurBack
  simp only
  split_ifs
  · exact ⟨man.now, rfl⟩
  · exact ⟨man.now, rfl⟩
  · exact ⟨_, rfl⟩
  · exact ⟨_, rfl⟩

theorem foxRead_cases {file : Bytes} (hr : Readable file es) (hf : Framed es)
    (hi : i < es.length) (hpos : man.pos = off es i) (stop : UInt64) :
    (foxRead gmtoff junk file man stop).2 = man ∨
      ∃ now, (foxRead gmtoff junk file man stop).2 =
        { man with pos := off es (i + 1), now := now } := by
  obtain ⟨now, hnext⟩ := foxCurNext_frame gmtoff junk file man es[i].head
  rw [hf.next i hi] at hnext
  unfold foxRead
  rw [hpos, hr i hi]
  simp only [headSize_not_neg, if_false]
  split_ifs
  · exact Or.inl rfl
  · exact Or.inl rfl
  · exact Or.inr ⟨now, hnext⟩
  · exact Or.inr ⟨now, hnext⟩
  · exact Or.inl rfl

theorem ReaderAt.rewound (hpos : 0 < es.length) (gmtoff : ℤ) (d : FoxDate) (man : FoxManager) :
    ReaderAt es (man.rewound gmtoff d (content es).length) 0 0 es.length :=
  ⟨(off_zero es).symm, (off_zero es).symm, (off_length es).symm, Nat.zero_le _, hpos, le_rfl⟩

theorem ReaderGood.setup (hl : Linked es) (hpos : 0 < es.length) {d' : FoxDate}
    (hname : packFname d' = packFname d) (hy : d'.year = d.year) (hm : d'.mon = d.mon)
    (hd : d'.mday = d.mday) {now : UInt64}
    (hcall : foxSetupRead gmtoff junk (dayFs d (content es)) man d' now = some (ret, man')) :
    ReaderGood d es man' := by
  rw [foxSetupRead_eq (by rw [hname]; exact dayFs_self d (content es))] at hcall
  obtain ⟨⟨r, m⟩, hcur, heq⟩ := map_eq_some_iff.mp hcall
  have hat := ReaderAt.rewound hpos gmtoff d' man
  obtain ⟨i', j', t, hi, hj, rfl⟩ := hat.cursor_cases hl hcur
  by_cases hr : r < 0
  · simp only [hr, if_true, Prod.mk.injEq] at heq
    obtain ⟨-, rfl⟩ := heq
    exact fun h => absurd rfl h
  · simp only [hr, if_false, Prod.mk.injEq] at heq
    obtain ⟨-, rfl⟩ := heq
    exact fun _ => ⟨⟨congrArg some hname, hy, hm, hd⟩, i', j', _, hat.moved hi hj t⟩

theorem foxReadResize_cases {fs : Fs} (h : foxReadResize gmtoff junk fs man = some (ret, man')) :
    (man.fsize < fdSize fs man.fd ∧ man.pos = man.fsize ∧ ∃ now size,
        (size = man.fsize ∨ size = fdSize fs man.fd) ∧
          man' = { man with pos := man.lastPos, now := now, fsize := size }) ∨
      (man.fsize < fdSize fs man.fd ∧ man.pos ≠ man.fsize ∧
        man' = { man with fsize := fdSize fs man.fd }) ∨
      ∃ ret', foxSetupRead gmtoff junk fs man man.midnight (makeStamp gmtoff man.midnight) =
        some (ret', man') := by
  unfold foxReadResize at h
  by_cases hlt : man.fsize < fdSize fs man.fd
  · simp only [hlt, if_true] at h
    by_cases hend : man.pos = man.fsize
    · obtain ⟨now, hback⟩ := foxCurBack_frame gmtoff junk ((man.fd.bind fs).getD []) man
      simp only [hend, if_true, hback] at h
      refine Or.inl ⟨hlt, hend, now, ?_⟩
      split_ifs at h <;> cases h
      · exact ⟨_, Or.inl rfl, rfl⟩
      · exact ⟨_, Or.inr rfl, rfl⟩
    · simp only [hend, if_false] at h
      cases h
      exact Or.inr (Or.inl ⟨hlt, hend, rfl⟩)
  · simp only [hlt, if_false] at h
    obtain ⟨⟨r, m⟩, hsetup, heq⟩ := map_eq_some_iff.mp h
    refine Or.inr (Or.inr ⟨r, ?_⟩)
    rw [hsetup]
    simp only at heq
    split_ifs at heq <;> cases heq <;> rfl

theorem ReaderGood.resize (hl : Linked es) (hpos : 0 < es.length) (ho : OpenOn d man)
    (h : ReaderAt es man i j k)
    (hcall : foxReadResize gmtoff junk (dayFs d (content es)) man = some (ret, man')) :
    ReaderGood d es man' := by
  have hi := h.pos_le
  have hj := h.last_lt
  have hk := h.known
  have hsize : fdSize (dayFs d (content es)) man.fd = off es es.length := by
    rw [fdSize, ho.fd, bind_some, dayFs_self, off_length]
  rcases foxReadResize_cases hcall with
    ⟨-, -, now, size, hnew, rfl⟩ | ⟨hlt, -, rfl⟩ | ⟨ret', hsetup⟩
  · refine fun _ => ⟨⟨ho.fd, ho.year, ho.mon, ho.mday⟩, j, j, ?_⟩
    rcases hnew with rfl | rfl
    · exact ⟨k, h.lastPos, h.lastPos, h.fsize, hj.le, hj, hk⟩
    · exact ⟨es.length, h.lastPos, h.lastPos, hsize, by omega, by omega, le_rfl⟩
  · exact fun _ => ⟨⟨ho.fd, ho.year, ho.mon, ho.mday⟩, i, j, es.length, h.pos, h.lastPos, hsize,
      hi.trans hk, by omega, le_rfl⟩
  · have hname : packFname man.midnight = packFname d := by
      simp only [packFname, FoxManager.midnight, ho.year, ho.mon, ho.mday]
    exact ReaderGood.setup hl hpos hname ho.year ho.mon ho.mday hsetup

end Calls

structure ReaderWorld where
  es : List Entry
  man : FoxManager
  deriving DecidableEq, Repr

inductive ReaderOp where
  | append (e : Entry)
  | call (junk : Junk) (c : ReaderCall)

def ReaderWorld.step (gmtoff : ℤ) (d : FoxDate) (w : ReaderWorld) : ReaderOp → Option ReaderWorld
  | .append e => some ⟨w.es ++ [e], w.man⟩
  | .call junk c => (c.run gmtoff junk d (content w.es) w.man).map fun man => ⟨w.es, man⟩

def ReaderOk (w : ReaderWorld) : ReaderOp → Prop
  | .append e => Linked (w.es ++ [e]) ∧ Sorted (w.es ++ [e])
  | .call _ (.setup _) => True
  | .call _ (.read stop) =>
    w.man.fd ≠ none ∧ (w.man.pos < w.man.fsize ∨ stop < w.man.now)
  | .call _ _ => w.man.fd ≠ none

def ReaderWorld.Reaches (gmtoff : ℤ) (d : FoxDate) : ReaderWorld → ReaderWorld → Prop :=
  Relation.ReflTransGen fun w w' => ∃ op, ReaderOk w op ∧ w.step gmtoff d op = some w'

structure ReaderWorld.Good (d : FoxDate) (w : ReaderWorld) : Prop where
  linked : Linked w.es
  sorted : Sorted w.es
  nonempty : 0 < w.es.length
  reader : ReaderGood d w.es w.man

theorem ReaderAt.append {man : FoxManager} {i j k : ℕ} (h : ReaderAt es man i j k)
    (es' : List Entry) : ReaderAt (es ++ es') man i j k where
  pos := by rw [h.pos, off_append _ (h.pos_le.trans h.known)]
  lastPos := by rw [h.lastPos, off_append _ (h.last_lt.le.trans h.known)]
  fsize := by rw [h.fsize, off_append _ h.known]
  pos_le := h.pos_le
  last_lt := h.last_lt
  known := h.known.trans (by simp)

theorem ReaderWorld.Good.step {d : FoxDate} {w w' : ReaderWorld} (hg : w.Good d) {op : ReaderOp}
    (hok : ReaderOk w op) (h : w.step gmtoff d op = some w') : w'.Good d := by
  cases op with
  | append e =>
    cases h
    refine ⟨hok.1, hok.2, by simp, fun hfd => ?_⟩
    obtain ⟨ho, i, j, k, hat⟩ := hg.reader hfd
    exact ⟨ho, i, j, k, hat.append [e]⟩
  | call junk c =>
    obtain ⟨man, hrun, rfl⟩ := map_eq_some_iff.mp h
    refine ⟨hg.linked, hg.sorted, hg.nonempty, ?_⟩
    cases c with
    | setup now =>
      obtain ⟨⟨ret, m⟩, hcall, rfl⟩ := map_eq_some_iff.mp hrun
      exact ReaderGood.setup hg.linked hg.nonempty rfl rfl rfl rfl hcall
    | move t =>
      obtain ⟨⟨ret, m⟩, hcall, rfl⟩ := map_eq_some_iff.mp hrun
      obtain ⟨ho, i, j, k, hat⟩ := hg.reader hok
      obtain ⟨i', j', now, hi, hj, rfl⟩ := hat.cursor_cases hg.linked hcall
      exact fun _ => ⟨⟨ho.fd, ho.year, ho.mon, ho.mday⟩, i', j', k, hat.moved hi hj now⟩
    | read stop =>
      cases hrun
      obtain ⟨ho, i, j, k, hat⟩ := hg.reader hok.1
      rcases hok.2 with hlt | hstop
      · rw [hat.pos, hat.fsize, off_lt_iff hat.known] at hlt
        have hi : i < w.es.length := lt_of_lt_of_le hlt hat.known
        rcases foxRead_cases hg.linked.readable_content hg.linked.toFramed hi hat.pos stop
          with heq | ⟨now, heq⟩
        · rw [heq]
          exact fun _ => ⟨ho, i, j, k, hat⟩
        · rw [heq]
          exact fun _ => ⟨⟨ho.fd, ho.year, ho.mon, ho.mday⟩, i + 1, j, k,
            ⟨rfl, hat.lastPos, hat.fsize, hlt, hat.last_lt, hat.known⟩⟩
      · rw [foxRead_stop _ _ hstop]
        exact fun _ => ⟨ho, i, j, k, hat⟩
    | resize =>
      obtain ⟨⟨ret, m⟩, hcall, rfl⟩ := map_eq_some_iff.mp hrun
      obtain ⟨ho, i, j, k, hat⟩ := hg.reader hok
      exact ReaderGood.resize hg.linked hg.nonempty ho hat hcall

theorem ReaderWorld.Reaches.good {d : FoxDate} {w₀ w : ReaderWorld} (h₀ : w₀.Good d)
    (h : ReaderWorld.Reaches gmtoff d w₀ w) : w.Good d := by
  induction h with
  | refl => exact h₀
  | tail _ hstep ih =>
    obtain ⟨op, hok, hstep⟩ := hstep
    exact ih.step hok hstep

theorem ReaderWorld.good_zero {es : List Entry} (hl : Linked es) (hs : Sorted es)
    (hpos : 0 < es.length) (d : FoxDate) : ReaderWorld.Good d ⟨es, .zero⟩ :=
  ⟨hl, hs, hpos, fun h => absurd rfl h⟩

theorem foxCurMove_correct_iff {gmtoff : ℤ} {d : FoxDate} {es : List Entry} (hl : Linked es)
    (hs : Sorted es) (hpos : 0 < es.length) {w : ReaderWorld}
    (h : ReaderWorld.Reaches gmtoff d ⟨es, .zero⟩ w) (hopen : w.man.fd ≠ none) :
    ∃ i j k, ReaderAt w.es w.man i j k ∧ ∀ junk t,
      MoveCorrect gmtoff junk (content w.es) w.man w.es k t ↔
        MoveOk w.es i j k w.man.now t := by
  have hg := h.good (ReaderWorld.good_zero hl hs hpos d)
  obtain ⟨-, i, j, k, hat⟩ := hg.reader hopen
  exact ⟨i, j, k, hat, fun junk t => hat.moveCorrect_iff hg.linked.readable_content hg.linked
    hg.sorted (length_le_content w.es) gmtoff junk⟩

def sampleJunk : Junk := ⟨⟨0, 0, 0, 0, 0, 0⟩, fun _ => 0⟩

def sampleDay : List Entry := samplePair 1671000000000000 1671000000000010

theorem linked_sampleDay : Linked sampleDay := linked_samplePair ..

theorem sorted_sampleDay : Sorted sampleDay := by
  rw [Sorted]
  decide

def sampleReader : FoxManager :=
  ⟨1671062400000000, 50, 25, 50, some (packFname sampleDate), 0, 122, 11, 14⟩

theorem reaches_sampleReader :
    ReaderWorld.Reaches 0 sampleDate ⟨sampleDay, .zero⟩ ⟨sampleDay, sampleReader⟩ :=
  .single ⟨.call sampleJunk (.setup 1671000000000011), trivial, by decide⟩

theorem foxCurMove_correct_sample :
    ∃ i j k, ReaderAt sampleDay sampleReader i j k ∧ ∀ junk t,
      MoveCorrect 0 junk (content sampleDay) sampleReader sampleDay k t ↔
        MoveOk sampleDay i j k sampleReader.now t :=
  foxCurMove_correct_iff linked_sampleDay sorted_sampleDay (by decide) reaches_sampleReader
    (by decide)

theorem foxCurMove_skips_back :
    ReaderWorld.Reaches 0 sampleDate ⟨sampleDay, .zero⟩ ⟨sampleDay, sampleReader⟩ ∧
      dayFirst 0 sampleDate ≤ 1671000000000005 ∧ 1671000000000005 < dayEnd 0 sampleDate ∧
      foxCurMove 0 sampleJunk (content sampleDay) sampleReader 1671000000000005 =
        some (0, { sampleReader with pos := 0, lastPos := 0, now := 1671000000000010 }) ∧
      off sampleDay (firstNotBefore sampleDay 2 1671000000000005) = 25 :=
  ⟨reaches_sampleReader, by decide, by decide, by decide, by decide⟩

end Sysak.Fox
