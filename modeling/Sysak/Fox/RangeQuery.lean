/-
# A range query on a fresh reader
-/

import Sysak.Fox.Cursor

namespace Sysak.Fox

open List Option

def readerFrom (gmtoff : ℤ) (junk : Junk) (fs : Fs) (d : FoxDate) (start : UInt64) :
    Option (ℤ × FoxManager) :=
  (foxSetupRead gmtoff junk fs .zero d start).bind fun (ret, man) =>
    if ret ≠ 0 then some (ret, man)
    else foxCurMove gmtoff junk ((fs (packFname d)).getD []) man start

def rangeQuery (gmtoff : ℤ) (junk : Junk) (fs : Fs) (d : FoxDate) (start stop : UInt64) :
    Option (List (UInt64 × Bytes)) :=
  (readerFrom gmtoff junk fs d start).bind fun (ret, man) =>
    if ret < 0 then none
    else if 0 < ret then some []
    else
      let file := (fs (packFname d)).getD []
      loadData gmtoff junk file stop (file.length + 1) man

section Load

variable {es : List Entry} {stop : UInt64} (gmtoff : ℤ) (junk : Junk)

def Payloads (es : List Entry) : Prop := ∀ e ∈ es, 0 < e.data.length ∧ e.data.length < 2 ^ 31

theorem loadData_at (hf : Framed es) (hdata : Payloads es) {i : ℕ} (hi : i < es.length)
    {man : FoxManager} (hpos : man.pos = off es i) (hsize : man.fsize = off es es.length)
    (hnow : man.now ≤ stop) (hsmall : off es i < 2 ^ 31)
    (hsmall' : i + 1 < es.length → off es (i + 1) < 2 ^ 31) (fuel : ℕ) :
    loadData gmtoff junk (content es) stop (fuel + 1) man =
      if i + 1 = es.length then some [es[i].pair]
      else (loadData gmtoff junk (content es) stop fuel { man with
        pos := off es (i + 1)
        now := nowAt (foxReadDayMax gmtoff man) es es.length (i + 1) }).map (es[i].pair :: ·) := by
  obtain ⟨hne, hlt⟩ := hdata _ (getElem_mem hi)
  rw [loadData, foxRead_at gmtoff junk hf.readable_content hf
    (by simpa using hasPayload_content es [] i) hi le_rfl hpos hsize hsmall hsmall' hlt hnow]
  simp only [show ¬ ((es[i].data.length : ℤ) < 0) by omega, if_false,
    show (0 : ℤ) < (es[i].data.length : ℤ) by omega, if_true, hsize,
    off_inj (Nat.le_refl es.length) (show i + 1 ≤ es.length from hi), eq_comm, Entry.pair]

theorem foxRead_big (hf : Framed es) (hdata : Payloads es) {i : ℕ} (hi : i < es.length)
    {man : FoxManager} (hpos : man.pos = off es i) (hsize : man.fsize = off es es.length)
    (hnow : man.now ≤ stop) (hbig : 2 ^ 31 ≤ off es (min (i + 1) (es.length - 1))) :
    (foxRead gmtoff junk (content es) man stop).1.ret < 0 := by
  rcases Nat.lt_or_ge (off es i) (2 ^ 31) with hsmall | hbig'
  · have hlast : i + 1 < es.length := by
      by_contra hge
      rw [show min (i + 1) (es.length - 1) = i by omega] at hbig
      omega
    rw [Nat.min_eq_left (by omega)] at hbig
    exact foxRead_next_err gmtoff junk hf.readable_content hf le_rfl hpos hsize hlast hsmall
      (hdata _ (getElem_mem hi)).2 hbig hnow
  · exact foxRead_seek_err gmtoff junk (hpos ▸ hbig') (hpos ▸ hf.off_lt i) hnow

theorem loadData_spec (hf : Framed es) (hdata : Payloads es) {q : ℕ} (hq : q ≤ es.length)
    (hnew : ∀ h : q < es.length, stop < es[q].head.tUs) (n : ℕ) :
    ∀ (i fuel : ℕ) (man : FoxManager), i + n + 1 = q → man.pos = off es i →
      man.fsize = off es es.length → man.now ≤ stop →
      (∀ m (h : m < es.length), i < m → m < q → es[m].head.tUs ≤ stop) →
      loadData gmtoff junk (content es) stop (fuel + n + 2) man =
        if off es (min q (es.length - 1)) < 2 ^ 31 then
          some (((es.drop i).take (n + 1)).map Entry.pair)
        else none := by
  have herr {man : FoxManager} {i : ℕ} (hiq : i + 1 ≤ q) (hpos : man.pos = off es i)
      (hsize : man.fsize = off es es.length) (hnow : man.now ≤ stop)
      (hbig : 2 ^ 31 ≤ off es (min (i + 1) (es.length - 1))) (fuel : ℕ) :
      loadData gmtoff junk (content es) stop (fuel + 1) man = none ∧
        ¬ off es (min q (es.length - 1)) < 2 ^ 31 := by
    have hfar := off_mono es (show min (i + 1) (es.length - 1) ≤ min q (es.length - 1) by omega)
    have hret := foxRead_big gmtoff junk hf hdata (by omega) hpos hsize hnow hbig
    exact ⟨by simp only [loadData, hret, if_true], by omega⟩
  induction n with
  | zero =>
    intro i fuel man hi hpos hsize hnow _
    obtain rfl : q = i + 1 := by omega
    rcases Nat.lt_or_ge (off es (min (i + 1) (es.length - 1))) (2 ^ 31) with hsmall | hbig
    · rw [loadData_at gmtoff junk hf hdata hq hpos hsize hnow
        (lt_of_le_of_lt (off_mono es (by omega)) hsmall)
        (fun h => by rwa [Nat.min_eq_left (by omega)] at hsmall), if_pos hsmall,
        drop_eq_getElem_cons hq]
      split_ifs with hend
      · rfl
      · -- the next record is newer than `stop`
        have hq' : i + 1 < es.length := by omega
        have hstop : stop < nowAt (foxReadDayMax gmtoff man) es es.length (i + 1) := by
          rw [nowAt_of_lt _ hq' le_rfl]
          exact hnew hq'
        rw [loadData, foxRead_stop gmtoff junk hstop]
        rfl
    · obtain ⟨hnone, hfar⟩ := herr le_rfl hpos hsize hnow hbig (fuel + 1)
      rw [if_neg hfar]
      exact hnone
  | succ n ih =>
    intro i fuel man hi hpos hsize hnow hold
    have hlt : i < es.length := by omega
    rcases Nat.lt_or_ge (off es (min (i + 1) (es.length - 1))) (2 ^ 31) with hsmall | hbig
    · have hnow' : nowAt (foxReadDayMax gmtoff man) es es.length (i + 1) ≤ stop := by
        rw [nowAt_of_lt _ (show i + 1 < es.length by omega) le_rfl]
        exact hold _ (by omega) (by omega) (by omega)
      rw [show fuel + (n + 1) + 2 = fuel + n + 2 + 1 by omega,
        loadData_at gmtoff junk hf hdata hlt hpos hsize hnow
          (lt_of_le_of_lt (off_mono es (by omega)) hsmall)
          (fun h => by rwa [Nat.min_eq_left (by omega)] at hsmall),
        if_neg (by omega),
        ih (i + 1) fuel { man with
            pos := off es (i + 1)
            now := nowAt (foxReadDayMax gmtoff man) es es.length (i + 1) }
          (by omega) rfl hsize hnow' (fun m h hm => hold m h (by omega)),
        drop_eq_getElem_cons hlt]
      split_ifs <;> rfl
    · obtain ⟨hnone, hfar⟩ := herr (by omega) hpos hsize hnow hbig (fuel + n + 2)
      rw [if_neg hfar]
      exact hnone

end Load

theorem add_one_le_iff {stop u t : UInt64} (h : stop < u) : stop + 1 ≤ t ↔ stop < t := by
  have hu := u.toNat_lt
  rw [UInt64.lt_iff_toNat_lt] at h ⊢
  rw [UInt64.le_iff_toNat_le, UInt64.toNat_add, UInt64.toNat_one, Nat.mod_eq_of_lt (by omega)]
  omega

theorem Sorted.filter_range {es : List Entry} (hs : Sorted es) {start stop u : UInt64}
    (hu : stop < u) :
    es.filter (fun e => decide (start ≤ e.head.tUs ∧ e.head.tUs ≤ stop)) =
      (es.drop (firstNotBefore es es.length start)).take
        (firstNotBefore es es.length (stop + 1) - firstNotBefore es es.length start) := by
  generalize hr : firstNotBefore es es.length start = r
  generalize hq : firstNotBefore es es.length (stop + 1) = q
  have hlow (m : ℕ) (h : m < es.length) : start ≤ es[m].head.tUs ↔ r ≤ m := by
    rw [← UInt64.not_lt, ← lt_firstNotBefore_iff hs le_rfl h, hr, Nat.not_lt]
  have hhigh (m : ℕ) (h : m < es.length) : es[m].head.tUs ≤ stop ↔ m < q := by
    rw [← UInt64.not_lt, ← add_one_le_iff hu, UInt64.not_le, ← lt_firstNotBefore_iff hs le_rfl h,
      hq]
  have hsplit : es = es.take r ++ ((es.drop r).take (q - r) ++ (es.drop r).drop (q - r)) := by
    rw [take_append_drop, take_append_drop]
  have hbefore : (es.take r).filter
      (fun e => decide (start ≤ e.head.tUs ∧ e.head.tUs ≤ stop)) = [] := by
    refine filter_eq_nil_iff.mpr fun e he => ?_
    obtain ⟨m, hm, rfl⟩ := mem_take_iff_getElem.mp he
    rw [decide_eq_true_eq, hlow m (by omega)]
    omega
  have hin : ((es.drop r).take (q - r)).filter
      (fun e => decide (start ≤ e.head.tUs ∧ e.head.tUs ≤ stop)) =
        (es.drop r).take (q - r) := by
    refine filter_eq_self.mpr fun e he => ?_
    obtain ⟨m, hm, rfl⟩ := mem_take_iff_getElem.mp he
    rw [length_drop] at hm
    rw [getElem_drop, decide_eq_true_eq, hlow _ (by omega), hhigh _ (by omega)]
    omega
  have hafter : ((es.drop r).drop (q - r)).filter
      (fun e => decide (start ≤ e.head.tUs ∧ e.head.tUs ≤ stop)) = [] := by
    refine filter_eq_nil_iff.mpr fun e he => ?_
    rw [drop_drop] at he
    obtain ⟨m, hm, rfl⟩ := mem_drop_iff_getElem.mp he
    rw [decide_eq_true_eq, hhigh _ (by omega)]
    omega
  conv_lhs => rw [hsplit]
  rw [filter_append, filter_append, hbefore, hin, hafter, nil_append,
    append_nil]

theorem foxReadDayMax_rewound (man : FoxManager) (gmtoff : ℤ) (d : FoxDate) (size : ℕ) :
    foxReadDayMax gmtoff (man.rewound gmtoff d size) = dayEnd gmtoff d := rfl

def freshAt (n r : ℕ) (start now : UInt64) : ℕ :=
  if r = 1 ∧ r < n ∧ start < now then 0 else r

theorem freshAt_of_ne {n r : ℕ} {start now : UInt64} (h : freshAt n r start now ≠ r) :
    r = 1 ∧ freshAt n r start now = 0 := by
  unfold freshAt at h ⊢
  split_ifs at h ⊢ with hback
  · exact ⟨hback.1, rfl⟩
  · exact absurd rfl h

section Fresh

variable {es : List Entry} {fs : Fs} {d : FoxDate} {start : UInt64} (gmtoff : ℤ) (junk : Junk)

theorem readerFrom_dayFirst {file : Bytes} (hfile : fs (packFname d) = some file) :
    readerFrom gmtoff junk fs d (dayFirst gmtoff d) =
      some (0, FoxManager.zero.rewound gmtoff d file.length) := by
  rw [readerFrom, foxSetupRead_dayFirst hfile, bind_some]
  simp only [ne_eq, not_true_eq_false, if_false, foxCurMove]
  rw [foxCursor, FoxManager.rewound_now, if_neg (UInt64.lt_irrefl _), if_neg (UInt64.lt_irrefl _)]

theorem readerFrom_err (hf : Framed es) (hpos : 0 < es.length)
    (hfile : fs (packFname d) = some (content es)) (hstart : dayFirst gmtoff d < start) {m : ℕ}
    (hm : m ≤ firstNotBefore es es.length start) (hlt : m < es.length)
    (hbig : 2 ^ 31 ≤ off es m) :
    ∃ man, readerFrom gmtoff junk fs d start = some (-EACCES, man) := by
  have hat := ReaderAt.rewound hpos gmtoff d .zero
  have herr := hat.cursorRight_err hf.readable_content hf (length_le_content es) gmtoff junk
    (t := start) (Nat.zero_le m) (by omega) hlt hbig
  refine ⟨{ FoxManager.zero.rewound gmtoff d (content es).length with fd := none }, ?_⟩
  rw [readerFrom, foxSetupRead_eq hfile, foxCursor, FoxManager.rewound_now,
    if_neg (UInt64.lt_asymm hstart), if_pos hstart, herr]
  rfl

theorem foxSetupRead_later (hl : Linked es) (hs : Sorted es) (hpos : 0 < es.length)
    (hfile : fs (packFname d) = some (content es)) (hstart : dayFirst gmtoff d < start)
    (hsmall : ∀ m, m ≤ firstNotBefore es es.length start → m < es.length → off es m < 2 ^ 31) :
    ∃ man, foxSetupRead gmtoff junk fs .zero d start = some (0, man) ∧
      man.now = nowAt (dayEnd gmtoff d) es es.length (firstNotBefore es es.length start) ∧
      ReaderAt es man (firstNotBefore es es.length start) (firstNotBefore es es.length start - 1)
        es.length := by
  have hle := firstNotBefore_le es es.length start
  have hright := (ReaderAt.rewound hpos gmtoff d .zero).cursorRight (t := start)
    hl.readable_content hl.toFramed hs (length_le_content es) gmtoff junk
    (fun m _ h => hsmall m (by omega))
  rw [foxReadDayMax_rewound, Nat.zero_max] at hright
  have hcall := foxSetupRead_eq hfile gmtoff junk .zero start
  rw [foxCursor, FoxManager.rewound_now, if_neg (UInt64.lt_asymm hstart), if_pos hstart,
    hright] at hcall
  refine ⟨_, hcall, rfl, rfl, ?_, (off_length es).symm, hle, by omega, le_rfl⟩
  show (if firstNotBefore es es.length start ≤ 0 then 0
    else off es (firstNotBefore es es.length start - 1)) = _
  split_ifs with h0
  · rw [show firstNotBefore es es.length start - 1 = 0 by omega, off_zero]
  · rfl

theorem readerFrom_later (hl : Linked es) (hs : Sorted es) (hpos : 0 < es.length)
    (hfile : fs (packFname d) = some (content es)) (hstart : dayFirst gmtoff d < start)
    (hend : start < dayEnd gmtoff d)
    (hsmall : ∀ m, m ≤ firstNotBefore es es.length start → m < es.length → off es m < 2 ^ 31) :
    ∃ man, readerFrom gmtoff junk fs d start = some (0, man) ∧
      man.fsize = off es es.length ∧
      man.now = nowAt (dayEnd gmtoff d) es es.length (firstNotBefore es es.length start) ∧
      man.pos = off es (freshAt es.length (firstNotBefore es es.length start) start man.now) := by
  have hle := firstNotBefore_le es es.length start
  obtain ⟨man, hsetup, hnow, hat⟩ :=
    foxSetupRead_later gmtoff junk hl hs hpos hfile hstart hsmall
  have hcall : readerFrom gmtoff junk fs d start =
      foxCursor gmtoff junk (content es) man start := by
    rw [readerFrom, hsetup, hfile]
    rfl
  have hnot : start ≤ man.now := by
    rw [hnow]
    rcases Nat.lt_or_eq_of_le hle with hlt | heq
    · rw [nowAt_of_lt _ hlt le_rfl]
      exact le_of_firstNotBefore_le hs le_rfl hlt le_rfl
    · rw [nowAt_of_ge _ _ heq.ge]
      exact UInt64.le_of_lt hend
  rw [foxCursor] at hcall
  by_cases hlt : start < man.now
  · have hleft := hat.cursorLeft (t := start) hl.readable_content hl hs (length_le_content es)
      (dayEnd gmtoff d) junk
    generalize firstNotBefore es es.length start = r at *
    rw [if_pos (by unfold leftFrom; split_ifs <;> exact hsmall _ (by omega) (by omega))] at hleft
    rw [if_pos hlt, hleft] at hcall
    have hkeep : (if leftFrom r (r - 1) es.length < r then man.now
        else nowAt (dayEnd gmtoff d) es es.length (max r (min (leftFrom r (r - 1) es.length) 1))) =
        man.now := by
      split_ifs with hback
      · rfl
      · have hfrom : leftFrom r (r - 1) es.length = r := by
          unfold leftFrom at hback ⊢
          split_ifs at hback ⊢ <;> omega
        rw [hfrom, show max r (min r 1) = r by omega, hnow]
    have hstop : leftStop (leftFrom r (r - 1) es.length) r =
        freshAt es.length r start man.now := by
      unfold leftStop leftFrom freshAt
      simp only [hlt, and_true]
      split_ifs <;> omega
    rw [hkeep, hstop] at hcall
    exact ⟨_, hcall, hat.fsize, hnow, rfl⟩
  · rw [if_neg hlt, if_neg (UInt64.not_lt.mpr hnot)] at hcall
    refine ⟨man, hcall, hat.fsize, hnow, ?_⟩
    rw [hat.pos, freshAt]
    simp only [hlt, and_false, if_false]

end Fresh

def recordsIn (es : List Entry) (start stop : UInt64) : List (UInt64 × Bytes) :=
  (es.filter fun e => decide (start ≤ e.head.tUs ∧ e.head.tUs ≤ stop)).map Entry.pair

structure RangeOk (gmtoff : ℤ) (d : FoxDate) (es : List Entry) (start stop : UInt64) : Prop where
  small : off es (min (firstNotBefore es es.length (stop + 1)) (es.length - 1)) < 2 ^ 31
  midnight : start = dayFirst gmtoff d → ∀ h : 0 < es.length,
    start ≤ es[0].head.tUs ∧ es[0].head.tUs ≤ stop
  later : start ≠ dayFirst gmtoff d → ∀ h : 1 < es.length,
    ¬ (es[0].head.tUs < start ∧ start < es[1].head.tUs ∧ es[1].head.tUs ≤ stop)

section Exact

variable {es : List Entry} {fs : Fs} {d : FoxDate} {start stop u : UInt64} {gmtoff : ℤ}
  {junk : Junk}

theorem rangeQuery_of_reader (hfile : fs (packFname d) = some (content es)) {man : FoxManager}
    (h : readerFrom gmtoff junk fs d start = some (0, man)) (stop : UInt64) :
    rangeQuery gmtoff junk fs d start stop =
      loadData gmtoff junk (content es) stop ((content es).length + 1) man := by
  rw [rangeQuery, h, hfile]
  rfl

theorem lt_firstNotBefore_succ_iff (hs : Sorted es) (hu : stop < u) {m : ℕ}
    (hm : m < es.length) :
    m < firstNotBefore es es.length (stop + 1) ↔ es[m].head.tUs ≤ stop := by
  rw [lt_firstNotBefore_iff hs le_rfl hm, ← UInt64.not_le, add_one_le_iff hu, UInt64.not_lt]

theorem loadData_until (gmtoff : ℤ) (junk : Junk) (hf : Framed es) (hs : Sorted es)
    (hdata : Payloads es) (hu : stop < u) {p q : ℕ} (hp : p < es.length)
    (hq : q = max (p + 1) (firstNotBefore es es.length (stop + 1))) {man : FoxManager}
    (hpos : man.pos = off es p) (hsize : man.fsize = off es es.length) (hnow : man.now ≤ stop) :
    loadData gmtoff junk (content es) stop ((content es).length + 1) man =
      if off es (min q (es.length - 1)) < 2 ^ 31 then
        some (((es.drop p).take (q - p)).map Entry.pair)
      else none := by
  have hlen := length_le_content es
  have hle := firstNotBefore_le es es.length (stop + 1)
  have hiff {m : ℕ} (h : m < es.length) := lt_firstNotBefore_succ_iff hs hu h
  generalize firstNotBefore es es.length (stop + 1) = f at *
  have hspec := loadData_spec gmtoff junk hf hdata (show q ≤ es.length by omega)
    (fun h => UInt64.not_le.mp fun hle => absurd ((hiff h).mpr hle) (by omega)) (q - p - 1) p
    ((content es).length - 1 - (q - p - 1)) man (by omega) hpos hsize hnow
    (fun m h _ hm => (hiff h).mp (by omega))
  rwa [show (content es).length - 1 - (q - p - 1) + (q - p - 1) + 2 = (content es).length + 1 by
    omega, show q - p - 1 + 1 = q - p by omega] at hspec

theorem rangeQuery_midnight_eq (junk : Junk) (hf : Framed es) (hs : Sorted es)
    (hpos : 0 < es.length) (hdata : Payloads es) (hfile : fs (packFname d) = some (content es))
    (hle : dayFirst gmtoff d ≤ stop) (hu : stop < u) :
    rangeQuery gmtoff junk fs d (dayFirst gmtoff d) stop =
      if off es (min (max 1 (firstNotBefore es es.length (stop + 1))) (es.length - 1)) < 2 ^ 31 then
        some ((es.take (max 1 (firstNotBefore es es.length (stop + 1)))).map Entry.pair)
      else none := by
  have hat := ReaderAt.rewound hpos gmtoff d .zero
  rw [rangeQuery_of_reader hfile (readerFrom_dayFirst gmtoff junk hfile),
    loadData_until gmtoff junk hf hs hdata hu hpos rfl hat.pos hat.fsize hle]
  rfl

def strayBefore (es : List Entry) (start stop : UInt64) : List Entry :=
  if h : 1 < es.length then
    if es[0].head.tUs < start ∧ start < es[1].head.tUs ∧ es[1].head.tUs ≤ stop then es.take 1
    else []
  else []

theorem length_strayBefore_le (es : List Entry) (start stop : UInt64) :
    (strayBefore es start stop).length ≤ 1 := by
  unfold strayBefore
  split_ifs <;> simp

theorem strayBefore_eq_nil_iff : strayBefore es start stop = [] ↔ ∀ h : 1 < es.length,
    ¬ (es[0].head.tUs < start ∧ start < es[1].head.tUs ∧ es[1].head.tUs ≤ stop) := by
  unfold strayBefore
  split_ifs with hn hstray
  · have hne : es.take 1 ≠ [] := by
      rw [← length_pos_iff, length_take]
      omega
    exact iff_of_false hne fun h => h hn hstray
  · exact iff_of_true rfl fun _ => hstray
  · exact iff_of_true rfl fun h => absurd h hn

theorem firstNotBefore_mono (hs : Sorted es) (hle : start ≤ stop) (hu : stop < u) :
    firstNotBefore es es.length start ≤ firstNotBefore es es.length (stop + 1) := by
  have hr := firstNotBefore_le es es.length start
  by_contra hlt
  have hold := lt_of_lt_firstNotBefore (Nat.lt_of_not_le hlt) (by omega)
  exact absurd ((lt_firstNotBefore_succ_iff hs hu (by omega)).mpr
    (UInt64.le_of_lt (UInt64.lt_of_lt_of_le hold hle))) (lt_irrefl _)

theorem strayBefore_eq (hs : Sorted es) (hu : stop < u)
    (hlt : firstNotBefore es es.length start < firstNotBefore es es.length (stop + 1))
    (dayMax : UInt64) :
    strayBefore es start stop =
      if freshAt es.length (firstNotBefore es es.length start) start
          (nowAt dayMax es es.length (firstNotBefore es es.length start)) =
        firstNotBefore es es.length start then [] else es.take 1 := by
  have hq := firstNotBefore_le es es.length (stop + 1)
  have hfirst {m : ℕ} (h : m < es.length) := lt_firstNotBefore_iff (t := start) hs le_rfl h
  have hstop {m : ℕ} (h : m < es.length) := lt_firstNotBefore_succ_iff hs hu h
  unfold strayBefore freshAt
  by_cases hone : firstNotBefore es es.length start = 1
  · have hn : 1 < es.length := by omega
    have h₀ : es[0].head.tUs < start := (hfirst (by omega)).mp (by omega)
    have h₂ : es[1].head.tUs ≤ stop := (hstop hn).mp (by omega)
    simp only [hone, hn, dif_pos, h₀, h₂, true_and, and_true, nowAt_of_lt dayMax hn le_rfl]
    by_cases hnew : start < es[1].head.tUs
    · simp [hnew]
    · simp [hnew]
  · have hfresh : (if firstNotBefore es es.length start = 1 ∧
        firstNotBefore es es.length start < es.length ∧
          start < nowAt dayMax es es.length (firstNotBefore es es.length start) then 0
        else firstNotBefore es es.length start) = firstNotBefore es es.length start :=
      if_neg fun h => hone h.1
    rw [if_pos hfresh]
    split_ifs with hn hstray
    · have hzero := (hfirst (show 0 < es.length by omega)).mpr hstray.1
      have hout := (hfirst hn).not.mpr (UInt64.lt_asymm hstray.2.1)
      omega
    · rfl
    · rfl

theorem strayBefore_of_none (hs : Sorted es) (hu : stop < u)
    (hge : firstNotBefore es es.length (stop + 1) ≤ firstNotBefore es es.length start) :
    strayBefore es start stop = [] := by
  unfold strayBefore
  split_ifs with hn hstray
  · have hin := (lt_firstNotBefore_succ_iff hs hu hn).mpr hstray.2.2
    have hout := (lt_firstNotBefore_iff hs le_rfl hn).not.mpr (UInt64.lt_asymm hstray.2.1)
    omega
  · rfl
  · rfl

theorem freshAt_eq (hs : Sorted es) (hu : stop < u)
    (hlt : firstNotBefore es es.length start < firstNotBefore es es.length (stop + 1))
    (dayMax : UInt64) :
    freshAt es.length (firstNotBefore es es.length start) start
        (nowAt dayMax es es.length (firstNotBefore es es.length start)) =
      firstNotBefore es es.length start - (strayBefore es start stop).length := by
  have hq := firstNotBefore_le es es.length (stop + 1)
  rw [strayBefore_eq hs hu hlt dayMax]
  split_ifs with hstay
  · rw [hstay]
    rfl
  · obtain ⟨hone, hback⟩ := freshAt_of_ne hstay
    rw [hback, length_take]
    omega

theorem drop_fresh (hs : Sorted es) (hu : stop < u)
    (hlt : firstNotBefore es es.length start < firstNotBefore es es.length (stop + 1)) {p : ℕ}
    (hp : p = firstNotBefore es es.length start - (strayBefore es start stop).length) :
    ((es.drop p).take (firstNotBefore es es.length (stop + 1) - p)).map Entry.pair =
      (strayBefore es start stop).map Entry.pair ++ recordsIn es start stop := by
  rw [recordsIn, hs.filter_range hu]
  rw [strayBefore_eq hs hu hlt 0] at hp ⊢
  split_ifs at hp ⊢ with hstay
  · rw [hp]
    rfl
  · -- the second move went back to the beginning
    have hone := (freshAt_of_ne hstay).1
    rw [length_take] at hp
    have hq := firstNotBefore_le es es.length (stop + 1)
    obtain rfl : p = 0 := by omega
    rw [hone, ← map_append, drop_zero, Nat.sub_zero, ← take_add,
      show 1 + (firstNotBefore es es.length (stop + 1) - 1) =
        firstNotBefore es es.length (stop + 1) by omega]

theorem lt_nowAt_fresh (hs : Sorted es) {dayMax : UInt64} (hstop : stop < dayMax)
    (hge : firstNotBefore es es.length (stop + 1) ≤ firstNotBefore es es.length start) :
    stop < nowAt dayMax es es.length (firstNotBefore es es.length start) := by
  rcases Nat.lt_or_eq_of_le (firstNotBefore_le es es.length start) with hrn | hrn
  · rw [nowAt_of_lt _ hrn le_rfl]
    exact UInt64.not_le.mp fun h =>
      absurd ((lt_firstNotBefore_succ_iff hs hstop hrn).mpr h) (by omega)
  · rwa [nowAt_of_ge _ _ hrn.ge]

theorem recordsIn_of_none (hs : Sorted es) (hu : stop < u)
    (hge : firstNotBefore es es.length (stop + 1) ≤ firstNotBefore es es.length start) :
    recordsIn es start stop = [] := by
  rw [recordsIn, hs.filter_range hu, Nat.sub_eq_zero_of_le hge]
  rfl

theorem rangeQuery_later_eq (junk : Junk) (hl : Linked es) (hs : Sorted es) (hpos : 0 < es.length)
    (hdata : Payloads es) (hfile : fs (packFname d) = some (content es))
    (hstart : dayFirst gmtoff d < start) (hle : start ≤ stop) (hstop : stop < dayEnd gmtoff d) :
    rangeQuery gmtoff junk fs d start stop =
      if off es (min (firstNotBefore es es.length (stop + 1)) (es.length - 1)) < 2 ^ 31 then
        some ((strayBefore es start stop).map Entry.pair ++ recordsIn es start stop)
      else none := by
  have hr := firstNotBefore_le es es.length start
  have hrq := firstNotBefore_mono hs hle hstop
  by_cases hsmall : ∀ m, m ≤ firstNotBefore es es.length start → m < es.length → off es m < 2 ^ 31
  · obtain ⟨man, hreader, hsize, hnow, hman⟩ := readerFrom_later gmtoff junk hl hs hpos hfile
      hstart (UInt64.lt_of_le_of_lt hle hstop) hsmall
    rw [rangeQuery_of_reader hfile hreader]
    rcases Nat.lt_or_ge (firstNotBefore es es.length start)
      (firstNotBefore es es.length (stop + 1)) with hlt | hge
    · have hq := firstNotBefore_le es es.length (stop + 1)
      rw [hnow, freshAt_eq hs hstop hlt] at hman
      rw [nowAt_of_lt _ (by omega) le_rfl] at hnow
      have hin : man.now ≤ stop := hnow ▸ (lt_firstNotBefore_succ_iff hs hstop (by omega)).mp hlt
      rw [loadData_until gmtoff junk hl.toFramed hs hdata hstop (by omega)
        (show firstNotBefore es es.length (stop + 1) = max _ _ by omega) hman hsize hin,
        drop_fresh hs hstop hlt rfl]
    · rw [if_pos (hsmall _ (by omega) (by omega)), loadData,
        foxRead_stop gmtoff junk (hnow ▸ lt_nowAt_fresh hs hstop hge),
        strayBefore_of_none hs hstop hge, recordsIn_of_none hs hstop hge]
      rfl
  · -- the set-up already fails
    push Not at hsmall
    obtain ⟨m, h₁, h₂, hbig⟩ := hsmall
    obtain ⟨man, hreader⟩ := readerFrom_err gmtoff junk hl.toFramed hpos hfile hstart h₁ h₂ hbig
    have hfar := off_mono es
      (show m ≤ min (firstNotBefore es es.length (stop + 1)) (es.length - 1) by omega)
    rw [rangeQuery, hreader, if_neg (by omega)]
    rfl

theorem rangeQuery_exact_iff (hl : Linked es) (hs : Sorted es) (hpos : 0 < es.length)
    (hdata : Payloads es) (hfile : fs (packFname d) = some (content es))
    (hstart : dayFirst gmtoff d ≤ start) (hle : start ≤ stop) (hstop : stop < dayEnd gmtoff d) :
    rangeQuery gmtoff junk fs d start stop = some (recordsIn es start stop) ↔
      RangeOk gmtoff d es start stop := by
  by_cases heq : start = dayFirst gmtoff d
  · subst heq
    have hq := firstNotBefore_le es es.length (stop + 1)
    have hnot := lt_firstNotBefore_succ_iff hs hstop hpos
    have hfirst := lt_firstNotBefore_iff (t := dayFirst gmtoff d) hs le_rfl hpos
    rw [rangeQuery_midnight_eq junk hl.toFramed hs hpos hdata hfile hle hstop, recordsIn,
      hs.filter_range hstop]
    constructor
    · intro h
      split_ifs at h with hsmall
      have hcount := congrArg List.length (some.inj h)
      simp only [length_map, length_take, length_drop] at hcount
      rw [max_eq_right (by omega)] at hsmall
      exact ⟨hsmall, fun _ _ => ⟨UInt64.not_lt.mp (hfirst.not.mp (by omega)),
        hnot.mp (by omega)⟩, fun h => absurd rfl h⟩
    · intro hok
      obtain ⟨hge, hle'⟩ := hok.midnight rfl hpos
      have hr := hfirst.not.mpr (UInt64.not_lt.mpr hge)
      rw [max_eq_right (hnot.mpr hle'), if_pos hok.small,
        show firstNotBefore es es.length (dayFirst gmtoff d) = 0 by omega]
      rfl
  · rw [rangeQuery_later_eq junk hl hs hpos hdata hfile
      (UInt64.lt_of_le_of_ne hstart (Ne.symm heq)) hle hstop]
    constructor
    · intro h
      split_ifs at h with hsmall
      have hcount := congrArg List.length (some.inj h)
      rw [length_append, length_map] at hcount
      exact ⟨hsmall, fun h => absurd h heq, fun _ =>
        strayBefore_eq_nil_iff.mp (eq_nil_of_length_eq_zero (by omega))⟩
    · intro hok
      rw [if_pos hok.small, strayBefore_eq_nil_iff.mpr (hok.later heq)]
      rfl

end Exact

theorem payloads_sampleDay : Payloads sampleDay := by
  rw [Payloads]
  decide

theorem rangeQuery_exact_sample :
    rangeQuery 0 sampleJunk (dayFs sampleDate (content sampleDay)) sampleDate 1671000000000000
        1671000000000010 =
      some [(1671000000000000, [7]), (1671000000000010, [8])] :=
  (rangeQuery_exact_iff linked_sampleDay sorted_sampleDay (by decide) payloads_sampleDay
    (dayFs_self ..) (by decide) (by decide) (by decide)).mpr
    ⟨by decide, fun h => absurd h (by decide), fun _ _ h => absurd h.1 (UInt64.lt_irrefl _)⟩

theorem rangeQuery_out_of_range :
    rangeQuery 0 sampleJunk (dayFs sampleDate (content sampleDay)) sampleDate 1671000000000005
          1671000000000010 =
        some [(1671000000000000, [7]), (1671000000000010, [8])] ∧
      recordsIn sampleDay 1671000000000005 1671000000000010 = [(1671000000000010, [8])] ∧
      rangeQuery 0 sampleJunk (dayFs sampleDate (content sampleDay)) sampleDate
          (dayFirst 0 sampleDate) 1670999999999999 =
        some [(1671000000000000, [7])] ∧
      recordsIn sampleDay (dayFirst 0 sampleDate) 1670999999999999 = [] := by
  refine ⟨?_, ?_, ?_, ?_⟩ <;> decide

end Sysak.Fox
