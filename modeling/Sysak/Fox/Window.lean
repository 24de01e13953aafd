/-
# Query windows over midnight
-/

import Mathlib
import Sysak.Fox.Query

namespace Sysak.Fox

open List Option

def strayRead (gmtoff : ℤ) (d : FoxDate) (es : List Entry) (start stop : UInt64) : List Entry :=
  if start = dayFirst gmtoff d then (es.take 1).filter fun e => decide (stop < e.head.tUs)
  else strayBefore es start stop

theorem strayRead_cases (gmtoff : ℤ) (es : List Entry) (d : FoxDate) (start stop : UInt64) :
    strayRead gmtoff d es start stop = [] ∨ ∃ e ∈ es, strayRead gmtoff d es start stop = [e] ∧
      (e.head.tUs < start ∨ stop < e.head.tUs) := by
  cases es with
  | nil =>
    left
    unfold strayRead strayBefore
    split_ifs <;> rfl
  | cons e es =>
    unfold strayRead strayBefore
    split_ifs with hfirst hlen hstray
    · by_cases hnew : stop < e.head.tUs
      · exact Or.inr ⟨e, mem_cons_self, by simp [hnew], Or.inr hnew⟩
      · exact Or.inl (by simpa using hnew)
    · exact Or.inr ⟨e, mem_cons_self, rfl, Or.inl hstray.1⟩
    · exact Or.inl rfl
    · exact Or.inl rfl

def readIn (gmtoff : ℤ) (d : FoxDate) (es : List Entry) (start stop : UInt64) :
    List (UInt64 × Bytes) :=
  (strayRead gmtoff d es start stop).map Entry.pair ++ recordsIn es start stop

def Db.reach (db : Db) (tbls : Option (List String)) (budget : ℕ) (d : FoxDate) (es : List Entry)
    (start stop : UInt64) : ℕ :=
  firstNotBefore es es.length start - (strayRead db.gmtoff d es start stop).length +
    db.reads tbls budget (readIn db.gmtoff d es start stop)

def Db.dayCells (db : Db) (tbls : Option (List String)) (budget : ℕ) (d : FoxDate)
    (es : List Entry) (start stop : UInt64) (ms : List Cell) : Option (List Cell) :=
  if off es (min (db.reach tbls budget d es start stop) (es.length - 1)) < 2 ^ 31 then
    some (ms ++ (db.first tbls budget (readIn db.gmtoff d es start stop)).flatMap (db.cells tbls))
  else none

structure DayFile (db : Db) (d : FoxDate) (es : List Entry) : Prop where
  linked : Linked es
  sorted : Sorted es
  file : db.fs (packFname d) = if es = [] then none else some (content es)
  ofDay : ∀ e ∈ es, OfDay db.gmtoff d e.pair
  size : ∀ e ∈ es, e.data.length < 2 ^ 31
  decodes : ∀ e ∈ es, (db.decode e.data).isSome

section Day

variable {db : Db} {d d' : FoxDate} {es : List Entry} {start stop : UInt64}

theorem DayFile.congr (h : DayFile db d es) (hd : checkFoxdate d d' = true) : DayFile db d' es := by
  obtain ⟨hname, hfirst⟩ := checkFoxdate_congr hd
  have hday (e : Entry) (he : e ∈ es) : OfDay db.gmtoff d' e.pair := by
    have := h.ofDay e he
    rwa [OfDay, dayEnd, hfirst] at this
  exact ⟨h.linked, h.sorted, hname ▸ h.file, hday, h.size, h.decodes⟩

theorem DayFile.payloads (h : DayFile db d es) : Payloads es := fun e he =>
  ⟨length_pos_iff.mpr (h.ofDay e he).1, h.size e he⟩

theorem DayFile.file_eq (h : DayFile db d es) (hpos : 0 < es.length) :
    db.fs (packFname d) = some (content es) := by
  rw [h.file, if_neg (length_pos_iff.mp hpos)]

theorem DayFile.firstNotBefore_midnight (h : DayFile db d es) (hpos : 0 < es.length) :
    firstNotBefore es es.length (dayFirst db.gmtoff d) = 0 := by
  by_contra hne
  exact absurd (lt_of_lt_firstNotBefore (Nat.pos_of_ne_zero hne) hpos)
    (UInt64.not_lt.mpr (h.ofDay _ (getElem_mem hpos)).2.1)

theorem DayFile.take_midnight (h : DayFile db d es) (hpos : 0 < es.length) {u : UInt64}
    (hu : stop < u) :
    (es.take (max 1 (firstNotBefore es es.length (stop + 1)))).map Entry.pair =
      readIn db.gmtoff d es (dayFirst db.gmtoff d) stop := by
  have hzero := h.firstNotBefore_midnight hpos
  have hin := lt_firstNotBefore_succ_iff h.sorted hu hpos
  have hone : es.take 1 = [es[0]] := by
    rw [take_one, head?_eq_getElem?, getElem?_eq_getElem hpos, toList_some]
  rw [readIn, strayRead, if_pos rfl, recordsIn, h.sorted.filter_range hu, hzero, drop_zero,
    Nat.sub_zero, ← map_append, hone]
  rcases Nat.eq_zero_or_pos (firstNotBefore es es.length (stop + 1)) with hq | hq
  · have hnew : stop < es[0].head.tUs := UInt64.not_le.mp fun hle => by
      have := hin.mpr hle
      omega
    rw [hq, filter_cons_of_pos (by simpa using hnew)]
    simp [hone]
  · have hold : es[0].head.tUs ≤ stop := hin.mp hq
    rw [filter_cons_of_neg (by simpa using hold), max_eq_right hq]
    rfl

variable {budget : ℕ}

theorem DayFile.qDay_midnight (tbls : Option (List String))
    (h : DayFile db (getDateFromUs start) es) (hpos : 0 < es.length)
    (hstart : start = dayFirst db.gmtoff (getDateFromUs start)) (hle : start ≤ stop)
    (hstop : stop < dayEnd db.gmtoff (getDateFromUs start)) (hb : 0 < budget) (ms : List Cell) :
    db.qDay start stop ms tbls budget =
      db.dayCells tbls budget (getDateFromUs start) es start stop ms := by
  have hat := ReaderAt.rewound hpos db.gmtoff (getDateFromUs start) .zero
  have hzero := h.firstNotBefore_midnight hpos
  have hread := h.take_midnight hpos hstop
  have hreader := readerFrom_dayFirst db.gmtoff db.junk (h.file_eq hpos)
  rw [← hstart] at hzero hread hreader
  have hloop := db.qDayLoop_until tbls h.linked.toFramed h.sorted h.payloads h.decodes hstop hpos
    rfl hat.pos hat.fsize (by rwa [FoxManager.rewound_now, ← hstart]) hb ms hread
  rw [db.qDay_of_reader tbls (h.file_eq hpos) hreader, hloop, Db.dayCells, Db.reach, hzero,
    Nat.zero_sub]

theorem DayFile.qDay_later (tbls : Option (List String)) (h : DayFile db (getDateFromUs start) es)
    (hpos : 0 < es.length) (hstart : dayFirst db.gmtoff (getDateFromUs start) < start)
    (hle : start ≤ stop) (hstop : stop < dayEnd db.gmtoff (getDateFromUs start)) (hb : 0 < budget)
    (ms : List Cell) :
    db.qDay start stop ms tbls budget =
      db.dayCells tbls budget (getDateFromUs start) es start stop ms := by
  have hq := firstNotBefore_le es es.length (stop + 1)
  have hfile := h.file_eq hpos
  have hnot : start ≠ dayFirst db.gmtoff (getDateFromUs start) := (UInt64.ne_of_lt hstart).symm
  rw [Db.dayCells, Db.reach, readIn, strayRead, if_neg hnot]
  by_cases hsmall : ∀ m, m ≤ firstNotBefore es es.length start → m < es.length → off es m < 2 ^ 31
  · obtain ⟨man, hreader, hsize, hnow, hman⟩ := readerFrom_later db.gmtoff db.junk h.linked
      h.sorted hpos hfile hstart (UInt64.lt_of_le_of_lt hle hstop) hsmall
    rw [db.qDay_of_reader tbls hfile hreader]
    rcases Nat.lt_or_ge (firstNotBefore es es.length start)
      (firstNotBefore es es.length (stop + 1)) with hlt | hge
    · rw [hnow, freshAt_eq h.sorted hstop hlt] at hman
      rw [nowAt_of_lt _ (by omega) le_rfl] at hnow
      have hin : man.now ≤ stop :=
        hnow ▸ (lt_firstNotBefore_succ_iff h.sorted hstop (by omega)).mp hlt
      exact db.qDayLoop_until tbls h.linked.toFramed h.sorted h.payloads h.decodes hstop (by omega)
        (show firstNotBefore es es.length (stop + 1) = max _ _ by omega) hman hsize hin hb ms
        (drop_fresh h.sorted hstop hlt rfl)
    · rw [strayBefore_of_none h.sorted hstop hge, recordsIn_of_none h.sorted hstop hge,
        if_pos (hsmall _ (by simp [Db.reads]) (by omega)), Db.qDayLoop,
        foxRead_stop db.gmtoff db.junk (hnow ▸ lt_nowAt_fresh h.sorted hstop hge)]
      simp
  · -- the set-up already fails
    push Not at hsmall
    obtain ⟨m, h₁, h₂, hbig⟩ := hsmall
    obtain ⟨man, hreader⟩ :=
      readerFrom_err db.gmtoff db.junk h.linked.toFramed hpos hfile hstart h₁ h₂ hbig
    have hstray := length_strayBefore_le es start stop
    have hread : (strayBefore es start stop).length ≤ db.reads tbls budget
        ((strayBefore es start stop).map Entry.pair ++ recordsIn es start stop) := by
      rcases Nat.eq_zero_or_pos (strayBefore es start stop).length with hz | hp
      · omega
      · refine le_trans hstray (db.reads_pos tbls budget ?_)
        simp [length_pos_iff.mp hp]
    have hfar := off_mono es (show m ≤ min (firstNotBefore es es.length start -
      (strayBefore es start stop).length + db.reads tbls budget
        ((strayBefore es start stop).map Entry.pair ++ recordsIn es start stop)) (es.length - 1) by
      omega)
    rw [db.qDay_of_err tbls hreader, if_neg (by omega)]

theorem DayFile.qDay_eq (tbls : Option (List String)) (h : DayFile db d es)
    (hd : checkFoxdate d (getDateFromUs start) = true) (hstart : dayFirst db.gmtoff d ≤ start)
    (hle : start ≤ stop) (hstop : stop < dayEnd db.gmtoff d) (hb : 0 < budget) (ms : List Cell) :
    db.qDay start stop ms tbls budget = db.dayCells tbls budget d es start stop ms := by
  have hfirst := (checkFoxdate_congr hd).2 db.gmtoff
  have h' := h.congr hd
  have hread : strayRead db.gmtoff d es start stop =
      strayRead db.gmtoff (getDateFromUs start) es start stop := by
    rw [strayRead, hfirst]
    rfl
  rw [dayEnd, hfirst] at hstop
  rw [hfirst] at hstart
  rw [Db.dayCells, Db.reach, readIn, hread]
  rcases Nat.eq_zero_or_pos es.length with hnil | hpos
  · obtain rfl := length_eq_zero_iff.mp hnil
    rw [db.qDay_of_none tbls h'.file]
    rcases strayRead_cases db.gmtoff [] (getDateFromUs start) start stop with hnone | ⟨e, he, -⟩
    · rw [hnone]
      simp [recordsIn]
    · cases he
  · rcases UInt64.lt_or_eq_of_le hstart with hlt | heq
    · exact h'.qDay_later tbls hpos hlt hle hstop hb ms
    · exact h'.qDay_midnight tbls hpos heq.symm hle hstop hb ms

end Day

structure Crosses (gmtoff : ℤ) (beg mid now : UInt64) : Prop where
  first_le : dayFirst gmtoff (getDateFromUs beg) ≤ beg
  beg_le : beg ≤ mid - 1
  lt_mid : mid - 1 < mid
  dayEnd_eq : dayEnd gmtoff (getDateFromUs beg) = mid
  mid_le : mid ≤ now
  now_lt : now < dayEnd gmtoff (getDateFromUs now)
  date : checkFoxdate (getDateFromUs now) (getDateFromUs mid) = true

theorem toNat_dayEnd_utc {us : UInt64} (h : us.toNat < 2 ^ 53) :
    (dayEnd 0 (getDateFromUs us)).toNat = us.toNat / 86400000000 * 86400000000 + 86400000000 := by
  have hday : (24 * 60 * 60 * microUnit : UInt64).toNat = 86400000000 := by decide
  rw [dayEnd, UInt64.toNat_add, toNat_dayFirst_utc h, hday, Nat.mod_eq_of_lt (by omega)]

theorem crosses_utc {beg now : UInt64} (hle : beg ≤ now)
    (hspan : now.toNat - beg.toNat ≤ 24 * 60 * 60 * 1000000) (hnow : now.toNat < 2 ^ 53)
    (hdates : checkFoxdate (getDateFromUs beg) (getDateFromUs now) = false) :
    Crosses 0 beg (dayFirst 0 (getDateFromUs now)) now := by
  have hle' := UInt64.le_iff_toNat_le.mp hle
  have hbeg : beg.toNat < 2 ^ 53 := by omega
  have hne : beg.toNat / 86400000000 ≠ now.toNat / 86400000000 := fun heq => by
    rw [checkFoxdate_utc hbeg hnow heq] at hdates
    cases hdates
  have hfirst := toNat_dayFirst_utc hbeg
  have hmid := toNat_dayFirst_utc hnow
  have hend := toNat_dayEnd_utc hbeg
  have hend' := toNat_dayEnd_utc hnow
  generalize dayFirst 0 (getDateFromUs now) = mid at *
  have hpred : (mid - 1).toNat = mid.toNat - 1 :=
    UInt64.toNat_sub_of_le _ _ (UInt64.le_iff_toNat_le.mpr (by rw [UInt64.toNat_one]; omega))
  constructor
  · exact UInt64.le_iff_toNat_le.mpr (by omega)
  · exact UInt64.le_iff_toNat_le.mpr (by omega)
  · exact UInt64.lt_iff_toNat_lt.mpr (by omega)
  · exact UInt64.toNat_inj.mp (by omega)
  · exact UInt64.le_iff_toNat_le.mpr (by omega)
  · exact UInt64.lt_iff_toNat_lt.mpr (by omega)
  · exact checkFoxdate_utc hnow (by omega) (by omega)

theorem recordsIn_append (es es' : List Entry) (start stop : UInt64) :
    recordsIn (es ++ es') start stop = recordsIn es start stop ++ recordsIn es' start stop := by
  rw [recordsIn, filter_append, map_append]
  rfl

variable {es : List Entry}

theorem recordsIn_congr {start stop start' stop' : UInt64}
    (h : ∀ e ∈ es, (start ≤ e.head.tUs ∧ e.head.tUs ≤ stop) ↔
      (start' ≤ e.head.tUs ∧ e.head.tUs ≤ stop')) :
    recordsIn es start stop = recordsIn es start' stop' := by
  rw [recordsIn, recordsIn, filter_congr fun e he => decide_eq_decide.mpr (h e he)]

variable {gmtoff : ℤ}

theorem Crosses.recordsIn_first {beg mid now : UInt64} (hc : Crosses gmtoff beg mid now)
    (hday : ∀ e ∈ es, OfDay gmtoff (getDateFromUs beg) e.pair) :
    recordsIn es beg (mid - 1) = recordsIn es beg now :=
  recordsIn_congr fun e he => and_congr_right fun _ => by
    have hlast : e.head.tUs ≤ mid - 1 := hc.dayEnd_eq ▸ (hday e he).2.2
    exact iff_of_true hlast (UInt64.le_trans hlast
      (UInt64.le_trans (UInt64.le_of_lt hc.lt_mid) hc.mid_le))

theorem Crosses.recordsIn_second {beg mid now : UInt64} (hc : Crosses gmtoff beg mid now)
    (hday : ∀ e ∈ es, mid ≤ e.head.tUs) : recordsIn es mid now = recordsIn es beg now :=
  recordsIn_congr fun e he => and_congr_left fun _ => iff_of_true (hday e he)
    (UInt64.le_trans (UInt64.le_trans hc.beg_le (UInt64.le_of_lt hc.lt_mid)) (hday e he))

variable {p : UInt64 × Bytes} {n : ℕ}

section Cells

theorem length_le_flatMap {α β : Type*} {f : α → List β} {l : List α} (h : ∀ x ∈ l, f x ≠ []) :
    l.length ≤ (l.flatMap f).length := by
  induction l with
  | nil => exact Nat.le_refl _
  | cons x l ih =>
    have hx : 0 < (f x).length := length_pos_iff.mpr (h x mem_cons_self)
    have hl := ih fun y hy => h y (mem_cons_of_mem _ hy)
    rw [flatMap_cons, length_append, length_cons]
    omega

theorem flatMap_take_eq_iff {α β : Type*} {f : α → List β} {l : List α} (h : ∀ x ∈ l, f x ≠ []) :
    ∀ a b : ℕ, (l.take a).flatMap f = (l.take b).flatMap f ↔ min a l.length = min b l.length := by
  induction l with
  | nil =>
    intro a b
    simp
  | cons x l ih =>
    intro a b
    have hx := h x mem_cons_self
    cases a with
    | zero => cases b <;> simp [hx]
    | succ a =>
      cases b with
      | zero => simp [hx]
      | succ b =>
        rw [take_succ_cons, take_succ_cons, flatMap_cons, flatMap_cons,
          append_cancel_left_eq, ih (fun y hy => h y (mem_cons_of_mem _ hy)),
          length_cons, Nat.add_min_add_right, Nat.add_min_add_right,
          Nat.add_right_cancel_iff]

variable (db : Db) (tbls : Option (List String))

theorem Db.time_of_mem_cells {c : Cell} (hc : c ∈ db.cells tbls p) : c.time = p.1.toNat.repr := by
  obtain ⟨v, -, rfl⟩ := mem_map.mp hc
  rfl

theorem Db.mem_of_mem_first {rs : List (UInt64 × Bytes)} (hp : p ∈ db.first tbls n rs) :
    p ∈ rs ∧ db.cells tbls p ≠ [] := by
  obtain ⟨hmem, hcell⟩ := mem_filter.mp (mem_of_mem_take hp)
  exact ⟨hmem, (db.hasCell_iff tbls).mp hcell⟩

theorem Db.first_append_of_nil {rs : List (UInt64 × Bytes)} (h : ∀ p ∈ rs, db.cells tbls p = [])
    (n : ℕ) (rs' : List (UInt64 × Bytes)) :
    db.first tbls n (rs ++ rs') = db.first tbls n rs' := by
  have hnil : rs.filter (db.hasCell tbls) = [] := filter_eq_nil_iff.mpr fun p hp hcell =>
    (db.hasCell_iff tbls).mp hcell (h p hp)
  rw [Db.first, filter_append, hnil, nil_append]
  rfl

theorem Db.exists_time_mem (hn : 0 < n) (hp : db.cells tbls p ≠ []) (rs : List (UInt64 × Bytes)) :
    ∃ c ∈ (db.first tbls n (p :: rs)).flatMap (db.cells tbls), c.time = p.1.toNat.repr := by
  obtain ⟨c, hc⟩ := exists_mem_of_ne_nil _ hp
  refine ⟨c, ?_, db.time_of_mem_cells tbls hc⟩
  rw [db.flatMap_first_cons tbls hn]
  exact mem_append_left _ hc

end Cells

section Window

variable (db : Db) (tbls : Option (List String))

def Db.windowCells (es : List Entry) (beg now : UInt64) : List Cell :=
  (db.first tbls 200 (recordsIn es beg now)).flatMap (db.cells tbls)

def Db.matching (es : List Entry) (beg now : UInt64) : ℕ :=
  ((recordsIn es beg now).filter (db.hasCell tbls)).length

structure WindowOk (es₁ es₂ : List Entry) (beg now : UInt64) : Prop where
  small₁ : off es₁ (min (db.reach tbls 200 (getDateFromUs beg) es₁ beg
    (dayFirst db.gmtoff (getDateFromUs now) - 1)) (es₁.length - 1)) < 2 ^ 31
  small₂ : (db.windowCells tbls es₁ beg now).length < 200 →
    off es₂ (min (db.reach tbls (200 - (db.windowCells tbls es₁ beg now).length)
      (getDateFromUs now) es₂ (dayFirst db.gmtoff (getDateFromUs now)) now)
        (es₂.length - 1)) < 2 ^ 31
  stray₁ : ∀ e ∈ strayRead db.gmtoff (getDateFromUs beg) es₁ beg
    (dayFirst db.gmtoff (getDateFromUs now) - 1), db.cells tbls e.pair = []
  stray₂ : (db.windowCells tbls es₁ beg now).length < 200 →
    ∀ e ∈ strayRead db.gmtoff (getDateFromUs now) es₂ (dayFirst db.gmtoff (getDateFromUs now)) now,
      db.cells tbls e.pair = []
  budget : 200 ≤ db.matching tbls es₁ beg now ∨
    (db.windowCells tbls es₁ beg now).length = db.matching tbls es₁ beg now ∨
    db.matching tbls es₂ beg now ≤ 200 - (db.windowCells tbls es₁ beg now).length

variable {db tbls} {es₁ es₂ : List Entry} {beg now : UInt64}

theorem Db.qDays_eq {mid : UInt64} (hmid : dayFirst db.gmtoff (getDateFromUs now) = mid)
    (hdates : checkFoxdate (getDateFromUs beg) (getDateFromUs now) = false)
    (hc : Crosses db.gmtoff beg mid now) (h₁ : DayFile db (getDateFromUs beg) es₁)
    (h₂ : DayFile db (getDateFromUs now) es₂) {ms : List Cell}
    (hms : ms = (db.first tbls 200
      (readIn db.gmtoff (getDateFromUs beg) es₁ beg (mid - 1))).flatMap (db.cells tbls)) :
    db.qDays (getDateFromUs beg) (getDateFromUs now) beg now tbls =
      if off es₁ (min (db.reach tbls 200 (getDateFromUs beg) es₁ beg (mid - 1))
            (es₁.length - 1)) < 2 ^ 31 ∧
          (ms.length < 200 → off es₂ (min (db.reach tbls (200 - ms.length) (getDateFromUs now) es₂
            mid now) (es₂.length - 1)) < 2 ^ 31) then
        some (ms ++ (db.first tbls (200 - ms.length)
          (readIn db.gmtoff (getDateFromUs now) es₂ mid now)).flatMap (db.cells tbls))
      else none := by
  have hq₁ := h₁.qDay_eq tbls (by simp [checkFoxdate]) hc.first_le hc.beg_le
    (by rw [hc.dayEnd_eq]; exact hc.lt_mid) (show 0 < 200 by decide) []
  rw [Db.dayCells, nil_append, ← hms] at hq₁
  have hq₂ (hlt : ms.length < 200) := h₂.qDay_eq tbls hc.date (by rw [hmid]; exact UInt64.le_refl _)
    hc.mid_le hc.now_lt (show 0 < 200 - ms.length by omega) ms
  have hcast (hlt : ms.length < 200) : qBudget - (ms.length : ℤ) = ((200 - ms.length : ℕ) : ℤ) := by
    rw [qBudget]
    omega
  rw [Db.qDays, hdates]
  show (db.qDay beg (dayFirst db.gmtoff (getDateFromUs now) - 1) [] tbls ((200 : ℕ) : ℤ)).bind
    (fun ms => if 0 < qBudget - (ms.length : ℤ) then
      db.qDay (dayFirst db.gmtoff (getDateFromUs now)) now ms tbls (qBudget - (ms.length : ℤ))
      else some ms) = _
  rw [hmid, hq₁]
  split_ifs with hsmall₁ hboth hboth
  · rw [bind_some]
    rcases Nat.lt_or_ge ms.length 200 with hlt | hge
    · rw [hcast hlt, if_pos (by omega), hq₂ hlt, Db.dayCells,
        if_pos (hboth.2 hlt)]
    · rw [if_neg (by rw [qBudget]; omega), show 200 - ms.length = 0 by omega]
      simp
  · rw [not_and, Classical.not_imp] at hboth
    obtain ⟨hlt, hbig⟩ := hboth hsmall₁
    rw [bind_some, hcast hlt, if_pos (by omega), hq₂ hlt, Db.dayCells,
      if_neg hbig]
  · exact absurd hboth.1 hsmall₁
  · rfl

theorem Db.ne_windowCells {l : List Cell} (hout : p.1 < beg ∨ now < p.1)
    (hmem : ∃ c ∈ l, c.time = p.1.toNat.repr) : l ≠ db.windowCells tbls es beg now := by
  rintro rfl
  obtain ⟨c, hc, htime⟩ := hmem
  obtain ⟨q, hq, hcq⟩ := mem_flatMap.mp hc
  obtain ⟨e, he, rfl⟩ := mem_map.mp (db.mem_of_mem_first tbls hq).1
  obtain ⟨hge, hle⟩ := of_decide_eq_true (mem_filter.mp he).2
  have hsame : p.1 = e.head.tUs := UInt64.toNat_inj.mp (Nat.repr_inj.mp
    (htime.symm.trans (db.time_of_mem_cells tbls hcq)))
  rcases hout with hlt | hlt
  · exact UInt64.not_lt.mpr hge (hsame ▸ hlt)
  · exact UInt64.not_lt.mpr hle (hsame ▸ hlt)

theorem Db.windowCells_append : db.windowCells tbls (es₁ ++ es₂) beg now =
    db.windowCells tbls es₁ beg now ++
      (db.first tbls (200 - db.matching tbls es₁ beg now)
        (recordsIn es₂ beg now)).flatMap (db.cells tbls) := by
  rw [Db.windowCells, recordsIn_append, Db.first, filter_append, take_append,
    flatMap_append]
  rfl

theorem Db.min_matching_le (db : Db) (tbls : Option (List String)) (es : List Entry)
    (beg now : UInt64) :
    min 200 (db.matching tbls es beg now) ≤ (db.windowCells tbls es beg now).length := by
  have hle := length_le_flatMap (f := db.cells tbls) (l := db.first tbls 200 (recordsIn es beg now))
    fun p hp => (db.mem_of_mem_first tbls hp).2
  have hlen : (db.first tbls 200 (recordsIn es beg now)).length =
      min 200 (db.matching tbls es beg now) := length_take
  exact hlen ▸ hle

theorem Db.ne_windowCells_of_stray {d : FoxDate} {es es' : List Entry} {start stop : UInt64}
    {l : List Cell} (hn : 0 < n)
    (hout : ∀ e ∈ es, e.head.tUs < start ∨ stop < e.head.tUs → e.head.tUs < beg ∨ now < e.head.tUs)
    (hsub : (db.first tbls n (readIn gmtoff d es start stop)).flatMap (db.cells tbls) ⊆ l)
    (hstray : ¬ ∀ e ∈ strayRead gmtoff d es start stop, db.cells tbls e.pair = []) :
    l ≠ db.windowCells tbls es' beg now := by
  push Not at hstray
  obtain ⟨e, he, hcell⟩ := hstray
  obtain hnil | ⟨e', he', hone, hrange⟩ := strayRead_cases gmtoff es d start stop
  · rw [hnil] at he
    cases he
  · rw [hone, mem_singleton] at he
    subst he
    obtain ⟨c, hmem, htime⟩ := db.exists_time_mem tbls hn hcell (recordsIn es start stop)
    rw [readIn, hone] at hsub
    exact db.ne_windowCells (p := e.pair) (hout e he' hrange) ⟨c, hsub hmem, htime⟩

theorem Db.window_budget_iff (es₁ es₂ : List Entry) :
    db.windowCells tbls es₁ beg now ++
        (db.first tbls (200 - (db.windowCells tbls es₁ beg now).length)
          (recordsIn es₂ beg now)).flatMap (db.cells tbls) =
        db.windowCells tbls (es₁ ++ es₂) beg now ↔
      200 ≤ db.matching tbls es₁ beg now ∨
        (db.windowCells tbls es₁ beg now).length = db.matching tbls es₁ beg now ∨
        db.matching tbls es₂ beg now ≤ 200 - (db.windowCells tbls es₁ beg now).length := by
  have hcells := db.min_matching_le tbls es₁ beg now
  have hbudget := flatMap_take_eq_iff (f := db.cells tbls)
    (l := (recordsIn es₂ beg now).filter (db.hasCell tbls))
    (fun p hp => (db.hasCell_iff tbls).mp (mem_filter.mp hp).2)
    (200 - (db.windowCells tbls es₁ beg now).length) (200 - db.matching tbls es₁ beg now)
  rw [db.windowCells_append, append_cancel_left_eq, Db.first, Db.first, hbudget]
  show min _ (db.matching tbls es₂ beg now) = min _ (db.matching tbls es₂ beg now) ↔ _
  omega

theorem Db.qDays_exact_iff (tbls : Option (List String)) {mid : UInt64}
    (hmid : dayFirst db.gmtoff (getDateFromUs now) = mid)
    (hdates : checkFoxdate (getDateFromUs beg) (getDateFromUs now) = false)
    (hc : Crosses db.gmtoff beg mid now) (h₁ : DayFile db (getDateFromUs beg) es₁)
    (h₂ : DayFile db (getDateFromUs now) es₂) :
    db.qDays (getDateFromUs beg) (getDateFromUs now) beg now tbls =
        some (db.windowCells tbls (es₁ ++ es₂) beg now) ↔
      WindowOk db tbls es₁ es₂ beg now := by
  have hfirst (e : Entry) (he : e ∈ es₂) : mid ≤ e.head.tUs := hmid ▸ (h₂.ofDay e he).2.1
  by_cases hs₁ : ∀ e ∈ strayRead db.gmtoff (getDateFromUs beg) es₁ beg (mid - 1),
      db.cells tbls e.pair = []
  · have hms : db.windowCells tbls es₁ beg now = (db.first tbls 200
        (readIn db.gmtoff (getDateFromUs beg) es₁ beg (mid - 1))).flatMap (db.cells tbls) := by
      rw [readIn, db.first_append_of_nil tbls (forall_mem_map.mpr hs₁),
        hc.recordsIn_first h₁.ofDay, Db.windowCells]
    rw [db.qDays_eq hmid hdates hc h₁ h₂ hms, ite_none_right_eq_some, some_inj]
    by_cases hs₂ : (db.windowCells tbls es₁ beg now).length < 200 →
        ∀ e ∈ strayRead db.gmtoff (getDateFromUs now) es₂ mid now, db.cells tbls e.pair = []
    · have hsecond : db.first tbls (200 - (db.windowCells tbls es₁ beg now).length)
          (readIn db.gmtoff (getDateFromUs now) es₂ mid now) =
          db.first tbls (200 - (db.windowCells tbls es₁ beg now).length)
            (recordsIn es₂ beg now) := by
        rcases Nat.lt_or_ge (db.windowCells tbls es₁ beg now).length 200 with hlt | hge
        · rw [readIn, db.first_append_of_nil tbls (forall_mem_map.mpr (hs₂ hlt)),
            hc.recordsIn_second hfirst]
        · rw [Nat.sub_eq_zero_of_le hge, Db.first_zero, Db.first_zero]
      rw [hsecond, db.window_budget_iff]
      subst hmid
      exact ⟨fun ⟨hsmall, hbudget⟩ => ⟨hsmall.1, hsmall.2, hs₁, hs₂, hbudget⟩,
        fun hok => ⟨⟨hok.small₁, hok.small₂⟩, hok.budget⟩⟩
    · refine iff_of_false (fun h => ?_) fun hok => hs₂ (hmid ▸ hok.stray₂)
      rw [Classical.not_imp] at hs₂
      refine db.ne_windowCells_of_stray (by omega) ?_ (subset_append_right ..) hs₂.2 h.2
      -- a record of the second day is not older than midnight
      exact fun e he hrange => Or.inr (hrange.resolve_left (UInt64.not_lt.mpr (hfirst e he)))
  · rw [db.qDays_eq hmid hdates hc h₁ h₂ rfl, ite_none_right_eq_some, some_inj]
    refine iff_of_false (fun h => ?_) fun hok => hs₁ (hmid ▸ hok.stray₁)
    refine db.ne_windowCells_of_stray (by decide) ?_ (subset_append_left ..) hs₁ h.2
    -- a record of the first day is older than midnight
    exact fun e he hrange => Or.inl (hrange.resolve_right
      (UInt64.not_lt.mpr (hc.dayEnd_eq ▸ (h₁.ofDay e he).2.2)))

end Window

def sampleEvening : List Entry := samplePair 1671062390000000 1671062395000000

def sampleMorning : List Entry := samplePair 1671062401000000 1671062405000000

def sampleNight : Fs := Function.update (dayFs sampleDate (content sampleEvening))
  (packFname (getDateFromUs 1671062410000000)) (some (content sampleMorning))

def sampleDb (k : ℕ) : Db where
  gmtoff := 0
  junk := sampleJunk
  fs := sampleNight
  decode b := some (replicate (if b = [7] then k else 1) ⟨"cpu", [], [], []⟩)

theorem dayFile_sampleEvening (k : ℕ) {beg : UInt64}
    (hd : checkFoxdate sampleDate (getDateFromUs beg) = true) :
    DayFile (sampleDb k) (getDateFromUs beg) sampleEvening := by
  have hfile : sampleNight (packFname sampleDate) = some (content sampleEvening) := by decide
  have hday : DayFile (sampleDb k) sampleDate sampleEvening := by
    refine ⟨linked_samplePair .., ?_, hfile, ?_, by decide, fun _ _ => rfl⟩
    · rw [Sorted]
      decide
    · show ∀ e ∈ sampleEvening, OfDay 0 sampleDate e.pair
      decide
  exact hday.congr hd

theorem dayFile_sampleMorning (k : ℕ) :
    DayFile (sampleDb k) (getDateFromUs 1671062410000000) sampleMorning := by
  have hfile : sampleNight (packFname (getDateFromUs 1671062410000000)) =
      some (content sampleMorning) := Function.update_self ..
  refine ⟨linked_samplePair .., ?_, hfile, ?_, by decide, fun _ _ => rfl⟩
  · rw [Sorted]
    decide
  · show ∀ e ∈ sampleMorning, OfDay 0 (getDateFromUs 1671062410000000) e.pair
    decide

end Sysak.Fox
