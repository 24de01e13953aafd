/-
# Queries by table
-/

import Sysak.Common.ProtoData
import Sysak.Fox.RangeQuery
import Sysak.Lib.LuaTable

namespace Sysak.Fox

open Lib List Option

structure Cell where
  time : String
  title : String
  labels : List (String × String)
  values : List (String × UInt64)
  logs : List (String × String)
  deriving DecidableEq, Repr

def cellOf (us : UInt64) (v : DataLine) : Cell where
  time := us.toNat.repr
  title := v.line
  labels := luaTable v.ls
  values := luaTable v.vs
  logs := luaTable v.log

def valueIsIn (tbl : List String) (value : String) : Bool := tbl.any fun v => v == value

def wanted (tbls : Option (List String)) (title : String) : Bool :=
  match tbls with
  | none => true
  | some tbl => valueIsIn tbl title

structure Db where
  gmtoff : ℤ
  junk : Junk
  fs : Fs
  decode : Bytes → Option (List DataLine)

def lineCells (tbls : Option (List String)) (us : UInt64) (lines : List DataLine) : List Cell :=
  (lines.filter fun v => wanted tbls v.line).map (cellOf us)

def Db.qDayLoop (db : Db) (file : Bytes) (stop : UInt64) (tbls : Option (List String)) :
    ℕ → FoxManager → List Cell → ℤ → Option (List Cell)
  | 0, _, _, _ => none
  | fuel + 1, man, ms, budget =>
    let (r, man') := foxRead db.gmtoff db.junk file man stop
    if r.ret < 0 then
      none
    else if 0 < r.ret then
      (db.decode r.data).bind fun lines =>
        let cells := lineCells tbls r.us lines
        let budget := if cells = [] then budget else budget - 1
        if budget = 0 then some (ms ++ cells)
        else if man'.fsize = man'.pos then some (ms ++ cells)
        else db.qDayLoop file stop tbls fuel man' (ms ++ cells) budget
    else
      some ms

def Db.qDay (db : Db) (start stop : UInt64) (ms : List Cell) (tbls : Option (List String))
    (budget : ℤ) : Option (List Cell) :=
  let d := getDateFromUs start
  (readerFrom db.gmtoff db.junk db.fs d start).bind fun (ret, man) =>
    if ret < 0 then none
    else if 0 < ret then some ms
    else
      let file := (db.fs (packFname d)).getD []
      db.qDayLoop file stop tbls (file.length + 1) man ms budget

def qBudget : ℤ := 200

def Db.qDays (db : Db) (dStart dStop : FoxDate) (beg now : UInt64) (tbls : Option (List String)) :
    Option (List Cell) :=
  if checkFoxdate dStart dStop then
    db.qDay beg now [] tbls qBudget
  else
    let beg₂ := makeStamp db.gmtoff { dStop with hour := 0, min := 0, sec := 0 }
    (db.qDay beg (beg₂ - 1) [] tbls qBudget).bind fun ms =>
      let budget := qBudget - ms.length
      if 0 < budget then db.qDay beg₂ now ms tbls budget else some ms

def Db.qDate (db : Db) (dStart dStop : FoxDate) (tbls : Option (List String)) :
    Option (List Cell) :=
  let now := makeStamp db.gmtoff dStop
  let beg := makeStamp db.gmtoff dStart
  if 24 * 60 * 60 * 1000000 < now - beg then some [] else db.qDays dStart dStop beg now tbls

def Db.qNow (db : Db) (now : UInt64) (sec : ℕ) (tbls : Option (List String)) :
    Option (List Cell) :=
  if 24 * 60 * 60 < sec then
    some []
  else
    let beg := now - UInt64.ofNat (sec * 1000000) + 1
    db.qDays (getDateFromUs beg) (getDateFromUs now) beg now tbls

def Db.cells (db : Db) (tbls : Option (List String)) (p : UInt64 × Bytes) : List Cell :=
  lineCells tbls p.1 ((db.decode p.2).getD [])

def Db.hasCell (db : Db) (tbls : Option (List String)) (p : UInt64 × Bytes) : Bool :=
  !(db.cells tbls p).isEmpty

def Db.first (db : Db) (tbls : Option (List String)) (n : ℕ) (rs : List (UInt64 × Bytes)) :
    List (UInt64 × Bytes) :=
  (rs.filter (db.hasCell tbls)).take n

section Loop

variable (db : Db) (tbls : Option (List String))

theorem Db.hasCell_iff {p : UInt64 × Bytes} : db.hasCell tbls p = true ↔ db.cells tbls p ≠ [] := by
  rw [Db.hasCell, Bool.not_eq_true', isEmpty_eq_false_iff]

@[simp] theorem Db.first_zero (rs : List (UInt64 × Bytes)) : db.first tbls 0 rs = [] := rfl

@[simp] theorem Db.first_nil (n : ℕ) : db.first tbls n [] = [] := take_nil

theorem Db.flatMap_first_cons {n : ℕ} (hn : 0 < n) (p : UInt64 × Bytes)
    (rs : List (UInt64 × Bytes)) :
    (db.first tbls n (p :: rs)).flatMap (db.cells tbls) = db.cells tbls p ++
      (db.first tbls (if db.cells tbls p = [] then n else n - 1) rs).flatMap (db.cells tbls) := by
  obtain ⟨n, rfl⟩ : ∃ m, n = m + 1 := ⟨n - 1, by omega⟩
  by_cases hp : db.cells tbls p = []
  · have hno : ¬ db.hasCell tbls p = true := fun h => (db.hasCell_iff tbls).mp h hp
    rw [Db.first, filter_cons_of_neg hno, if_pos hp, hp]
    rfl
  · rw [Db.first, filter_cons_of_pos ((db.hasCell_iff tbls).mpr hp), if_neg hp,
      take_succ_cons, flatMap_cons]
    rfl

def Db.reads (db : Db) (tbls : Option (List String)) : ℕ → List (UInt64 × Bytes) → ℕ
  | _, [] => 0
  | n, p :: rs =>
    let left := if db.cells tbls p = [] then n else n - 1
    if left = 0 then 1 else db.reads tbls left rs + 1

theorem Db.reads_pos (n : ℕ) {rs : List (UInt64 × Bytes)} (h : rs ≠ []) :
    0 < db.reads tbls n rs := by
  cases rs with
  | nil => exact absurd rfl h
  | cons p rs =>
    rw [Db.reads]
    split_ifs <;> omega

variable {es : List Entry} {stop : UInt64}

variable {man : FoxManager}

theorem Db.qDayLoop_err {file : Bytes} {ms : List Cell} {budget : ℤ}
    (herr : (foxRead db.gmtoff db.junk file man stop).1.ret < 0) (fuel : ℕ) :
    db.qDayLoop file stop tbls (fuel + 1) man ms budget = none := by
  simp only [Db.qDayLoop, herr, if_true]

theorem Db.qDayLoop_at (hf : Framed es) (hdata : Payloads es)
    (hdec : ∀ e ∈ es, (db.decode e.data).isSome) {i : ℕ} (hi : i < es.length)
    (hpos : man.pos = off es i) (hsize : man.fsize = off es es.length) (hnow : man.now ≤ stop)
    (hsmall : off es i < 2 ^ 31) (hsmall' : i + 1 < es.length → off es (i + 1) < 2 ^ 31)
    {budget left : ℕ} (hbudget : 0 < budget)
    (hleft : left = if db.cells tbls es[i].pair = [] then budget else budget - 1) (fuel : ℕ)
    (ms : List Cell) :
    db.qDayLoop (content es) stop tbls (fuel + 1) man ms budget =
      if left = 0 ∨ i + 1 = es.length then some (ms ++ db.cells tbls es[i].pair)
      else db.qDayLoop (content es) stop tbls fuel { man with
        pos := off es (i + 1)
        now := nowAt (foxReadDayMax db.gmtoff man) es es.length (i + 1) }
          (ms ++ db.cells tbls es[i].pair) left := by
  obtain ⟨hne, hlt⟩ := hdata _ (getElem_mem hi)
  obtain ⟨lines, hlines⟩ := isSome_iff_exists.mp (hdec _ (getElem_mem hi))
  have hcells : lineCells tbls es[i].head.tUs lines = db.cells tbls es[i].pair := by
    rw [Db.cells, Entry.pair, hlines]
    rfl
  have hcast :
      (if db.cells tbls es[i].pair = [] then (budget : ℤ) else budget - 1) = (left : ℤ) := by
    rw [hleft]
    split_ifs
    · rfl
    · omega
  have hend : man.fsize = off es (i + 1) ↔ i + 1 = es.length := by
    rw [hsize, off_inj le_rfl hi, eq_comm]
  rw [Db.qDayLoop, foxRead_at db.gmtoff db.junk hf.readable_content hf
    (by simpa using hasPayload_content es [] i) hi le_rfl hpos hsize hsmall hsmall' hlt hnow]
  simp only [show ¬ ((es[i].data.length : ℤ) < 0) by omega, if_false,
    show (0 : ℤ) < (es[i].data.length : ℤ) by omega, if_true, hlines, bind_some, hcells,
    hcast, hend, Int.natCast_eq_zero]
  by_cases hzero : left = 0
  · simp [hzero]
  · simp [hzero]

theorem Db.qDayLoop_step (hf : Framed es) (hdata : Payloads es)
    (hdec : ∀ e ∈ es, (db.decode e.data).isSome) {i : ℕ} (hi : i < es.length)
    (hpos : man.pos = off es i) (hsize : man.fsize = off es es.length) (hnow : man.now ≤ stop)
    {budget : ℕ} (hbudget : 0 < budget) {fuel : ℕ} {ms : List Cell} {rest : List (UInt64 × Bytes)}
    (hlast : i + 1 = es.length → rest = [])
    (hrest : ∀ left, 0 < left → i + 1 < es.length → off es (i + 1) < 2 ^ 31 →
      db.qDayLoop (content es) stop tbls fuel { man with
        pos := off es (i + 1)
        now := nowAt (foxReadDayMax db.gmtoff man) es es.length (i + 1) }
          (ms ++ db.cells tbls es[i].pair) (left : ℕ) =
        if off es (min (i + 1 + db.reads tbls left rest) (es.length - 1)) < 2 ^ 31 then
          some (ms ++ db.cells tbls es[i].pair ++
            (db.first tbls left rest).flatMap (db.cells tbls))
        else none) :
    db.qDayLoop (content es) stop tbls (fuel + 1) man ms budget =
      if off es (min (i + db.reads tbls budget (es[i].pair :: rest)) (es.length - 1)) < 2 ^ 31 then
        some (ms ++ (db.first tbls budget (es[i].pair :: rest)).flatMap (db.cells tbls))
      else none := by
  have hread := db.reads_pos tbls budget (cons_ne_nil es[i].pair rest)
  rw [Db.reads] at hread ⊢
  rw [db.flatMap_first_cons tbls hbudget]
  generalize hleft : (if db.cells tbls es[i].pair = [] then budget else budget - 1) = left at hread ⊢
  rcases Nat.lt_or_ge (off es (min (i + 1) (es.length - 1))) (2 ^ 31) with hsmall | hbig
  · have hturn := db.qDayLoop_at tbls hf hdata hdec hi hpos hsize hnow
      (lt_of_le_of_lt (off_mono es (by omega)) hsmall)
      (fun h => by rwa [Nat.min_eq_left (by omega)] at hsmall) hbudget hleft.symm fuel ms
    rw [hturn]
    by_cases hzero : left = 0
    · rw [if_pos (Or.inl hzero), if_pos hzero, if_pos hsmall, hzero, Db.first_zero,
        flatMap_nil, append_nil]
    by_cases hend : i + 1 = es.length
    · rw [if_pos (Or.inr hend), if_neg hzero, hlast hend, Db.reads, if_pos hsmall, Db.first_nil,
        flatMap_nil, append_nil]
    · rw [Nat.min_eq_left (by omega)] at hsmall
      rw [if_neg (by simp [hzero, hend]), hrest left (by omega) (by omega) hsmall, if_neg hzero,
        show i + 1 + db.reads tbls left rest = i + (db.reads tbls left rest + 1) by omega,
        append_assoc]
  · have hfar := off_mono es (show min (i + 1) (es.length - 1) ≤
      min (i + if left = 0 then 1 else db.reads tbls left rest + 1) (es.length - 1) by omega)
    rw [db.qDayLoop_err tbls (foxRead_big db.gmtoff db.junk hf hdata hi hpos hsize hnow hbig),
      if_neg (by omega)]

theorem Db.qDayLoop_spec (hf : Framed es) (hdata : Payloads es)
    (hdec : ∀ e ∈ es, (db.decode e.data).isSome) {q : ℕ} (hq : q ≤ es.length)
    (hnew : ∀ h : q < es.length, stop < es[q].head.tUs) (n : ℕ) :
    ∀ (i fuel budget : ℕ) (man : FoxManager) (ms : List Cell), i + n + 1 = q → 0 < budget →
      man.pos = off es i → man.fsize = off es es.length → man.now ≤ stop →
      (∀ m (h : m < es.length), i < m → m < q → es[m].head.tUs ≤ stop) →
      db.qDayLoop (content es) stop tbls (fuel + n + 2) man ms budget =
        if off es (min (i + db.reads tbls budget (((es.drop i).take (n + 1)).map Entry.pair))
            (es.length - 1)) < 2 ^ 31 then
          some (ms ++ (db.first tbls budget
            (((es.drop i).take (n + 1)).map Entry.pair)).flatMap (db.cells tbls))
        else none := by
  induction n with
  | zero =>
    intro i fuel budget man ms hi hb hpos hsize hnow _
    have hlt : i < es.length := by omega
    rw [drop_eq_getElem_cons hlt]
    refine db.qDayLoop_step tbls hf hdata hdec hlt hpos hsize hnow hb (fun _ => rfl)
      fun left _ hend hsmall => ?_
    -- the next record is newer than `stop`
    have hstop : stop < nowAt (foxReadDayMax db.gmtoff man) es es.length (i + 1) := by
      obtain rfl : q = i + 1 := by omega
      rw [nowAt_of_lt _ hend le_rfl]
      exact hnew hend
    rw [Db.qDayLoop, foxRead_stop db.gmtoff db.junk hstop]
    rw [take_zero, map_nil, Db.reads, Nat.add_zero, Nat.min_eq_left (by omega),
      if_pos hsmall, Db.first_nil, flatMap_nil, append_nil]
    rfl
  | succ n ih =>
    intro i fuel budget man ms hi hb hpos hsize hnow hold
    have hlt : i < es.length := by omega
    rw [drop_eq_getElem_cons hlt]
    refine db.qDayLoop_step tbls hf hdata hdec hlt hpos hsize hnow hb (fun h => by omega)
      fun left hleft hend _ => ?_
    have hnow' : nowAt (foxReadDayMax db.gmtoff man) es es.length (i + 1) ≤ stop := by
      rw [nowAt_of_lt _ hend le_rfl]
      exact hold _ hend (by omega) (by omega)
    exact ih (i + 1) fuel left { man with
        pos := off es (i + 1)
        now := nowAt (foxReadDayMax db.gmtoff man) es es.length (i + 1) } _ (by omega) hleft rfl
      hsize hnow' (fun m h hm => hold m h (by omega))

theorem Db.qDayLoop_until (hf : Framed es) (hs : Sorted es) (hdata : Payloads es)
    (hdec : ∀ e ∈ es, (db.decode e.data).isSome) {u : UInt64} (hu : stop < u) {p q : ℕ}
    (hp : p < es.length) (hq : q = max (p + 1) (firstNotBefore es es.length (stop + 1)))
    (hpos : man.pos = off es p) (hsize : man.fsize = off es es.length) (hnow : man.now ≤ stop)
    {budget : ℕ} (hb : 0 < budget) (ms : List Cell) {rs : List (UInt64 × Bytes)}
    (hrs : ((es.drop p).take (q - p)).map Entry.pair = rs) :
    db.qDayLoop (content es) stop tbls ((content es).length + 1) man ms budget =
      if off es (min (p + db.reads tbls budget rs) (es.length - 1)) < 2 ^ 31 then
        some (ms ++ (db.first tbls budget rs).flatMap (db.cells tbls))
      else none := by
  have hlen := length_le_content es
  have hle := firstNotBefore_le es es.length (stop + 1)
  have hiff {m : ℕ} (h : m < es.length) := lt_firstNotBefore_succ_iff hs hu h
  generalize firstNotBefore es es.length (stop + 1) = f at *
  have hspec := db.qDayLoop_spec tbls hf hdata hdec (show q ≤ es.length by omega)
    (fun h => UInt64.not_le.mp fun hle => absurd ((hiff h).mpr hle) (by omega)) (q - p - 1) p
    ((content es).length - 1 - (q - p - 1)) budget man ms (by omega) hb hpos hsize hnow
    (fun m h _ hm => (hiff h).mp (by omega))
  rwa [show (content es).length - 1 - (q - p - 1) + (q - p - 1) + 2 = (content es).length + 1 by
    omega, show q - p - 1 + 1 = q - p by omega, hrs] at hspec

variable {start : UInt64}

theorem Db.qDay_of_none (hfile : db.fs (packFname (getDateFromUs start)) = none) (ms : List Cell)
    (budget : ℤ) : db.qDay start stop ms tbls budget = some ms := by
  simp only [Db.qDay, readerFrom, foxSetupRead, hfile]
  rfl

theorem Db.qDay_of_reader {file : Bytes}
    (hfile : db.fs (packFname (getDateFromUs start)) = some file)
    (h : readerFrom db.gmtoff db.junk db.fs (getDateFromUs start) start = some (0, man))
    (ms : List Cell) (budget : ℤ) :
    db.qDay start stop ms tbls budget =
      db.qDayLoop file stop tbls (file.length + 1) man ms budget := by
  simp only [Db.qDay, h, hfile]
  rfl

theorem Db.qDay_of_err
    (h : readerFrom db.gmtoff db.junk db.fs (getDateFromUs start) start = some (-EACCES, man))
    (ms : List Cell) (budget : ℤ) : db.qDay start stop ms tbls budget = none := by
  simp only [Db.qDay, h]
  rfl

end Loop

end Sysak.Fox
