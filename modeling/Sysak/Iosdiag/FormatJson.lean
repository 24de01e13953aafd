/-
# The delays of a request

`delay_convert_to_json` of `iosdiag/latency/format_json.c` writes, from the five points of a
request,

    {"time":"...","diskname":"...","totaldelay":N,"delays":[{"component":"...","delay":N},...]}

A point not later than the last one that counted is left out with its component (`delaysFrom`).  The
comma is written for every point but the last.
-/

import Sysak.Lib.Json

namespace Sysak.Iosdiag

open Lib Lib.Json List

def isName (c : UInt8) : Bool := 32 ≤ c && c < 128 && c != 34 && c != 92

structure DiskName where
  text : Bytes
  ascii : text.all isName = true

def maxPoint : ℕ := 5

instance : NeZero maxPoint := ⟨by decide⟩

abbrev Point : Type := Fin maxPoint

structure IosdiagReq where
  diskname : DiskName
  ts : Point → UInt64

structure CheckTime where
  tmYear : ℤ
  tmMon : ℤ
  tmMday : ℤ
  tmHour : ℤ
  tmMin : ℤ
  tmSec : ℤ
  tvUsec : ℤ

def setCheckTimeDate (t : CheckTime) : Bytes :=
  decInt (1900 + t.tmYear) ++ bytes "-" ++ decInt (1 + t.tmMon) ++ bytes "-" ++ decInt t.tmMday ++
    bytes " " ++ decInt t.tmHour ++ bytes ":" ++ decInt t.tmMin ++ bytes ":" ++ decInt t.tmSec ++
    bytes "." ++ decInt (t.tvUsec.tdiv 1000)

def gDelays : List (Bytes × Point) :=
  [(bytes "block", 1), (bytes "driver", 2), (bytes "disk", 3), (bytes "complete", 4)]

def delayIdxToStr (idx : Point) : Option Bytes := (gDelays.find? fun p => p.2 == idx).map Prod.fst

def percentS (s : Option Bytes) : Bytes := s.getD (bytes "(null)")

def delayText (i : Point) (delay : UInt64) : Bytes :=
  bytes "\x7b\"component\":\"" ++ percentS (delayIdxToStr i) ++ bytes "\",\"delay\":" ++
    dec delay.toNat ++ bytes "\x7d"

def micros (ts : Point → UInt64) (n i : Point) : UInt64 := ts i / 1000 - ts n / 1000

def delayPiece (p : Point × UInt64) : Bytes :=
  delayText p.1 p.2 ++ if p.1 ≠ 4 then bytes "," else []

structure Loop where
  n : Point
  skip : Bool
  dest : Bytes

def Loop.base (st : Loop) (i : Point) : Point := if st.skip then st.n else i - 1

def delayStep (iop : IosdiagReq) (st : Loop) (i : Point) : Loop :=
  if i = 0 then
    ⟨st.n, st.skip, st.dest ++ bytes "\"totaldelay\":" ++ dec (micros iop.ts 0 4).toNat ++
      bytes ",\"delays\":["⟩
  else if iop.ts (st.base i) < iop.ts i then
    ⟨st.base i, false, st.dest ++ delayPiece (i, micros iop.ts (st.base i) i)⟩
  else ⟨st.base i, true, st.dest⟩

def delayConvertToJson (date : Bytes) (iop : IosdiagReq) : Bytes :=
  let dest := bytes "\x7b\"time\":\"" ++ date ++ bytes "\",\"diskname\":\"" ++
    iop.diskname.text ++ bytes "\","
  ((finRange maxPoint).foldl (delayStep iop) ⟨0, false, dest⟩).dest ++ bytes "]\x7d\n"

def delaysFrom (ts : Point → UInt64) : Point → List (Point) → List (Point × UInt64)
  | _, [] => []
  | n, i :: is =>
    if ts n < ts i then (i, micros ts n i) :: delaysFrom ts i is else delaysFrom ts n is

def reached (ts : Point → UInt64) : Point → List (Point) → Point
  | n, [] => n
  | n, i :: is => if ts n < ts i then reached ts i is else reached ts n is

def delays (ts : Point → UInt64) : List (Point × UInt64) := delaysFrom ts 0 [1, 2, 3, 4]

theorem dest_foldl_delayStep (iop : IosdiagReq) {is : List (Point)} :
    ∀ (st : Loop) (m : Point), (∀ i ∈ is, i ≠ 0) → is.IsChain (fun i j => j - 1 = i) →
      (∀ i ∈ is.head?, st.base i = m) →
      (is.foldl (delayStep iop) st).dest =
        st.dest ++ (delaysFrom iop.ts m is).flatMap delayPiece := by
  induction is with
  | nil =>
    intro st m _ _ _
    exact (append_nil _).symm
  | cons i is ih =>
    intro st m hne hchain hbase
    have hm : st.base i = m := hbase i rfl
    have hi : i ≠ 0 := hne i mem_cons_self
    have hne' := fun j hj => hne j (mem_cons_of_mem i hj)
    rw [foldl_cons, delayStep, if_neg hi, hm, delaysFrom]
    split_ifs with hlt
    · -- the next point is measured from this one
      have hnext : ∀ j ∈ is.head?, j - 1 = i := by
        cases is with
        | nil => exact fun _ hj => by cases hj
        | cons j is =>
          rintro _ ⟨⟩
          exact (isChain_cons_cons.mp hchain).1
      rw [ih ⟨m, false, _⟩ i hne' hchain.of_cons hnext, flatMap_cons, append_assoc]
    · -- the next point is measured from where this one was
      exact ih ⟨m, true, _⟩ m hne' hchain.of_cons fun _ _ => rfl

theorem delayConvertToJson_eq (date : Bytes) (iop : IosdiagReq) :
    delayConvertToJson date iop =
      bytes "\x7b\"time\":\"" ++ date ++ bytes "\",\"diskname\":\"" ++ iop.diskname.text ++
        bytes "\"," ++ bytes "\"totaldelay\":" ++ dec (micros iop.ts 0 4).toNat ++
        bytes ",\"delays\":[" ++ (delays iop.ts).flatMap delayPiece ++ bytes "]\x7d\n" := by
  have hpoints : finRange maxPoint = 0 :: [1, 2, 3, 4] := rfl
  rw [delayConvertToJson, hpoints, foldl_cons, delayStep, if_pos rfl,
    dest_foldl_delayStep iop _ 0 (by decide) (by decide) fun i hi => by cases hi; rfl]
  rfl

def delayJson (p : Point × UInt64) : Json :=
  .obj [(bytes "component", .str (percentS (delayIdxToStr p.1))),
    (bytes "delay", .int p.2.toNat)]

def lineHead (date : Bytes) (iop : IosdiagReq) : List (Bytes × Json × Bytes) :=
  [(bytes "time", .str date, quoted date),
    (bytes "diskname", .str iop.diskname.text, quoted iop.diskname.text),
    (bytes "totaldelay", .int (micros iop.ts 0 4).toNat, dec (micros iop.ts 0 4).toNat)]

def lineJson (date : Bytes) (iop : IosdiagReq) : List (Bytes × Json) :=
  (lineHead date iop).map (fun m => (m.1, m.2.1)) ++
    [(bytes "delays", .arr ((delays iop.ts).map delayJson))]

theorem plain_of_mem_decInt {z : ℤ} {c : UInt8} (h : c ∈ decInt z) : Plain c := by
  have hdigit : ∀ {c : UInt8}, isDigit c = true → Plain c := by
    intro c hc
    simp only [isDigit, Bool.and_eq_true, decide_eq_true_eq, UInt8.le_iff_toNat_le] at hc
    refine ⟨UInt8.le_iff_toNat_le.mpr ?_, ?_, ?_⟩
    · exact le_trans (by decide) hc.1
    · rintro rfl
      exact absurd hc.1 (by decide)
    · rintro rfl
      exact absurd hc.2 (by decide)
  cases z with
  | ofNat n => exact hdigit (isDigit_of_mem_dec h)
  | negSucc n =>
    rcases mem_cons.mp h with rfl | h
    · decide
    · exact hdigit (isDigit_of_mem_dec h)

theorem plain_setCheckTimeDate (t : CheckTime) : ∀ c ∈ setCheckTimeDate t, Plain c := by
  have hdash : ∀ c ∈ bytes "-", Plain c := plain_of_all (by decide)
  have hblank : ∀ c ∈ bytes " ", Plain c := plain_of_all (by decide)
  have hcolon : ∀ c ∈ bytes ":", Plain c := plain_of_all (by decide)
  have hdot : ∀ c ∈ bytes ".", Plain c := plain_of_all (by decide)
  intro c hc
  simp only [setCheckTimeDate, mem_append] at hc
  rcases hc with (((((((((((h | h) | h) | h) | h) | h) | h) | h) | h) | h) | h) | h) | h
  all_goals first
    | exact plain_of_mem_decInt h
    | exact hdash c h
    | exact hblank c h
    | exact hcolon c h
    | exact hdot c h

theorem DiskName.plain (d : DiskName) : ∀ c ∈ d.text, Plain c := by
  intro c hc
  have h := all_eq_true.mp d.ascii c hc
  simp only [isName, Bool.and_eq_true, decide_eq_true_eq, bne_iff_ne] at h
  exact ⟨h.1.1.1, h.1.2, h.2⟩

theorem plain_delayIdxToStr (i : Point) : ∀ c ∈ percentS (delayIdxToStr i), Plain c := by
  have hall : ∀ i : Point, (percentS (delayIdxToStr i)).all (fun c => decide (Plain c)) = true := by
    decide
  exact plain_of_all (hall i)

theorem delayText_eq (i : Point) (d : UInt64) :
    delayText i d =
      123 :: withMembers [(bytes "component", .str (percentS (delayIdxToStr i)),
        quoted (percentS (delayIdxToStr i)))] (member (bytes "delay") (dec d.toNat ++ [125])) := by
  have h₁ : bytes "\x7b\"component\":\"" = 123 :: (quoted (bytes "component") ++ [58, 34]) := rfl
  have h₂ : bytes "\",\"delay\":" = 34 :: 44 :: (quoted (bytes "delay") ++ [58]) := rfl
  have h₃ : bytes "\x7d" = [125] := rfl
  rw [delayText, h₁, h₂, h₃]
  generalize percentS (delayIdxToStr i) = name
  show _ = 123 :: member (bytes "component") (quoted name ++ 44 :: member (bytes "delay")
    (dec d.toNat ++ [125]))
  simp only [member, quoted, cons_append, append_assoc, nil_append]

theorem reads_delayText (p : Point × UInt64) : Reads (delayJson p) (delayText p.1 p.2) := by
  rw [delayText_eq]
  refine reads_object ?_ ?_ (plain_of_all (by decide)) (reads_dec p.2.toNat)
  · intro m hm
    rw [mem_singleton.mp hm]
    exact plain_of_all (t := bytes "component") (by decide)
  · intro m hm
    rw [mem_singleton.mp hm]
    exact reads_quoted (plain_delayIdxToStr p.1)

theorem delaysFrom_append (ts : Point → UInt64) (is js : List (Point)) : ∀ n : Point,
    delaysFrom ts n (is ++ js) = delaysFrom ts n is ++ delaysFrom ts (reached ts n is) js := by
  induction is with
  | nil => exact fun n => rfl
  | cons i is ih =>
    intro n
    rw [cons_append, delaysFrom, delaysFrom, reached]
    split_ifs
    · rw [ih, cons_append]
    · exact ih n

theorem reached_append (ts : Point → UInt64) (is js : List (Point)) : ∀ n : Point,
    reached ts n (is ++ js) = reached ts (reached ts n is) js := by
  induction is with
  | nil => exact fun n => rfl
  | cons i is ih =>
    intro n
    rw [cons_append, reached, reached]
    split_ifs
    · exact ih i
    · exact ih n

variable {ts : Point → UInt64}

theorem mem_of_mem_delaysFrom {is : List (Point)} {p : Point × UInt64} :
    ∀ {n : Point}, p ∈ delaysFrom ts n is → p.1 ∈ is := by
  induction is with
  | nil => exact fun h => by cases h
  | cons i is ih =>
    intro n h
    rw [delaysFrom] at h
    split_ifs at h
    · rcases mem_cons.mp h with rfl | h
      · exact mem_cons_self
      · exact mem_cons_of_mem _ (ih h)
    · exact mem_cons_of_mem _ (ih h)

def front (ts : Point → UInt64) : List (Json × Bytes) :=
  (delaysFrom ts 0 [1, 2, 3]).map fun p => (delayJson p, delayText p.1 p.2)

def lastBase (ts : Point → UInt64) : Point := reached ts 0 [1, 2, 3]

theorem reads_front (ts : Point → UInt64) : ∀ p ∈ front ts, Reads p.1 p.2 := by
  intro p hp
  obtain ⟨q, -, rfl⟩ := mem_map.mp hp
  exact reads_delayText q

theorem delays_eq (ts : Point → UInt64) :
    delays ts = delaysFrom ts 0 [1, 2, 3] ++ delaysFrom ts (lastBase ts) [4] :=
  delaysFrom_append ts [1, 2, 3] [4] 0

theorem flatMap_delayPiece (ts : Point → UInt64) (s : Bytes) :
    (delaysFrom ts 0 [1, 2, 3]).flatMap delayPiece ++ s = withCommas (front ts) s := by
  have hpoints : ∀ p ∈ delaysFrom ts 0 [1, 2, 3], p.1 ≠ 4 := by
    intro p hp
    have hall : ∀ i ∈ ([1, 2, 3] : List (Point)), i ≠ 4 := by decide
    exact hall p.1 (mem_of_mem_delaysFrom hp)
  rw [front]
  generalize delaysFrom ts 0 [1, 2, 3] = ps at hpoints
  induction ps with
  | nil => rfl
  | cons p ps ih =>
    have hcomma : delayPiece p = delayText p.1 p.2 ++ [44] := by
      rw [delayPiece, if_pos (hpoints p mem_cons_self)]
      rfl
    rw [flatMap_cons, hcomma, append_assoc, append_assoc,
      ih fun q hq => hpoints q (mem_cons_of_mem _ hq)]
    rfl

theorem line_eq (date : Bytes) (iop : IosdiagReq) :
    delayConvertToJson date iop =
      123 :: withMembers (lineHead date iop) (member (bytes "delays")
        (91 :: withCommas (front iop.ts)
          ((delaysFrom iop.ts (lastBase iop.ts) [4]).flatMap delayPiece ++ [93, 125, 10]))) := by
  have h₁ : bytes "\x7b\"time\":\"" = 123 :: (quoted (bytes "time") ++ [58, 34]) := rfl
  have h₂ : bytes "\",\"diskname\":\"" = 34 :: 44 :: (quoted (bytes "diskname") ++ [58, 34]) := rfl
  have h₃ : bytes "\"," = [34, 44] := rfl
  have h₄ : bytes "\"totaldelay\":" = quoted (bytes "totaldelay") ++ [58] := rfl
  have h₅ : bytes ",\"delays\":[" = 44 :: (quoted (bytes "delays") ++ [58, 91]) := rfl
  have h₆ : bytes "]\x7d\n" = [93, 125, 10] := rfl
  rw [delayConvertToJson_eq, h₁, h₂, h₃, h₄, h₅, h₆, delays_eq, flatMap_append,
    ← flatMap_delayPiece]
  show _ = 123 :: member (bytes "time") (quoted date ++ 44 :: member (bytes "diskname")
    (quoted iop.diskname.text ++ 44 :: member (bytes "totaldelay")
      (dec (micros iop.ts 0 4).toNat ++ 44 :: member (bytes "delays") _)))
  simp only [member, quoted, cons_append, append_assoc, nil_append]

theorem plain_lineHead (date : Bytes) (iop : IosdiagReq) :
    ∀ m ∈ lineHead date iop, ∀ c ∈ m.1, Plain c := by
  simp only [lineHead, forall_mem_cons]
  exact ⟨plain_of_all (by decide), plain_of_all (by decide), plain_of_all (by decide),
    fun _ h => by cases h⟩

theorem plain_delays : ∀ c ∈ bytes "delays", Plain c := plain_of_all (by decide)

variable {date : Bytes}

theorem reads_lineHead (hdate : ∀ c ∈ date, Plain c) (iop : IosdiagReq) :
    ∀ m ∈ lineHead date iop, Reads m.2.1 m.2.2 := by
  simp only [lineHead, forall_mem_cons]
  exact ⟨reads_quoted hdate, reads_quoted iop.diskname.plain, reads_dec _, fun _ h => by cases h⟩

theorem parse_delays (h : ts (lastBase ts) < ts 4 ∨ delays ts = []) (r : Bytes) :
    parse (91 :: withCommas (front ts)
      ((delaysFrom ts (lastBase ts) [4]).flatMap delayPiece ++ 93 :: r)) =
      some (.arr ((delays ts).map delayJson), r) := by
  rcases h with h | h
  · have hlast : delaysFrom ts (lastBase ts) [4] = [(4, micros ts (lastBase ts) 4)] := if_pos h
    have hread := parse_array_last (reads_front ts)
      (reads_delayText (4, micros ts (lastBase ts) 4)) r
    have hvalues : (front ts).map Prod.fst = (delaysFrom ts 0 [1, 2, 3]).map delayJson := by
      rw [front, map_map]
      rfl
    have hpiece : delayPiece (4, micros ts (lastBase ts) 4) =
        delayText 4 (micros ts (lastBase ts) 4) := append_nil _
    rw [delays_eq, hlast, map_append, flatMap_singleton, hpiece]
    rw [hvalues] at hread
    exact hread
  · have happ := h
    rw [delays_eq, append_eq_nil_iff] at happ
    rw [front, happ.1, happ.2, h]
    exact parse_nil_array r

theorem loads_line (hdate : ∀ c ∈ date, Plain c) {iop : IosdiagReq}
    (h : iop.ts (lastBase iop.ts) < iop.ts 4 ∨ delays iop.ts = []) :
    loads (delayConvertToJson date iop) = some (.obj (lineJson date iop)) := by
  have hobj := parse_object_last (plain_lineHead date iop) (reads_lineHead hdate iop)
    plain_delays (parse_delays h [125, 10])
  rw [line_eq]
  exact loads_of_parse hobj rfl

theorem loads_line_eq_none (hdate : ∀ c ∈ date, Plain c) {iop : IosdiagReq}
    (h : ¬ iop.ts (lastBase iop.ts) < iop.ts 4) (hne : delays iop.ts ≠ []) :
    loads (delayConvertToJson date iop) = none := by
  have hlast : delaysFrom iop.ts (lastBase iop.ts) [4] = [] := if_neg h
  have hfront : front iop.ts ≠ [] := by
    intro hnil
    rw [delays_eq, hlast, append_nil] at hne
    exact hne (map_eq_nil_iff.mp hnil)
  have harr := parse_array_comma (reads_front iop.ts) hfront [125, 10]
  have hobj := parse_object_eq_none (plain_lineHead date iop) (reads_lineHead hdate iop)
    plain_delays rfl harr
  rw [line_eq, hlast]
  show (parse (123 :: withMembers _ (member _ (91 :: withCommas _ [93, 125, 10])))).bind _ = none
  rw [hobj]
  rfl

theorem length_delaysFrom_le (ts : Point → UInt64) (is : List (Point)) : ∀ n : Point,
    (delaysFrom ts n is).length ≤ is.length := by
  induction is with
  | nil => exact fun n => le_rfl
  | cons i is ih =>
    intro n
    rw [delaysFrom]
    split_ifs
    · exact Nat.succ_le_succ (ih i)
    · exact (ih n).trans (Nat.le_succ _)

theorem length_delaysFrom_iff (ts : Point → UInt64) (is : List (Point)) : ∀ n : Point,
    (delaysFrom ts n is).length = is.length ↔ (n :: is).IsChain (fun i j => ts i < ts j) := by
  induction is with
  | nil => exact fun n => ⟨fun _ => .singleton n, fun _ => rfl⟩
  | cons i is ih =>
    intro n
    rw [delaysFrom, isChain_cons_cons]
    split_ifs with hlt
    · rw [length_cons, length_cons, Nat.add_right_cancel_iff, ih i]
      exact ⟨fun h => ⟨hlt, h⟩, fun h => h.2⟩
    · have hle := length_delaysFrom_le ts is n
      refine ⟨fun h => ?_, fun h => absurd h.1 hlt⟩
      rw [length_cons] at h
      omega

def Increasing (ts : Point → UInt64) : Prop := ∀ i : Fin 4, ts i.castSucc < ts i.succ

instance (ts : Point → UInt64) : Decidable (Increasing ts) :=
  inferInstanceAs (Decidable (∀ _ : Fin 4, _))

theorem length_delays_iff (ts : Point → UInt64) : (delays ts).length = 4 ↔ Increasing ts := by
  refine (length_delaysFrom_iff ts [1, 2, 3, 4] 0).trans ?_
  simp only [isChain_cons_cons]
  constructor
  · rintro ⟨h₁, h₂, h₃, h₄, -⟩ i
    match i with
    | 0 => exact h₁
    | 1 => exact h₂
    | 2 => exact h₃
    | 3 => exact h₄
  · exact fun h => ⟨h 0, h 1, h 2, h 3, .singleton 4⟩

theorem length_delays_le (ts : Point → UInt64) : (delays ts).length ≤ 4 :=
  length_delaysFrom_le ts [1, 2, 3, 4] 0

theorem toNat_micros {n i : Point} (h : (ts n).toNat / 1000 ≤ (ts i).toNat / 1000) :
    (micros ts n i).toNat = (ts i).toNat / 1000 - (ts n).toNat / 1000 :=
  UInt64.toNat_sub_of_le _ _ (UInt64.le_iff_toNat_le.mpr h)

theorem sum_delaysFrom (ts : Point → UInt64) (is : List (Point)) : ∀ n : Point,
    ((delaysFrom ts n is).map fun p => p.2.toNat).sum + (ts n).toNat / 1000 =
      (ts (reached ts n is)).toNat / 1000 := by
  induction is with
  | nil => exact fun n => Nat.zero_add _
  | cons i is ih =>
    intro n
    rw [delaysFrom, reached]
    split_ifs with hlt
    · have hle : (ts n).toNat / 1000 ≤ (ts i).toNat / 1000 :=
        Nat.div_le_div_right (UInt64.lt_iff_toNat_lt.mp hlt).le
      have hrec := ih i
      rw [map_cons, sum_cons, toNat_micros hle]
      omega
    · exact ih n

theorem sum_delays (h : ts (lastBase ts) < ts 4) :
    ((delays ts).map fun p => p.2.toNat).sum = (micros ts 0 4).toNat := by
  have hreached : reached ts 0 [1, 2, 3, 4] = 4 :=
    (reached_append ts [1, 2, 3] [4] 0).trans (if_pos h)
  have hsum := sum_delaysFrom ts [1, 2, 3, 4] 0
  rw [hreached] at hsum
  rw [toNat_micros (by omega), delays]
  omega

theorem lt_of_increasing (h : Increasing ts) : ts (lastBase ts) < ts 4 := by
  by_contra hlast
  have hlen := (length_delays_iff ts).mpr h
  have hle := length_delaysFrom_le ts [1, 2, 3] 0
  have hnil : delaysFrom ts (lastBase ts) [4] = [] := if_neg hlast
  rw [delays_eq, hnil, append_nil] at hlen
  simp only [length_cons, length_nil] at hle
  omega

theorem delays_of_increasing (h : Increasing ts) :
    delays ts = [(1, micros ts 0 1), (2, micros ts 1 2), (3, micros ts 2 3),
      (4, micros ts 3 4)] := by
  have h₁ : ts 0 < ts 1 := h 0
  have h₂ : ts 1 < ts 2 := h 1
  have h₃ : ts 2 < ts 3 := h 2
  have h₄ : ts 3 < ts 4 := h 3
  rw [delays, delaysFrom, if_pos h₁, delaysFrom, if_pos h₂, delaysFrom, if_pos h₃, delaysFrom,
    if_pos h₄, delaysFrom]

end Sysak.Iosdiag
