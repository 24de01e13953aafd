/-
# The counters of the network protocols
-/

import Sysak.Collector.VarInput
import Sysak.Lib.Assignments
import Sysak.Lib.Overwrite

namespace Sysak.Collector

open Lib VarInput List

abbrev SnmpTable : Type := List (Bytes × ℤ)

namespace CprocSnmpStat

def cellsMon : List Bytes :=
  [bytes "retrans", bytes "abort", bytes "paws", bytes "err", bytes "fail", bytes "drop",
    bytes "overflow"]

def title (head cell : Bytes) : Bytes := head ++ 95 :: cell

def addCell (head cell : Bytes) (value : ℤ) (now : SnmpTable) : SnmpTable :=
  cellsMon.foldl (fun now mon =>
    if (find (literal mon) (lower cell)).isSome then luaAssign now (title head cell) (some value)
    else now) now

def createTable (titles : VarString) (values : VarInput.VarKvs) (now : SnmpTable) :
    Option SnmpTable :=
  titles.s.1[0]?.bind fun s =>
    let head := s.filter (· != 58)
    (range titles.no).foldlM (fun now k => do
      let cell ← titles.s.1[k + 1]?
      let value ← values.value.1[k]?
      some (addCell head cell value now)) now

structure Reading where
  i : ℕ
  titles : VarString
  values : VarInput.VarKvs
  now : SnmpTable

def readLine (st : Reading) (line : Bytes) : Option Reading :=
  let i := st.i + 1
  if i % 2 = 0 then do
    let r ← VarInput.varInputString line st.titles
    if r.1 = 0 then some { st with i := i, titles := r.2 } else none
  else do
    let r ← VarInput.varInputKvs line st.values
    if r.1 = 0 then
      let now ← createTable st.titles r.2 st.now
      some { st with i := i, values := r.2, now := now }
    else none

def proc (lines : List Bytes) (now : SnmpTable) : Option SnmpTable :=
  (lines.foldlM readLine ⟨1, ⟨0, Cells.zero []⟩, ⟨0, [], Cells.zero 0⟩, now⟩).map Reading.now

def current (snmp netstat : List Bytes) : Option SnmpTable := (proc snmp []).bind (proc netstat)

def monitored (name : Bytes) : Bool :=
  cellsMon.any fun mon => (find (literal mon) (lower name)).isSome

end CprocSnmpStat

open CprocSnmpStat

structure SnmpPair where
  titleLine : Bytes
  valueLine : Bytes
  title_ne : tokens (cString titleLine) ≠ []
  noSpace : ∀ t ∈ tokens (cString titleLine), ∀ c ∈ t, isSpace c = false
  integers : ∀ t ∈ (tokens (cString valueLine)).tail, isInteger t = true
  length_eq : (tokens (cString valueLine)).length = (tokens (cString titleLine)).length
  limit : (tokens (cString titleLine)).length ≤ varIndexMax

namespace SnmpPair

variable (p : SnmpPair)

def head : Bytes := (tokens (cString p.titleLine)).head p.title_ne

def columns : List (Bytes × ℤ) :=
  (tokens (cString p.titleLine)).tail.zip ((tokens (cString p.valueLine)).tail.map integer)

end SnmpPair

def under (head : Bytes) (c : Bytes × ℤ) : Bytes × ℤ := (title (head.filter (· != 58)) c.1, c.2)

def kept (c : Bytes × ℤ) : Bytes × ℤ := (c.1.take 31, clampLong c.2)

def leftover (before : List SnmpPair) (n : ℕ) : Bytes × ℤ :=
  ((before.findSome? fun p => p.columns[n]?).map kept).getD ([], 0)

abbrev SnmpFile : Type := List SnmpPair

namespace SnmpFile

def lines (f : SnmpFile) : List Bytes := f.flatMap fun p => [p.titleLine, p.valueLine]

def columns (f : SnmpFile) : List (Bytes × ℤ) :=
  f.flatMap fun p => (p.columns.filter fun c => monitored c.1).map (under p.head)

def seenOf (before : List SnmpPair) (p : SnmpPair) : List (Bytes × ℤ) :=
  ((p.columns.map kept ++ [leftover before p.columns.length]).filter fun c =>
    monitored c.1).map (under (p.head.take 31))

def seenFrom (before : List SnmpPair) : SnmpFile → List (Bytes × ℤ)
  | [] => []
  | p :: f => seenOf before p ++ seenFrom (p :: before) f

def seen (f : SnmpFile) : List (Bytes × ℤ) := seenFrom [] f

end SnmpFile

namespace SnmpPair

variable (p : SnmpPair)

theorem tokens_eq : tokens (cString p.titleLine) =
    p.head :: (tokens (cString p.titleLine)).tail :=
  (cons_head_tail p.title_ne).symm

theorem length_columns : p.columns.length + 1 = (tokens (cString p.titleLine)).length := by
  have hpos := length_pos_iff.mpr p.title_ne
  rw [columns, length_zip, length_map, length_tail, length_tail, p.length_eq]
  omega

theorem map_fst_columns : p.columns.map Prod.fst = (tokens (cString p.titleLine)).tail :=
  map_fst_zip (by simp [p.length_eq])

theorem map_snd_columns :
    p.columns.map Prod.snd = (tokens (cString p.valueLine)).tail.map integer :=
  map_snd_zip (by simp [p.length_eq])

theorem varInputString_titleLine (t : VarString) :
    ∃ q, VarInput.varInputString p.titleLine t = some (0, q) ∧ q.no = p.columns.length + 1 ∧
      q.s.1 = p.head.take 31 :: (p.columns.map fun c => (kept c).1) ++
        t.s.1.drop (p.columns.length + 1) := by
  have htake : (tokens (cString p.titleLine)).take varIndexMax = tokens (cString p.titleLine) :=
    take_of_length_le p.limit
  obtain ⟨c', hrun, hc'⟩ := inputCells_reads (fun t => t.take 31) (cString p.titleLine) t.s
    fun t ht s hs => by
      rw [htake] at ht
      exact sscanfString_word 31 (by simpa using (mem_filter.mp ht).2) (p.noSpace t ht)
        (isSpace_of_endsWord hs)
  rw [htake, ← length_columns] at hrun hc'
  refine ⟨⟨_, c'⟩, by rw [VarInput.varInputString, hrun]; rfl, rfl, ?_⟩
  rw [hc', p.tokens_eq, map_cons, ← map_fst_columns, map_map]
  rfl

theorem varInputKvs_valueLine (v : VarInput.VarKvs) :
    ∃ q, VarInput.varInputKvs p.valueLine v = some (0, q) ∧
      q.value.1 = (p.columns.map fun c => (kept c).2) ++ v.value.1.drop p.columns.length := by
  have hlen := p.length_columns
  rw [← p.length_eq] at hlen
  rcases varNext_cases (cString p.valueLine) with ⟨-, hnil⟩ | ⟨w, r, hnext, hw, hr, htok⟩
  · rw [hnil] at hlen
    exact absurd hlen (Nat.succ_ne_zero _)
  · have hr' : tokens r = (tokens (cString p.valueLine)).tail := by rw [htok, tail_cons]
    have htake : (tokens r).take varIndexMax = tokens r := by
      refine take_of_length_le ?_
      have hlimit := p.limit
      rw [← p.length_eq, htok, length_cons] at hlimit
      omega
    obtain ⟨c', hrun, hc'⟩ := inputCells_reads (fun t => clampLong (integer t)) r v.value
      fun t ht s hs => by
        rw [htake, hr'] at ht
        exact sscanfLong_integer (p.integers t ht) (noDigit_of_endsWord hs)
    rw [htake] at hrun hc'
    refine ⟨_, by rw [varInputKvs_key hnext hw hr, hrun]; rfl, ?_⟩
    rw [htok, length_cons] at hlen
    have hsnd : (tokens r).map (fun t => clampLong (integer t)) =
        p.columns.map fun c => (kept c).2 := by
      rw [hr', show (fun t => clampLong (integer t)) = clampLong ∘ integer from rfl,
        ← map_map, ← map_snd_columns, map_map]
      rfl
    rw [hc', hsnd, ← Nat.succ.inj hlen]

end SnmpPair

variable {titles : VarString} {values : VarInput.VarKvs}

section CreateTable

variable {now : SnmpTable}

theorem luaAssign_luaAssign (now : SnmpTable) (k : Bytes) (v : ℤ) :
    luaAssign (luaAssign now k (some v)) k (some v) = luaAssign now k (some v) := by
  simp [luaAssign]

theorem addCell_eq (head cell : Bytes) (value : ℤ) (now : SnmpTable) :
    addCell head cell value now =
      if monitored cell then luaAssign now (title head cell) (some value) else now := by
  unfold addCell monitored
  induction cellsMon generalizing now with
  | nil => rfl
  | cons mon mons ih =>
    rw [foldl_cons, ih, any_cons]
    cases hmon : (find (literal mon) (lower cell)).isSome with
    | false => simp
    | true => simp [luaAssign_luaAssign]

theorem foldl_addCell (head : Bytes) (cols : List (Bytes × ℤ)) (now : SnmpTable) :
    cols.foldl (fun now c => addCell (head.filter (· != 58)) c.1 c.2 now) now =
      ((cols.filter fun c => monitored c.1).map (under head)).foldl
        (fun t p => luaAssign t p.1 (some p.2)) now := by
  induction cols generalizing now with
  | nil => rfl
  | cons c cols ih =>
    rw [foldl_cons, ih, addCell_eq, filter_cons]
    split_ifs <;> rfl

theorem foldlM_range {α β : Type*} {f : β → ℕ → Option β} {g : β → α → β} {l : List α}
    (h : ∀ b k a, l[k]? = some a → f b k = some (g b a)) (b : β) :
    (range l.length).foldlM f b = some (l.foldl g b) := by
  induction l using reverseRecOn with
  | nil => rfl
  | append_singleton l a ih =>
    have hl : (range l.length).foldlM f b = some (l.foldl g b) := by
      refine ih fun b k a' hk => h b k a' ?_
      rw [getElem?_append_left (List.getElem?_eq_some_iff.mp hk).1, hk]
    rw [length_append, length_singleton, range_succ, foldlM_append, hl,
      foldl_append]
    show (f (l.foldl g b) l.length).bind some = _
    rw [h (l.foldl g b) l.length a (by simp)]
    rfl

theorem createTable_eq {head : Bytes} {cols : List (Bytes × ℤ)} (hno : titles.no = cols.length)
    (hhead : titles.s.1[0]? = some head)
    (hcells : ∀ k c, cols[k]? = some c →
      titles.s.1[k + 1]? = some c.1 ∧ values.value.1[k]? = some c.2) (now : SnmpTable) :
    createTable titles values now =
      some (((cols.filter fun c => monitored c.1).map (under head)).foldl
        (fun t p => luaAssign t p.1 (some p.2)) now) := by
  rw [createTable, hhead, hno, ← foldl_addCell]
  refine foldlM_range (fun now k c hk => ?_) now
  obtain ⟨hs, hv⟩ := hcells k c hk
  simp [hs, hv]

theorem createTable_eq_none (hno : titles.no = 64) (now : SnmpTable) :
    createTable titles values now = none := by
  obtain ⟨head, hhead⟩ : ∃ head, titles.s.1[0]? = some head :=
    ⟨_, getElem?_eq_getElem (by rw [titles.s.2]; decide)⟩
  have hout : titles.s.1[63 + 1]? = none := getElem?_eq_none (by rw [titles.s.2]; decide)
  rw [createTable, hhead, hno, show 64 = 63 + 1 from rfl, range_succ]
  simp only [Option.bind_some, foldlM_append, foldlM_cons, hout]
  exact Option.bind_fun_none _

end CreateTable

structure Follows (before : List SnmpPair) (st : Reading) : Prop where
  odd : st.i % 2 = 1
  titles : ∀ n, n + 1 < varIndexMax → st.titles.s.1[n + 1]? = some (leftover before n).1
  values : ∀ n < varIndexMax, st.values.value.1[n]? = some (leftover before n).2

variable {f : SnmpFile}

section Run

variable {before : List SnmpPair} {st : Reading} {p : SnmpPair}

theorem leftover_cons (p : SnmpPair) (before : List SnmpPair) (n : ℕ) :
    leftover (p :: before) n = (p.columns[n]?.map kept).getD (leftover before n) := by
  unfold leftover
  rw [findSome?_cons]
  cases p.columns[n]? <;> rfl

theorem Follows.read (h : Follows before st) (p : SnmpPair) :
    ∃ titles values, VarInput.varInputString p.titleLine st.titles = some (0, titles) ∧
      VarInput.varInputKvs p.valueLine st.values = some (0, values) ∧
      titles.no = p.columns.length + 1 ∧ titles.s.1[0]? = some (p.head.take 31) ∧
      (∀ n, n + 1 < varIndexMax → titles.s.1[n + 1]? = some (leftover (p :: before) n).1) ∧
      ∀ n < varIndexMax, values.value.1[n]? = some (leftover (p :: before) n).2 := by
  obtain ⟨titles, hrun, hno, hs⟩ := p.varInputString_titleLine st.titles
  obtain ⟨values, hrun', hv⟩ := p.varInputKvs_valueLine st.values
  refine ⟨titles, values, hrun, hrun', hno, by rw [hs]; rfl, fun n hn => ?_, fun n hn => ?_⟩
  · have hcell := getElem?_overwrite st.titles.s.1
      (p.head.take 31 :: p.columns.map fun c => (kept c).1) (n + 1)
    rw [overwrite, length_cons, length_map] at hcell
    rw [hs, hcell, getElem?_cons_succ, getElem?_map, h.titles n hn, leftover_cons]
    cases p.columns[n]? <;> rfl
  · have hcell := getElem?_overwrite st.values.value.1 (p.columns.map fun c => (kept c).2) n
    rw [overwrite, length_map] at hcell
    rw [hv, hcell, getElem?_map, h.values n hn, leftover_cons]
    cases p.columns[n]? <;> rfl

theorem foldlM_readLine_pair (hodd : st.i % 2 = 1)
    (htitles : VarInput.varInputString p.titleLine st.titles = some (0, titles))
    (hvalues : VarInput.varInputKvs p.valueLine st.values = some (0, values)) :
    [p.titleLine, p.valueLine].foldlM readLine st =
      (createTable titles values st.now).map fun now => ⟨st.i + 2, titles, values, now⟩ := by
  have hi : (st.i + 1) % 2 = 0 := by omega
  have hi' : (st.i + 1 + 1) % 2 = 1 := by omega
  simp only [foldlM_cons, readLine, hi, hi', htitles, hvalues, if_true, one_ne_zero, if_false,
    Option.bind_eq_bind, Option.bind_some]
  cases createTable titles values st.now <;> rfl

theorem getElem?_seen {k : ℕ} {c : Bytes × ℤ}
    (hk : (p.columns.map kept ++ [leftover before p.columns.length])[k]? = some c) :
    c = leftover (p :: before) k ∧ k < p.columns.length + 1 := by
  rw [leftover_cons]
  rcases Nat.lt_or_ge k p.columns.length with hlt | hge
  · rw [getElem?_append_left (by simpa using hlt), getElem?_map] at hk
    exact ⟨by rw [hk]; rfl, by omega⟩
  · rw [getElem?_append_right (by simpa using hge), length_map,
      getElem?_singleton] at hk
    split_ifs at hk with hzero
    obtain rfl : k = p.columns.length := by omega
    exact ⟨by rw [getElem?_eq_none le_rfl]; exact (Option.some.inj hk).symm, by omega⟩

theorem Follows.pair (h : Follows before st)
    (hp : (tokens (cString p.titleLine)).length < varIndexMax) :
    ∃ st', [p.titleLine, p.valueLine].foldlM readLine st = some st' ∧ Follows (p :: before) st' ∧
      st'.now =
        (SnmpFile.seenOf before p).foldl (fun t p => luaAssign t p.1 (some p.2)) st.now := by
  obtain ⟨titles, values, hrun, hrun', hno, hhead, htitles, hvalues⟩ := h.read p
  have hlen := p.length_columns
  have hcells : ∀ k c, (p.columns.map kept ++ [leftover before p.columns.length])[k]? = some c →
      titles.s.1[k + 1]? = some c.1 ∧ values.value.1[k]? = some c.2 := by
    intro k c hk
    obtain ⟨rfl, hlt⟩ := getElem?_seen hk
    exact ⟨htitles k (by omega), hvalues k (by omega)⟩
  have htable := createTable_eq (by simpa using hno) hhead hcells st.now
  refine ⟨⟨st.i + 2, titles, values, _⟩, ?_, ⟨?_, htitles, hvalues⟩, rfl⟩
  · rw [foldlM_readLine_pair h.odd hrun hrun', htable]
    rfl
  · rw [Nat.add_mod_right]
    exact h.odd

theorem Follows.pair_eq_none (h : Follows before st)
    (hp : ¬(tokens (cString p.titleLine)).length < varIndexMax) :
    [p.titleLine, p.valueLine].foldlM readLine st = none := by
  obtain ⟨titles, values, hrun, hrun', hno, -⟩ := h.read p
  have hlen := p.length_columns
  have hlimit : (tokens (cString p.titleLine)).length = 64 :=
    Nat.le_antisymm p.limit (Nat.not_lt.mp hp)
  rw [foldlM_readLine_pair h.odd hrun hrun', createTable_eq_none (by omega)]
  rfl

theorem Follows.file (h : Follows before st)
    (hf : ∀ p ∈ f, (tokens (cString p.titleLine)).length < varIndexMax) :
    ∃ st', f.lines.foldlM readLine st = some st' ∧
      st'.now = (f.seenFrom before).foldl (fun t p => luaAssign t p.1 (some p.2)) st.now := by
  induction f generalizing before st with
  | nil => exact ⟨st, rfl, rfl⟩
  | cons p f ih =>
    obtain ⟨st₁, hrun, h₁, hnow⟩ := h.pair (hf p mem_cons_self)
    obtain ⟨st', hrest, hnow'⟩ := ih h₁ fun q hq => hf q (mem_cons_of_mem _ hq)
    refine ⟨st', ?_, ?_⟩
    · rw [SnmpFile.lines, flatMap_cons, foldlM_append, hrun]
      exact hrest
    · rw [hnow', hnow, SnmpFile.seenFrom, foldl_append]

theorem Follows.file_eq_none (h : Follows before st)
    (hf : ¬∀ p ∈ f, (tokens (cString p.titleLine)).length < varIndexMax) :
    f.lines.foldlM readLine st = none := by
  induction f generalizing before st with
  | nil => exact absurd (by simp) hf
  | cons p f ih =>
    rw [SnmpFile.lines, flatMap_cons, foldlM_append]
    by_cases hp : (tokens (cString p.titleLine)).length < varIndexMax
    · obtain ⟨st₁, hrun, h₁, -⟩ := h.pair hp
      rw [hrun]
      refine ih h₁ fun hall => hf fun q hq => ?_
      rcases mem_cons.mp hq with rfl | hq
      · exact hp
      · exact hall q hq
    · rw [h.pair_eq_none hp]
      rfl

end Run

theorem follows_new (now : SnmpTable) :
    Follows [] ⟨1, ⟨0, Cells.zero []⟩, ⟨0, [], Cells.zero 0⟩, now⟩ := by
  refine ⟨rfl, fun n hn => ?_, fun n hn => ?_⟩
  · exact getElem?_replicate_of_lt hn
  · exact getElem?_replicate_of_lt hn

theorem proc_lines (f : SnmpFile) (now : SnmpTable) :
    proc f.lines now =
      if ∀ p ∈ f, (tokens (cString p.titleLine)).length < varIndexMax then
        some (f.seen.foldl (fun t p => luaAssign t p.1 (some p.2)) now)
      else none := by
  unfold proc
  split_ifs with hf
  · obtain ⟨st', hrun, hnow⟩ := (follows_new now).file hf
    rw [hrun, Option.map_some, hnow]
    rfl
  · rw [(follows_new now).file_eq_none hf]
    rfl

def SnmpExact (snmp netstat : SnmpFile) : Prop :=
  ∃ now, current snmp.lines netstat.lines = some now ∧
    ∀ k v, now.lookup k = some v ↔ (k, v) ∈ snmp.columns ++ netstat.columns

theorem snmp_table_iff (snmp netstat : SnmpFile) :
    SnmpExact snmp netstat ↔
      (∀ p ∈ snmp ++ netstat, (tokens (cString p.titleLine)).length < varIndexMax) ∧
        Leaves (snmp.seen ++ netstat.seen) (snmp.columns ++ netstat.columns) := by
  have hrun : ∀ now, current snmp.lines netstat.lines = some now ↔
      (∀ p ∈ snmp ++ netstat, (tokens (cString p.titleLine)).length < varIndexMax) ∧
        now = (snmp.seen ++ netstat.seen).foldl (fun t p => luaAssign t p.1 (some p.2)) [] := by
    intro now
    rw [current, proc_lines, forall_mem_append, foldl_append]
    by_cases hsnmp : ∀ p ∈ snmp, (tokens (cString p.titleLine)).length < varIndexMax
    · rw [if_pos hsnmp, Option.bind_some, proc_lines]
      by_cases hnetstat : ∀ p ∈ netstat, (tokens (cString p.titleLine)).length < varIndexMax
      · rw [if_pos hnetstat, Option.some_inj]
        exact ⟨fun h => ⟨⟨hsnmp, hnetstat⟩, h.symm⟩, fun h => h.2.symm⟩
      · rw [if_neg hnetstat]
        exact ⟨fun h => (nomatch h), fun h => absurd h.1.2 hnetstat⟩
    · rw [if_neg hsnmp]
      exact ⟨fun h => (nomatch h), fun h => absurd h.1.1 hsnmp⟩
  have hlookup : ∀ k, ((snmp.seen ++ netstat.seen).foldl
      (fun t p => luaAssign t p.1 (some p.2)) ([] : SnmpTable)).lookup k =
        (snmp.seen ++ netstat.seen).reverse.lookup k := by
    intro k
    rw [lookup_foldl_assign]
    exact Option.or_none
  unfold SnmpExact
  rw [← lookup_reverse_iff]
  constructor
  · rintro ⟨now, hnow, hexact⟩
    obtain ⟨hlimit, rfl⟩ := (hrun now).mp hnow
    exact ⟨hlimit, fun k v => by rw [← hexact, hlookup]⟩
  · rintro ⟨hlimit, hexact⟩
    exact ⟨_, (hrun _).mpr ⟨hlimit, rfl⟩, fun k v => by rw [hlookup, hexact]⟩

theorem noSpace_of_all {ts : List Bytes}
    (h : ts.all (fun t => t.all fun c => !isSpace c) = true) :
    ∀ t ∈ ts, ∀ c ∈ t, isSpace c = false := fun t ht c hc => by
  simpa using all_eq_true.mp (all_eq_true.mp h t ht) c hc

def shrinking : SnmpFile :=
  [{ titleLine := bytes "TcpExt: SyncookiesSent SyncookiesFailed"
     valueLine := bytes "TcpExt: 1 2"
     title_ne := by decide
     noSpace := noSpace_of_all rfl
     integers := by decide
     length_eq := by decide
     limit := by decide },
   { titleLine := bytes "IpExt: InNoRoutes"
     valueLine := bytes "IpExt: 3"
     title_ne := by decide
     noSpace := noSpace_of_all rfl
     integers := by decide
     length_eq := by decide
     limit := by decide }]

theorem shrinking_not_exact :
    (∃ now, current shrinking.lines [] = some now ∧
      now.lookup (bytes "IpExt_SyncookiesFailed") = some 2) ∧ ¬SnmpExact shrinking [] := by
  have hrun : current shrinking.lines [] = some
      [(bytes "IpExt_SyncookiesFailed", 2), (bytes "TcpExt_SyncookiesFailed", 2)] := by
    decide +kernel
  refine ⟨⟨_, hrun, by decide +kernel⟩, ?_⟩
  rintro ⟨now, hnow, hexact⟩
  obtain rfl := Option.some.inj (hrun.symm.trans hnow)
  have hmem := (hexact (bytes "IpExt_SyncookiesFailed") 2).mp (by decide +kernel)
  exact absurd hmem (by decide +kernel)

end Sysak.Collector
