/-
# Statistics between two records
-/

import Sysak.Lib.Rows
import Sysak.Mservice.Items

namespace Sysak.Mservice

open Lib List Option

inductive MergeMode where
  | null | sum | avg
deriving Repr, DecidableEq

inductive StatsOpt where
  | null | sub | subInter
deriving Repr, DecidableEq

structure ModInfo where
  mergeMode : MergeMode
  statsOpt : StatsOpt
deriving Repr, DecidableEq

structure SetStRecord (D : Type*) where
  run : List D → List UInt64 → List UInt64 → UInt64 → List D × List UInt64
  length_st : ∀ st pre cur n, (run st pre cur n).1.length = st.length
  length_pre : ∀ st pre cur n, (run st pre cur n).2.length = pre.length

structure Module (D : Type*) where
  record : Bytes
  enable : Bool
  info : List ModInfo
  nItem : ℕ
  preFlag : Bool
  stFlag : Bool
  cap : ℕ
  preArray : ℕ → UInt64
  curArray : ℕ → UInt64
  stArray : ℕ → D
  setStRecord : Option (SetStRecord D)

structure Conf (D : Type*) where
  printMerge : Bool
  printInterval : UInt64
  toDouble : UInt64 → D
  heap : ℕ → UInt64
  heapDouble : ℕ → D

variable {D : Type*}

namespace Module

def nCol (m : Module D) : ℕ := m.info.length

def withRecord (m : Module D) (record : Bytes) : Module D := { m with record := record }

def reallocArray (conf : Conf D) (m : Module D) (n : ℕ) : Module D :=
  if m.nItem < n then
    if m.cap = 0 then
      { m with
        cap := n
        preArray := fun _ => 0
        curArray := fun _ => 0
        stArray := fun _ => conf.toDouble 0 }
    else
      let kept := min m.cap n * m.nCol
      { m with
        cap := n
        preArray := fun j => if j < kept then m.preArray j else conf.heap j
        curArray := fun j => if j < kept then m.curArray j else conf.heap j
        stArray := fun j => if j < kept then m.stArray j else conf.heapDouble j }
  else
    m

def swap (m : Module D) : Module D := { m with preArray := m.curArray, curArray := m.preArray }

end Module

def setStColumn (conf : Conf D) (opt : StatsOpt) (st : D) (pre cur : UInt64) : D × UInt64 × Bool :=
  match opt with
  | .sub => if cur < pre then (st, cur, false) else (conf.toDouble (cur - pre), pre, true)
  | .subInter =>
    if cur < pre then (st, cur, false)
    else (conf.toDouble ((cur - pre) / conf.printInterval), pre, true)
  | .null => (conf.toDouble cur, pre, true)

def setStColumns (conf : Conf D) : List ModInfo → List D → List UInt64 → List UInt64 →
    List D × List UInt64 × Bool
  | i :: info, s :: st, p :: pre, c :: cur =>
    let a := setStColumn conf i.statsOpt s p c
    let b := setStColumns conf info st pre cur
    (a.1 :: b.1, a.2.1 :: b.2.1, a.2.2 && b.2.2)
  | _, st, pre, _ => (st, pre, true)

namespace Module

def setStItem (conf : Conf D) (m : Module D) (st : List D) (pre cur : List UInt64) :
    List D × List UInt64 × Bool :=
  match m.setStRecord with
  | some f =>
    let r := f.run st pre cur conf.printInterval
    (r.1, r.2, true)
  | none => setStColumns conf m.info st pre cur

def setStRows (conf : Conf D) (m : Module D) : ℕ → (ℕ → D) × (ℕ → UInt64) × Bool
  | 0 => (m.stArray, m.preArray, true)
  | k + 1 =>
    let (st, pre, flag) := setStRows conf m k
    let r := m.setStItem conf (row st m.nCol k) (row pre m.nCol k) (row m.curArray m.nCol k)
    (writeAt st (k * m.nCol) r.1, writeAt pre (k * m.nCol) r.2.1, flag && r.2.2)

def setSt (conf : Conf D) (m : Module D) : Module D :=
  let (st, pre, flag) := m.setStRows conf m.nItem
  { m with stArray := st, preArray := pre, stFlag := flag }

end Module

def mergeOneString : List ModInfo → List UInt64 → List UInt64 → UInt64 → List UInt64
  | i :: info, a :: array, v :: vals, nItem =>
    (match i.mergeMode with
      | .sum => a + v
      | .avg => (a * (nItem - 1) + v) / nItem
      | .null => a) :: mergeOneString info array vals nItem
  | _, array, _, _ => array

def mergeLoop (info : List ModInfo) (record : Bytes) :
    ℕ → ℕ → UInt64 → List UInt64 → Option (Bool × List UInt64)
  | 0, _, _, array => some (true, array)
  | fuel + 1, pos, nItem, array =>
    match strtokNextItem record pos with
    | none => some (true, array)
    | some (item, pos) =>
      let vals := convertRecordToArray info.length item
      if 64 < vals.length then none
      else if vals = [] then some (false, array)
      else mergeLoop info record fuel pos (nItem + 1) (mergeOneString info array vals nItem)

def itemsLoop (nCol cap : ℕ) (record : Bytes) :
    ℕ → ℕ → ℕ → ℕ → (ℕ → UInt64) → Option (ℕ × (ℕ → UInt64))
  | 0, _, _, ret, cur => some (ret, cur)
  | fuel + 1, pos, num, ret, cur =>
    match strtokNextItem record pos with
    | none => some (ret, cur)
    | some (item, pos) =>
      let vals := convertRecordToArray nCol item
      if vals = [] then some (0, cur)
      else if num * nCol + vals.length ≤ cap * nCol then
        itemsLoop nCol cap record fuel pos (num + 1) vals.length (writeAt cur (num * nCol) vals)
      else
        none

namespace Module

def fillCur (conf : Conf D) (m : Module D) : Option (Bool × Module D) :=
  if itemSplit ∈ m.record then
    if conf.printMerge then
      if m.cap = 0 then none
      else
        (mergeLoop m.info m.record (m.record.length + 1) 0 1 (replicate m.nCol 0)).map fun r =>
          (r.1, { m with nItem := 1, curArray := writeAt m.curArray 0 r.2 })
    else
      (itemsLoop m.nCol m.cap m.record (m.record.length + 1) 0 0 0 m.curArray).map fun r =>
        (decide (r.1 ≠ 0), { m with curArray := r.2 })
  else
    let vals := convertRecordToArray m.nCol m.record
    if vals.length ≤ m.cap * m.nCol then
      some (decide (vals ≠ []), { m with curArray := writeAt m.curArray 0 vals })
    else
      none

end Module

namespace Module

def changed (conf : Conf D) (m : Module D) (n : ℕ) : Bool :=
  !conf.printMerge && decide (n ≠ m.nItem)

def forItems (conf : Conf D) (m : Module D) (n : ℕ) : Module D :=
  { (if m.changed conf n then m.reallocArray conf n else m) with nItem := n }

def finish (conf : Conf D) (noPHdr : Bool) (r : Bool × Module D) : Module D :=
  let m := if noPHdr && r.2.preFlag && r.1 then r.2.setSt conf else r.2
  ({ m with preFlag := r.1 } : Module D).swap

end Module

def collectModule (conf : Conf D) (noPHdr : Bool) (m : Module D) : Option (Bool × Module D) :=
  if m.enable then
    let n := getStrtokNum m.record itemSplit
    let m := { m with stFlag := false }
    if n = 0 then
      some (noPHdr, ({ m with preFlag := false } : Module D).swap)
    else
      let noPHdr := noPHdr && !m.changed conf n
      ((m.forItems conf n).fillCur conf).map fun r => (noPHdr, Module.finish conf noPHdr r)
  else
    some (noPHdr, m)

def collectRecordStat (conf : Conf D) : Bool → List (Module D) → Option (Bool × List (Module D))
  | noPHdr, [] => some (noPHdr, [])
  | noPHdr, m :: mods =>
    (collectModule conf noPHdr m).bind fun r =>
      (collectRecordStat conf r.1 mods).map fun r' => (r'.1, r.2 :: r'.2)

variable {conf : Conf D}

theorem collectRecordStat_forall₂ {mods : List (Module D)} :
    ∀ {noPHdr r : Bool} {mods' : List (Module D)},
      collectRecordStat conf noPHdr mods = some (r, mods') →
      Forall₂ (fun m m' => ∃ hdr hdr', collectModule conf hdr m = some (hdr', m'))
        mods mods' := by
  induction mods with
  | nil =>
    rintro noPHdr r mods' h
    obtain ⟨-, rfl⟩ := Prod.mk.inj (some.inj h)
    exact Forall₂.nil
  | cons m mods ih =>
    rintro noPHdr r mods' h
    obtain ⟨⟨hdr, m'⟩, hm, h⟩ := bind_eq_some_iff.mp h
    obtain ⟨⟨hdr', mods'⟩, hmods, h⟩ := map_eq_some_iff.mp h
    obtain ⟨-, rfl⟩ := Prod.mk.inj h
    exact Forall₂.cons ⟨noPHdr, hdr, hm⟩ (ih hmods)

variable {m : Module D}

theorem Module.fillCur_frame {r : Bool × Module D} (h : m.fillCur conf = some r) :
    r.2.record = m.record ∧ r.2.enable = m.enable ∧
      (r.2.nItem = m.nItem ∨ r.2.nItem = 1) := by
  rw [fillCur] at h
  dsimp only at h
  split_ifs at h
  · obtain ⟨t, -, rfl⟩ := map_eq_some_iff.mp h
    exact ⟨rfl, rfl, Or.inr rfl⟩
  · obtain ⟨t, -, rfl⟩ := map_eq_some_iff.mp h
    exact ⟨rfl, rfl, Or.inl rfl⟩
  · cases h
    exact ⟨rfl, rfl, Or.inl rfl⟩

theorem Module.forItems_frame (conf : Conf D) (m : Module D) (n : ℕ) :
    (m.forItems conf n).record = m.record ∧ (m.forItems conf n).enable = m.enable ∧
      (m.forItems conf n).nItem = n := by
  rw [forItems, reallocArray]
  split_ifs <;> exact ⟨rfl, rfl, rfl⟩

theorem Module.finish_frame (conf : Conf D) (noPHdr : Bool) (r : Bool × Module D) :
    (finish conf noPHdr r).record = r.2.record ∧ (finish conf noPHdr r).enable = r.2.enable ∧
      (finish conf noPHdr r).nItem = r.2.nItem := by
  rw [finish]
  split_ifs <;> exact ⟨rfl, rfl, rfl⟩

theorem collectModule_frame {noPHdr noPHdr' : Bool} {m m' : Module D}
    (h : collectModule conf noPHdr m = some (noPHdr', m')) :
    m'.record = m.record ∧ m'.enable = m.enable ∧
      (m.enable = true → getStrtokNum m.record itemSplit ≠ 0 →
        m'.nItem = getStrtokNum m.record itemSplit ∨ m'.nItem = 1) := by
  rw [collectModule] at h
  dsimp only at h
  split_ifs at h with hen hn
  · cases h
    exact ⟨rfl, rfl, fun _ h => absurd hn h⟩
  · obtain ⟨r, hfill, heq⟩ := map_eq_some_iff.mp h
    obtain ⟨-, rfl⟩ := Prod.mk.inj heq
    obtain ⟨hrec₁, hen₁, hn₁⟩ := Module.finish_frame conf
      (noPHdr && !({ m with stFlag := false } : Module D).changed conf
        (getStrtokNum m.record itemSplit)) r
    obtain ⟨hrec₂, hen₂, hn₂⟩ := Module.fillCur_frame hfill
    obtain ⟨hrec₃, hen₃, hn₃⟩ := Module.forItems_frame conf { m with stFlag := false }
      (getStrtokNum m.record itemSplit)
    rw [hrec₁, hrec₂, hrec₃, hen₁, hen₂, hen₃, hn₁, ← hn₃]
    exact ⟨rfl, rfl, fun _ _ => hn₂⟩
  · cases h
    exact ⟨rfl, rfl, fun h => absurd h hen⟩
def Item.read (nCol : ℕ) (it : Item) (rest : List Item) : List UInt64 :=
  convertRecordToArray nCol (it.body ++ itemSplit :: itemsText rest)

theorem Item.read_of_full {nCol : ℕ} {it : Item} (h : it.vals.length = nCol) (rest : List Item) :
    it.read nCol rest = it.vals := by
  rw [Item.read, ← h, convertRecordToArray_item]

theorem Item.length_read (nCol : ℕ) (it : Item) (rest : List Item) :
    (it.read nCol rest).length ≤ nCol ∧ (0 < nCol → it.read nCol rest ≠ []) := by
  have hne : it.body ++ itemSplit :: itemsText rest ≠ [] := by simp
  rw [Item.read, convertRecordToArray, if_neg hne]
  refine ⟨length_convertLoop_le _ _, fun hpos => ?_⟩
  obtain ⟨n, rfl⟩ := Nat.exists_eq_succ_of_ne_zero (Nat.ne_zero_of_lt hpos)
  rw [convertLoop]
  exact cons_ne_nil _ _

theorem itemsLoop_rows {nCol cap : ℕ} {record : Bytes} (hcol : 0 < nCol) {items : List Item} :
    ∀ {fuel pos num ret k : ℕ} {cur : ℕ → UInt64},
    items.length < fuel → k ≤ 1 → num + items.length ≤ cap →
    record.drop pos = itemsFrom k items →
      ∃ ret' cur', itemsLoop nCol cap record fuel pos num ret cur = some (ret', cur') ∧
        (if items = [] then ret' = ret else 0 < ret') ∧
        (∀ (i : ℕ) (hi : i < items.length), row cur' nCol (num + i) =
          items[i].read nCol (items.drop (i + 1)) ++
            (row cur nCol (num + i)).drop (items[i].read nCol (items.drop (i + 1))).length) ∧
        ∀ i < num, row cur' nCol i = row cur nCol i := by
  induction items with
  | nil =>
    intro fuel pos num ret k cur hfuel _ _ hrec
    obtain ⟨fuel, rfl⟩ := Nat.exists_eq_succ_of_ne_zero (Nat.ne_zero_of_lt hfuel)
    refine ⟨ret, cur, ?_, rfl, fun i hi => absurd hi (Nat.not_lt_zero i), fun i _ => rfl⟩
    rw [itemsLoop, strtokNextItem_nil hrec]
  | cons it items ih =>
    intro fuel pos num ret k cur hfuel hk hcap hrec
    obtain ⟨fuel, rfl⟩ := Nat.exists_eq_succ_of_ne_zero (Nat.ne_zero_of_lt hfuel)
    obtain ⟨pos', hnext, hrec'⟩ := strtokNextItem_items hk hrec
    obtain ⟨hle, hne⟩ := it.length_read nCol items
    rw [length_cons] at hfuel hcap
    have hroom : num * nCol + (it.read nCol items).length ≤ cap * nCol :=
      (Nat.add_le_add_left hle _).trans (row_end_le nCol (by omega))
    obtain ⟨ret', cur', hloop, hret, hrows, hold⟩ := @ih fuel pos' (num + 1)
      (it.read nCol items).length 1 (writeAt cur (num * nCol) (it.read nCol items)) (by omega)
      le_rfl (by omega) hrec'
    refine ⟨ret', cur', ?_, ?_, ?_, ?_⟩
    · rw [itemsLoop, hnext]
      exact (if_neg (hne hcol)).trans ((if_pos hroom).trans hloop)
    · rw [if_neg (cons_ne_nil _ _)]
      split_ifs at hret
      · exact hret ▸ length_pos_iff.mpr (hne hcol)
      · exact hret
    · rintro (_ | i) hi
      · exact (hold num (by omega)).trans (row_writeAt_le cur hle)
      · have hrow := hrows i (Nat.lt_of_succ_lt_succ hi)
        rw [row_writeAt_ne cur hle (by omega), Nat.add_right_comm] at hrow
        exact hrow
    · intro i hi
      rw [hold i (by omega), row_writeAt_ne _ hle (by omega)]

theorem length_setStColumns (conf : Conf D) {info : List ModInfo} : ∀ {st : List D}
    {pre cur : List UInt64},
    (setStColumns conf info st pre cur).1.length = st.length ∧
      (setStColumns conf info st pre cur).2.1.length = pre.length := by
  induction info with
  | nil => exact ⟨rfl, rfl⟩
  | cons i info ih =>
    rintro (_ | ⟨s, st⟩) (_ | ⟨p, pre⟩) (_ | ⟨c, cur⟩)
    all_goals try exact ⟨rfl, rfl⟩
    exact ⟨congrArg (· + 1) ih.1, congrArg (· + 1) ih.2⟩

theorem Module.length_setStItem (conf : Conf D) (m : Module D) (st : List D)
    (pre cur : List UInt64) : (m.setStItem conf st pre cur).1.length = st.length ∧
      (m.setStItem conf st pre cur).2.1.length = pre.length := by
  rw [Module.setStItem]
  cases m.setStRecord with
  | some f => exact ⟨f.length_st .., f.length_pre ..⟩
  | none => exact length_setStColumns conf

theorem Module.row_setStRows (conf : Conf D) (m : Module D) (k : ℕ) :
    (∀ i < k, row (m.setStRows conf k).1 m.nCol i =
      (m.setStItem conf (row m.stArray m.nCol i) (row m.preArray m.nCol i)
        (row m.curArray m.nCol i)).1) ∧
    (∀ i, k ≤ i → row (m.setStRows conf k).1 m.nCol i = row m.stArray m.nCol i ∧
      row (m.setStRows conf k).2.1 m.nCol i = row m.preArray m.nCol i) ∧
    ((m.setStRows conf k).2.2 = true ↔ ∀ i < k, (m.setStItem conf (row m.stArray m.nCol i)
      (row m.preArray m.nCol i) (row m.curArray m.nCol i)).2.2 = true) := by
  induction k with
  | zero =>
    exact ⟨fun i hi => absurd hi (Nat.not_lt_zero i), fun i _ => ⟨rfl, rfl⟩,
      fun _ i hi => absurd hi (Nat.not_lt_zero i), fun _ => rfl⟩
  | succ k ih =>
    obtain ⟨hrows, hrest, hflag⟩ := ih
    obtain ⟨hst, hpre⟩ := hrest k le_rfl
    obtain ⟨hlenSt, hlenPre⟩ := m.length_setStItem conf (row m.stArray m.nCol k)
      (row m.preArray m.nCol k) (row m.curArray m.nCol k)
    rw [length_row] at hlenSt hlenPre
    simp only [Module.setStRows, hst, hpre]
    refine ⟨fun i hi => ?_, fun i hi => ?_, ?_⟩
    · rcases Nat.lt_succ_iff_lt_or_eq.mp hi with hi | rfl
      · rw [row_writeAt_ne _ hlenSt.le (by omega), hrows i hi]
      · rw [row_writeAt_self _ hlenSt]
    · rw [row_writeAt_ne _ hlenSt.le (by omega), row_writeAt_ne _ hlenPre.le (by omega)]
      exact hrest i (by omega)
    · rw [Bool.and_eq_true, hflag, Nat.forall_lt_succ_right]

namespace Module

structure Ready (m : Module D) : Prop where
  enable : m.enable = true
  nCol_pos : 0 < m.nCol
  nItem_le : m.nItem ≤ m.cap

theorem Ready.forItems_eq (h : m.Ready) (hmerge : conf.printMerge = false) (n : ℕ) :
    ∃ cap pre cur st, m.forItems conf n =
        { m with nItem := n, cap := cap, preArray := pre, curArray := cur, stArray := st } ∧
      n ≤ cap ∧ (n = m.nItem → pre = m.preArray ∧ st = m.stArray) := by
  have hle := h.nItem_le
  rw [forItems, reallocArray]
  split_ifs with hch hlt hcap
  · exact ⟨_, _, _, _, rfl, le_rfl, fun heq => absurd hlt (by omega)⟩
  · exact ⟨_, _, _, _, rfl, le_rfl, fun heq => absurd hlt (by omega)⟩
  · exact ⟨_, _, _, _, rfl, by omega, fun _ => ⟨rfl, rfl⟩⟩
  · have heq : n = m.nItem := by simpa [changed, hmerge] using hch
    exact ⟨_, _, _, _, rfl, by omega, fun _ => ⟨rfl, rfl⟩⟩

theorem fillCur_items (hmerge : conf.printMerge = false) (hcol : 0 < m.nCol) {items : List Item}
    (hne : items ≠ []) (hvals : ∀ it ∈ items, it.vals.length = m.nCol)
    (hrec : m.record = itemsText items) (hcap : items.length ≤ m.cap) :
    ∃ cur, m.fillCur conf = some (true, { m with curArray := cur }) ∧
      ∀ (i : ℕ) (hi : i < items.length), row cur m.nCol i = items[i].vals := by
  have hfuel : items.length < m.record.length + 1 := by
    rw [hrec]
    exact Nat.lt_succ_of_le (length_le_itemsText items)
  have hdrop : m.record.drop 0 = itemsFrom 0 items := by
    rw [hrec]
    rfl
  obtain ⟨ret, cur, hloop, hret, hrows, -⟩ := @itemsLoop_rows m.nCol m.cap m.record hcol items _ 0
    0 0 0 m.curArray hfuel (Nat.zero_le 1) (by omega) hdrop
  refine ⟨cur, ?_, fun i hi => ?_⟩
  · have hsplit : itemSplit ∈ m.record := by
      rw [hrec]
      exact mem_itemsText hne
    rw [if_neg hne] at hret
    rw [fillCur, if_pos hsplit, if_neg (by simp [hmerge]), hloop]
    simp [Nat.ne_of_gt hret]
  · have hfull := hvals _ (getElem_mem hi)
    have hrow := hrows i hi
    rw [Nat.zero_add, Item.read_of_full hfull, hfull,
      drop_of_length_le (length_row ..).le, append_nil] at hrow
    exact hrow

end Module

def Module.filled (m : Module D) (items : List Item) (cap : ℕ) (pre cur : ℕ → UInt64)
    (st : ℕ → D) : Module D :=
  { m.withRecord (itemsText items) with
    stFlag := false, nItem := items.length, cap := cap, preArray := pre, curArray := cur,
    stArray := st }

theorem collectModule_filled (hmerge : conf.printMerge = false) (hready : m.Ready)
    {items : List Item} (hne : items ≠ []) (hvals : ∀ it ∈ items, it.vals.length = m.nCol)
    (noPHdr : Bool) :
    ∃ cap pre cur st, collectModule conf noPHdr (m.withRecord (itemsText items)) =
        some (noPHdr && !m.changed conf items.length,
          Module.finish conf (noPHdr && !m.changed conf items.length)
            (true, m.filled items cap pre cur st)) ∧
      items.length ≤ cap ∧ (items.length = m.nItem → pre = m.preArray ∧ st = m.stArray) ∧
      ∀ (i : ℕ) (hi : i < items.length), row cur m.nCol i = items[i].vals := by
  have hcount : getStrtokNum (itemsText items) itemSplit = items.length := getStrtokNum_itemsText _
  have hpos : items.length ≠ 0 := fun h => hne (eq_nil_of_length_eq_zero h)
  have hready' : ({ m.withRecord (itemsText items) with stFlag := false } : Module D).Ready :=
    ⟨hready.enable, hready.nCol_pos, hready.nItem_le⟩
  obtain ⟨cap, pre, cur₀, st, hfor, hcap, hsame⟩ := hready'.forItems_eq hmerge items.length
  obtain ⟨cur, hfill, hrows⟩ := Module.fillCur_items hmerge
    (m := m.filled items cap pre cur₀ st) hready.nCol_pos hne hvals rfl hcap
  refine ⟨cap, pre, cur, st, ?_, hcap, hsame, hrows⟩
  have hen : (m.withRecord (itemsText items)).enable = true := hready.enable
  have hn : getStrtokNum (m.withRecord (itemsText items)).record itemSplit = items.length := hcount
  have hfill' : (({ m.withRecord (itemsText items) with stFlag := false } : Module D).forItems conf
      items.length).fillCur conf = some (true, m.filled items cap pre cur st) := by
    rw [hfor]
    exact hfill
  rw [collectModule, if_pos hen]
  simp only [hn]
  rw [if_neg hpos, hfill']
  rfl

theorem collectModule_items (hmerge : conf.printMerge = false) (hready : m.Ready)
    {items : List Item} (hne : items ≠ []) (hvals : ∀ it ∈ items, it.vals.length = m.nCol)
    (noPHdr : Bool) :
    ∃ r m', collectModule conf noPHdr (m.withRecord (itemsText items)) = some (r, m') ∧
      m'.Ready ∧ m'.nItem = items.length ∧ m'.preFlag = true ∧ m'.info = m.info ∧
      m'.setStRecord = m.setStRecord ∧
      (∀ (i : ℕ) (hi : i < items.length), row m'.preArray m.nCol i = items[i].vals) ∧
      (m'.stFlag = true ↔ noPHdr = true ∧ m.preFlag = true ∧ items.length = m.nItem ∧
        ∀ (i : ℕ) (hi : i < items.length), (m.setStItem conf (row m.stArray m.nCol i)
          (row m.preArray m.nCol i) items[i].vals).2.2 = true) ∧
      (m'.stFlag = true → ∀ (i : ℕ) (hi : i < items.length), row m'.stArray m.nCol i =
        (m.setStItem conf (row m.stArray m.nCol i) (row m.preArray m.nCol i) items[i].vals).1) := by
  obtain ⟨cap, pre, cur, st, hcollect, hcap, hsame, hrows⟩ :=
    collectModule_filled hmerge hready hne hvals noPHdr
  refine ⟨_, _, hcollect, ?_⟩
  let m₄ := m.filled items cap pre cur st
  let hdr := noPHdr && !m.changed conf items.length
  have hhdr : (hdr && m.preFlag) = true ↔
      noPHdr = true ∧ m.preFlag = true ∧ items.length = m.nItem := by
    simp only [hdr, Module.changed, hmerge, Bool.and_eq_true]
    simp [and_comm, and_left_comm]
  have hif : (hdr && (true, m₄).2.preFlag && (true, m₄).1) = (hdr && m.preFlag) := Bool.and_true _
  rw [Module.finish, hif]
  by_cases hst : (hdr && m.preFlag) = true
  · -- the statistics are computed: the number of items has not changed
    obtain ⟨hno, hpre, hnum⟩ := hhdr.mp hst
    obtain ⟨rfl, rfl⟩ := hsame hnum
    obtain ⟨hrow, -, hflag⟩ := m₄.row_setStRows conf items.length
    have hcur : ∀ (i : ℕ) (hi : i < items.length), row m₄.curArray m₄.nCol i = items[i].vals :=
      hrows
    rw [if_pos hst]
    refine ⟨⟨hready.enable, hready.nCol_pos, hcap⟩, rfl, rfl, rfl, rfl, hrows, ?_, fun _ i hi => ?_⟩
    · refine hflag.trans ⟨fun h => ⟨hno, hpre, hnum, fun i hi => ?_⟩, fun h i hi => ?_⟩
      · rw [← hcur i hi]
        exact h i hi
      · rw [hcur i hi]
        exact h.2.2.2 i hi
    · rw [← hcur i hi]
      exact hrow i hi
  · rw [if_neg hst]
    exact ⟨⟨hready.enable, hready.nCol_pos, hcap⟩, rfl, rfl, rfl, rfl, hrows,
      ⟨fun h => absurd h Bool.false_ne_true,
        fun h => absurd (hhdr.mpr ⟨h.1, h.2.1, h.2.2.1⟩) hst⟩,
      fun h => absurd h Bool.false_ne_true⟩

theorem collectModule_nil (conf : Conf D) (hready : m.Ready) (noPHdr : Bool) :
    ∃ m', collectModule conf noPHdr (m.withRecord (itemsText [])) = some (noPHdr, m') ∧
      m'.Ready ∧ m'.preFlag = false ∧ m'.stFlag = false ∧ m'.info = m.info ∧
      m'.setStRecord = m.setStRecord := by
  have hen : (m.withRecord (itemsText [])).enable = true := hready.enable
  have hn : getStrtokNum (m.withRecord (itemsText [])).record itemSplit = 0 := rfl
  refine ⟨({ m.withRecord (itemsText []) with stFlag := false, preFlag := false } : Module D).swap,
    ?_, ⟨hready.enable, hready.nCol_pos, hready.nItem_le⟩, rfl, rfl, rfl, rfl⟩
  rw [collectModule, if_pos hen]
  simp only [hn, if_true]

def DeltasTaken (conf : Conf D) (m : Module D) (old new : List Item) : Prop :=
  ∀ noPHdr noPHdr', ∃ r m₁ r' m₂,
    collectModule conf noPHdr (m.withRecord (itemsText old)) = some (r, m₁) ∧
      collectModule conf noPHdr' (m₁.withRecord (itemsText new)) = some (r', m₂) ∧
      (m₂.stFlag = true → ∀ (i : ℕ) (hi : i < new.length), ∃ it ∈ old, it.name = new[i].name ∧
        row m₂.stArray m.nCol i =
          (m.setStItem conf (row m₁.stArray m.nCol i) it.vals new[i].vals).1)

theorem Module.setStItem_congr {m m' : Module D} (hinfo : m'.info = m.info)
    (hset : m'.setStRecord = m.setStRecord) : m'.setStItem conf = m.setStItem conf := by
  funext st pre cur
  rw [Module.setStItem, Module.setStItem, hinfo, hset]

theorem collectModule_twice (hmerge : conf.printMerge = false) (hready : m.Ready)
    {old new : List Item} (hold : ∀ it ∈ old, it.vals.length = m.nCol)
    (hnew : ∀ it ∈ new, it.vals.length = m.nCol) (noPHdr noPHdr' : Bool) :
    ∃ r m₁ r' m₂, collectModule conf noPHdr (m.withRecord (itemsText old)) = some (r, m₁) ∧
      collectModule conf noPHdr' (m₁.withRecord (itemsText new)) = some (r', m₂) ∧
      (m₂.stFlag = true ↔ noPHdr' = true ∧ new ≠ [] ∧ new.length = old.length ∧
        ∀ (i : ℕ) (hi : i < new.length) (hi' : i < old.length), (m.setStItem conf
          (row m₁.stArray m.nCol i) old[i].vals new[i].vals).2.2 = true) ∧
      (m₂.stFlag = true → ∀ (i : ℕ) (hi : i < new.length) (hi' : i < old.length),
        row m₂.stArray m.nCol i =
          (m.setStItem conf (row m₁.stArray m.nCol i) old[i].vals new[i].vals).1) := by
  rcases eq_or_ne old [] with rfl | hold'
  · obtain ⟨m₁, h₁, hready₁, hpre₁, -, hinfo₁, -⟩ := collectModule_nil conf hready noPHdr
    rcases eq_or_ne new [] with rfl | hnew'
    · obtain ⟨m₂, h₂, -, -, hst₂, -, -⟩ := collectModule_nil conf hready₁ noPHdr'
      exact ⟨_, _, _, _, h₁, h₂, by simp [hst₂], by simp⟩
    · obtain ⟨r₂, m₂, h₂, -, -, -, -, -, -, hst₂, -⟩ :=
        collectModule_items hmerge hready₁ hnew' (by simpa [Module.nCol, hinfo₁] using hnew) noPHdr'
      exact ⟨_, _, _, _, h₁, h₂, by simp [hst₂, hpre₁, hnew'], by simp⟩
  · obtain ⟨r₁, m₁, h₁, hready₁, hnum₁, hpre₁, hinfo₁, hset₁, hrows₁, -, -⟩ :=
      collectModule_items hmerge hready hold' hold noPHdr
    have hcol : m₁.nCol = m.nCol := by rw [Module.nCol, hinfo₁]; rfl
    rcases eq_or_ne new [] with rfl | hnew'
    · obtain ⟨m₂, h₂, -, -, hst₂, -, -⟩ := collectModule_nil conf hready₁ noPHdr'
      exact ⟨_, _, _, _, h₁, h₂, by simp [hst₂], by simp⟩
    · obtain ⟨r₂, m₂, h₂, -, -, -, -, -, -, hst₂, hrow₂⟩ :=
        collectModule_items hmerge hready₁ hnew' (by rwa [hcol]) noPHdr'
      rw [Module.setStItem_congr hinfo₁ hset₁, hcol] at hst₂ hrow₂
      refine ⟨_, _, _, _, h₁, h₂, hst₂.trans ?_, fun hst i hi hi' => ?_⟩
      · rw [hnum₁]
        refine ⟨fun h => ⟨h.1, hnew', h.2.2.1, fun i hi hi' => ?_⟩,
          fun h => ⟨h.1, hpre₁, h.2.2.1, fun i hi => ?_⟩⟩
        · rw [← hrows₁ i hi']
          exact h.2.2.2 i hi
        · rw [hrows₁ i (h.2.2.1 ▸ hi)]
          exact h.2.2.2 i hi (h.2.2.1 ▸ hi)
      · rw [← hrows₁ i hi']
        exact hrow₂ hst i hi

theorem deltasTaken_of_names (hmerge : conf.printMerge = false) (hready : m.Ready)
    {old new : List Item} (hvals : ∀ it ∈ old ++ new, it.vals.length = m.nCol)
    (hnames : old.length ≠ new.length ∨ old.map Item.name = new.map Item.name) :
    DeltasTaken conf m old new := by
  obtain ⟨hold, hnew⟩ := forall_mem_append.mp hvals
  intro noPHdr noPHdr'
  obtain ⟨r, m₁, r', m₂, h₁, h₂, hst, hrow⟩ :=
    collectModule_twice hmerge hready hold hnew noPHdr noPHdr'
  refine ⟨r, m₁, r', m₂, h₁, h₂, fun hflag i hi => ?_⟩
  obtain ⟨-, -, hlen, -⟩ := hst.mp hflag
  have hi' : i < old.length := hlen ▸ hi
  have hname : old.map Item.name = new.map Item.name := hnames.resolve_left fun h => h hlen.symm
  refine ⟨old[i], getElem_mem hi', ?_, hrow hflag i hi hi'⟩
  have hget := congrArg (·[i]?) hname
  simpa [hi, hi'] using hget

def Item.single (name : ItemName) (v : UInt64) : Item := ⟨name, [v], false, cons_ne_nil _ _⟩

def itemsAt (k : ℕ) (names : List ItemName) : List Item :=
  names.mapIdx fun j name => Item.single name (if j = k then 1 else 0)

theorem mem_itemsAt {k : ℕ} {names : List ItemName} {it : Item} (hit : it ∈ itemsAt k names) :
    ∃ (j : ℕ) (hj : j < names.length), it = Item.single names[j] (if j = k then 1 else 0) := by
  obtain ⟨j, hj, rfl⟩ := mem_mapIdx.mp hit
  exact ⟨j, hj, rfl⟩

def subModule (st : ℕ → D) : Module D :=
  ⟨[], true, [⟨.null, .sub⟩], 0, false, false, 0, fun _ => 0, fun _ => 0, st, none⟩

theorem subModule_ready (st : ℕ → D) : (subModule st).Ready :=
  ⟨rfl, Nat.zero_lt_one, le_rfl⟩

theorem setStItem_subModule {st₀ st : ℕ → D} {i : ℕ} {pre cur : UInt64} (hle : pre ≤ cur) :
    (subModule st₀).setStItem conf (row st (subModule st₀).nCol i) [pre] [cur] =
      ([conf.toDouble (cur - pre)], [pre], true) := by
  obtain ⟨s, hs⟩ := length_eq_one_iff.mp (length_row st (subModule st₀).nCol i)
  rw [hs]
  simp [Module.setStItem, subModule, setStColumns, setStColumn, UInt64.not_lt.mpr hle]

theorem not_deltasTaken (hmerge : conf.printMerge = false) (h01 : conf.toDouble 0 ≠ conf.toDouble 1)
    {names names' : List ItemName} (hlen : names'.length = names.length) {k : ℕ}
    (hk : k < names.length) (hk' : k < names'.length) (hne : names[k] ≠ names'[k]) :
    ¬ DeltasTaken conf (subModule fun _ => conf.toDouble 0) (itemsAt k names)
      (names'.map (Item.single · 1)) := by
  intro h
  let m : Module D := subModule fun _ => conf.toDouble 0
  have hold : ∀ it ∈ itemsAt k names, it.vals.length = m.nCol := fun it hit => by
    obtain ⟨j, hj, rfl⟩ := mem_itemsAt hit
    rfl
  have hnew : ∀ it ∈ names'.map (Item.single · 1), it.vals.length = m.nCol := fun it hit => by
    obtain ⟨name, -, rfl⟩ := mem_map.mp hit
    rfl
  have hk'' : k < (names'.map (Item.single · 1)).length := by simpa using hk'
  obtain ⟨r, m₁, r', m₂, h₁, h₂, hst, hrow⟩ :=
    collectModule_twice hmerge (subModule_ready _) hold hnew false true
  obtain ⟨s, n₁, s', n₂, g₁, g₂, hall⟩ := h false true
  obtain ⟨-, rfl⟩ := Prod.mk.inj (some.inj (h₁.symm.trans g₁))
  obtain ⟨-, rfl⟩ := Prod.mk.inj (some.inj (h₂.symm.trans g₂))
  have hflag : m₂.stFlag = true := by
    refine hst.mpr ⟨rfl, ne_nil_of_length_pos (by omega), by simp [itemsAt, hlen],
      fun i hi hi' => ?_⟩
    have hle : (if i = k then 1 else 0 : UInt64) ≤ 1 := by split_ifs <;> decide
    simp only [itemsAt, getElem_mapIdx, getElem_map, Item.single]
    rw [setStItem_subModule hle]
  obtain ⟨it, hit, hname, hstat⟩ := hall hflag k hk''
  obtain ⟨j, hj, rfl⟩ := mem_itemsAt hit
  have hjk : j ≠ k := by
    rintro rfl
    exact hne (by simpa [Item.single] using hname)
  rw [hrow hflag k hk'' (by simpa [itemsAt] using hk)] at hstat
  simp only [itemsAt, getElem_mapIdx, getElem_map, Item.single, if_neg hjk,
    if_true] at hstat
  rw [setStItem_subModule (UInt64.le_refl 1), setStItem_subModule UInt64.zero_le] at hstat
  exact h01 (by simpa using hstat)

def plainConf : Conf UInt64 := ⟨false, 5, id, fun _ => 0, fun _ => 0⟩

def sda : ItemName := ⟨bytes "sda", by decide⟩
def sdb : ItemName := ⟨bytes "sdb", by decide⟩

end Sysak.Mservice
