/-
# Items merged into one row
-/

import Sysak.Lib.TruncatedMean
import Sysak.Mservice.Cgroup
import Sysak.Mservice.Collect

namespace Sysak.Mservice

open Lib List Option

def maxColNum : ℕ := 64

def store (array : List UInt64) (i : ℕ) (v : UInt64) : Option (List UInt64) :=
  if i < array.length then some (array.set i v) else none

def convertInto : ℕ → ℕ → Bytes → List UInt64 → Option (ℕ × List UInt64)
  | 0, i, _, array => some (i, array)
  | n + 1, i, record, array =>
    let r := strtoull record
    (store array i r.1).bind fun array =>
      if dataSplit ∈ r.2 then convertInto n (i + 1) (r.2.drop 1) array else some (i + 1, array)

def convertRecordInto (array : List UInt64) (lArray : ℕ) (record : Bytes) :
    Option (ℕ × List UInt64) :=
  if record = [] then some (0, array) else convertInto lArray 0 record array

def mergeValue (mode : MergeMode) (a v nItem : UInt64) : UInt64 :=
  match mode with
  | .sum => a + v
  | .avg => (a * (nItem - 1) + v) / nItem
  | .null => a

def mergeColumns (info : List ModInfo) (array2 : List UInt64) (nItem : UInt64) :
    ℕ → ℕ → List UInt64 → Option (List UInt64)
  | 0, _, array => some array
  | n + 1, i, array =>
    match info[i]?, array[i]?, array2[i]? with
    | some m, some a, some v =>
      (store array i (mergeValue m.mergeMode a v nItem)).bind (mergeColumns info array2 nItem n
        (i + 1))
    | _, _, _ => none

def mergeStringInto (info : List ModInfo) (array : List UInt64) (string : Bytes) (nItem : UInt64) :
    Option (Bool × List UInt64) :=
  (convertRecordInto (replicate maxColNum 0) info.length string).bind fun r =>
    if r.1 = 0 then some (false, array)
    else (mergeColumns info r.2 nItem r.1 0 array).map fun array => (true, array)

theorem strtokNextItem_lt {record item : Bytes} {start start' : ℕ}
    (h : strtokNextItem record start = some (item, start')) :
    start < record.length ∧ start < start' := by
  simp only [strtokNextItem] at h
  split_ifs at h with hle
  split at h
  · split_ifs at h
    obtain ⟨-, rfl⟩ := Prod.mk.inj (some.inj h)
    omega
  · exact absurd h (some_ne_none _).symm

def mergeFrom (info : List ModInfo) (record : Bytes) (pos : ℕ) (nItem : UInt64)
    (array : List UInt64) : Option (Bool × List UInt64) :=
  match _h : strtokNextItem record pos with
  | none => some (true, array)
  | some (item, pos') =>
    match mergeStringInto info array item nItem with
    | none => none
    | some (false, array) => some (false, array)
    | some (true, array) => mergeFrom info record pos' (nItem + 1) array
termination_by record.length - pos
decreasing_by
  have hlt := strtokNextItem_lt _h
  omega

def mergeMultItemToArray (info : List ModInfo) (record : Bytes) : Option (Bool × List UInt64) :=
  mergeFrom info record 0 1 (replicate info.length 0)

section Written

variable {info : List ModInfo} {array : List UInt64} {nItem : UInt64}

theorem store_append_cons (done rest : List UInt64) (x v : UInt64) :
    store (done ++ x :: rest) done.length v = some (done ++ [v] ++ rest) := by
  rw [store, if_pos (by simp), set_append_right _ _ le_rfl, Nat.sub_self, set_cons_zero,
    append_assoc, singleton_append]

theorem convertInto_append (n : ℕ) : ∀ (record : Bytes) (done rest : List UInt64),
    convertInto n done.length record (done ++ rest) =
      if (convertLoop n record).length ≤ rest.length then
        some (done.length + (convertLoop n record).length,
          done ++ convertLoop n record ++ rest.drop (convertLoop n record).length)
      else none := by
  induction n with
  | zero => simp [convertInto, convertLoop]
  | succ n ih =>
    intro record done rest
    rw [convertInto, convertLoop]
    cases rest with
    | nil => simp [store]
    | cons x rest =>
      have hlen : done.length + 1 = (done ++ [(strtoull record).1]).length := by simp
      simp only [store_append_cons, bind_some]
      by_cases hcomma : dataSplit ∈ (strtoull record).2
      · rw [if_pos hcomma, if_pos hcomma, hlen, ih]
        simp only [length_cons, length_append, length_nil, Nat.add_assoc,
          Nat.succ_le_succ_iff, append_assoc, cons_append, nil_append,
          drop_succ_cons, Nat.add_comm 1]
      · simp [hcomma]

theorem mergeColumns_append (nItem : UInt64) (n : ℕ) : ∀ {i : ℕ} {dinfo info : List ModInfo}
    {done rest done2 rest2 : List UInt64}, dinfo.length = i → done.length = i → done2.length = i →
    n ≤ info.length → n ≤ rest.length → n ≤ rest2.length →
    mergeColumns (dinfo ++ info) (done2 ++ rest2) nItem n i (done ++ rest) =
      some (done ++ mergeOneString info rest (rest2.take n) nItem) := by
  induction n with
  | zero =>
    intro i dinfo info done rest done2 rest2 _ _ _ _ _ _
    rw [mergeColumns, take_zero]
    cases info <;> cases rest <;> rfl
  | succ n ih =>
    rintro i dinfo (_ | ⟨m, info⟩) done (_ | ⟨a, rest⟩) done2 (_ | ⟨v, rest2⟩) rfl h₁ h₂ hm hr hr2
    all_goals try exact absurd ‹n + 1 ≤ _› (Nat.not_succ_le_zero n)
    rw [length_cons, Nat.succ_le_succ_iff] at hm hr hr2
    have hget : (dinfo ++ m :: info)[dinfo.length]? = some m ∧
        (done ++ a :: rest)[dinfo.length]? = some a ∧
        (done2 ++ v :: rest2)[dinfo.length]? = some v := by
      refine ⟨by simp, ?_, ?_⟩
      · rw [← h₁]
        simp
      · rw [← h₂]
        simp
    have hstore := store_append_cons done rest a (mergeValue m.mergeMode a v nItem)
    rw [h₁] at hstore
    have hnext := @ih (dinfo.length + 1) (dinfo ++ [m]) info
      (done ++ [mergeValue m.mergeMode a v nItem]) rest (done2 ++ [v]) rest2 (by simp)
      (by simp [h₁]) (by simp [h₂]) hm hr hr2
    simp only [mergeColumns, hget, hstore, bind_some]
    simp only [append_assoc, singleton_append] at hnext ⊢
    rw [hnext]
    rfl

theorem mergeStringInto_eq (h : array.length = info.length) (string : Bytes) :
    mergeStringInto info array string nItem =
      if maxColNum < (convertRecordToArray info.length string).length then none
      else if convertRecordToArray info.length string = [] then some (false, array)
      else some (true,
        mergeOneString info array (convertRecordToArray info.length string) nItem) := by
  rw [mergeStringInto, convertRecordInto, convertRecordToArray]
  by_cases hs : string = []
  · simp [hs]
  · have hinto := convertInto_append info.length string [] (replicate maxColNum 0)
    rw [nil_append, length_nil, length_replicate, Nat.zero_add] at hinto
    rw [if_neg hs, if_neg hs, hinto]
    by_cases hlong : maxColNum < (convertLoop info.length string).length
    · rw [if_neg (Nat.not_le.mpr hlong), if_pos hlong]
      rfl
    · rw [if_pos (Nat.not_lt.mp hlong), if_neg hlong]
      simp only [bind_some, length_eq_zero_iff]
      split_ifs with hnil
      · rfl
      · have hle := length_convertLoop_le info.length string
        have hcols := @mergeColumns_append nItem (convertLoop info.length string).length 0 [] info
          [] array [] (convertLoop info.length string ++
            (replicate maxColNum 0).drop (convertLoop info.length string).length)
          rfl rfl rfl hle (h.symm ▸ hle) (by simp)
        rw [nil_append, nil_append, nil_append, take_left] at hcols
        rw [nil_append, hcols]
        rfl

theorem length_mergeOneString (nItem : UInt64) (info : List ModInfo) :
    ∀ (array vals : List UInt64), (mergeOneString info array vals nItem).length = array.length := by
  induction info with
  | nil =>
    intro array vals
    rfl
  | cons m info ih =>
    rintro (_ | ⟨a, array⟩) (_ | ⟨v, vals⟩)
    all_goals try rfl
    exact congrArg (· + 1) (ih array vals)

end Written

section Loop

variable {info : List ModInfo} {record : Bytes} {pos : ℕ} {nItem : UInt64} {array : List UInt64}

theorem mergeFrom_of_none (h : strtokNextItem record pos = none) :
    mergeFrom info record pos nItem array = some (true, array) := by
  rw [mergeFrom]
  split
  · rfl
  · rename_i heq
    rw [h] at heq
    exact absurd heq (some_ne_none _).symm

theorem mergeFrom_of_some {item : Bytes} {pos' : ℕ}
    (h : strtokNextItem record pos = some (item, pos')) (hlen : array.length = info.length) :
    mergeFrom info record pos nItem array =
      if maxColNum < (convertRecordToArray info.length item).length then none
      else if convertRecordToArray info.length item = [] then some (false, array)
      else mergeFrom info record pos' (nItem + 1)
        (mergeOneString info array (convertRecordToArray info.length item) nItem) := by
  rw [mergeFrom]
  split
  · rename_i heq
    rw [h] at heq
    exact absurd heq (some_ne_none _)
  · rename_i heq
    obtain ⟨rfl, rfl⟩ := Prod.mk.inj (some.inj (h.symm.trans heq))
    rw [mergeStringInto_eq hlen]
    split_ifs <;> rfl

theorem mergeFrom_eq_mergeLoop (fuel : ℕ) : ∀ {pos : ℕ} {nItem : UInt64} {array : List UInt64},
    array.length = info.length → record.length - pos < fuel →
      mergeFrom info record pos nItem array = mergeLoop info record fuel pos nItem array := by
  induction fuel with
  | zero => exact fun _ h => absurd h (Nat.not_lt_zero _)
  | succ fuel ih =>
    intro pos nItem array hlen hfuel
    rw [mergeLoop]
    cases hnext : strtokNextItem record pos with
    | none => exact mergeFrom_of_none hnext
    | some r =>
      obtain ⟨item, pos'⟩ := r
      have hlt := strtokNextItem_lt hnext
      have hlen' := (length_mergeOneString nItem info array
        (convertRecordToArray info.length item)).trans hlen
      rw [mergeFrom_of_some hnext hlen, ih hlen' (by omega)]
      rfl

theorem mergeMultItemToArray_eq (info : List ModInfo) (record : Bytes) :
    mergeMultItemToArray info record =
      mergeLoop info record (record.length + 1) 0 1 (replicate info.length 0) :=
  mergeFrom_eq_mergeLoop _ (length_replicate ..) (Nat.lt_succ_self _)

end Loop

def textVals (s : Bytes) : List UInt64 :=
  (strtoull s).1 ::
    if _h : dataSplit ∈ (strtoull s).2 then textVals ((strtoull s).2.drop 1) else []
termination_by s.length
decreasing_by
  have hpos := length_pos_of_mem _h
  have hle := length_strtoull_le s
  rw [length_drop]
  omega

def itemTexts (record : Bytes) (pos : ℕ) : List Bytes :=
  match _h : strtokNextItem record pos with
  | none => []
  | some (item, pos') => item :: itemTexts record pos'
termination_by record.length - pos
decreasing_by
  have hlt := strtokNextItem_lt _h
  omega

theorem convertLoop_eq_take (n : ℕ) : ∀ s : Bytes, convertLoop n s = (textVals s).take n := by
  induction n with
  | zero => exact fun s => (take_zero).symm
  | succ n ih =>
    intro s
    rw [convertLoop, textVals, take_succ_cons]
    by_cases hcomma : dataSplit ∈ (strtoull s).2
    · simp only [if_pos hcomma, dif_pos hcomma, ih]
    · simp only [if_neg hcomma, dif_neg hcomma, take_nil]

theorem strpbrk_eq_some {s : Bytes} {c : UInt8} {i : ℕ} (h : strpbrk s c = some i) :
    s[i]? = some c := by
  rw [strpbrk] at h
  split_ifs at h with hc
  obtain ⟨a, b, rfl, ha⟩ := eq_append_cons_of_mem hc
  have hlen := strpbrk_append_cons (s := b) ha
  rw [strpbrk, if_pos hc, h, some.injEq] at hlen
  rw [hlen]
  simp

theorem strtokNextItem_ne_nil {record item : Bytes} {start start' : ℕ}
    (h : strtokNextItem record start = some (item, start')) : item ≠ [] := by
  simp only [strtokNextItem] at h
  split_ifs at h
  split at h
  · rename_i e s he hs
    split_ifs at h with hlt
    obtain ⟨rfl, -⟩ := Prod.mk.inj (some.inj h)
    have hsplit := strpbrk_eq_some he
    have hstart := strpbrk_eq_some hs
    have hne : e ≠ s := by
      rintro rfl
      exact absurd (some.inj (hsplit.symm.trans hstart)) (by decide)
    have hlen := (List.getElem?_eq_some_iff.mp hsplit).1
    rw [Ne, drop_eq_nil_iff]
    omega
  · exact absurd h (some_ne_none _).symm

section Bounds

variable {info : List ModInfo} {record : Bytes}

theorem itemTexts_of_none {pos : ℕ} (h : strtokNextItem record pos = none) :
    itemTexts record pos = [] := by
  rw [itemTexts]
  split
  · rfl
  · rename_i heq
    rw [h] at heq
    exact absurd heq (some_ne_none _).symm

theorem itemTexts_of_some {pos pos' : ℕ} {item : Bytes}
    (h : strtokNextItem record pos = some (item, pos')) :
    itemTexts record pos = item :: itemTexts record pos' := by
  rw [itemTexts]
  split
  · rename_i heq
    rw [h] at heq
    exact absurd heq (some_ne_none _)
  · rename_i heq
    obtain ⟨rfl, rfl⟩ := Prod.mk.inj (some.inj (h.symm.trans heq))
    rfl

theorem length_convertRecordToArray {item : Bytes} (hne : item ≠ []) (n : ℕ) :
    (convertRecordToArray n item).length = min n (textVals item).length := by
  rw [convertRecordToArray, if_neg hne, convertLoop_eq_take, length_take]

theorem convertRecordToArray_ne_nil {item : Bytes} (hne : item ≠ []) {n : ℕ} (hn : 0 < n) :
    convertRecordToArray n item ≠ [] := by
  have hpos : 0 < (textVals item).length := by
    rw [textVals]
    exact Nat.succ_pos _
  rw [← length_pos_iff, length_convertRecordToArray hne]
  omega

theorem mergeFrom_isSome_iff (fuel : ℕ) : ∀ {pos : ℕ} {nItem : UInt64} {array : List UInt64},
    array.length = info.length → record.length - pos < fuel →
      ((mergeFrom info record pos nItem array).isSome ↔
        info.length ≤ maxColNum ∨
          ∀ text ∈ itemTexts record pos, (textVals text).length ≤ maxColNum) := by
  induction fuel with
  | zero => exact fun _ h => absurd h (Nat.not_lt_zero _)
  | succ fuel ih =>
    intro pos nItem array hlen hfuel
    cases hnext : strtokNextItem record pos with
    | none => simp [mergeFrom_of_none hnext, itemTexts_of_none hnext]
    | some r =>
      obtain ⟨item, pos'⟩ := r
      have hlt := strtokNextItem_lt hnext
      have hitem := strtokNextItem_ne_nil hnext
      have hcount := length_convertRecordToArray hitem info.length
      have hrest := @ih pos' (nItem + 1)
        (mergeOneString info array (convertRecordToArray info.length item) nItem)
        ((length_mergeOneString _ _ _ _).trans hlen) (by omega)
      rw [mergeFrom_of_some hnext hlen, itemTexts_of_some hnext, forall_mem_cons]
      split_ifs with hlong hnil
      · refine iff_of_false Bool.false_ne_true ?_
        rintro (h | ⟨h, -⟩) <;> omega
      · have hzero : ¬ 0 < info.length := fun h => convertRecordToArray_ne_nil hitem h hnil
        refine iff_of_true rfl (.inl ?_)
        omega
      · have hhead : info.length ≤ maxColNum ∨ (textVals item).length ≤ maxColNum := by omega
        rw [hrest, or_and_left]
        exact (and_iff_right hhead).symm

end Bounds

theorem mergeMultItemToArray_isSome_iff (info : List ModInfo) (record : Bytes) :
    (mergeMultItemToArray info record).isSome ↔
      info.length ≤ maxColNum ∨
        ∀ text ∈ itemTexts record 0, (textVals text).length ≤ maxColNum :=
  mergeFrom_isSome_iff _ (length_replicate ..) (Nat.lt_succ_self _)

def Cgroup.Group.merged : Cgroup.Group → List ModInfo
  | .io => replicate 4 ⟨.sum, .null⟩ ++ replicate 10 ⟨.avg, .null⟩
  | g => replicate g.width ⟨.null, .null⟩

theorem mergeMultItemToArray_cgroup :
    mergeMultItemToArray (Cgroup.Enable.full.concat Cgroup.Group.merged)
      (bytes "c=" ++ Cgroup.Enable.full.print (Cgroup.idle []) ++ [itemSplit]) = none := by
  rw [mergeMultItemToArray_eq]
  decide +kernel

def mergedFrom (mode : MergeMode) (a nItem : UInt64) : List UInt64 → UInt64
  | [] => a
  | v :: vs => mergedFrom mode (mergeValue mode a v nItem) (nItem + 1) vs

def mergeItems (info : List ModInfo) (array : List UInt64) (nItem : UInt64) :
    List Item → List UInt64
  | [] => array
  | it :: items => mergeItems info (mergeOneString info array it.vals nItem) (nItem + 1) items

def columnVals (items : List Item) (j : ℕ) : List UInt64 := items.map fun it => it.vals.getD j 0

section Items

variable {info : List ModInfo} {items : List Item}

theorem mergeLoop_items {record : Bytes} (hcol : info.length ≤ maxColNum)
    (hvals : ∀ it ∈ items, it.vals.length = info.length) :
    ∀ {fuel pos k : ℕ} {nItem : UInt64} {array : List UInt64}, items.length < fuel → k ≤ 1 →
      record.drop pos = itemsFrom k items →
        mergeLoop info record fuel pos nItem array =
          some (true, mergeItems info array nItem items) := by
  induction items with
  | nil =>
    intro fuel pos k nItem array hfuel _ hrec
    obtain ⟨fuel, rfl⟩ := Nat.exists_eq_succ_of_ne_zero (Nat.ne_zero_of_lt hfuel)
    rw [mergeLoop, strtokNextItem_nil hrec]
    rfl
  | cons it items ih =>
    intro fuel pos k nItem array hfuel hk hrec
    obtain ⟨hit, hvals⟩ := forall_mem_cons.mp hvals
    obtain ⟨fuel, rfl⟩ := Nat.exists_eq_succ_of_ne_zero (Nat.ne_zero_of_lt hfuel)
    obtain ⟨pos', hnext, hrec'⟩ := strtokNextItem_items hk hrec
    have hread := convertRecordToArray_item it (itemsText items)
    rw [hit] at hread
    have hshort : ¬ 64 < it.vals.length := hit.symm ▸ Nat.not_lt.mpr hcol
    rw [mergeLoop, hnext]
    simp only [hread]
    rw [if_neg hshort, if_neg it.vals_ne_nil,
      ih hvals (Nat.lt_of_succ_lt_succ hfuel) le_rfl hrec']
    rfl

theorem mergeMultItemToArray_long (hcol : maxColNum < info.length) (hne : items ≠ [])
    (hvals : ∀ it ∈ items, it.vals.length = info.length) :
    mergeMultItemToArray info (itemsText items) = none := by
  cases items with
  | nil => exact absurd rfl hne
  | cons it items =>
    have hit := hvals it mem_cons_self
    have hread := convertRecordToArray_item it (itemsText items)
    rw [hit] at hread
    obtain ⟨pos', hnext, -⟩ :=
      @strtokNextItem_items (itemsText (it :: items)) 0 0 (Nat.zero_le 1) it items rfl
    rw [mergeMultItemToArray, mergeFrom_of_some hnext (length_replicate ..), hread, hit,
      if_pos hcol]

theorem getElem?_mergeOneString (nItem : UInt64) : ∀ (info : List ModInfo)
    (array vals : List UInt64) (j : ℕ) {m : ModInfo} {a v : UInt64}, info[j]? = some m →
      array[j]? = some a → vals[j]? = some v →
      (mergeOneString info array vals nItem)[j]? = some (mergeValue m.mergeMode a v nItem) := by
  intro info
  induction info with
  | nil => exact fun _ _ j _ _ _ h => absurd h (by simp)
  | cons i info ih =>
    rintro (_ | ⟨b, array⟩) (_ | ⟨w, vals⟩) (_ | j) m a v hm ha hv
    all_goals simp only [getElem?_nil, getElem?_cons_zero, getElem?_cons_succ,
      some.injEq, reduceCtorEq] at hm ha hv
    · subst hm ha hv
      rfl
    · exact ih array vals j hm ha hv

theorem getElem?_mergeItems {j : ℕ} {m : ModInfo} (hm : info[j]? = some m)
    (hvals : ∀ it ∈ items, it.vals.length = info.length) : ∀ {nItem a : UInt64}
    {array : List UInt64}, array[j]? = some a →
      (mergeItems info array nItem items)[j]? =
        some (mergedFrom m.mergeMode a nItem (columnVals items j)) := by
  have hj := (List.getElem?_eq_some_iff.mp hm).1
  induction items with
  | nil =>
    intro nItem a array ha
    exact ha
  | cons it items ih =>
    intro nItem a array ha
    obtain ⟨hit, hvals⟩ := forall_mem_cons.mp hvals
    have hv : it.vals[j]? = some (it.vals.getD j 0) := by
      rw [getD_eq_getElem _ _ (hit.symm ▸ hj), getElem?_eq_getElem]
    exact ih hvals (getElem?_mergeOneString nItem info array it.vals j hm ha hv)

end Items

section Column

variable (vs : List UInt64)

theorem toNat_mergedFrom_sum : ∀ a nItem : UInt64,
    (mergedFrom .sum a nItem vs).toNat =
      (a.toNat + (vs.map UInt64.toNat).sum) % 18446744073709551616 := by
  induction vs with
  | nil => exact fun a _ => (Nat.mod_eq_of_lt a.toNat_lt).symm
  | cons v vs ih =>
    intro a nItem
    rw [mergedFrom, ih, mergeValue, UInt64.toNat_add, map_cons, sum_cons,
      ← Nat.add_assoc, Nat.mod_add_mod]

theorem toNat_mergeValue_avg {n : ℕ} (hn : n + 1 < 18446744073709551616) (a v : UInt64) :
    (mergeValue .avg a v (UInt64.ofNat (n + 1))).toNat =
      (a.toNat * n + v.toNat) % 18446744073709551616 / (n + 1) := by
  have hsub : UInt64.ofNat (n + 1) - 1 = UInt64.ofNat n := by
    rw [UInt64.ofNat_add]
    exact UInt64.add_sub_cancel ..
  have hmul : (UInt64.ofNat n).toNat = n := UInt64.toNat_ofNat_of_lt' (Nat.lt_of_succ_lt hn)
  rw [mergeValue, hsub, UInt64.toNat_div, UInt64.toNat_add, UInt64.toNat_mul, hmul,
    UInt64.toNat_ofNat_of_lt' hn, Nat.mod_add_mod]

theorem toNat_mergedFrom_avg : ∀ {n : ℕ} (a : UInt64),
    n + vs.length < 18446744073709551616 →
      (mergedFrom .avg a (UInt64.ofNat (n + 1)) vs).toNat =
        truncMeanFrom 18446744073709551616 n a.toNat (vs.map UInt64.toNat) := by
  induction vs with
  | nil => exact fun _ _ => rfl
  | cons v vs ih =>
    intro n a hn
    rw [length_cons] at hn
    rw [mergedFrom, ← UInt64.ofNat_one, ← UInt64.ofNat_add, ih _ (by omega),
      toNat_mergeValue_avg (by omega)]
    rfl

theorem mergedFrom_avg_iff {vs : List UInt64} (hne : vs ≠ [])
    (hlen : vs.length < 18446744073709551616) :
    (mergedFrom .avg 0 1 vs).toNat = (vs.map UInt64.toNat).sum / vs.length ↔
      dropped 18446744073709551616 (vs.map UInt64.toNat) < vs.length := by
  have havg : (mergedFrom .avg 0 1 vs).toNat =
      truncMean 18446744073709551616 (vs.map UInt64.toNat) :=
    toNat_mergedFrom_avg vs (n := 0) 0 ((Nat.zero_add _).symm ▸ hlen)
  have hne' : vs.map UInt64.toNat ≠ [] := mt map_eq_nil_iff.mp hne
  have hlen' : (vs.map UInt64.toNat).length = vs.length := length_map _
  rw [havg, ← hlen', truncMean_eq_iff hne']

theorem mergedFrom_sum_iff :
    (mergedFrom .sum 0 1 vs).toNat = (vs.map UInt64.toNat).sum ↔
      (vs.map UInt64.toNat).sum < 18446744073709551616 := by
  rw [toNat_mergedFrom_sum, UInt64.toNat_zero, Nat.zero_add]
  constructor
  · intro h
    rw [← h]
    exact Nat.mod_lt _ (by decide)
  · exact Nat.mod_eq_of_lt

end Column

def Merged (info : List ModInfo) (items : List Item) (array : List UInt64) : Prop :=
  ∀ j m, info[j]? = some m →
    (m.mergeMode = .avg → array[j]?.map UInt64.toNat =
      some (((columnVals items j).map UInt64.toNat).sum / items.length)) ∧
    (m.mergeMode = .sum → array[j]?.map UInt64.toNat =
      some ((columnVals items j).map UInt64.toNat).sum)

theorem mergeMultItemToArray_merged_iff {info : List ModInfo} {items : List Item} (hne : items ≠ [])
    (hvals : ∀ it ∈ items, it.vals.length = info.length)
    (hrec : (itemsText items).length < 1048576) :
    (∃ array, mergeMultItemToArray info (itemsText items) = some (true, array) ∧
        Merged info items array) ↔
      info.length ≤ maxColNum ∧ ∀ j m, info[j]? = some m →
        (m.mergeMode = .avg →
          dropped 18446744073709551616 ((columnVals items j).map UInt64.toNat) < items.length) ∧
        (m.mergeMode = .sum →
          ((columnVals items j).map UInt64.toNat).sum < 18446744073709551616) := by
  by_cases hcol : info.length ≤ maxColNum
  · have hitems := length_le_itemsText items
    have hloop := @mergeLoop_items info items (itemsText items) hcol hvals
      ((itemsText items).length + 1) 0 0 1 (replicate info.length 0)
      (Nat.lt_succ_of_le hitems) (Nat.zero_le 1) rfl
    rw [← mergeMultItemToArray_eq] at hloop
    simp only [hloop, some.injEq, Prod.mk.injEq, true_and, exists_eq_left', hcol]
    refine forall_congr' fun j => forall_congr' fun m => forall_congr' fun hm => ?_
    have hj := (List.getElem?_eq_some_iff.mp hm).1
    have hzero : (replicate info.length (0 : UInt64))[j]? = some 0 := by simp [hj]
    have hlen : (columnVals items j).length = items.length := length_map _
    rw [getElem?_mergeItems hm hvals hzero, map_some, some.injEq, ← hlen]
    have hcolumn : columnVals items j ≠ [] := mt map_eq_nil_iff.mp hne
    refine and_congr (forall_congr' fun hmode => ?_) (forall_congr' fun hmode => ?_)
    · rw [hmode, mergedFrom_avg_iff hcolumn (by omega)]
    · rw [hmode, some.injEq, mergedFrom_sum_iff]
  · have hnone := mergeMultItemToArray_long (Nat.not_le.mp hcol) hne hvals
    simp [hnone, hcol]

def avgColumn : List ModInfo := [⟨.avg, .null⟩]

theorem mergeMultItemToArray_merged_even :
    ∃ array, mergeMultItemToArray avgColumn
        (itemsText [Item.single sda 0, Item.single sdb 2, Item.single sda 1]) =
          some (true, array) ∧
      Merged avgColumn [Item.single sda 0, Item.single sdb 2, Item.single sda 1] array := by
  refine (mergeMultItemToArray_merged_iff (cons_ne_nil _ _) ?_ (by decide)).mpr
    ⟨by decide, ?_⟩
  · simp [Item.single, avgColumn]
  · rintro (_ | j) m hm
    · obtain rfl : (⟨.avg, .null⟩ : ModInfo) = m := some.inj hm
      exact ⟨fun _ => by decide, fun h => absurd h (by decide)⟩
    · exact absurd hm (by simp [avgColumn])

theorem mergeMultItemToArray_order :
    mergeMultItemToArray avgColumn
        (itemsText [Item.single sda 1, Item.single sdb 0, Item.single sda 2]) = some (true, [0]) ∧
      mergeMultItemToArray avgColumn
        (itemsText [Item.single sda 0, Item.single sdb 2, Item.single sda 1]) =
          some (true, [1]) := by
  rw [mergeMultItemToArray_eq, mergeMultItemToArray_eq]
  decide

end Sysak.Mservice
