/-
# The items of a record
-/

import Sysak.Lib.Decimal

namespace Sysak.Mservice

open Lib List

def itemSplit : UInt8 := 59

def itemSpstart : UInt8 := 61

def dataSplit : UInt8 := 44

def countTokens (split : UInt8) : Bool → Bytes → ℕ
  | _, [] => 0
  | inside, c :: s =>
    if c = split then countTokens split false s
    else if inside then countTokens split true s
    else countTokens split true s + 1

def getStrtokNum (str : Bytes) (split : UInt8) : ℕ := countTokens split false str

def strpbrk (s : Bytes) (c : UInt8) : Option ℕ :=
  if c ∈ s then some (s.takeWhile (· != c)).length else none

def strtokNextItem (record : Bytes) (start : ℕ) : Option (Bytes × ℕ) :=
  if record.length ≤ start then none
  else
    let nRecord := record.drop start
    match strpbrk nRecord itemSplit, strpbrk nRecord itemSpstart with
    | some e, some s => if e < s then none else some (nRecord.drop (s + 1), start + e + 2)
    | _, _ => none

def convertLoop : ℕ → Bytes → List UInt64
  | 0, _ => []
  | n + 1, record =>
    let r := strtoull record
    r.1 :: if dataSplit ∈ r.2 then convertLoop n (r.2.drop 1) else []

def convertRecordToArray (lArray : ℕ) (record : Bytes) : List UInt64 :=
  if record = [] then [] else convertLoop lArray record

def valsText : List UInt64 → Bytes
  | [] => []
  | [v] => dec v.toNat
  | v :: vs => dec v.toNat ++ dataSplit :: valsText vs

abbrev ItemName : Type := { n : Bytes // n ≠ [] ∧ itemSplit ∉ n ∧ itemSpstart ∉ n }

structure Item where
  name : ItemName
  vals : List UInt64
  comma : Bool
  vals_ne_nil : vals ≠ []

namespace Item

def body (it : Item) : Bytes := valsText it.vals ++ if it.comma then [dataSplit] else []

def text (it : Item) : Bytes := it.name.1 ++ itemSpstart :: (it.body ++ [itemSplit])

end Item

def itemsText (items : List Item) : Bytes := items.flatMap Item.text

variable {c : UInt8}

theorem mem_valsText {vals : List UInt64} (h : c ∈ valsText vals) :
    isDigit c = true ∨ c = dataSplit := by
  induction vals with
  | nil => exact absurd h not_mem_nil
  | cons v vs ih =>
    cases vs with
    | nil => exact Or.inl (isDigit_of_mem_dec h)
    | cons w vs =>
      rcases mem_append.mp h with h | h
      · exact Or.inl (isDigit_of_mem_dec h)
      · rcases mem_cons.mp h with h | h
        · exact Or.inr h
        · exact ih h

theorem Item.notMem_body (it : Item) : itemSplit ∉ it.body ∧ itemSpstart ∉ it.body := by
  have hmem : ∀ {c : UInt8}, c ∈ it.body → isDigit c = true ∨ c = dataSplit := by
    intro c hc
    rcases mem_append.mp hc with hc | hc
    · exact mem_valsText hc
    · split_ifs at hc
      · exact Or.inr (mem_singleton.mp hc)
      · exact absurd hc not_mem_nil
  exact ⟨fun h => absurd (hmem h) (by decide), fun h => absurd (hmem h) (by decide)⟩

theorem mem_itemsText {items : List Item} (hne : items ≠ []) : itemSplit ∈ itemsText items := by
  cases items with
  | nil => exact absurd rfl hne
  | cons it items => simp [itemsText, Item.text]

theorem length_le_itemsText (items : List Item) : items.length ≤ (itemsText items).length := by
  induction items with
  | nil => exact Nat.zero_le _
  | cons it items ih =>
    have hlen : 0 < it.text.length := by simp [Item.text]
    rw [itemsText] at ih ⊢
    rw [flatMap_cons, length_append, length_cons]
    omega

variable {a s : Bytes}

theorem countTokens_inside {split : UInt8} (ha : split ∉ a) :
    countTokens split true (a ++ split :: s) = countTokens split false s := by
  induction a with
  | nil => simp [countTokens]
  | cons c a ih =>
    obtain ⟨hc, ha⟩ := not_or.mp (mt mem_cons.mpr ha)
    rw [cons_append, countTokens, if_neg (Ne.symm hc), if_pos rfl, ih ha]

theorem countTokens_token {split : UInt8} (hne : a ≠ []) (ha : split ∉ a) :
    countTokens split false (a ++ split :: s) = countTokens split false s + 1 := by
  cases a with
  | nil => exact absurd rfl hne
  | cons c a =>
    obtain ⟨hc, ha⟩ := not_or.mp (mt mem_cons.mpr ha)
    rw [cons_append, countTokens, if_neg (Ne.symm hc), if_neg Bool.false_ne_true,
      countTokens_inside ha]

theorem getStrtokNum_itemsText (items : List Item) :
    getStrtokNum (itemsText items) itemSplit = items.length := by
  induction items with
  | nil => rfl
  | cons it items ih =>
    have htext : itemsText (it :: items) =
        (it.name.1 ++ itemSpstart :: it.body) ++ itemSplit :: itemsText items := by
      simp [itemsText, Item.text]
    have hnot : itemSplit ∉ it.name.1 ++ itemSpstart :: it.body := by
      rw [mem_append, mem_cons, not_or, not_or]
      exact ⟨it.name.2.2.1, by decide, it.notMem_body.1⟩
    rw [getStrtokNum] at ih ⊢
    rw [htext, countTokens_token (by simp) hnot, ih, length_cons]

theorem bne_of_notMem {a : Bytes} (ha : c ∉ a) : ∀ b ∈ a, (b != c) = true := by
  intro b hb
  rw [bne_iff_ne]
  rintro rfl
  exact ha hb

theorem takeWhile_bne {a : Bytes} (ha : c ∉ a) (s : Bytes) :
    (a ++ c :: s).takeWhile (· != c) = a := by
  rw [takeWhile_append_of_pos (bne_of_notMem ha)]
  simp

theorem dropWhile_bne {a : Bytes} (ha : c ∉ a) (s : Bytes) :
    (a ++ c :: s).dropWhile (· != c) = c :: s := by
  rw [dropWhile_append_of_pos (bne_of_notMem ha)]
  simp

theorem strpbrk_append_cons (ha : c ∉ a) : strpbrk (a ++ c :: s) c = some a.length := by
  rw [strpbrk, if_pos (by simp), takeWhile_bne ha]

def itemsFrom (k : ℕ) (items : List Item) : Bytes := (itemsText items).drop k

theorem strtokNextItem_items {record : Bytes} {start k : ℕ} (hk : k ≤ 1) {it : Item}
    {items : List Item} (h : record.drop start = itemsFrom k (it :: items)) :
    ∃ start', strtokNextItem record start =
        some (it.body ++ itemSplit :: itemsText items, start') ∧
      record.drop start' = itemsFrom 1 items := by
  have hlen : 0 < it.name.1.length := length_pos_iff.mpr it.name.2.1
  have hrest : record.drop start =
      it.name.1.drop k ++ itemSpstart :: (it.body ++ itemSplit :: itemsText items) := by
    rw [h, itemsFrom, itemsText, flatMap_cons, Item.text, append_assoc,
      drop_append_of_le_length (by omega)]
    simp [itemsText]
  have hname : ∀ {c : UInt8}, c ∉ it.name.1 → c ∉ it.name.1.drop k := fun hc hm =>
    hc (mem_of_mem_drop hm)
  have hs : strpbrk (record.drop start) itemSpstart = some (it.name.1.drop k).length := by
    rw [hrest, strpbrk_append_cons (hname it.name.2.2.2)]
  have he : strpbrk (record.drop start) itemSplit =
      some ((it.name.1.drop k).length + 1 + it.body.length) := by
    have hnot : itemSplit ∉ it.name.1.drop k ++ itemSpstart :: it.body := by
      rw [mem_append, mem_cons, not_or, not_or]
      exact ⟨hname it.name.2.2.1, by decide, it.notMem_body.1⟩
    have heq : it.name.1.drop k ++ itemSpstart :: (it.body ++ itemSplit :: itemsText items) =
        (it.name.1.drop k ++ itemSpstart :: it.body) ++ itemSplit :: itemsText items := by
      simp
    rw [hrest, heq, strpbrk_append_cons hnot, length_append, length_cons]
    congr 1
    omega
  have hlt : ¬ record.length ≤ start := by
    intro hle
    rw [drop_of_length_le hle] at hrest
    simp at hrest
  refine ⟨start + ((it.name.1.drop k).length + 1 + it.body.length) + 2, ?_, ?_⟩
  · have hbody : (record.drop start).drop ((it.name.1.drop k).length + 1) =
        it.body ++ itemSplit :: itemsText items := by
      rw [hrest, ← singleton_append, ← append_assoc, drop_left' (by simp)]
    rw [strtokNextItem, if_neg hlt]
    simp only [hs, he]
    rw [if_neg (by omega), hbody]
  · have hsplit : record.drop start =
        (it.name.1.drop k ++ itemSpstart :: (it.body ++ [itemSplit])) ++ itemsText items := by
      rw [hrest]
      simp
    have hadd : start + ((it.name.1.drop k).length + 1 + it.body.length) + 2 =
        start + ((it.name.1.drop k ++ itemSpstart :: (it.body ++ [itemSplit])).length + 1) := by
      simp only [length_append, length_cons, length_nil]
      omega
    rw [hadd, ← drop_drop, ← drop_drop, hsplit, drop_left, itemsFrom]

theorem strtokNextItem_nil {record : Bytes} {start k : ℕ} (h : record.drop start = itemsFrom k []) :
    strtokNextItem record start = none := by
  have hle : record.length ≤ start := by
    rw [← drop_eq_nil_iff, h]
    simp [itemsFrom, itemsText]
  rw [strtokNextItem, if_pos hle]

theorem length_convertLoop_le (n : ℕ) (record : Bytes) : (convertLoop n record).length ≤ n := by
  induction n generalizing record with
  | zero => exact le_rfl
  | succ n ih =>
    rw [convertLoop, length_cons]
    refine Nat.succ_le_succ ?_
    split_ifs
    · exact ih _
    · exact Nat.zero_le n

theorem convertLoop_valsText_add {vals : List UInt64} (hne : vals ≠ []) {rest : Bytes}
    (hrest : NoDigit rest) (k : ℕ) : convertLoop (vals.length + k) (valsText vals ++ rest) =
      vals ++ if dataSplit ∈ rest then convertLoop k (rest.drop 1) else [] := by
  induction vals with
  | nil => exact absurd rfl hne
  | cons v vs ih =>
    have hv : v.toNat < 18446744073709551616 := v.toNat_lt
    have hone : ∀ {s : Bytes}, NoDigit s → strtoull (dec v.toNat ++ s) = (v, s) := by
      intro s hs
      rw [strtoull_dec hv hs, UInt64.ofNat_toNat]
    rw [length_cons, Nat.add_right_comm, convertLoop]
    cases vs with
    | nil =>
      rw [valsText, hone hrest, length_nil, Nat.zero_add, singleton_append]
    | cons w vs =>
      have htext : valsText (v :: w :: vs) ++ rest =
          dec v.toNat ++ dataSplit :: (valsText (w :: vs) ++ rest) := by
        simp [valsText]
      have hcomma : NoDigit (dataSplit :: (valsText (w :: vs) ++ rest)) := by
        rintro c hc
        obtain rfl : dataSplit = c := by simpa using hc
        rfl
      rw [htext, hone hcomma]
      simp only [mem_cons, true_or, if_true, drop_succ_cons, drop_zero]
      rw [ih (cons_ne_nil _ _)]
      rfl

theorem Item.noDigit_rest (it : Item) (rest : Bytes) :
    NoDigit ((if it.comma then [dataSplit] else []) ++ itemSplit :: rest) := by
  intro c hc
  split_ifs at hc
  · obtain rfl : dataSplit = c := by simpa using hc
    rfl
  · obtain rfl : itemSplit = c := by simpa using hc
    rfl

theorem convertRecordToArray_item (it : Item) (rest : Bytes) :
    convertRecordToArray it.vals.length (it.body ++ itemSplit :: rest) = it.vals := by
  have hread := convertLoop_valsText_add it.vals_ne_nil (it.noDigit_rest rest) 0
  have hnone : ∀ s : Bytes, (if dataSplit ∈ s then convertLoop 0 (s.drop 1) else []) = [] := by
    intro s
    split_ifs <;> rfl
  rw [hnone, append_nil, Nat.add_zero] at hread
  rw [convertRecordToArray, if_neg (by simp), Item.body, append_assoc, hread]

end Sysak.Mservice
