/-
# Items with fewer values than columns
-/

import Sysak.Mservice.Collect

namespace Sysak.Mservice

open Lib List

def OwnValues (nCol cap : ℕ) (items : List Item) : Prop :=
  ∀ cur, ∃ ret cur',
    itemsLoop nCol cap (itemsText items) ((itemsText items).length + 1) 0 0 0 cur =
      some (ret, cur') ∧
    ∀ (i : ℕ) (hi : i < items.length),
      row cur' nCol i = items[i].vals ++ (row cur nCol i).drop items[i].vals.length

section Read

variable {nCol : ℕ} {it : Item} {rest : List Item}

def Item.behind (it : Item) (rest : List Item) : Bytes :=
  (if it.comma then [dataSplit] else []) ++ itemSplit :: itemsText rest

theorem Item.mem_behind : dataSplit ∈ it.behind rest ↔
    ¬ (it.comma = false ∧ dataSplit ∉ itemsText rest) := by
  have hne : dataSplit ≠ itemSplit := by decide
  cases hcomma : it.comma <;> simp [Item.behind, hcomma, hne]

theorem Item.read_eq (h : it.vals.length ≤ nCol) : it.read nCol rest = it.vals ++
    if dataSplit ∈ it.behind rest then
      convertLoop (nCol - it.vals.length) ((it.behind rest).drop 1)
    else [] := by
  have hread := convertLoop_valsText_add it.vals_ne_nil (it.noDigit_rest (itemsText rest))
    (nCol - it.vals.length)
  rw [Nat.add_sub_cancel' h] at hread
  rw [Item.read, convertRecordToArray, if_neg (by simp), Item.body, append_assoc, hread]
  rfl

theorem Item.read_eq_vals_iff (h : it.vals.length ≤ nCol) :
    it.read nCol rest = it.vals ↔
      it.vals.length = nCol ∨ it.comma = false ∧ dataSplit ∉ itemsText rest := by
  rw [Item.read_eq h, append_right_eq_self]
  split_ifs with hmem
  · rw [or_iff_left (Item.mem_behind.mp hmem)]
    constructor
    · intro hnil
      by_contra hne
      obtain ⟨k, hk⟩ : ∃ k, nCol - it.vals.length = k + 1 := ⟨nCol - it.vals.length - 1, by omega⟩
      rw [hk, convertLoop] at hnil
      exact cons_ne_nil _ _ hnil
    · intro heq
      rw [heq, Nat.sub_self]
      rfl
  · exact iff_of_true rfl (.inr (not_not.mp (mt Item.mem_behind.mpr hmem)))

theorem Item.exists_read_eq (h : it.vals.length ≤ nCol) (rest : List Item) :
    ∃ more, it.read nCol rest = it.vals ++ more :=
  ⟨_, Item.read_eq h⟩

end Read

theorem exists_row_ne {n i : ℕ} {vals more : List UInt64} (hle : (vals ++ more).length ≤ n)
    (hne : more ≠ []) : ∃ cur : ℕ → UInt64,
      vals ++ more ++ (row cur n i).drop (vals ++ more).length ≠
        vals ++ (row cur n i).drop vals.length := by
  cases more with
  | nil => exact absurd rfl hne
  | cons v more =>
    refine ⟨fun _ => v + 1, fun heq => ?_⟩
    rw [append_assoc, append_cancel_left_eq] at heq
    have hlen : vals.length < (row (fun _ => v + 1) n i).length := by
      rw [length_row]
      simp only [length_append, length_cons] at hle
      omega
    rw [drop_eq_getElem_cons hlen, cons_append, List.cons.injEq] at heq
    have hv : v = v + 1 := by simpa [row] using heq.1
    exact absurd hv (by simp)

theorem ownValues_iff {nCol cap : ℕ} {items : List Item} (hne : items ≠ [])
    (hvals : ∀ it ∈ items, it.vals.length ≤ nCol) (hcap : items.length ≤ cap) :
    OwnValues nCol cap items ↔ ∀ (i : ℕ) (hi : i < items.length),
      items[i].vals.length = nCol ∨
        items[i].comma = false ∧ dataSplit ∉ itemsText (items.drop (i + 1)) := by
  have hcol : 0 < nCol := by
    obtain ⟨it, hit⟩ := exists_mem_of_ne_nil items hne
    exact (length_pos_iff.mpr it.vals_ne_nil).trans_le (hvals it hit)
  have hloop : ∀ cur, ∃ ret cur',
      itemsLoop nCol cap (itemsText items) ((itemsText items).length + 1) 0 0 0 cur =
        some (ret, cur') ∧
      ∀ (i : ℕ) (hi : i < items.length), row cur' nCol i =
        items[i].read nCol (items.drop (i + 1)) ++
          (row cur nCol i).drop (items[i].read nCol (items.drop (i + 1))).length := by
    intro cur
    obtain ⟨ret, cur', hrun, -, hrows, -⟩ := @itemsLoop_rows nCol cap (itemsText items) hcol items
      ((itemsText items).length + 1) 0 0 0 0 cur (Nat.lt_succ_of_le (length_le_itemsText items))
      (Nat.zero_le 1) (by omega) rfl
    refine ⟨ret, cur', hrun, fun i hi => ?_⟩
    simpa only [Nat.zero_add] using hrows i hi
  have hle : ∀ (i : ℕ) (hi : i < items.length), items[i].vals.length ≤ nCol := fun i hi =>
    hvals _ (getElem_mem hi)
  constructor
  · intro hown i hi
    rw [← Item.read_eq_vals_iff (hle i hi)]
    obtain ⟨more, hmore⟩ := Item.exists_read_eq (hle i hi) (items.drop (i + 1))
    by_contra hread
    have hlen := (Item.length_read nCol items[i] (items.drop (i + 1))).1
    rw [hmore] at hread hlen
    obtain ⟨cur, hdiff⟩ := exists_row_ne (i := i) hlen fun h => hread (by rw [h, append_nil])
    obtain ⟨ret, cur', hrun, hrows⟩ := hloop cur
    obtain ⟨ret', cur'', hrun', hrows'⟩ := hown cur
    obtain ⟨-, rfl⟩ := Prod.mk.inj (Option.some.inj (hrun.symm.trans hrun'))
    have hrow := (hrows i hi).symm.trans (hrows' i hi)
    rw [hmore] at hrow
    exact hdiff hrow
  · intro hcond cur
    obtain ⟨ret, cur', hrun, hrows⟩ := hloop cur
    refine ⟨ret, cur', hrun, fun i hi => ?_⟩
    rw [hrows i hi, (Item.read_eq_vals_iff (hle i hi)).mpr (hcond i hi)]

def twoValues : Item := ⟨sda, [1, 2], true, cons_ne_nil _ _⟩

theorem ownValues_last_short : OwnValues 2 2 [twoValues, Item.single sdb 5] := by
  refine (ownValues_iff (cons_ne_nil _ _) ?_ (Nat.le_refl 2)).mpr ?_
  · simp [Item.single, twoValues]
  · rintro (_ | _ | i) hi
    · exact .inl rfl
    · exact .inr ⟨rfl, by decide⟩
    · exact absurd (Nat.lt_of_succ_lt_succ (Nat.lt_of_succ_lt_succ hi)) (Nat.not_lt_zero i)

theorem itemsLoop_short :
    (itemsLoop 4 2 (bytes "a=1;b=5,6,7,8;") 15 0 0 0 fun _ => 9).map
        (fun r => (row r.2 4 0, row r.2 4 1)) =
      some ([1, 0, 0, 5], [5, 6, 7, 8]) := by
  decide

end Sysak.Mservice
