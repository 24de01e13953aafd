/-
# Looking up kernel symbols
-/

import Sysak.Lib.BinarySearch
import Sysak.Lib.LuaString

namespace Sysak.Collector

open Lib List Option

structure KsymCell where
  addr : ℕ
  func : Bytes
  module : Bytes
  type : UInt8
  deriving DecidableEq, Repr

def ksymSearch (gCell : List KsymCell) (symCnt key : ℕ) : Option (Option ℕ) :=
  if symCnt = 0 then some none
  else
    (bsearchLoop (gCell.map KsymCell.addr) key symCnt 0 symCnt).bind fun
      | .inl mid => some (some mid)
      | .inr (start, stop) =>
        (if 0 < start then
          gCell[start - 1]?.bind fun l =>
            if l.addr < key then gCell[start]?.map fun r => decide (key < r.addr)
            else some false
        else some false).map fun between =>
          if between then some (start - 1)
          else if start = symCnt then some (stop - 1)
          else none

structure KsymTable where
  cells : List KsymCell
  ne_nil : cells ≠ []
  sorted : (cells.map KsymCell.addr).Pairwise (· ≤ ·)

def IsFloor (cells : List KsymCell) (key : ℕ) : Option ℕ → Prop
  | some i => ∃ c, cells[i]? = some c ∧ c.addr ≤ key ∧ ∀ d ∈ cells, d.addr ≤ key → d.addr ≤ c.addr
  | none => ∀ d ∈ cells, key < d.addr

namespace KsymTable

variable (t : KsymTable)

theorem ksymSearch_cases (behind : List KsymCell) (key : ℕ) :
    (∃ r, ksymSearch (t.cells ++ behind) t.cells.length key = some r ∧ IsFloor t.cells key r ∧
      ((∃ d ∈ t.cells, key ≤ d.addr) ∨ behind ≠ [])) ∨
    ksymSearch (t.cells ++ behind) t.cells.length key = none ∧ behind = [] ∧
      ∀ d ∈ t.cells, d.addr < key := by
  have hpos := length_pos_iff.mpr t.ne_nil
  have hloop := bsearchLoop_spec t.sorted (window_all (t.cells.map KsymCell.addr) key)
    (n := t.cells.length) (by simp)
  rw [length_map] at hloop
  rw [ksymSearch, if_neg hpos.ne', map_append, bsearchLoop_append _ _ _ (by simp)]
  rcases hloop with ⟨i, hrun, hi⟩ | ⟨m, hrun, hm⟩
  · rw [hrun]
    rw [getElem?_map] at hi
    obtain ⟨c, hc, rfl⟩ := map_eq_some_iff.mp hi
    exact .inl ⟨some i, rfl, ⟨c, hc, le_rfl, fun d _ hd => hd⟩,
      .inl ⟨c, mem_of_getElem? hc, le_rfl⟩⟩
  · rw [hrun]
    have hle := hm.stop_le
    rw [length_map] at hle
    simp only [bind_some]
    rcases Nat.eq_zero_or_pos m with rfl | hmpos
    · obtain ⟨d, hd⟩ := exists_mem_of_ne_nil _ t.ne_nil
      refine .inl ⟨none, ?_, hm.all_above, .inl ⟨d, hd, (hm.all_above d hd).le⟩⟩
      simp [hpos.ne]
    · obtain ⟨c, hc, hbelow, hgreatest⟩ := hm.floor (pairwise_map.mp t.sorted) hmpos
      have hfloor : IsFloor t.cells key (some (m - 1)) := ⟨c, hc, hbelow.le, hgreatest⟩
      have hleft : (t.cells ++ behind)[m - 1]? = some c := by
        rw [getElem?_append_left (by omega), hc]
      rcases Nat.lt_or_eq_of_le hle with hlt | hend
      · -- a cell of the table is on the right side
        obtain ⟨d, hd⟩ : ∃ d, t.cells[m]? = some d := ⟨_, getElem?_eq_getElem hlt⟩
        have habove : key < d.addr := hm.lt_key hd le_rfl
        have hright : (t.cells ++ behind)[m]? = some d := by
          rw [getElem?_append_left hlt, hd]
        refine .inl ⟨some (m - 1), ?_, hfloor, .inl ⟨d, mem_of_getElem? hd, habove.le⟩⟩
        simp [hmpos, hleft, hbelow, hright, habove]
      · -- the table ends here
        have hright : (t.cells ++ behind)[m]? = behind[0]? := by
          rw [getElem?_append_right (by omega), hend, Nat.sub_self]
        cases behind with
        | nil =>
          refine .inr ⟨?_, rfl, Window.all_below (hend ▸ hm)⟩
          rw [append_nil] at hleft hright ⊢
          simp [hmpos, hleft, hbelow, hright]
        | cons d behind =>
          refine .inl ⟨some (m - 1), ?_, hfloor, .inr (cons_ne_nil _ _)⟩
          simp [hmpos, hleft, hbelow, ← hend]

end KsymTable

theorem ksym_search_iff (t : KsymTable) (key : ℕ) :
    (∃ r, ksymSearch t.cells t.cells.length key = some r ∧ IsFloor t.cells key r) ↔
      ∃ d ∈ t.cells, key ≤ d.addr := by
  have hcases := t.ksymSearch_cases [] key
  rw [append_nil] at hcases
  constructor
  · rintro ⟨r, hr, -⟩
    rcases hcases with ⟨_, _, _, hd | hnil⟩ | ⟨hnone, -⟩
    · exact hd
    · exact absurd rfl hnil
    · rw [hnone] at hr
      cases hr
  · rintro ⟨d, hd, hkey⟩
    rcases hcases with ⟨r, hr, hfloor, -⟩ | ⟨-, -, hall⟩
    · exact ⟨r, hr, hfloor⟩
    · exact absurd (hall d hd) (not_lt.mpr hkey)

def oneSymbol : KsymTable :=
  ⟨[⟨100, bytes "schedule", [], 116⟩], cons_ne_nil _ _, pairwise_singleton _ _⟩

theorem ksym_search_above :
    ¬∃ r, ksymSearch oneSymbol.cells oneSymbol.cells.length 200 = some r ∧
      IsFloor oneSymbol.cells 200 r := by
  rintro ⟨r, hr, -⟩
  have hnone : ksymSearch oneSymbol.cells oneSymbol.cells.length 200 = none := rfl
  rw [hnone] at hr
  cases hr

end Sysak.Collector
