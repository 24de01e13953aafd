/-
# The table of zero subpages
-/

import Mathlib.Algebra.BigOperators.Ring.List
import Mathlib.Algebra.Order.BigOperators.Group.List
import Sysak.Lib.Decimal

namespace Sysak.Pagescan

open Lib List

structure HugeStat (n : ℕ) where
  zeroPages : ℕ → ℕ
  totalHugePages : ℕ
  total_eq : totalHugePages = ((range n).map zeroPages).sum

namespace HugeStat

variable {n : ℕ}

def empty (n : ℕ) : HugeStat n := ⟨fun _ => 0, 0, by simp⟩

theorem sum_update (f : ℕ → ℕ) {k : ℕ} (hk : k < n) :
    ((range n).map (Function.update f k (f k + 1))).sum = ((range n).map f).sum + 1 := by
  induction n with
  | zero => omega
  | succ n ih =>
    rw [sum_range_succ, sum_range_succ]
    rcases Nat.lt_succ_iff_lt_or_eq.mp hk with hlt | rfl
    · rw [ih hlt, Function.update_of_ne hlt.ne', Nat.add_right_comm]
    · rw [Function.update_self, ← Nat.add_assoc]
      congr 3
      exact map_congr_left fun x hx => Function.update_of_ne (mem_range.mp hx).ne _ _

def record (h : HugeStat n) (k : ℕ) (hk : k < n) : HugeStat n where
  zeroPages := Function.update h.zeroPages k (h.zeroPages k + 1)
  totalHugePages := h.totalHugePages + 1
  total_eq := by rw [sum_update h.zeroPages hk, h.total_eq]

end HugeStat

structure HugePage where
  pageflag : ℕ
  mapped : Bool
  contents : ℕ → Option (List UInt64)

def HugePage.zeroSubpages (p : HugePage) : ℕ :=
  (((range 512).map p.contents).takeWhile Option.isSome).countP fun c =>
    (c.getD []).all (· == 0)

theorem HugePage.zeroSubpages_lt (p : HugePage) : p.zeroSubpages < 513 := by
  have hle := ( takeWhile_prefix (l := (range 512).map p.contents) Option.isSome).length_le
  rw [length_map, length_range] at hle
  exact Nat.lt_succ_of_le (countP_le_length.trans hle)

def scanZeroSubpagesInThp (pages : List HugePage) : HugeStat 513 :=
  pages.foldl (fun h p =>
    if p.mapped && p.pageflag.testBit 22 && p.pageflag.testBit 12 && !p.pageflag.testBit 24 then
      h.record p.zeroSubpages p.zeroSubpages_lt
    else h) (.empty 513)

structure ZeroRow where
  zeroIdx : ℕ
  zeroNext : ℕ
  subtotalHuge : UInt64
  subtotalZero : UInt64

def subtotals (zeroPages : ℕ → ℕ) (cells : List ℕ) : UInt64 × UInt64 :=
  cells.foldl (fun s idx =>
    let zeroPages := Int32.ofNat (zeroPages idx)
    (s.1 + UInt64.ofInt zeroPages.toInt,
      s.2 + UInt64.ofInt (zeroPages * Int32.ofNat idx).toInt)) (0, 0)

def cells (zeroIdx zeroNext : ℕ) : List ℕ := range' zeroIdx (zeroNext - zeroIdx)

def zeroRow (zeroPages : ℕ → ℕ) (b : ℕ × ℕ) : ZeroRow :=
  let s := subtotals zeroPages (cells b.1 b.2)
  ⟨b.1, b.2, s.1, s.2⟩

def zeroNext (base : Bool) (zeroIdx : ℕ) : ℕ :=
  let next := if zeroIdx ≠ 0 then zeroIdx * 2 else 1
  if !base && next == 512 then next + 1 else next

theorem lt_zeroNext (base : Bool) (zeroIdx : ℕ) : zeroIdx < zeroNext base zeroIdx := by
  rw [zeroNext]
  split_ifs <;> omega

def zeroRows (base : Bool) (zeroPages : ℕ → ℕ) (zeroIdx : ℕ) : List ZeroRow :=
  if zeroIdx < 512 then
    have := lt_zeroNext base zeroIdx
    zeroRow zeroPages (zeroIdx, zeroNext base zeroIdx) ::
      zeroRows base zeroPages (zeroNext base zeroIdx)
  else []
termination_by 512 - zeroIdx

def hugeStatDump (base : Bool) (h : HugeStat (if base then 512 else 513)) : Option (List ZeroRow) :=
  if h.totalHugePages = 0 then none else some (zeroRows base h.zeroPages 0)

theorem zeroRows_eq (base : Bool) (zeroPages : ℕ → ℕ) : zeroRows base zeroPages 0 =
    ([(0, 1), (1, 2), (2, 4), (4, 8), (8, 16), (16, 32), (32, 64), (64, 128), (128, 256),
      (256, if base then 512 else 513)].map (zeroRow zeroPages)) := by
  cases base <;> simp [zeroRows, zeroNext]

variable {zeroPages : ℕ → ℕ}

theorem subtotals_eq (l : List ℕ) (hl : ∀ k ∈ l, k ≤ 512 ∧ zeroPages k < 4194304) :
    subtotals zeroPages l = (UInt64.ofNat (l.map zeroPages).sum,
      UInt64.ofNat (l.map fun k => k * zeroPages k).sum) := by
  induction l using reverseRecOn with
  | nil => rfl
  | append_singleton l k ih =>
    obtain ⟨hk, hlt⟩ := hl k (by simp)
    have hprod : k * zeroPages k < 2 ^ 31 := by
      have := Nat.mul_le_mul_right (zeroPages k) hk
      omega
    have hint : (Int32.ofNat (zeroPages k) * Int32.ofNat k).toInt = (k * zeroPages k : ℕ) := by
      rw [← Int32.ofNat_mul, Nat.mul_comm, Int32.toInt_ofNat_of_lt hprod]
    rw [subtotals, foldl_append, foldl_cons, foldl_nil, ← subtotals,
      ih fun k hk => hl k (by simp [hk])]
    simp only [Int32.toInt_ofNat_of_lt (by omega : zeroPages k < 2 ^ 31), hint, ofInt_natCast,
      ← UInt64.ofNat_add, map_append, sum_append, map_singleton, sum_singleton]

theorem sum_cells (g : ℕ → ℕ) (bs : List (ℕ × ℕ)) :
    (bs.map fun b => ((cells b.1 b.2).map g).sum).sum =
      ((bs.flatMap fun b => cells b.1 b.2).map g).sum := by
  induction bs with
  | nil => rfl
  | cons b bs ih => rw [map_cons, sum_cons, ih, flatMap_cons, map_append, sum_append]

theorem sum_zeroRow {n : ℕ} (hn : n ≤ 513) (h : HugeStat n) (hlt : h.totalHugePages < 4194304)
    {bs : List (ℕ × ℕ)} (hbs : (bs.flatMap fun b => cells b.1 b.2) = range n) :
    ((bs.map (zeroRow h.zeroPages)).map fun r => r.subtotalHuge.toNat).sum = h.totalHugePages ∧
      ((bs.map (zeroRow h.zeroPages)).map fun r => r.subtotalZero.toNat).sum =
        ((range n).map fun k => k * h.zeroPages k).sum := by
  have hrow : ∀ b ∈ bs, (zeroRow h.zeroPages b).subtotalHuge.toNat =
        ((cells b.1 b.2).map h.zeroPages).sum ∧
      (zeroRow h.zeroPages b).subtotalZero.toNat =
        ((cells b.1 b.2).map fun k => k * h.zeroPages k).sum := by
    intro b hb
    have hmem : ∀ k ∈ cells b.1 b.2, k < n := fun k hk =>
      mem_range.mp (hbs ▸ mem_flatMap.mpr ⟨b, hb, hk⟩)
    have hle : ((cells b.1 b.2).map h.zeroPages).sum ≤ h.totalHugePages := by
      rw [h.total_eq, ← hbs, ← sum_cells]
      exact le_sum_of_mem (mem_map.mpr ⟨b, hb, rfl⟩)
    have hzero : ((cells b.1 b.2).map fun k => k * h.zeroPages k).sum ≤
        512 * ((cells b.1 b.2).map h.zeroPages).sum := by
      rw [← sum_map_mul_left]
      exact sum_le_sum fun k hk => Nat.mul_le_mul_right _ (by have := hmem k hk; omega)
    have hsub := subtotals_eq (cells b.1 b.2) fun k hk => ⟨by have := hmem k hk; omega,
      (le_sum_of_mem (mem_map.mpr ⟨k, hk, rfl⟩)).trans_lt (hle.trans_lt hlt)⟩
    simp only [zeroRow, hsub]
    rw [UInt64.toNat_ofNat_of_lt' (hle.trans_lt (hlt.trans (by decide))),
      UInt64.toNat_ofNat_of_lt' (by simp only [UInt64.size]; omega)]
    exact ⟨rfl, rfl⟩
  rw [map_map, map_map, h.total_eq, ← hbs, ← sum_cells, ← sum_cells]
  exact ⟨congrArg sum (map_congr_left fun b hb => (hrow b hb).1),
    congrArg sum (map_congr_left fun b hb => (hrow b hb).2)⟩

theorem hugeStatDump_partition (base : Bool) (h : HugeStat (if base then 512 else 513))
    (hpos : 0 < h.totalHugePages) (hlt : h.totalHugePages < 4194304) :
    ∃ rows, hugeStatDump base h = some rows ∧
      rows.flatMap (fun r => cells r.zeroIdx r.zeroNext) = range (if base then 512 else 513) ∧
      (rows.map fun r => r.subtotalHuge.toNat).sum = h.totalHugePages ∧
      (rows.map fun r => r.subtotalZero.toNat).sum =
        ((range (if base then 512 else 513)).map fun k => k * h.zeroPages k).sum := by
  have hcover : ([(0, 1), (1, 2), (2, 4), (4, 8), (8, 16), (16, 32), (32, 64), (64, 128),
      (128, 256), (256, if base then 512 else 513)].flatMap fun b => cells b.1 b.2) =
        range (if base then 512 else 513) := by
    cases base <;> decide +kernel
  refine ⟨_, if_neg hpos.ne', ?_, ?_⟩
  · rw [zeroRows_eq, flatMap_map]
    exact hcover
  · rw [zeroRows_eq]
    exact sum_zeroRow (by cases base <;> decide) h hlt hcover

def twoPages : HugeStat 513 := ((HugeStat.empty 513).record 0 (by decide)).record 512 (by decide)

theorem hugeStatDump_partition_two : ∃ rows, hugeStatDump false twoPages = some rows ∧
    (rows.map fun r => r.subtotalHuge.toNat).sum = 2 ∧
      (rows.map fun r => r.subtotalZero.toNat).sum = 512 := by
  obtain ⟨rows, hrows, -, hhuge, hzero⟩ :=
    hugeStatDump_partition false twoPages (by decide) (by decide)
  exact ⟨rows, hrows, hhuge, hzero.trans (by decide +kernel)⟩

end Sysak.Pagescan
