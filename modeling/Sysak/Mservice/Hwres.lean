/-
# Cycles per instruction
-/

import Sysak.Mservice.Cgroup

namespace Sysak.Mservice
namespace Cgroup

open List Option

variable {n : ℕ}

local instance neZeroFour : NeZero 4 := ⟨Nat.succ_ne_zero 3⟩

local instance neZeroSix : NeZero 6 := ⟨Nat.succ_ne_zero 5⟩

abbrev Readings (n : ℕ) : Type := Fin n → Fin 4 → Option Int64

structure Hwres (n : ℕ) where
  hwCounters : Fin n → Fin 4 → Int64
  hwSum : Fin 4 → Int64
  cpi : Int64
  deltaCpi : Int64

def Hwres.init : Hwres n := ⟨fun _ _ => 0, fun _ => 0, 0, 0⟩

def divideSigned (a b : Int64) : Option Int64 := if b = 0 then none else some (a / b)

def addReadings (r : Readings n) (j : Fin 4) (sum : Int64) : Int64 :=
  (finRange n).foldl (fun s i => s + (r i j).getD 0) sum

def guardedCpi (cycles instructions : Int64) : Option Int64 :=
  if instructions = 0 then some 0 else divideSigned (100 * cycles) instructions

def getHwresStats (s : Hwres n) (r : Readings n) : Option (Hwres n) := do
  let hwSum := fun j => addReadings r j (s.hwSum j)
  let cpi ← guardedCpi (hwSum 0) (hwSum 1)
  let deltaCpi ← guardedCpi (hwSum 0 - s.hwSum 0) (hwSum 1 - s.hwSum 1)
  some ⟨fun i j => (r i j).getD (s.hwCounters i j), hwSum, cpi, deltaCpi⟩

def Hwres.info (s : Hwres n) : CgHwresInfo :=
  ⟨s.hwSum 0, s.hwSum 1, s.hwSum 2, s.hwSum 3, s.cpi, s.deltaCpi⟩

def Hwres.columns (s : Hwres n) : Fin 6 → UInt64 := printedVals { idle [] with hwres := s.info } .hw

theorem toUInt64_eq_ofInt (v : Int64) : v.toUInt64 = UInt64.ofInt v.toInt := by
  refine UInt64.toNat.inj ?_
  have hint : v.toInt = v.toUInt64.toBitVec.toInt := rfl
  have hlt := v.toUInt64.toNat_lt
  rw [UInt64.ofInt, UInt64.toNat_ofNat', hint, BitVec.toInt_eq_toNat_cond, UInt64.toNat_toBitVec]
  split_ifs <;> omega

theorem Hwres.columns_sum (s : Hwres n) : s.columns 0 = (s.hwSum 0).toUInt64 ∧
    s.columns 1 = (s.hwSum 1).toUInt64 :=
  ⟨(toUInt64_eq_ofInt _).symm, (toUInt64_eq_ofInt _).symm⟩

def total (r : Readings n) (j : Fin 4) : Int64 := addReadings r j 0

theorem addReadings_eq (r : Readings n) (j : Fin 4) (sum : Int64) :
    addReadings r j sum = sum + total r j := by
  have hfold : ∀ (l : List (Fin n)) (s : Int64), l.foldl (fun s i => s + (r i j).getD 0) s =
      s + l.foldl (fun s i => s + (r i j).getD 0) 0 := by
    intro l
    induction l with
    | nil => exact fun s => (Int64.add_zero s).symm
    | cons i l ih =>
      intro s
      rw [foldl_cons, foldl_cons, ih, ih (0 + (r i j).getD 0), Int64.zero_add,
        Int64.add_assoc]
  exact hfold _ _

def signedCpi (cycles instructions : Int64) : Int64 :=
  if instructions = 0 then 0 else 100 * cycles / instructions

theorem guardedCpi_eq (a b : Int64) : guardedCpi a b = some (signedCpi a b) := by
  rw [guardedCpi, signedCpi, divideSigned]
  split_ifs <;> rfl

def Hwres.collect (s : Hwres n) (r : Readings n) : Hwres n where
  hwCounters := fun i j => (r i j).getD (s.hwCounters i j)
  hwSum := fun j => s.hwSum j + total r j
  cpi := signedCpi (s.hwSum 0 + total r 0) (s.hwSum 1 + total r 1)
  deltaCpi := signedCpi (total r 0) (total r 1)

theorem getHwresStats_eq (s : Hwres n) (r : Readings n) :
    getHwresStats s r = some (s.collect r) := by
  have hsub : ∀ j, s.hwSum j + total r j - s.hwSum j = total r j := by
    intro j
    rw [Int64.add_comm, Int64.add_sub_cancel]
  simp only [getHwresStats, addReadings_eq, hsub, guardedCpi_eq]
  rfl

def hwAfter (rs : List (Readings n)) : Hwres n := rs.foldl Hwres.collect .init

def totals (rs : List (Readings n)) (j : Fin 4) : Int64 := rs.foldl (fun s r => s + total r j) 0

theorem hwAfter_hwSum (rs : List (Readings n)) (j : Fin 4) :
    (hwAfter rs).hwSum j = totals rs j := by
  have hfold : ∀ (rs : List (Readings n)) (s : Hwres n),
      (rs.foldl Hwres.collect s).hwSum j = rs.foldl (fun a r => a + total r j) (s.hwSum j) := by
    intro rs
    induction rs with
    | nil => exact fun s => rfl
    | cons r rs ih => exact fun s => ih (s.collect r)
  exact hfold rs .init

def counted (s : Hwres n) (r : Readings n) (j : Fin 4) : ℤ :=
  ((finRange n).map fun i =>
    match r i j with
    | some count => count.toInt - (s.hwCounters i j).toInt
    | none => 0).sum

def intervalCpi (s : Hwres n) (r : Readings n) : ℤ :=
  if counted s r 1 = 0 then 0 else 100 * counted s r 0 / counted s r 1

def CpiExact (rs : List (Readings n)) (r : Readings n) : Prop :=
  ∃ s, getHwresStats (hwAfter rs) r = some s ∧ s.deltaCpi.toInt = intervalCpi (hwAfter rs) r ∧
    (rs ≠ [] → ∃ st pre, setHwresRecord intDouble (hwAfter rs).columns s.columns = some (st, pre) ∧
      st 5 = intervalCpi (hwAfter rs) r)

structure CpiSteady (rs : List (Readings n)) (r : Readings n) : Prop where
  signed : (signedCpi (total r 0) (total r 1)).toInt = intervalCpi (hwAfter rs) r
  instructions : rs ≠ [] → total r 0 ≠ 0 → total r 1 ≠ 0
  allInstructions : rs ≠ [] → totals rs 0 ≠ 0 → totals (rs ++ [r]) 1 ≠ 0
  unsigned : rs ≠ [] → (if total r 0 = 0 then 0
    else 100 * (total r 0).toUInt64 / (total r 1).toUInt64 : UInt64).toNat =
      intervalCpi (hwAfter rs) r

def guardedColumn (guard a b : UInt64) : Option ℤ :=
  if guard = 0 then some 0 else (divide a b).map intDouble.ofU64

theorem guardedColumn_eq_some_iff {guard a b : UInt64} {z : ℤ} : guardedColumn guard a b = some z ↔
    (guard ≠ 0 → b ≠ 0) ∧ (if guard = 0 then 0 else a / b).toNat = z := by
  rw [guardedColumn, divide]
  split_ifs with hguard hb
  · simp [hguard]
  · simp [hguard, hb]
  · simp [hguard, hb, intDouble]

theorem setHwresRecord_eq (pre cur : Fin 6 → UInt64) : setHwresRecord intDouble pre cur =
    (guardedColumn (pre 0) (100 * cur 0) (cur 1)).bind fun cpi =>
      (guardedColumn (cur 0 - pre 0) (100 * (cur 0 - pre 0)) (cur 1 - pre 1)).map fun delta =>
        (![((cur 0).toNat : ℤ), (cur 1).toNat, (cur 2).toNat, (cur 3).toNat, cpi, delta],
          ![cur 0, cur 1, pre 2, pre 3, pre 4, pre 5]) := by
  rw [setHwresRecord, guardedColumn, guardedColumn]
  split_ifs
  · rfl
  · cases divide (100 * (cur 0 - pre 0)) (cur 1 - pre 1) <;> rfl
  · cases divide (100 * cur 0) (cur 1) <;> rfl
  · cases divide (100 * cur 0) (cur 1) <;>
      cases divide (100 * (cur 0 - pre 0)) (cur 1 - pre 1) <;> rfl

theorem setHwresRecord_iff {pre cur : Fin 6 → UInt64} {z : ℤ} :
    (∃ st p, setHwresRecord intDouble pre cur = some (st, p) ∧ st 5 = z) ↔
      (pre 0 ≠ 0 → cur 1 ≠ 0) ∧ (cur 0 - pre 0 ≠ 0 → cur 1 - pre 1 ≠ 0) ∧
        (if cur 0 - pre 0 = 0 then 0 else 100 * (cur 0 - pre 0) / (cur 1 - pre 1)).toNat = z := by
  rw [setHwresRecord_eq, ← guardedColumn_eq_some_iff]
  constructor
  · rintro ⟨st, p, h, hst⟩
    obtain ⟨cpi, hcpi, h⟩ := bind_eq_some_iff.mp h
    obtain ⟨delta, hdelta, h⟩ := map_eq_some_iff.mp h
    obtain ⟨rfl, -⟩ := Prod.mk.inj h
    have hlast : delta = z := hst
    exact ⟨(guardedColumn_eq_some_iff.mp hcpi).1, hlast ▸ hdelta⟩
  · rintro ⟨hguard, hdelta⟩
    have hcpi := guardedColumn_eq_some_iff (a := 100 * cur 0).mpr ⟨hguard, rfl⟩
    rw [hcpi, hdelta]
    exact ⟨_, _, rfl, rfl⟩

theorem toUInt64_eq_zero_iff (v : Int64) : v.toUInt64 = 0 ↔ v = 0 := by
  constructor
  · intro h
    rw [← Int64.toInt64_toUInt64 v, h]
    rfl
  · rintro rfl
    rfl

def oneCpu (cycles instructions : Option Int64) : Readings 1 :=
  fun _ => ![cycles, instructions, some 0, some 0]

end Cgroup
end Sysak.Mservice
