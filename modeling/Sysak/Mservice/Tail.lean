/-
# The summary rows
-/

import Sysak.Mservice.Collect
import Mathlib.Tactic.FieldSimp

namespace Sysak.Mservice

open Lib List

structure TailCell where
  max : ℚ
  mean : ℚ
  min : ℚ
deriving DecidableEq

def TailCell.record (nRecord : ℕ) (c : TailCell) (st : ℚ) : TailCell :=
  if nRecord = 0 then ⟨st, st, st⟩
  else
    { max := if 1 / 10 < st - c.max then st else c.max
      min := if 1 / 10 < c.min - st ∧ 0 ≤ st then st else c.min
      mean := if 0 ≤ st then ((nRecord - 1) * c.mean + st) / nRecord else c.mean }

structure Tail where
  nRecord : ℕ
  cell : ℕ → TailCell

def setStRecord (conf : Conf ℚ) (m : Module ℚ) (t : Tail) : Module ℚ × Tail :=
  (m.setSt conf,
    { nRecord := t.nRecord + 1
      cell := fun k =>
        if k < m.nItem * m.nCol then (t.cell k).record t.nRecord ((m.setSt conf).stArray k)
        else t.cell k })

def tailRun (conf : Conf ℚ) (ms : List (Module ℚ)) (t : Tail) : Tail :=
  ms.foldl (fun t m => (setStRecord conf m t).2) t

def column (conf : Conf ℚ) (ms : List (Module ℚ)) (k : ℕ) : List ℚ :=
  ms.map fun m => (m.setSt conf).stArray k

theorem tailRun_concat (conf : Conf ℚ) (ms : List (Module ℚ)) (m : Module ℚ) (t : Tail) :
    tailRun conf (ms ++ [m]) t = (setStRecord conf m (tailRun conf ms t)).2 := by
  rw [tailRun, foldl_append]
  rfl

theorem tailRun_nRecord (conf : Conf ℚ) (ms : List (Module ℚ)) (t : Tail) :
    (tailRun conf ms t).nRecord = t.nRecord + ms.length := by
  induction ms using reverseRecOn with
  | nil => rfl
  | append_singleton ms m ih =>
    rw [tailRun_concat, length_append, length_singleton, ← Nat.add_assoc, ← ih]
    rfl

structure KeepsTail (x : ℚ) (xs : List ℚ) (c : TailCell) : Prop where
  max_mem : c.max ∈ x :: xs
  le_max : ∀ y ∈ x :: xs, y ≤ c.max + 1 / 10
  min_mem : c.min ∈ x :: xs
  min_le : ∀ y ∈ x :: xs, c.min ≤ y + 1 / 10
  mean_nil : xs = [] → c.mean = x
  mean_mul : xs ≠ [] → xs.length * c.mean = xs.sum

section Step

variable {x y : ℚ} {xs : List ℚ} {c : TailCell}

theorem keepsTail_first (c : TailCell) (x : ℚ) : KeepsTail x [] (c.record 0 x) where
  max_mem := mem_singleton_self x
  le_max := fun y hy => by
    rw [mem_singleton.mp hy]
    exact le_add_of_nonneg_right (by norm_num)
  min_mem := mem_singleton_self x
  min_le := fun y hy => by
    rw [mem_singleton.mp hy]
    exact le_add_of_nonneg_right (by norm_num)
  mean_nil := fun _ => rfl
  mean_mul := fun h => absurd rfl h

theorem KeepsTail.max_step (h : KeepsTail x xs c) :
    (c.record (xs.length + 1) y).max ∈ x :: (xs ++ [y]) ∧
      ∀ z ∈ x :: (xs ++ [y]), z ≤ (c.record (xs.length + 1) y).max + 1 / 10 := by
  simp only [TailCell.record, if_neg (Nat.succ_ne_zero xs.length), ← cons_append,
    mem_append, mem_singleton]
  split_ifs with hy
  · refine ⟨.inr rfl, ?_⟩
    rintro z (hz | rfl)
    · have := h.le_max z hz
      linarith
    · exact le_add_of_nonneg_right (by norm_num)
  · refine ⟨.inl h.max_mem, ?_⟩
    rintro z (hz | rfl)
    · exact h.le_max z hz
    · linarith

theorem KeepsTail.min_step (h : KeepsTail x xs c) (hpos : 0 ≤ y) :
    (c.record (xs.length + 1) y).min ∈ x :: (xs ++ [y]) ∧
      ∀ z ∈ x :: (xs ++ [y]), (c.record (xs.length + 1) y).min ≤ z + 1 / 10 := by
  simp only [TailCell.record, if_neg (Nat.succ_ne_zero xs.length), ← cons_append,
    mem_append, mem_singleton, hpos, and_true]
  split_ifs with hy
  · refine ⟨.inr rfl, ?_⟩
    rintro z (hz | rfl)
    · have := h.min_le z hz
      linarith
    · exact le_add_of_nonneg_right (by norm_num)
  · refine ⟨.inl h.min_mem, ?_⟩
    rintro z (hz | rfl)
    · exact h.min_le z hz
    · linarith

theorem KeepsTail.mean_step (h : KeepsTail x xs c) (hpos : 0 ≤ y) :
    ((xs ++ [y]).length : ℚ) * (c.record (xs.length + 1) y).mean = (xs ++ [y]).sum := by
  -- the weight of the mean so far is 0 for the first value
  have hmean : (xs.length : ℚ) * c.mean = xs.sum := by
    by_cases hxs : xs = []
    · rw [hxs, length_nil, sum_nil, Nat.cast_zero, zero_mul]
    · exact h.mean_mul hxs
  have hne : (xs.length : ℚ) + 1 ≠ 0 := Nat.cast_add_one_ne_zero _
  simp only [TailCell.record, if_neg (Nat.succ_ne_zero xs.length), if_pos hpos, length_append,
    length_singleton, sum_append, sum_singleton, Nat.cast_add, Nat.cast_one,
    add_sub_cancel_right, hmean]
  exact mul_div_cancel₀ _ hne

theorem KeepsTail.step (h : KeepsTail x xs c) (hpos : 0 ≤ y) :
    KeepsTail x (xs ++ [y]) (c.record (xs.length + 1) y) where
  max_mem := h.max_step.1
  le_max := h.max_step.2
  min_mem := (h.min_step hpos).1
  min_le := (h.min_step hpos).2
  mean_nil := fun hnil => absurd hnil (append_ne_nil_of_right_ne_nil _ (cons_ne_nil _ _))
  mean_mul := fun _ => h.mean_step hpos

end Step

section Run

variable (conf : Conf ℚ) {k : ℕ} {t : Tail}

theorem cell_setStRecord {m : Module ℚ} (hk : k < m.nItem * m.nCol) (t : Tail) :
    (setStRecord conf m t).2.cell k =
      (t.cell k).record t.nRecord ((m.setSt conf).stArray k) := if_pos hk

theorem keepsTail_tailRun (m : Module ℚ) (ms : List (Module ℚ))
    (hk : ∀ m' ∈ m :: ms, k < m'.nItem * m'.nCol) (hpos : ∀ y ∈ column conf ms k, 0 ≤ y)
    (ht : t.nRecord = 0) :
    KeepsTail ((m.setSt conf).stArray k) (column conf ms k)
      ((tailRun conf (m :: ms) t).cell k) := by
  induction ms using reverseRecOn with
  | nil =>
    have hrun : tailRun conf [m] t = (setStRecord conf m t).2 := rfl
    rw [hrun, cell_setStRecord conf (hk m mem_cons_self), ht]
    exact keepsTail_first _ _
  | append_singleton ms m' ih =>
    have hcol : column conf (ms ++ [m']) k = column conf ms k ++ [(m'.setSt conf).stArray k] :=
      map_append
    have hlen : (tailRun conf (m :: ms) t).nRecord = (column conf ms k).length + 1 := by
      rw [tailRun_nRecord, ht, column, length_map, length_cons, Nat.zero_add]
    rw [hcol, forall_mem_append, forall_mem_singleton] at hpos
    rw [← cons_append, forall_mem_append, forall_mem_singleton] at hk
    rw [← cons_append, tailRun_concat, cell_setStRecord conf hk.2, hlen, hcol]
    exact (ih hk.1 hpos.1).step hpos.2

end Run

structure IsTail (xs : List ℚ) (hne : xs ≠ []) (c : TailCell) : Prop where
  mean : c.mean = xs.sum / xs.length
  max : |c.max - xs.max hne| ≤ 1 / 10
  min : |c.min - xs.min hne| ≤ 1 / 10

namespace KeepsTail

variable {x : ℚ} {xs : List ℚ} {c : TailCell}

theorem abs_max (h : KeepsTail x xs c) (hne : x :: xs ≠ []) :
    |c.max - (x :: xs).max hne| ≤ 1 / 10 := by
  have hle := h.le_max _ (List.max_mem hne)
  have hge := le_max_of_mem h.max_mem
  rw [abs_le]
  constructor <;> linarith

theorem abs_min (h : KeepsTail x xs c) (hne : x :: xs ≠ []) :
    |c.min - (x :: xs).min hne| ≤ 1 / 10 := by
  have hle := h.min_le _ (List.min_mem hne)
  have hge := min_le_of_mem h.min_mem
  rw [abs_le]
  constructor <;> linarith

theorem mean_iff (h : KeepsTail x xs c) :
    c.mean = (x :: xs).sum / (x :: xs).length ↔ xs.length * x = xs.sum := by
  by_cases hxs : xs = []
  · subst hxs
    simp [h.mean_nil rfl]
  · have hmul := h.mean_mul hxs
    have hlen : (xs.length : ℚ) ≠ 0 := by simpa using hxs
    have hlen' : (xs.length : ℚ) + 1 ≠ 0 := Nat.cast_add_one_ne_zero _
    rw [sum_cons, length_cons, Nat.cast_add, Nat.cast_one, eq_div_iff hlen', ← hmul]
    constructor
    · intro heq
      have hx : c.mean = x := by linarith
      rw [hx]
    · intro heq
      have hx : x = c.mean := mul_left_cancel₀ hlen heq
      rw [hx]
      ring

end KeepsTail

theorem tailRun_isTail_iff (conf : Conf ℚ) {m : Module ℚ} {ms : List (Module ℚ)} {k : ℕ} {t : Tail}
    (hk : ∀ m' ∈ m :: ms, k < m'.nItem * m'.nCol)
    (hpos : ∀ y ∈ column conf (m :: ms) k, 0 ≤ y) (ht : t.nRecord = 0) :
    IsTail (column conf (m :: ms) k) (cons_ne_nil _ _) ((tailRun conf (m :: ms) t).cell k) ↔
      ms.length * (m.setSt conf).stArray k = (column conf ms k).sum := by
  have hkeep := keepsTail_tailRun conf m ms hk
    (fun y hy => hpos y (mem_cons_of_mem _ hy)) ht
  have hlen : (column conf ms k).length = ms.length := length_map _
  rw [← hlen, ← hkeep.mean_iff]
  exact ⟨fun h => h.mean, fun h => ⟨h, hkeep.abs_max _, hkeep.abs_min _⟩⟩

def tailSample (v : UInt64) : Module ℚ where
  record := []
  enable := true
  info := [⟨.null, .null⟩]
  nItem := 1
  preFlag := true
  stFlag := true
  cap := 1
  preArray := fun _ => 0
  curArray := fun _ => v
  stArray := fun _ => 0
  setStRecord := none

def ratConf : Conf ℚ where
  printMerge := false
  printInterval := 1
  toDouble := fun v => v.toNat
  heap := fun _ => 0
  heapDouble := fun _ => 0

def Tail.init : Tail := ⟨0, fun _ => ⟨0, 0, 0⟩⟩

theorem tailRun_isTail_one_zero_two :
    IsTail (column ratConf [tailSample 1, tailSample 0, tailSample 2] 0) (cons_ne_nil _ _)
      ((tailRun ratConf [tailSample 1, tailSample 0, tailSample 2] .init).cell 0) := by
  refine (tailRun_isTail_iff ratConf ?_ ?_ rfl).mpr ?_
  · decide
  · decide
  · decide +kernel

theorem tailRun_mean_three_zero :
    ((tailRun ratConf [tailSample 3, tailSample 0] .init).cell 0).mean = 0 ∧
      (column ratConf [tailSample 3, tailSample 0] 0).sum / 2 = 3 / 2 := by
  decide +kernel

end Sysak.Mservice
