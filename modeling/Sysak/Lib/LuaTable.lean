/-
# Lua tables as lists
-/

import Mathlib.Data.List.Perm.Subperm

namespace Sysak.Lib

open List

section Sequence

variable {α : Type*}

def luaPut (t : List α) (c : ℕ) (v : α) : List α :=
  if c ≤ t.length then t.set (c - 1) v else t ++ [v]

def luaPutFrom (t : List α) (c : ℕ) : List α → List α
  | [] => t
  | v :: vs => luaPutFrom (luaPut t (c + 1) v) (c + 1) vs

theorem luaPut_append (a b : List α) (v : α) :
    luaPut (a ++ b) (a.length + 1) v = (a ++ [v]) ++ b.drop 1 := by
  cases b with
  | nil =>
    rw [append_nil, luaPut, if_neg (Nat.not_succ_le_self _), drop_nil, append_nil]
  | cons x b => simp [luaPut]

theorem luaPutFrom_append (vs : List α) : ∀ a b : List α,
    luaPutFrom (a ++ b) a.length vs = a ++ vs ++ b.drop vs.length := by
  induction vs with
  | nil =>
    intro a b
    simp [luaPutFrom]
  | cons v vs ih =>
    intro a b
    have hnext := ih (a ++ [v]) (b.drop 1)
    rw [length_append, length_singleton, drop_drop] at hnext
    rw [luaPutFrom, luaPut_append, hnext, length_cons, Nat.add_comm 1, ← append_cons]

theorem luaPutFrom_length (t vs : List α) : luaPutFrom t t.length vs = t ++ vs := by
  simpa using luaPutFrom_append vs t []

theorem luaPutFrom_zero (t vs : List α) : luaPutFrom t 0 vs = vs ++ t.drop vs.length :=
  luaPutFrom_append vs [] t

end Sequence

section Keys

variable {α : Type*}

def luaSet (t : List (String × α)) (p : String × α) : List (String × α) :=
  if t.any fun q => q.1 == p.1 then t.map fun q => if q.1 == p.1 then p else q else t ++ [p]

def luaTable (ps : List (String × α)) : List (String × α) := ps.foldl luaSet []

end Keys

section Assign

variable {κ α : Type*} [BEq κ]

def luaAssign (t : List (κ × α)) (k : κ) : Option α → List (κ × α)
  | some v => (k, v) :: t.filter fun q => q.1 != k
  | none => t.filter fun q => q.1 != k

variable {t : List (κ × α)} {k k' : κ}

theorem length_luaAssign_le (v : Option α) :
    (luaAssign t k v).length ≤ t.length + v.toList.length := by
  have hfilter := length_filter_le (fun q : κ × α => q.1 != k) t
  cases v with
  | none => exact hfilter
  | some v => exact Nat.succ_le_succ hfilter

variable [LawfulBEq κ]

theorem lookup_eq_none_of_notMem (hk : k ∉ t.map Prod.fst) : t.lookup k = none := by
  rw [lookup_eq_none_iff]
  intro q hq
  rw [bne_iff_ne]
  rintro rfl
  exact hk (mem_map_of_mem hq)

theorem lookup_filter_self : (t.filter fun q => q.1 != k).lookup k = none := by
  refine lookup_eq_none_of_notMem fun hk => ?_
  obtain ⟨q, hq, rfl⟩ := mem_map.mp hk
  exact absurd (mem_filter.mp hq).2 (by simp)

theorem lookup_filter_of_ne (hne : k' ≠ k) :
    (t.filter fun q => q.1 != k).lookup k' = t.lookup k' := by
  induction t with
  | nil => rfl
  | cons q t ih =>
    rw [filter_cons, lookup_cons]
    split_ifs with hq
    · rw [lookup_cons, ih]
    · have hk : q.1 = k := by simpa using hq
      have hbeq : (k' == q.1) = false := by
        rw [hk]
        exact beq_eq_false_iff_ne.mpr hne
      rw [hbeq, ih]

@[simp] theorem lookup_luaAssign_self (v : Option α) : (luaAssign t k v).lookup k = v := by
  cases v with
  | none => exact lookup_filter_self
  | some v => exact lookup_cons_self

theorem lookup_luaAssign_of_ne (hne : k' ≠ k) (v : Option α) :
    (luaAssign t k v).lookup k' = t.lookup k' := by
  cases v with
  | none => exact lookup_filter_of_ne hne
  | some v =>
    rw [luaAssign, lookup_cons, beq_eq_false_iff_ne.mpr hne]
    exact lookup_filter_of_ne hne

theorem length_le_of_lookup {ks : List κ} (hks : ks.Nodup)
    (h : ∀ k ∈ ks, t.lookup k ≠ none) : ks.length ≤ t.length := by
  have hsub : ks ⊆ t.map Prod.fst := by
    intro k hk
    by_contra hnot
    exact h k hk (lookup_eq_none_of_notMem hnot)
  simpa using (subperm_of_subset hks hsub).length_le

theorem lookup_foldl_luaAssign {ps : List (κ × α)} (hps : (ps.map Prod.fst).Nodup) (k : κ) :
    (ps.foldl (fun t p => luaAssign t p.1 (some p.2)) t).lookup k =
      (ps.lookup k).or (t.lookup k) := by
  induction ps generalizing t with
  | nil => rfl
  | cons p ps ih =>
    obtain ⟨hp, hps⟩ := nodup_cons.mp hps
    rw [foldl_cons, ih hps, lookup_cons]
    by_cases hk : k = p.1
    · rw [hk, lookup_eq_none_of_notMem hp, lookup_luaAssign_self, beq_self_eq_true]
      rfl
    · rw [lookup_luaAssign_of_ne hk, beq_eq_false_iff_ne.mpr hk]

end Assign

end Sysak.Lib
