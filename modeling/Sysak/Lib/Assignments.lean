/-
# A table after many assignments
-/

import Mathlib.Data.List.Induction
import Sysak.Lib.LuaTable

namespace Sysak.Lib

open List

variable {κ α : Type*} [BEq κ] [LawfulBEq κ]

theorem lookup_foldl_assign (ws t : List (κ × α)) (k : κ) :
    (ws.foldl (fun t p => luaAssign t p.1 (some p.2)) t).lookup k =
      (ws.reverse.lookup k).or (t.lookup k) := by
  induction ws using reverseRecOn with
  | nil => rfl
  | append_singleton ws w ih =>
    rw [foldl_append, foldl_cons, foldl_nil, reverse_append,
      reverse_singleton, singleton_append, lookup_cons]
    by_cases hk : k = w.1
    · rw [hk, lookup_luaAssign_self, beq_self_eq_true]
      rfl
    · rw [lookup_luaAssign_of_ne hk, ih, beq_eq_false_iff_ne.mpr hk]

omit [BEq κ] [LawfulBEq κ] in
structure Leaves (ws rs : List (κ × α)) : Prop where
  functional : ∀ {k v v'}, (k, v) ∈ rs → (k, v') ∈ rs → v = v'
  written : ∀ r ∈ rs, ∃ w ∈ ws, w.1 = r.1
  last : ∀ a w b, ws = a ++ w :: b → w ∈ rs ∨ ∃ w' ∈ b, w'.1 = w.1

theorem lookup_reverse_iff {ws rs : List (κ × α)} :
    (∀ k v, ws.reverse.lookup k = some v ↔ (k, v) ∈ rs) ↔ Leaves ws rs := by
  constructor
  · intro h
    refine ⟨fun hv hv' => ?_, fun r hr => ?_, fun a w b heq => ?_⟩
    · exact Option.some.inj (((h _ _).mpr hv).symm.trans ((h _ _).mpr hv'))
    · obtain ⟨l, l', heq, -⟩ := lookup_eq_some_iff.mp ((h r.1 r.2).mpr hr)
      exact ⟨r, mem_reverse.mp (by rw [heq]; simp), rfl⟩
    · by_cases hlater : ∃ w' ∈ b, w'.1 = w.1
      · exact .inr hlater
      · refine .inl ((h w.1 w.2).mp (lookup_eq_some_iff.mpr ⟨b.reverse, a.reverse, ?_, ?_⟩))
        · rw [heq]
          simp
        · intro p hp
          rw [bne_iff_ne]
          exact fun hpw => hlater ⟨p, mem_reverse.mp hp, hpw.symm⟩
  · intro h k v
    have hmem : ∀ v, ws.reverse.lookup k = some v → (k, v) ∈ rs := by
      intro v hv
      obtain ⟨l, l', heq, hl⟩ := lookup_eq_some_iff.mp hv
      have hws : ws = l'.reverse ++ (k, v) :: l.reverse := by
        rw [← reverse_reverse ws, heq]
        simp
      rcases h.last _ _ _ hws with hrs | ⟨w', hw', hk⟩
      · exact hrs
      · exact absurd hk.symm (bne_iff_ne.mp (hl w' (mem_reverse.mp hw')))
    refine ⟨hmem v, fun hv => ?_⟩
    obtain ⟨w, hw, hkw⟩ := h.written _ hv
    cases hlook : ws.reverse.lookup k with
    | none =>
      have hnot := lookup_eq_none_iff.mp hlook w (mem_reverse.mpr hw)
      exact absurd hkw.symm (bne_iff_ne.mp hnot)
    | some v' => rw [h.functional (hmem v' hlook) hv]

end Sysak.Lib
