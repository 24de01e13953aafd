/-
# Differences between a sample and the one before
-/

import Mathlib.Data.List.Induction
import Mathlib.Data.List.Nodup
import Sysak.Lib.LuaTable

namespace Sysak.Lib

open List

section Lookup

variable {κ α β : Type*} [BEq κ]

def keptRows (g : α → β) (rows : List (κ × α)) : List (κ × β) := rows.map fun r => (r.1, g r.2)

omit [BEq κ] in
theorem map_fst_keptRows (g : α → β) (rows : List (κ × α)) :
    (keptRows g rows).map Prod.fst = rows.map Prod.fst := by
  rw [keptRows, map_map]
  rfl

theorem lookup_keptRows (g : α → β) (rows : List (κ × α)) (k : κ) :
    (keptRows g rows).lookup k = (rows.lookup k).map g := by
  induction rows with
  | nil => rfl
  | cons r rows ih =>
    rw [keptRows, map_cons, lookup_cons, lookup_cons, ← keptRows, ih]
    cases k == r.1 <;> rfl

variable [LawfulBEq κ]

theorem lookup_filter_key (p : κ → Bool) (t : List (κ × α)) (k : κ) :
    (t.filter fun q => p q.1).lookup k = if p k then t.lookup k else none := by
  induction t with
  | nil => simp
  | cons q t ih =>
    rw [filter_cons, lookup_cons]
    by_cases hk : k = q.1
    · rw [← hk, beq_self_eq_true]
      split_ifs with hp
      · rw [lookup_cons, ← hk, beq_self_eq_true]
      · rw [ih, if_neg hp]
    · rw [beq_eq_false_iff_ne.mpr hk]
      split_ifs with hq hp hp
      · rw [lookup_cons, beq_eq_false_iff_ne.mpr hk, ih, if_pos hp]
      · rw [lookup_cons, beq_eq_false_iff_ne.mpr hk, ih, if_neg hp]
      · rw [ih, if_pos hp]
      · rw [ih, if_neg hp]

theorem lookup_eq_some_iff_mem {t : List (κ × α)} (ht : (t.map Prod.fst).Nodup) {k : κ} {v : α} :
    t.lookup k = some v ↔ (k, v) ∈ t := by
  induction t with
  | nil => simp
  | cons q t ih =>
    obtain ⟨hq, ht⟩ := nodup_cons.mp ht
    rw [lookup_cons, mem_cons]
    by_cases hk : k = q.1
    · subst hk
      rw [beq_self_eq_true]
      constructor
      · intro h
        exact .inl (by rw [← Option.some.inj h])
      · rintro (h | h)
        · exact congrArg some (congrArg Prod.snd h).symm
        · exact absurd (mem_map_of_mem h) hq
    · rw [beq_eq_false_iff_ne.mpr hk]
      constructor
      · exact fun h => .inr ((ih ht).mp h)
      · rintro (h | h)
        · exact absurd (congrArg Prod.fst h) hk
        · exact (ih ht).mpr h

end Lookup

structure SampleDiff (κ β : Type*) where
  last : List (κ × β)
  met : List (κ × Unit)

namespace SampleDiff

variable {κ β γ : Type*} [BEq κ]

def empty : SampleDiff κ β := ⟨[], []⟩

def row (f : κ → β → β → γ) (acc : SampleDiff κ β × List γ) (r : κ × β) :
    SampleDiff κ β × List γ :=
  (⟨luaAssign acc.1.last r.1 (some r.2), luaAssign acc.1.met r.1 (some ())⟩,
    acc.2 ++ ((acc.1.last.lookup r.1).map (f r.1 r.2)).toList)

def prune (s : SampleDiff κ β) : SampleDiff κ β :=
  ⟨s.last.filter fun q => (s.met.lookup q.1).isSome, []⟩

def sample (f : κ → β → β → γ) (s : SampleDiff κ β) (rows : List (κ × β)) :
    SampleDiff κ β × List γ :=
  let acc := rows.foldl (row f) (s, [])
  (acc.1.prune, acc.2)

def differences (f : κ → β → β → γ) (prev rows : List (κ × β)) : List γ :=
  rows.filterMap fun r => (prev.lookup r.1).map (f r.1 r.2)

structure Follows (prev : List (κ × β)) (s : SampleDiff κ β) : Prop where
  last : ∀ k, s.last.lookup k = prev.lookup k
  met : s.met = []

theorem follows_empty : Follows [] (empty : SampleDiff κ β) := ⟨fun _ => rfl, rfl⟩

variable {f : κ → β → β → γ} {s : SampleDiff κ β} {prev rows : List (κ × β)}

theorem nodup_differences {δ : Type*} (hrows : (rows.map Prod.fst).Nodup) {key : γ → δ}
    (name : κ → δ) (hname : Function.Injective name) (hkey : ∀ k v w, key (f k v w) = name k) :
    ((differences f prev rows).map key).Nodup := by
  refine (Nodup.map hname hrows).sublist ?_
  clear hrows
  induction rows with
  | nil => exact nil_sublist _
  | cons r rows ih =>
    rw [differences, filterMap_cons]
    cases prev.lookup r.1 with
    | none => exact ih.cons (name r.1)
    | some w =>
      rw [Option.map_some, map_cons, hkey]
      exact ih.cons_cons (name r.1)

variable [LawfulBEq κ]

theorem foldl_row (hrows : (rows.map Prod.fst).Nodup) (out : List γ) :
    (∀ k, (rows.foldl (row f) (s, out)).1.last.lookup k =
      (rows.lookup k).or (s.last.lookup k)) ∧
    (∀ k, ((rows.foldl (row f) (s, out)).1.met.lookup k).isSome =
      ((rows.lookup k).isSome || (s.met.lookup k).isSome)) ∧
    (rows.foldl (row f) (s, out)).2 = out ++ differences f s.last rows := by
  induction rows generalizing s out with
  | nil => exact ⟨fun _ => rfl, fun _ => rfl, (append_nil out).symm⟩
  | cons r rows ih =>
    obtain ⟨hr, hrest⟩ := nodup_cons.mp hrows
    rw [foldl_cons]
    obtain ⟨hlast, hmet, hout⟩ := ih hrest (s := (row f (s, out) r).1) (row f (s, out) r).2
    refine ⟨fun k => ?_, fun k => ?_, ?_⟩
    · rw [hlast, lookup_cons]
      by_cases hk : k = r.1
      · rw [hk, lookup_eq_none_of_notMem hr, beq_self_eq_true, row, lookup_luaAssign_self]
        rfl
      · rw [beq_eq_false_iff_ne.mpr hk, row, lookup_luaAssign_of_ne hk]
    · rw [hmet, lookup_cons]
      by_cases hk : k = r.1
      · rw [hk, lookup_eq_none_of_notMem hr, beq_self_eq_true, row, lookup_luaAssign_self]
        rfl
      · rw [beq_eq_false_iff_ne.mpr hk, row, lookup_luaAssign_of_ne hk]
    · have hsame : differences f (luaAssign s.last r.1 (some r.2)) rows =
          differences f s.last rows := by
        refine filterMap_congr fun q hq => ?_
        have hne : q.1 ≠ r.1 := fun heq => hr (heq ▸ mem_map_of_mem hq)
        rw [lookup_luaAssign_of_ne hne]
      rw [hout, row, hsame, append_assoc]
      congr 1
      rw [differences, differences, filterMap_cons]
      cases (s.last.lookup r.1).map (f r.1 r.2) <;> rfl

theorem Follows.sample (h : Follows prev s) (hrows : (rows.map Prod.fst).Nodup) :
    (s.sample f rows).2 = differences f prev rows ∧ Follows rows (s.sample f rows).1 := by
  obtain ⟨hlast, hmet, hout⟩ := foldl_row (f := f) (s := s) hrows []
  refine ⟨?_, fun k => ?_, rfl⟩
  · rw [SampleDiff.sample, hout, nil_append]
    exact filterMap_congr fun r _ => by rw [h.last]
  · have hprune := lookup_filter_key
      (fun k => ((rows.foldl (row f) (s, [])).1.met.lookup k).isSome)
      (rows.foldl (row f) (s, [])).1.last k
    rw [hlast, hmet, h.met] at hprune
    refine hprune.trans ?_
    cases rows.lookup k <;> rfl

section Program

variable {S L ρ α : Type*} {g : α → β} {read : L → Option (κ × α)}

omit [LawfulBEq κ] in
theorem foldlM_row {stepLine : S → L → Option S} {view : S → SampleDiff κ β × List γ}
    (hstep : ∀ s l r, read l = some r → ∃ s', stepLine s l = some s' ∧
      view s' = row f (view s) (r.1, g r.2)) {lines : List L} {rows : List (κ × α)}
    (hread : lines.map read = rows.map some) (s : S) :
    ∃ s', lines.foldlM stepLine s = some s' ∧
      view s' = (keptRows g rows).foldl (row f) (view s) := by
  induction lines generalizing s rows with
  | nil =>
    cases rows with
    | nil => exact ⟨s, rfl, rfl⟩
    | cons r rows => cases hread
  | cons l lines ih =>
    cases rows with
    | nil => cases hread
    | cons r rows =>
      obtain ⟨hl, hlines⟩ := List.cons.inj hread
      obtain ⟨s₁, hfirst, hview⟩ := hstep s l r hl
      obtain ⟨s', hrest, hview'⟩ := ih hlines s₁
      refine ⟨s', ?_, ?_⟩
      · rw [foldlM_cons, hfirst]
        exact hrest
      · rw [hview', hview]
        rfl

theorem follows_foldlM (proc : S → ρ → Option (S × List γ)) (tables : S → SampleDiff κ β)
    {rows : ρ → List (κ × α)} {f : ρ → κ → β → β → γ} {init : S} (hinit : tables init = empty)
    (hrows : ∀ c, ((rows c).map Prod.fst).Nodup)
    (hproc : ∀ s c, ∃ s' out, proc s c = some (s', out) ∧
      (tables s', out) = (tables s).sample (f c) (keptRows g (rows c))) (history : List ρ) :
    ∃ s, history.foldlM (fun s c => (proc s c).map Prod.fst) init = some s ∧
      Follows (keptRows g ((history.getLast?.map rows).getD [])) (tables s) := by
  induction history using reverseRecOn with
  | nil =>
    refine ⟨init, rfl, ?_⟩
    rw [hinit]
    exact follows_empty
  | append_singleton history c ih =>
    obtain ⟨s, hrun, hfollows⟩ := ih
    obtain ⟨s', out, hs', heq⟩ := hproc s c
    refine ⟨s', ?_, ?_⟩
    · rw [foldlM_append, hrun, Option.bind_eq_bind, Option.bind_some, foldlM_cons, hs']
      rfl
    · have htables : tables s' = ((tables s).sample (f c) (keptRows g (rows c))).1 := by rw [← heq]
      rw [getLast?_concat, htables]
      refine (hfollows.sample ?_).2
      rw [map_fst_keptRows]
      exact hrows c

theorem mem_differences {prev rows : List (κ × α)} (hrows : (rows.map Prod.fst).Nodup) {x : γ} :
    x ∈ differences f (keptRows g prev) (keptRows g rows) ↔
      ∃ k v w, rows.lookup k = some v ∧ prev.lookup k = some w ∧ x = f k (g v) (g w) := by
  have hdiff : differences f (keptRows g prev) (keptRows g rows) =
      rows.filterMap fun r => (prev.lookup r.1).map fun w => f r.1 (g r.2) (g w) := by
    show filterMap _ (List.map _ rows) = _
    rw [filterMap_map]
    refine filterMap_congr fun r _ => ?_
    show ((keptRows g prev).lookup r.1).map _ = _
    rw [lookup_keptRows, Option.map_map]
    rfl
  rw [hdiff, mem_filterMap]
  constructor
  · rintro ⟨⟨k, v⟩, hr, hx⟩
    obtain ⟨w, hw, rfl⟩ := Option.map_eq_some_iff.mp hx
    exact ⟨k, v, w, (lookup_eq_some_iff_mem hrows).mpr hr, hw, rfl⟩
  · rintro ⟨k, v, w, hv, hw, rfl⟩
    exact ⟨(k, v), (lookup_eq_some_iff_mem hrows).mp hv, by rw [hw]; rfl⟩

end Program

end SampleDiff

end Sysak.Lib
