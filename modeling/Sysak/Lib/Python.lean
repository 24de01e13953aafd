/-
# Python's dictionaries, lists and exceptions
-/

import Mathlib.Data.List.Basic

namespace Sysak.Lib

open List

inductive PyError where
  | keyError
  | indexError
  | typeError
  | valueError
deriving DecidableEq, Repr

abbrev Py (α : Type) : Type := Except PyError α

variable {α β κ : Type}

theorem bind_eq_ok_iff {x : Py α} {f : α → Py β} {b : β} :
    (x >>= f) = .ok b ↔ ∃ a, x = .ok a ∧ f a = .ok b := by
  cases x with
  | error e =>
    constructor
    · intro h
      cases h
    · rintro ⟨a, h, -⟩
      cases h
  | ok a =>
    constructor
    · exact fun h => ⟨a, rfl, h⟩
    · rintro ⟨a', h, hf⟩
      cases h
      exact hf

theorem elim_eq_ok_iff {o : Option α} {e : PyError} {x : α} :
    o.elim (.error e) Except.ok = .ok x ↔ o = some x := by
  cases o with
  | none =>
    constructor
    · intro h
      cases h
    · intro h
      cases h
  | some y =>
    constructor
    · intro h
      cases h
      rfl
    · intro h
      cases h
      rfl

theorem foldlM_induction {f : β → α → Py β} {P : β → Prop} {l : List α}
    (hstep : ∀ b b', ∀ x ∈ l, P b → f b x = .ok b' → P b') : ∀ {b b' : β}, P b →
    l.foldlM f b = .ok b' → P b' := by
  induction l with
  | nil =>
    intro b b' hb h
    cases h
    exact hb
  | cons x l ih =>
    intro b b' hb h
    rw [foldlM_cons] at h
    obtain ⟨c, hc, h⟩ := bind_eq_ok_iff.mp h
    exact ih (fun b b' y hy => hstep b b' y (mem_cons_of_mem _ hy))
      (hstep b c x mem_cons_self hb hc) h

theorem exists_of_foldlM_eq_ok {f : β → α → Py β} {l : List α} : ∀ {b b' : β},
    l.foldlM f b = .ok b' → ∀ x ∈ l, ∃ c c', f c x = .ok c' := by
  induction l with
  | nil => exact fun _ x hx => by cases hx
  | cons x l ih =>
    intro b b' h y hy
    rw [foldlM_cons] at h
    obtain ⟨c, hc, h⟩ := bind_eq_ok_iff.mp h
    rcases mem_cons.mp hy with rfl | hy
    · exact ⟨b, c, hc⟩
    · exact ih h y hy

def pyIndex (l : List α) (i : ℕ) : Py α := (l[i]?).elim (.error .indexError) .ok

def pyUpdate (l : List α) (i : ℕ) (f : α → Py α) : Py (List α) := do
  let x ← pyIndex l i
  let y ← f x
  return l.set i y

theorem pyIndex_eq_ok_iff {l : List α} {i : ℕ} {x : α} : pyIndex l i = .ok x ↔ l[i]? = some x :=
  elim_eq_ok_iff

theorem pyUpdate_eq_ok_iff {l l' : List α} {i : ℕ} {f : α → Py α} :
    pyUpdate l i f = .ok l' ↔ ∃ x y, l[i]? = some x ∧ f x = .ok y ∧ l' = l.set i y := by
  rw [pyUpdate, bind_eq_ok_iff]
  constructor
  · rintro ⟨x, hx, h⟩
    obtain ⟨y, hy, h⟩ := bind_eq_ok_iff.mp h
    cases h
    exact ⟨x, y, pyIndex_eq_ok_iff.mp hx, hy, rfl⟩
  · rintro ⟨x, y, hx, hy, rfl⟩
    exact ⟨x, pyIndex_eq_ok_iff.mpr hx, bind_eq_ok_iff.mpr ⟨y, hy, rfl⟩⟩

section Dict

variable [BEq κ]

def pyGet (d : List (κ × α)) (k : κ) : Py α := (d.lookup k).elim (.error .keyError) .ok

def pySet : List (κ × α) → κ → α → List (κ × α)
  | [], k, v => [(k, v)]
  | p :: d, k, v => if p.1 == k then (k, v) :: d else p :: pySet d k v

def pySetdefault (d : List (κ × α)) (k : κ) (v : α) : List (κ × α) :=
  if (d.lookup k).isSome then d else pySet d k v

theorem pyGet_eq_ok_iff {d : List (κ × α)} {k : κ} {v : α} :
    pyGet d k = .ok v ↔ d.lookup k = some v :=
  elim_eq_ok_iff

variable [LawfulBEq κ]

theorem lookup_pySet_self (d : List (κ × α)) (k : κ) (v : α) :
    (pySet d k v).lookup k = some v := by
  induction d with
  | nil => exact lookup_cons_self
  | cons p d ih =>
    rw [pySet]
    split_ifs with h
    · exact lookup_cons_self
    · have hne : k ≠ p.1 := fun heq => h (heq ▸ beq_self_eq_true k)
      have hk : (k == p.1) = false := beq_eq_false_iff_ne.mpr hne
      rw [lookup_cons, hk]
      exact ih

theorem lookup_pySet_of_ne {k k' : κ} (hne : k' ≠ k) (d : List (κ × α)) (v : α) :
    (pySet d k v).lookup k' = d.lookup k' := by
  have hk : (k' == k) = false := beq_eq_false_iff_ne.mpr hne
  induction d with
  | nil =>
    rw [pySet, lookup_cons, hk]
  | cons p d ih =>
    rw [pySet]
    split_ifs with h
    · have hp : p.1 = k := beq_iff_eq.mp h
      rw [lookup_cons, lookup_cons, hp, hk]
    · rw [lookup_cons, lookup_cons, ih]

theorem lookup_pySetdefault_self {d : List (κ × α)} {k : κ} (h : d.lookup k = none) (v : α) :
    (pySetdefault d k v).lookup k = some v := by
  rw [pySetdefault, h]
  exact lookup_pySet_self d k v

theorem lookup_pySetdefault_of_ne {k k' : κ} (hne : k' ≠ k) (d : List (κ × α)) (v : α) :
    (pySetdefault d k v).lookup k' = d.lookup k' := by
  rw [pySetdefault]
  split_ifs
  · rfl
  · exact lookup_pySet_of_ne hne d v

theorem getD_lookup_pySet [DecidableEq κ] (d : List (κ × α)) (k k' : κ) (v w : α) :
    ((pySet d k v).lookup k').getD w = if k' = k then v else (d.lookup k').getD w := by
  split_ifs with h
  · rw [h, lookup_pySet_self, Option.getD_some]
  · rw [lookup_pySet_of_ne h]

theorem getD_lookup_pySetdefault [DecidableEq κ] (d : List (κ × α)) (k k' : κ) (v : α) :
    ((pySetdefault d k v).lookup k').getD v = (d.lookup k').getD v := by
  rw [pySetdefault]
  split_ifs with h
  · rfl
  · rw [getD_lookup_pySet]
    split_ifs with hk
    · rw [hk, Option.not_isSome_iff_eq_none.mp h, Option.getD_none]
    · rfl

end Dict

end Sysak.Lib
