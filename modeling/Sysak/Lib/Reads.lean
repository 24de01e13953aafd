/-
# Reading in a loop
-/

import Mathlib.Data.List.Basic

namespace Sysak.Lib

open List Option

variable {α β : Type*} {stop : List α → Bool} {p : List α → Option (β × List α)}
  {R : List α → List α → Prop} {s r e : List α}

theorem foldlM_keeps {f : β → α → Option β} {P : β → Prop}
    (h : ∀ b a b', f b a = some b' → P b → P b') {l : List α} :
    ∀ {b b' : β}, l.foldlM f b = some b' → P b → P b' := by
  induction l with
  | nil => exact fun hrun hb => some.inj hrun ▸ hb
  | cons a l ih =>
    intro b b' hrun hb
    obtain ⟨b₁, hstep, hrun⟩ := bind_eq_some_iff.mp hrun
    exact ih hrun (h _ _ _ hstep hb)

def Reads (p : List α → Option (β × List α)) (R : List α → List α → Prop) : Prop :=
  ∀ s r, (∃ o, p s = some (o, r)) ↔ R s r

def readLoop (stop : List α → Bool) (p : List α → Option (β × List α)) :
    ℕ → List α → Option (List β × List α)
  | 0, s => if stop s then some ([], s) else none
  | n + 1, s => if stop s then some ([], s) else
      (p s).bind fun (o, r) => (readLoop stop p n r).map fun (os, e) => (o :: os, e)

inductive Leads (stop : List α → Bool) (R : List α → List α → Prop) : List α → List α → Prop
  | here {s : List α} : stop s → Leads stop R s s
  | next {s r e : List α} : ¬stop s → R s r → Leads stop R r e → Leads stop R s e

theorem leads_of_stop (h : stop s) : Leads stop R s e ↔ s = e := by
  constructor
  · rintro (- | ⟨h', -, -⟩)
    · rfl
    · exact absurd h h'
  · rintro rfl
    exact .here h

theorem leads_of_not_stop (h : ¬stop s) : Leads stop R s e ↔ ∃ r, R s r ∧ Leads stop R r e := by
  constructor
  · rintro (h' | ⟨-, hr, he⟩)
    · exact absurd h' h
    · exact ⟨_, hr, he⟩
  · rintro ⟨r, hr, he⟩
    exact .next h hr he

theorem Reads.loop_iff (hp : Reads p R) (hR : ∀ s r, R s r → r.length < s.length) {n : ℕ} :
    s.length ≤ n → ((∃ os, readLoop stop p n s = some (os, e)) ↔ Leads stop R s e) := by
  induction n generalizing s with
  | zero =>
    intro hs
    by_cases h : stop s
    · simp [readLoop, h, leads_of_stop]
    · simp only [readLoop, if_neg h, leads_of_not_stop h, reduceCtorEq, exists_false, false_iff]
      rintro ⟨r, hr, -⟩
      exact absurd (hR _ _ hr) (by omega)
  | succ n ih =>
    intro hs
    by_cases h : stop s
    · simp [readLoop, h, leads_of_stop]
    · rw [readLoop, if_neg h, leads_of_not_stop h]
      constructor
      · rintro ⟨os, hos⟩
        obtain ⟨⟨o, r⟩, ho, hos⟩ := bind_eq_some_iff.mp hos
        obtain ⟨⟨os', e'⟩, hos', heq⟩ := map_eq_some_iff.mp hos
        obtain ⟨-, rfl⟩ := Prod.mk.inj heq
        have hr : R s r := (hp s r).mp ⟨o, ho⟩
        exact ⟨r, hr, (ih (by have := hR s r hr; omega)).mp ⟨os', hos'⟩⟩
      · rintro ⟨r, hr, he⟩
        obtain ⟨o, ho⟩ := (hp s r).mpr hr
        obtain ⟨os, hos⟩ := (ih (by have := hR s r hr; omega)).mpr he
        exact ⟨o :: os, by simp only [ho, hos, bind_some, map_some]⟩

end Sysak.Lib
