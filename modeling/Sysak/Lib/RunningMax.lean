/-
# A running maximum
-/

import Mathlib.Data.List.MinMax

namespace Sysak.Lib

open List Option

variable {α β γ : Type*} [LinearOrder α]

def runningMax (key : β → α) (f : γ → β) (b : β) (l : List γ) : β :=
  l.foldl (fun b x => if key b < key (f x) then f x else b) b

theorem runningMax_concat (key : β → α) (f : γ → β) (b : β) (l : List γ) (a : γ) :
    runningMax key f b (l ++ [a]) =
      if key (runningMax key f b l) < key (f a) then f a else runningMax key f b l := by
  unfold runningMax
  rw [foldl_append]
  rfl

theorem runningMax_cases (key : β → α) (f : γ → β) (b : β) (l : List γ) :
    ((∀ x ∈ l, key (f x) ≤ key b) ∧ runningMax key f b l = b) ∨
      ∃ m ∈ l.argmax (key ∘ f), key b < key (f m) ∧ runningMax key f b l = f m := by
  induction l using reverseRecOn with
  | nil => exact Or.inl ⟨fun _ hx => absurd hx not_mem_nil, rfl⟩
  | append_singleton l a ih =>
    rw [runningMax_concat, argmax_concat]
    rcases ih with ⟨hle, hrun⟩ | ⟨m, hm, hlt, hrun⟩
    · rw [hrun]
      by_cases ha : key b < key (f a)
      · refine Or.inr ⟨a, ?_, ha, if_pos ha⟩
        cases hmax : l.argmax (key ∘ f) with
        | none => exact mem_some_self a
        | some c =>
          have hc : (key ∘ f) c < (key ∘ f) a :=
            (hle c (argmax_mem hmax)).trans_lt ha
          simp only [if_pos hc]
          exact mem_some_self a
      · refine Or.inl ⟨fun x hx => ?_, if_neg ha⟩
        rcases mem_append.mp hx with hx | hx
        · exact hle x hx
        · rw [mem_singleton.mp hx]
          exact not_lt.mp ha
    · rw [hrun, mem_def.mp hm]
      dsimp only
      by_cases ha : key (f m) < key (f a)
      · exact Or.inr ⟨a, by rw [if_pos (show (key ∘ f) m < (key ∘ f) a from ha)]; rfl,
          hlt.trans ha, if_pos ha⟩
      · exact Or.inr ⟨m, by rw [if_neg (show ¬ (key ∘ f) m < (key ∘ f) a from ha)]; rfl, hlt,
          if_neg ha⟩

end Sysak.Lib
