/-
# Ledgers
-/

import Mathlib.Data.List.Count
import Mathlib.Data.List.Induction

namespace Sysak.Lib

open List Option

inductive Act (α : Type*) where
  | acquire (a : α)
  | release (a : α)
deriving DecidableEq

variable {α : Type*} [DecidableEq α]

def Act.step (a : α) : Option Bool → Act α → Option Bool
  | none, _ => none
  | some b, .acquire a' => if a' = a then (if b then none else some true) else some b
  | some b, .release a' => if a' = a then (if b then some false else none) else some b

def held (log : List (Act α)) (a : α) : Option Bool := log.foldl (Act.step a) (some false)

theorem held_append (log : List (Act α)) (act : Act α) (a : α) :
    held (log ++ [act]) a = Act.step a (held log a) act := by
  rw [held, foldl_append]
  rfl

variable {log : List (Act α)} {a : α}

theorem held_acquire {f : α → Bool} (h : ∀ a, held log a = some (f a)) (ha : f a = false) (a' : α) :
    held (log ++ [.acquire a]) a' = some (Function.update f a true a') := by
  rw [held_append, h, Act.step, Function.update_apply]
  by_cases heq : a = a'
  · subst heq
    simp [ha]
  · rw [if_neg heq, if_neg (Ne.symm heq)]

theorem held_release {f : α → Bool} (h : ∀ a, held log a = some (f a)) (ha : f a = true) (a' : α) :
    held (log ++ [.release a]) a' = some (Function.update f a false a') := by
  rw [held_append, h, Act.step, Function.update_apply]
  by_cases heq : a = a'
  · subst heq
    simp [ha]
  · rw [if_neg heq, if_neg (Ne.symm heq)]

theorem count_acquire_eq : ∀ {b : Bool}, held log a = some b →
    log.count (.acquire a) = log.count (.release a) + b.toNat := by
  induction log using reverseRecOn with
  | nil =>
    intro b h
    obtain rfl := some.inj h
    rfl
  | append_singleton log act ih =>
    intro b h
    rw [held_append] at h
    cases hb : held log a with
    | none =>
      rw [hb] at h
      exact absurd h (by simp [Act.step])
    | some b₀ =>
      have ih := ih hb
      rw [hb] at h
      rw [count_append, count_append]
      cases act with
      | acquire a' =>
        rw [Act.step] at h
        split_ifs at h with heq hheld
        · obtain rfl := some.inj h
          subst heq
          simp [ih, hheld]
        · obtain rfl := some.inj h
          simp [ih, heq]
      | release a' =>
        rw [Act.step] at h
        split_ifs at h with heq hheld
        · obtain rfl := some.inj h
          subst heq
          simp [ih, hheld]
        · obtain rfl := some.inj h
          simp [ih, heq]

end Sysak.Lib
