/-
# Nesting
-/

import Mathlib.Algebra.BigOperators.Group.List.Basic
import Mathlib.Algebra.Order.Ring.Int
import Mathlib.Data.List.Infix

namespace Sysak.Lib

open List
namespace Nesting

inductive Token where
  | opens
  | closes
  | item
deriving DecidableEq

def Token.weight : Token → ℤ
  | .opens => 1
  | .closes => -1
  | .item => 0

def depth (l : List Token) : ℤ := (l.map Token.weight).sum

structure Balanced (l : List Token) : Prop where
  total : depth l = 0
  initial : ∀ p, p <+: l → 0 ≤ depth p

def itemDepths : ℤ → List Token → List ℤ
  | _, [] => []
  | d, .item :: l => d :: itemDepths d l
  | d, .opens :: l => itemDepths (d + 1) l
  | d, .closes :: l => itemDepths (d - 1) l

def steps (a b : ℕ) : List Token := replicate (b - a) .opens ++ replicate (a - b) .closes

def path : ℕ → List ℕ → List Token
  | _, [] => []
  | a, b :: bs => steps a b ++ .item :: path b bs

def lastLevel (a : ℕ) (bs : List ℕ) : ℕ := bs.getLast?.getD a

def block (a : ℕ) (bs : List ℕ) : List Token :=
  .opens :: (path a bs ++ (replicate (lastLevel a bs - a) .closes ++ [.closes]))

@[simp]
theorem depth_nil : depth [] = 0 := rfl

@[simp]
theorem depth_cons (t : Token) (l : List Token) : depth (t :: l) = t.weight + depth l := rfl

@[simp]
theorem depth_append (l l' : List Token) : depth (l ++ l') = depth l + depth l' := by
  rw [depth, map_append, sum_append]
  rfl

@[simp]
theorem depth_replicate (n : ℕ) (t : Token) : depth (replicate n t) = n * t.weight := by
  rw [depth, map_replicate, sum_replicate, nsmul_eq_mul]

theorem depth_steps (a b : ℕ) : depth (steps a b) = (b : ℤ) - a := by
  simp only [steps, depth_append, depth_replicate, Token.weight]
  omega

theorem lastLevel_cons (a b : ℕ) (bs : List ℕ) : lastLevel a (b :: bs) = lastLevel b bs := by
  rw [lastLevel, getLast?_cons, Option.getD_some]
  rfl

theorem depth_path (a : ℕ) (bs : List ℕ) : depth (path a bs) = (lastLevel a bs : ℤ) - a := by
  induction bs generalizing a with
  | nil => simp [path, lastLevel]
  | cons b bs ih =>
    rw [path, depth_append, depth_cons, depth_steps, ih, lastLevel_cons, Token.weight]
    omega

def Above (d : ℤ) (l : List Token) : Prop := ∀ p, p <+: l → 0 ≤ d + depth p

variable {d : ℤ} {l : List Token}

theorem Above.start (h : Above d l) : 0 ≤ d := by
  simpa using h [] nil_prefix

theorem above_nil : Above d [] ↔ 0 ≤ d :=
  ⟨Above.start, fun h p hp => by simpa [prefix_nil.mp hp] using h⟩

theorem above_cons {t : Token} : Above d (t :: l) ↔ 0 ≤ d ∧ Above (d + t.weight) l := by
  constructor
  · refine fun h => ⟨h.start, fun p hp => ?_⟩
    have := h (t :: p) ((prefix_cons_inj t).mpr hp)
    rwa [depth_cons, ← add_assoc] at this
  · rintro ⟨hd, h⟩ p hp
    rcases prefix_cons_iff.mp hp with rfl | ⟨q, rfl, hq⟩
    · simpa using hd
    · rw [depth_cons, ← add_assoc]
      exact h q hq

theorem above_append {l l' : List Token} :
    Above d (l ++ l') ↔ Above d l ∧ Above (d + depth l) l' := by
  induction l generalizing d with
  | nil => simpa [above_nil] using Above.start
  | cons t l ih =>
    rw [cons_append, above_cons, above_cons, ih, depth_cons, add_assoc, and_assoc]

theorem above_replicate_opens (hd : 0 ≤ d) (n : ℕ) : Above d (replicate n .opens) := by
  induction n generalizing d with
  | zero => exact above_nil.mpr hd
  | succ n ih => exact above_cons.mpr ⟨hd, ih (show (0 : ℤ) ≤ d + 1 by omega)⟩

theorem above_replicate_closes {n : ℕ} (hd : n ≤ d) : Above d (replicate n .closes) := by
  induction n generalizing d with
  | zero => exact above_nil.mpr (by simpa using hd)
  | succ n ih =>
    push_cast at hd
    exact above_cons.mpr ⟨by omega, ih (show (n : ℤ) ≤ d + -1 by omega)⟩

theorem above_steps {c : ℤ} (hc : 0 ≤ c) (a b : ℕ) : Above (c + a) (steps a b) := by
  refine above_append.mpr ⟨above_replicate_opens (by omega) _, above_replicate_closes ?_⟩
  rw [depth_replicate, Token.weight]
  omega

theorem above_path {c : ℤ} (hc : 0 ≤ c) (a : ℕ) (bs : List ℕ) : Above (c + a) (path a bs) := by
  induction bs generalizing a with
  | nil => exact above_nil.mpr (by omega)
  | cons b bs ih =>
    refine above_append.mpr ⟨above_steps hc a b, above_cons.mpr ?_⟩
    have hb : c + (a : ℤ) + depth (steps a b) = c + b := by
      rw [depth_steps]
      omega
    rw [hb, Token.weight, add_zero]
    exact ⟨by omega, ih b⟩

theorem balanced_iff : Balanced l ↔ depth l = 0 ∧ Above 0 l := by
  refine ⟨fun h => ⟨h.total, fun p hp => ?_⟩, fun h => ⟨h.1, fun p hp => ?_⟩⟩
  · simpa using h.initial p hp
  · simpa using h.2 p hp

theorem balanced_block_iff {a : ℕ} (ha : a ≤ 1) (bs : List ℕ) :
    Balanced (block a bs) ↔ a ≤ lastLevel a bs := by
  have hdepth : depth (block a bs) =
      (lastLevel a bs : ℤ) - a - ((lastLevel a bs - a : ℕ) : ℤ) := by
    simp only [block, depth_cons, depth_append, depth_path, depth_replicate, depth_nil,
      Token.weight]
    omega
  rw [balanced_iff, hdepth]
  constructor
  · rintro ⟨htotal, -⟩
    omega
  · intro hle
    refine ⟨by omega, above_cons.mpr ⟨le_rfl, above_append.mpr ⟨?_, ?_⟩⟩⟩
    · have hpath := above_path (c := 1 - a) (by omega) a bs
      rwa [sub_add_cancel] at hpath
    · rw [depth_path, Token.weight]
      refine above_append.mpr ⟨above_replicate_closes (by omega), above_cons.mpr ⟨?_, ?_⟩⟩
      · rw [depth_replicate, Token.weight]
        omega
      · rw [above_nil, depth_replicate, Token.weight]
        omega

theorem itemDepths_append (d : ℤ) (l l' : List Token) :
    itemDepths d (l ++ l') = itemDepths d l ++ itemDepths (d + depth l) l' := by
  induction l generalizing d with
  | nil => simp [itemDepths]
  | cons t l ih =>
    cases t <;> simp [itemDepths, ih, Token.weight, add_assoc, sub_eq_add_neg]

theorem itemDepths_replicate {t : Token} (ht : t ≠ .item) (d : ℤ) (n : ℕ) :
    itemDepths d (replicate n t) = [] := by
  induction n generalizing d with
  | zero => rfl
  | succ n ih => cases t <;> first | exact absurd rfl ht | exact ih _

theorem itemDepths_path (c : ℤ) (a : ℕ) (bs : List ℕ) :
    itemDepths (c + a) (path a bs) = bs.map fun b : ℕ => c + (b : ℤ) := by
  induction bs generalizing a with
  | nil => rfl
  | cons b bs ih =>
    have hb : c + (a : ℤ) + depth (steps a b) = c + b := by
      rw [depth_steps]
      omega
    have hsteps : itemDepths (c + a) (steps a b) = [] := by
      rw [steps, itemDepths_append, itemDepths_replicate (by decide),
        itemDepths_replicate (by decide), append_nil]
    rw [path, itemDepths_append, hsteps, hb, itemDepths, ih]
    rfl

theorem itemDepths_block (a : ℕ) (bs : List ℕ) :
    itemDepths 0 (block a bs) = bs.map fun b : ℕ => 1 - (a : ℤ) + (b : ℤ) := by
  have hclose (d : ℤ) : itemDepths d [.closes] = [] := rfl
  have hpath := itemDepths_path (1 - a) a bs
  rw [sub_add_cancel] at hpath
  rw [block, itemDepths, zero_add, itemDepths_append, hpath, itemDepths_append,
    itemDepths_replicate (by decide), hclose, append_nil, append_nil]

end Nesting
end Sysak.Lib
