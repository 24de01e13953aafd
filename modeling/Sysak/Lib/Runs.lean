/-
# Runs
-/

import Mathlib.Data.Nat.Count
import Mathlib.Algebra.GroupWithZero.Nat
import Mathlib.Algebra.BigOperators.Group.List.Basic

namespace Sysak.Lib
namespace Runs

open List

structure IsNext (p : ℕ → Prop) (start limit j : ℕ) : Prop where
  start_le : start ≤ j
  le_limit : j ≤ limit
  before : ∀ i, start ≤ i → i < j → ¬ p i
  here : j < limit → p j

structure IsRun (p : ℕ → Prop) (limit first len : ℕ) : Prop where
  pos : 0 < len
  le_limit : first + len ≤ limit
  inside : ∀ i, first ≤ i → i < first + len → p i
  left : first = 0 ∨ ¬ p (first - 1)
  right : first + len = limit ∨ ¬ p (first + len)

inductive RunsFrom (p : ℕ → Prop) (limit : ℕ) : ℕ → List (ℕ × ℕ) → Prop
  | done : RunsFrom p limit limit []
  | step {i stop next : ℕ} {rs : List (ℕ × ℕ)} (hi : i < limit)
      (hstop : IsNext (fun j => ¬ p j) i limit stop) (hnext : IsNext p stop limit next)
      (h : RunsFrom p limit next rs) : RunsFrom p limit i ((i, stop - i) :: rs)

def Begins (p : ℕ → Prop) (limit i : ℕ) : Prop :=
  i < limit → p i ∧ (i = 0 ∨ ¬ p (i - 1))

section RunsFrom

variable {p : ℕ → Prop} {limit i stop next : ℕ} {rs : List (ℕ × ℕ)}

theorem begins_of_isNext (h : IsNext p 0 limit i) : Begins p limit i := by
  intro hi
  refine ⟨h.here hi, ?_⟩
  rcases Nat.eq_zero_or_pos i with hz | hpos
  · exact .inl hz
  · exact .inr (h.before (i - 1) (Nat.zero_le _) (by omega))

theorem begins_next (hstop : IsNext (fun j => ¬ p j) i limit stop)
    (hnext : IsNext p stop limit next) : Begins p limit next := by
  intro hlt
  refine ⟨hnext.here hlt, .inr ?_⟩
  have hne : stop ≠ next := by
    rintro rfl
    exact hstop.here hlt (hnext.here hlt)
  have hle := hnext.start_le
  exact hnext.before (next - 1) (by omega) (by omega)

theorem lt_stop (hb : Begins p limit i) (hi : i < limit)
    (hstop : IsNext (fun j => ¬ p j) i limit stop) : i < stop := by
  refine Nat.lt_of_le_of_ne hstop.start_le ?_
  rintro rfl
  exact hstop.here hi (hb hi).1

theorem isRun_first (hb : Begins p limit i) (hi : i < limit)
    (hstop : IsNext (fun j => ¬ p j) i limit stop) : IsRun p limit i (stop - i) := by
  have hlt := lt_stop hb hi hstop
  have hend : i + (stop - i) = stop := Nat.add_sub_cancel' hlt.le
  refine ⟨by omega, ?_, fun j hj hj' => ?_, (hb hi).2, ?_⟩
  · rw [hend]
    exact hstop.le_limit
  · rw [hend] at hj'
    exact not_not.mp (hstop.before j hj hj')
  · rw [hend]
    rcases Nat.lt_or_eq_of_le hstop.le_limit with hlim | heq
    · exact .inr (hstop.here hlim)
    · exact .inl heq

theorem IsRun.len_eq {first len len' : ℕ} (h : IsRun p limit first len)
    (h' : IsRun p limit first len') : len = len' := by
  have hle : ∀ {l l' : ℕ}, IsRun p limit first l → IsRun p limit first l' → l ≤ l' := by
    intro l l' hl hl'
    by_contra hlt
    rcases hl'.right with heq | hno
    · have := hl.le_limit
      omega
    · exact hno (hl.inside _ (by omega) (by omega))
  exact Nat.le_antisymm (hle h h') (hle h' h)

theorem RunsFrom.mem_iff (h : RunsFrom p limit i rs) (hb : Begins p limit i) {first len : ℕ} :
    (first, len) ∈ rs ↔ IsRun p limit first len ∧ i ≤ first := by
  induction h with
  | done =>
    refine iff_of_false not_mem_nil ?_
    rintro ⟨hrun, hle⟩
    have hlim := hrun.le_limit
    have hpos := hrun.pos
    omega
  | @step i stop next rs hi hstop hnext _ ih =>
    have hrun := isRun_first hb hi hstop
    have hlt := lt_stop hb hi hstop
    have hle := hnext.start_le
    rw [mem_cons, ih (begins_next hstop hnext), Prod.mk.injEq]
    constructor
    · rintro (⟨rfl, rfl⟩ | ⟨hrun', hge⟩)
      · exact ⟨hrun, le_rfl⟩
      · exact ⟨hrun', by omega⟩
    · rintro ⟨hrun', hge⟩
      rcases Nat.eq_or_lt_of_le hge with rfl | hgt
      · exact .inl ⟨rfl, hrun'.len_eq hrun⟩
      · -- a run that begins later begins behind the first one, where `p` ends
        refine .inr ⟨hrun', ?_⟩
        have hno : ¬ p (first - 1) := hrun'.left.resolve_left (by omega)
        have hbehind : stop ≤ first - 1 := by
          by_contra hinside
          exact hstop.before (first - 1) (by omega) (by omega) hno
        by_contra hbefore
        have hyes := hrun'.inside first le_rfl (Nat.lt_add_of_pos_right hrun'.pos)
        exact hnext.before first (by omega) (by omega) hyes

theorem RunsFrom.pairwise (h : RunsFrom p limit i rs) (hb : Begins p limit i) :
    (rs.map Prod.fst).Pairwise (· < ·) := by
  induction h with
  | done => exact List.Pairwise.nil
  | @step i stop next rs hi hstop hnext hrest ih =>
    refine pairwise_cons.mpr ⟨fun f hf => ?_, ih (begins_next hstop hnext)⟩
    obtain ⟨⟨first, len⟩, hmem, rfl⟩ := List.mem_map.mp hf
    have hge := ((hrest.mem_iff (begins_next hstop hnext)).mp hmem).2
    have hlt := lt_stop hb hi hstop
    have hle := hnext.start_le
    show i < first
    omega

variable [DecidablePred p]

theorem count_of_none {a b : ℕ} (hab : a ≤ b) (h : ∀ j, a ≤ j → j < b → ¬ p j) :
    Nat.count p b = Nat.count p a := by
  induction b, hab using Nat.le_induction with
  | base => rfl
  | succ b hab ih =>
    rw [Nat.count_succ, if_neg (h b hab (Nat.lt_succ_self b)), Nat.add_zero]
    exact ih fun j hj hj' => h j hj (Nat.lt_succ_of_lt hj')

theorem count_of_all {a b : ℕ} (hab : a ≤ b) (h : ∀ j, a ≤ j → j < b → p j) :
    Nat.count p b = Nat.count p a + (b - a) := by
  induction b, hab using Nat.le_induction with
  | base => rw [Nat.sub_self, Nat.add_zero]
  | succ b hab ih =>
    rw [Nat.count_succ, if_pos (h b hab (Nat.lt_succ_self b)),
      ih fun j hj hj' => h j hj (Nat.lt_succ_of_lt hj')]
    omega

theorem RunsFrom.count_eq (h : RunsFrom p limit i rs) :
    Nat.count p limit = Nat.count p i + (rs.map Prod.snd).sum := by
  induction h with
  | done => rfl
  | @step i stop next rs hi hstop hnext _ ih =>
    have hrun := count_of_all hstop.start_le fun j hj hj' => not_not.mp (hstop.before j hj hj')
    have hgap := count_of_none hnext.start_le hnext.before
    rw [ih, hgap, hrun, map_cons, sum_cons, Nat.add_assoc]

end RunsFrom

end Runs
end Sysak.Lib
