/-
# The NUMA node of a block
-/

import Mathlib.Data.Int.Basic
import Sysak.Pagescan.Movability

namespace Sysak.Pagescan

open List Lib Option

structure NumaInfo where
  startPfn : ℕ → Option ℕ
  nrNumaNode : ℤ
  le_nr : ∀ n s, startPfn n = some s → (n : ℤ) ≤ nrNumaNode

namespace NumaInfo

def empty : NumaInfo := ⟨fun _ => none, -1, nofun⟩

def set (numa : NumaInfo) (node start : ℕ) : NumaInfo where
  startPfn := Function.update numa.startPfn node (some start)
  nrNumaNode := max numa.nrNumaNode node
  le_nr n s h := by
    by_cases hn : n = node
    · subst hn
      exact le_max_right _ _
    · rw [Function.update_of_ne hn] at h
      exact (numa.le_nr n s h).trans (le_max_left _ _)

def search (numa : NumaInfo) (pfn : ℕ) : ℕ → ℕ → ℕ
  | 0, node => node
  | k + 1, node => if (numa.startPfn node).any (· ≤ pfn) then numa.search pfn k (node + 1) else node

def pfnToNode (numa : NumaInfo) (pfn : ℕ) : ℤ := numa.search pfn (numa.nrNumaNode + 1).toNat 0 - 1

end NumaInfo

inductive ZoneLine
  | node (n : ℤ)
  | startPfn (pfn : ℕ)
  | other

structure ParseState where
  node : ℤ := -1
  lastNode : ℤ := -1
  numa : NumaInfo := .empty

def parseLine (s : ParseState) : ZoneLine → Option ParseState
  | .node n => some { s with node := n }
  | .startPfn start =>
    if s.node = s.lastNode then some s
    else if 0 ≤ s.node ∧ s.node < 128 then
      some { s with numa := s.numa.set s.node.toNat start, lastNode := s.node }
    else none
  | .other => some s

def parseNumaInfo (lines : List ZoneLine) : Option NumaInfo :=
  (lines.foldlM parseLine {}).map (·.numa)

namespace NumaInfo

variable (numa : NumaInfo)

def RowOk (p : ℕ) (row : ℤ) : Prop :=
  0 ≤ row ∧ ∀ n s, numa.startPfn n = some s → s ≤ p →
    ∃ s', numa.startPfn row.toNat = some s' ∧ s' ≤ p ∧ s ≤ s'

def Upto (q n : ℕ) : Prop := ∃ s, numa.startPfn n = some s ∧ s ≤ q

variable {numa} {q : ℕ}

theorem search_spec (k node : ℕ) : (∀ n, node ≤ n → n < numa.search q k node → numa.Upto q n) ∧
    node ≤ numa.search q k node ∧
    (numa.search q k node < node + k → ¬numa.Upto q (numa.search q k node)) := by
  induction k generalizing node with
  | zero =>
    exact ⟨fun n hn hlt => absurd hlt (by simpa [search] using hn), le_rfl, by simp [search]⟩
  | succ k ih =>
    rw [search]
    split_ifs with hnode
    · obtain ⟨hupto, hle, hstop⟩ := ih (node + 1)
      refine ⟨fun n hn hlt => ?_, by omega, fun hlt => hstop (by omega)⟩
      obtain rfl | hn := hn.eq_or_lt
      · simpa [Upto, Option.any_eq_true] using hnode
      · exact hupto n hn hlt
    · refine ⟨fun n hn hlt => by omega, le_rfl, fun _ hupto => hnode ?_⟩
      simpa [Upto, Option.any_eq_true] using hupto

theorem rowOk_pfnToNode_iff (p : ℕ) : numa.RowOk p (numa.pfnToNode q) ↔
    ∃ r : ℕ, (∀ n ≤ r, numa.Upto q n) ∧ ¬numa.Upto q (r + 1) ∧ numa.RowOk p r := by
  obtain ⟨hupto, -, hstop⟩ := numa.search_spec (q := q) (numa.nrNumaNode + 1).toNat 0
  unfold pfnToNode
  generalize numa.search q (numa.nrNumaNode + 1).toNat 0 = k at *
  have hk : ¬numa.Upto q k := by
    rintro ⟨s, hs, hsq⟩
    have hle := numa.le_nr k s hs
    exact hstop (by omega) ⟨s, hs, hsq⟩
  constructor
  · intro h
    have hpos := h.1
    obtain ⟨r, rfl⟩ := Nat.exists_eq_succ_of_ne_zero (by omega : k ≠ 0)
    refine ⟨r, fun n hn => hupto n n.zero_le (by omega), hk, ?_⟩
    simpa using h
  · rintro ⟨r, hr, hr', hrow⟩
    have hkr : k = r + 1 := by
      by_contra hne
      rcases Nat.lt_or_gt_of_ne hne with hlt | hgt
      · exact hk (hr k (by omega))
      · exact hr' (hupto (r + 1) (Nat.zero_le _) hgt)
    simpa [hkr] using hrow

end NumaInfo

def Attributed (m : Machine) (lines : List ZoneLine) (bitmap : Option (ℕ → Bool))
    (slabAddrs : List ℕ) : Prop :=
  ∃ numa, parseNumaInfo lines = some numa ∧
    (∃ fuel cs, Walk.run (m.scanNext (m.visitMovability bitmap numa.pfnToNode)) fuel (0, []) =
      some cs ∧ ∀ c ∈ cs, numa.RowOk c.pfn c.row) ∧
    (∃ fuel cs, Walk.run (m.scanNext (m.visitSlab slabAddrs numa.pfnToNode)) fuel (0, []) =
      some cs ∧ ∀ c ∈ cs, numa.RowOk c.pfn c.row)

end Sysak.Pagescan
