/-
# What the tokenisers count
-/

import Sysak.Collector.VarInput

namespace Sysak.Collector
namespace VarInput

open Lib List

def Counts {α : Type*} (good : Bytes → Bool) (val : Bytes → α) (ts : List Bytes) (no : ℕ)
    (c : Cells α) : Prop :=
  no = ((ts.takeWhile good).take varIndexMax).length ∧
    c.1.take no = ((ts.takeWhile good).take varIndexMax).map val

def CountsLong (line : Bytes) : Prop :=
  ∀ p, ∃ q, varInputLong line p = some (0, q) ∧
    Counts isInteger integer (tokens (cString line)) q.no q.value

def CountsKvs (line : Bytes) : Prop :=
  ∀ p, ∃ q, varInputKvs line p = some (0, q) ∧
    Counts isInteger integer (tokens (cString line)).tail q.no q.value

def CountsString (line : Bytes) : Prop :=
  ∀ p, ∃ q, varInputString line p = some (0, q) ∧
    Counts (fun t => t.length ≤ 31) id (tokens (cString line)) q.no q.s

def IsCell (t : Bytes) : Prop := t.length ≤ 31 ∧ ∀ c ∈ t, isSpace c = false

section Counting

variable {α : Type*} {good : Bytes → Bool} {val : Bytes → α} {ts : List Bytes} {no : ℕ}
  {c : Cells α}

theorem take_takeWhile_of_forall (h : ∀ t ∈ ts.take varIndexMax, good t = true) :
    (ts.takeWhile good).take varIndexMax = ts.take varIndexMax := by
  rw [take_takeWhile, takeWhile_eq_self_iff]
  exact h

theorem Counts.forall_good (h : Counts good val ts no c)
    (hno : ∀ k < (ts.take varIndexMax).length, (∀ t ∈ ts.take k, good t = true) → k < no) :
    ∀ t ∈ ts.take varIndexMax, good t = true := by
  obtain ⟨hlen, -⟩ := h
  rw [take_takeWhile] at hlen
  have hprefix := takeWhile_prefix good (l := ts.take varIndexMax)
  rw [← takeWhile_eq_self_iff]
  refine hprefix.eq_of_length (Nat.le_antisymm hprefix.length_le ?_)
  by_contra hlt
  push Not at hlt
  refine absurd (hno no (by omega) fun t ht => ?_) (lt_irrefl _)
  have hk : ts.take no = (ts.take varIndexMax).takeWhile good := by
    rw [prefix_iff_eq_take.mp hprefix, ← hlen, take_take]
    congr 1
    have := length_take_le varIndexMax ts
    omega
  rw [hk] at ht
  exact mem_takeWhile_imp ht

theorem Counts.map_eq (h : Counts good val ts no c)
    (hgood : ∀ t ∈ ts.take varIndexMax, good t = true) :
    no = (ts.take varIndexMax).length ∧ c.1.take no = (ts.take varIndexMax).map val := by
  obtain ⟨hlen, hcells⟩ := h
  rw [take_takeWhile_of_forall hgood] at hlen hcells
  exact ⟨hlen, hcells⟩

theorem exists_counts {scan : Bytes → ℤ × Option α} {s : Bytes}
    (hgood : ∀ t ∈ (tokens s).take varIndexMax, good t = true)
    (hreads : ∀ t ∈ (tokens s).take varIndexMax, ∀ u, EndsWord u →
      scan (t ++ u) = (1, some (val t))) (c : Cells α) :
    ∃ q, inputCells scan (some s) c = some q ∧ Counts good val (tokens s) q.1 q.2 := by
  obtain ⟨c', hrun, hc'⟩ := inputCells_reads val s c hreads
  refine ⟨_, hrun, ?_⟩
  unfold Counts
  rw [take_takeWhile_of_forall hgood, hc', take_left' (length_map _)]
  exact ⟨rfl, rfl⟩

theorem inputCells_counts_iff (s : Bytes) :
    (∀ c, ∃ q, inputCells sscanfLong (some s) c = some q ∧
      Counts isInteger integer (tokens s) q.1 q.2) ↔
      ∀ t ∈ (tokens s).take varIndexMax, IsLong t := by
  constructor
  · intro h
    obtain ⟨q, hq, hcounts⟩ := h (Cells.zero 0)
    have hgood := hcounts.forall_good fun k hk hk' => inputCells_lt hq hk fun t ht u hu => by
      rw [sscanfLong_integer (hk' t ht) (noDigit_of_endsWord hu)]
      exact one_ne_zero
    obtain ⟨hno, hcells⟩ := hcounts.map_eq hgood
    obtain ⟨c', hrun, hc'⟩ := inputCells_reads (fun t => clampLong (integer t)) s
      (Cells.zero 0) fun t ht u hu => sscanfLong_integer (hgood t ht) (noDigit_of_endsWord hu)
    obtain rfl := Option.some.inj (hq.symm.trans hrun)
    rw [hno, hc', take_left' (length_map _)] at hcells
    intro t ht
    exact ⟨hgood t ht, clampLong_eq_self_iff.mp (map_inj_left.mp hcells t ht)⟩
  · intro h
    refine exists_counts (fun t ht => (h t ht).1) fun t ht u hu => ?_
    rw [sscanfLong_integer (h t ht).1 (noDigit_of_endsWord hu),
      clampLong_eq_self_iff.mpr (h t ht).2]

theorem inputCells_counts_string_iff (s : Bytes) :
    (∀ c, ∃ q, inputCells (sscanfString 31) (some s) c = some q ∧
      Counts (fun t => t.length ≤ 31) id (tokens s) q.1 q.2) ↔
      ∀ t ∈ (tokens s).take varIndexMax, IsCell t := by
  constructor
  · intro h
    obtain ⟨q, hq, hcounts⟩ := h (Cells.zero [])
    have hgood := hcounts.forall_good fun k hk _ =>
      inputCells_lt hq hk fun t _ u _ => sscanfString_ne_zero 31 _
    obtain ⟨-, hcells⟩ := hcounts.map_eq hgood
    rw [map_id] at hcells
    -- The cells were empty before, so there is no white space in any of them.
    have hspace : ∀ v ∈ q.2.1, ∀ c ∈ v, isSpace c = false := by
      have hzero : ∀ v ∈ (Cells.zero ([] : Bytes)).1, ∀ c ∈ v, isSpace c = false := by
        intro v hv
        rw [eq_of_mem_replicate hv]
        simp
      rcases inputCells_cases (sscanfString 31) s (Cells.zero []) with ⟨hrun, -⟩ | ⟨w, r, hrun, -⟩
      · obtain rfl := Option.some.inj (hq.symm.trans hrun)
        exact hzero
      · exact inputLoop_forall (isSpace_of_sscanfString 31) hzero (hrun.symm.trans hq)
    intro t ht
    refine ⟨by simpa using hgood t ht, hspace t ?_⟩
    rw [← hcells] at ht
    exact mem_of_mem_take ht
  · intro h
    refine exists_counts (fun t ht => decide_eq_true (h t ht).1) fun t ht u hu => ?_
    have hne : t ≠ [] := by simpa using (mem_filter.mp (mem_of_mem_take ht)).2
    rw [sscanfString_word 31 hne (h t ht).2 (isSpace_of_endsWord hu),
      take_of_length_le (h t ht).1]
    rfl

end Counting

variable (line : Bytes)

theorem countsLong_iff :
    CountsLong line ↔ ∀ t ∈ (tokens (cString line)).take varIndexMax, IsLong t := by
  rw [← inputCells_counts_iff]
  constructor
  · intro h c
    obtain ⟨q, hq, hcounts⟩ := h ⟨0, c⟩
    obtain ⟨r, hr, heq⟩ := Option.map_eq_some_iff.mp hq
    cases heq
    exact ⟨r, hr, hcounts⟩
  · intro h p
    obtain ⟨r, hr, hcounts⟩ := h p.value
    exact ⟨⟨r.1, r.2⟩, by rw [varInputLong, hr]; rfl, hcounts⟩

theorem countsString_iff :
    CountsString line ↔ ∀ t ∈ (tokens (cString line)).take varIndexMax, IsCell t := by
  rw [← inputCells_counts_string_iff]
  constructor
  · intro h c
    obtain ⟨q, hq, hcounts⟩ := h ⟨0, c⟩
    obtain ⟨r, hr, heq⟩ := Option.map_eq_some_iff.mp hq
    cases heq
    exact ⟨r, hr, hcounts⟩
  · intro h p
    obtain ⟨r, hr, hcounts⟩ := h p.s
    exact ⟨⟨r.1, r.2⟩, by rw [varInputString, hr]; rfl, hcounts⟩

theorem countsKvs_iff :
    CountsKvs line ↔ ∀ t ∈ (tokens (cString line)).tail.take varIndexMax, IsLong t := by
  rcases varNext_cases (cString line) with ⟨hnone, hnil⟩ | ⟨w, r, hnext, hw, hr, htok⟩
  · unfold CountsKvs
    rw [hnil]
    refine iff_of_true (fun p => ⟨{ p with no := 0 }, ?_, rfl, rfl⟩) (by simp)
    simp only [varInputKvs, hnone]
  · unfold CountsKvs
    rw [htok, tail_cons, ← inputCells_counts_iff]
    constructor
    · intro h c
      obtain ⟨q, hq, hcounts⟩ := h ⟨0, [], c⟩
      rw [varInputKvs_key hnext hw hr] at hq
      obtain ⟨r', hr', heq⟩ := Option.map_eq_some_iff.mp hq
      cases heq
      exact ⟨r', hr', hcounts⟩
    · intro h p
      obtain ⟨q, hq, hcounts⟩ := h p.value
      refine ⟨⟨q.1, (sscanfString 31 (w ++ r)).2.getD p.s, q.2⟩, ?_, hcounts⟩
      rw [varInputKvs_key hnext hw hr, hq]
      rfl

theorem exists_varInput :
    (∀ p, ∃ q, varInputLong line p = some (0, q)) ∧
      (∀ p, ∃ q, varInputString line p = some (0, q)) ∧
        ∀ p, ∃ q, varInputKvs line p = some (0, q) := by
  refine ⟨fun p => ?_, fun p => ?_, fun p => ?_⟩
  · obtain ⟨q, hq⟩ := exists_inputCells (cString line) p.value
    exact ⟨_, by rw [varInputLong, hq]; rfl⟩
  · obtain ⟨q, hq⟩ := exists_inputCells (cString line) p.s
    exact ⟨_, by rw [varInputString, hq]; rfl⟩
  · rcases varNext_cases (cString line) with ⟨hnone, -⟩ | ⟨w, r, hnext, hw, hr, -⟩
    · exact ⟨{ p with no := 0 }, by simp only [varInputKvs, hnone]⟩
    · obtain ⟨q, hq⟩ := exists_inputCells r p.value
      exact ⟨_, by rw [varInputKvs_key hnext hw hr, hq]; rfl⟩

theorem var_input_counts_iff (line : Bytes) :
    ((∀ p, ∃ q, varInputLong line p = some (0, q)) ∧
      (∀ p, ∃ q, varInputString line p = some (0, q)) ∧
        ∀ p, ∃ q, varInputKvs line p = some (0, q)) ∧
      (CountsLong line ↔ ∀ t ∈ (tokens (cString line)).take varIndexMax, IsLong t) ∧
      (CountsKvs line ↔ ∀ t ∈ (tokens (cString line)).tail.take varIndexMax, IsLong t) ∧
      (CountsString line ↔ ∀ t ∈ (tokens (cString line)).take varIndexMax, IsCell t) :=
  ⟨exists_varInput line, countsLong_iff line, countsKvs_iff line, countsString_iff line⟩

theorem varInputLong_word :
    (∃ q, varInputLong (bytes "300 abc") ⟨0, Cells.zero 0⟩ = some (0, q) ∧ q.no = 2) ∧
      ¬CountsLong (bytes "300 abc") := by
  refine ⟨⟨_, rfl, rfl⟩, fun h => ?_⟩
  obtain ⟨q, hq, hno, -⟩ := h ⟨0, Cells.zero 0⟩
  cases hq
  exact absurd hno (by decide)

end VarInput
end Sysak.Collector
