/-
# The blocks of physical memory
-/

import Mathlib.Algebra.BigOperators.Group.List.Basic
import Mathlib.Algebra.GroupWithZero.Nat
import Sysak.Lib.Walk

namespace Sysak.Pagescan

open List Lib Relation

structure Page where
  count : ℕ
  mapcount : ℕ
  priv : ℕ
  compoundOrder : ℕ
  slabCache : ℕ

structure Machine where
  kernel310 : Bool
  kpageflags : List ℕ
  page : ℕ → Page
  readable : ℕ → Bool

structure Counts where
  nrBuddy : ℕ := 0
  nrSlab : ℕ := 0
  nrMovable : ℕ := 0
  nrPin : ℕ := 0
  nrPPin : ℕ := 0
  nrPinSwch : ℕ := 0
  tested : List ℕ := []

inductive Seen
  | buddy (pageNr : ℕ)
  | slab (pageNr : ℕ)
  | otherSlab (pageNr : ℕ)
  | movable (pageNr : ℕ)
  | unmovable (pageNr : ℕ)
  | pinned (pageNr : ℕ) (swapcache : Bool)
  | other
  | stop (nrBuddy : ℕ)
  | failed

def Seen.pageNr : Seen → Option ℕ
  | .buddy n | .slab n | .otherSlab n | .movable n | .unmovable n | .pinned n _ => some n
  | .other => some 1
  | .stop _ | .failed => none

def Counts.see (bitmap : Option (ℕ → Bool)) (pos : ℕ) (b : Counts) : Seen → Option Counts
  | .buddy n | .stop n => some { b with nrBuddy := b.nrBuddy + n }
  | .slab n => some { b with nrSlab := b.nrSlab + n }
  | .movable n => some { b with nrMovable := b.nrMovable + n }
  | .pinned n swapcache => some { b with
      nrPPin := b.nrPPin + if bitmap.any (· pos) then n else 0
      nrPin := b.nrPin + n
      nrPinSwch := b.nrPinSwch + if swapcache then n else 0
      tested := b.tested ++ if bitmap.isSome then [pos] else [] }
  | .otherSlab _ | .unmovable _ | .other => some b
  | .failed => none

def blockLoop (look : ℕ → Seen) (bitmap : Option (ℕ → Bool)) (pfn : ℕ) :
    ℕ → ℕ → Counts → Option Counts
  | 0, _, b => some b
  | fuel + 1, idx, b =>
    if 512 ≤ idx then some b
    else (b.see bitmap (pfn + idx) (look idx)).bind fun b =>
      match (look idx).pageNr with
      | none => some b
      | some pageNr => blockLoop look bitmap pfn fuel (idx + pageNr) b

namespace Machine

variable (m : Machine) (bitmap : Option (ℕ → Bool)) (slabAddrs : List ℕ) (pfn : ℕ)

def lookMovability (idx : ℕ) : Seen :=
  let pageflag := m.kpageflags.getD (pfn + idx) 0
  let page := m.page (pfn + idx)
  if pageflag.testBit 10 then
    if !m.kernel310 then .buddy 1 else if 11 < page.priv then .stop 1 else .buddy (2 ^ page.priv)
  else if pageflag.testBit 7 then
    if m.kernel310 && pageflag.testBit 15 then .slab (2 ^ (m.page (pfn + idx + 1)).compoundOrder)
    else .slab 1
  else if pageflag.testBit 5 then
    let pageNr := if pageflag.testBit 15 then 512 else 1
    if !pageflag.testBit 12 then .movable pageNr
    else if !m.readable pfn then .stop 0
    else if page.mapcount < page.count then .pinned pageNr (pageflag.testBit 13)
    else .movable pageNr
  else .other

def lookSlab (idx : ℕ) : Seen :=
  let pageflag := m.kpageflags.getD (pfn + idx) 0
  let page := m.page (pfn + idx)
  if pageflag.testBit 10 then .buddy (if m.kernel310 then 2 ^ page.priv else 1)
  else if !pageflag.testBit 5 && !pageflag.testBit 7 then .other
  else if !m.readable pfn then .stop 0
  else if pageflag.testBit 5 then
    let pageNr := if pageflag.testBit 15 then 512 else 1
    if pageflag.testBit 12 && page.count != page.mapcount then .unmovable pageNr
    else .movable pageNr
  else if pageflag.testBit 16 then .failed
  else
    let pageNr := if pageflag.testBit 15 then 2 ^ (m.page (pfn + idx + 1)).compoundOrder else 1
    if page.slabCache ∈ slabAddrs then .slab pageNr else .otherSlab pageNr

def movabilityBlock : Option Counts := blockLoop (m.lookMovability pfn) bitmap pfn 512 0 {}

def slabBlock : Option Counts := blockLoop (m.lookSlab slabAddrs pfn) none pfn 512 0 {}

end Machine

inductive MovabilityCounter
  | buddyPages | slabPages | pinPages | pinSwchPages | pPinPages | hugeUnmovable | hugeSlab
  | hugeSlabFree | hugeSlabMove | hugePin | hugePinFree | hugePinMove | hugePPin | hugeCandidate
  | hugeFree | hugeCompact
deriving DecidableEq

structure Credit where
  pfn : ℕ
  row : ℤ
  counts : List (MovabilityCounter × ℕ)

def counter (cs : List Credit) (node : ℤ) (type : MovabilityCounter) : ℕ :=
  ((((cs.filter (·.row = node)).flatMap (·.counts)).filter (·.1 = type)).map (·.2)).sum

def bump (c : Prop) [Decidable c] (type : MovabilityCounter) : List (MovabilityCounter × ℕ) :=
  if c then [(type, 1)] else []

def Counts.slabHuge (b : Counts) : List (MovabilityCounter × ℕ) :=
  (.hugeSlab, 1) :: bump (b.nrBuddy ≠ 0) .hugeSlabFree ++ bump (b.nrMovable ≠ 0) .hugeSlabMove

def Counts.pinHuge (b : Counts) : List (MovabilityCounter × ℕ) :=
  (.hugePin, 1) :: bump (b.nrBuddy ≠ 0) .hugePinFree ++ bump (b.nrMovable ≠ 0) .hugePinMove ++
    bump (b.nrPPin ≠ 0) .hugePPin

def Counts.movability (b : Counts) : List (MovabilityCounter × ℕ) :=
  [(.buddyPages, b.nrBuddy), (.slabPages, b.nrSlab), (.pinPages, b.nrPin),
    (.pinSwchPages, b.nrPinSwch), (.pPinPages, b.nrPPin)] ++
  bump (b.nrSlab ≠ 0 ∨ b.nrPin ≠ 0) .hugeUnmovable ++
  (if b.nrSlab ≠ 0 then b.slabHuge else []) ++ (if b.nrPin ≠ 0 then b.pinHuge else []) ++
  if b.nrBuddy = 0 then []
  else (.hugeCandidate, 1) :: if b.nrBuddy + b.nrMovable ≠ 512 then []
    else if b.nrMovable ≠ 0 then [(.hugeCompact, 1)] else [(.hugeFree, 1)]

def Machine.scanNext (m : Machine) (visit : ℕ → Option (List Credit)) :
    ℕ × List Credit → (ℕ × List Credit) ⊕ List Credit
  | (pfn, cs) =>
    if m.kpageflags.length < pfn + 512 then .inr cs
    else match visit pfn with
      | none => .inl (pfn, cs)
      | some new => .inl (pfn + 512, cs ++ new)

def Machine.visitMovability (m : Machine) (bitmap : Option (ℕ → Bool)) (pfnToNode : ℕ → ℤ)
    (pfn : ℕ) : Option (List Credit) :=
  if m.kernel310 && !m.readable pfn then some []
  else (m.movabilityBlock bitmap pfn).map fun b => [⟨pfn, pfnToNode (pfn + 512), b.movability⟩]

def Machine.visitSlab (m : Machine) (slabAddrs : List ℕ) (pfnToNode : ℕ → ℤ) (pfn : ℕ) :
    Option (List Credit) :=
  if m.kernel310 && !m.readable pfn then none
  else (m.slabBlock slabAddrs pfn).map fun b =>
    if b.nrSlab = 0 then []
    else [⟨pfn, pfnToNode (pfn + 512), (.slabPages, b.nrSlab) :: b.slabHuge⟩]

namespace Machine

variable {m : Machine} {pfn idx fuel n : ℕ}

theorem lookMovability_spec (m : Machine) (pfn idx : ℕ) :
    m.lookMovability pfn idx ≠ .failed ∧ ∀ n ∈ (m.lookMovability pfn idx).pageNr, 0 < n := by
  generalize hs : m.lookMovability pfn idx = s
  dsimp only [lookMovability] at hs
  split_ifs at hs <;> subst hs <;> simp [Seen.pageNr, Nat.two_pow_pos]

theorem exists_blockLoop {look : ℕ → Seen} (h : ∀ i, look i ≠ .failed)
    (bitmap : Option (ℕ → Bool)) (fuel idx : ℕ) (b : Counts) :
    ∃ b', blockLoop look bitmap pfn fuel idx b = some b' := by
  induction fuel generalizing idx b with
  | zero => exact ⟨b, rfl⟩
  | succ fuel ih =>
    rw [blockLoop]
    split_ifs
    · exact ⟨b, rfl⟩
    · obtain ⟨b₁, hb₁⟩ : ∃ b₁, b.see bitmap (pfn + idx) (look idx) = some b₁ := by
        have := h idx
        cases hs : look idx <;> simp_all [Counts.see]
      rw [hb₁, Option.bind_some]
      cases (look idx).pageNr with
      | none => exact ⟨b₁, rfl⟩
      | some n => exact ih (idx + n) b₁

theorem exists_movabilityBlock (m : Machine) (bitmap : Option (ℕ → Bool)) (pfn : ℕ) :
    ∃ b, m.movabilityBlock bitmap pfn = some b :=
  exists_blockLoop (fun i => (lookMovability_spec m pfn i).1) bitmap 512 0 {}

def Reached (m : Machine) (pfn : ℕ) : ℕ → ℕ → Prop :=
  ReflTransGen fun i j => i < 512 ∧ ∃ n, (m.lookMovability pfn i).pageNr = some n ∧ j = i + n

def Pinned (m : Machine) (pfn idx : ℕ) : Prop :=
  ∃ n swapcache, m.lookMovability pfn idx = .pinned n swapcache

theorem see_tested {s : Seen} (hs : s ≠ .failed) (bitmap : ℕ → Bool) (pos : ℕ) (b : Counts) :
    ∃ b', b.see (some bitmap) pos s = some b' ∧
      ∀ p, p ∈ b'.tested ↔ p ∈ b.tested ∨ (∃ n swapcache, s = .pinned n swapcache) ∧ p = pos := by
  cases s <;> simp_all [Counts.see]

theorem reached_iff {i : ℕ} : m.Reached pfn idx i ↔ i = idx ∨
    idx < 512 ∧ ∃ n ∈ (m.lookMovability pfn idx).pageNr, m.Reached pfn (idx + n) i := by
  rw [Reached, ReflTransGen.cases_head_iff]
  constructor
  · rintro (rfl | ⟨_, ⟨hidx, n, hn, rfl⟩, hrest⟩)
    · exact .inl rfl
    · exact .inr ⟨hidx, n, hn, hrest⟩
  · rintro (rfl | ⟨hidx, n, hn, hrest⟩)
    · exact .inl rfl
    · exact .inr ⟨_, ⟨hidx, n, hn, rfl⟩, hrest⟩

theorem blockLoop_tested (bitmap : ℕ → Bool) (b : Counts) (hfuel : 512 ≤ fuel + idx) :
    ∃ b', blockLoop (m.lookMovability pfn) (some bitmap) pfn fuel idx b = some b' ∧
      ∀ pos, pos ∈ b'.tested ↔ pos ∈ b.tested ∨
        ∃ i, m.Reached pfn idx i ∧ i < 512 ∧ m.Pinned pfn i ∧ pos = pfn + i := by
  -- past the end of the block nothing is come to
  have hend {idx : ℕ} (h : 512 ≤ idx) (pos : ℕ) :
      ¬∃ i, m.Reached pfn idx i ∧ i < 512 ∧ m.Pinned pfn i ∧ pos = pfn + i := by
    rintro ⟨i, hi, hlt, -⟩
    obtain rfl | ⟨hidx, -⟩ := reached_iff.mp hi <;> omega
  induction fuel generalizing idx b with
  | zero => exact ⟨b, rfl, fun pos => by simp [hend (by omega : 512 ≤ idx) pos]⟩
  | succ fuel ih =>
    by_cases hidx : 512 ≤ idx
    · exact ⟨b, by rw [blockLoop, if_pos hidx], fun pos => by simp [hend hidx pos]⟩
    obtain ⟨hfailed, hpos⟩ := lookMovability_spec m pfn idx
    obtain ⟨b₁, hsee, htested⟩ := see_tested hfailed bitmap (pfn + idx) b
    have hfirst (pos : ℕ) : (∃ i, m.Reached pfn idx i ∧ i < 512 ∧ m.Pinned pfn i ∧ pos = pfn + i) ↔
        m.Pinned pfn idx ∧ pos = pfn + idx ∨ ∃ n ∈ (m.lookMovability pfn idx).pageNr,
          ∃ i, m.Reached pfn (idx + n) i ∧ i < 512 ∧ m.Pinned pfn i ∧ pos = pfn + i := by
      constructor
      · rintro ⟨i, hi, hrest⟩
        obtain rfl | ⟨-, n, hn, hi⟩ := reached_iff.mp hi
        · exact .inl hrest.2
        · exact .inr ⟨n, hn, i, hi, hrest⟩
      · rintro (h | ⟨n, hn, i, hi, hrest⟩)
        · exact ⟨idx, reached_iff.mpr (.inl rfl), by omega, h⟩
        · exact ⟨i, reached_iff.mpr (.inr ⟨by omega, n, hn, hi⟩), hrest⟩
    rw [blockLoop, if_neg hidx, hsee, Option.bind_some]
    cases hn : (m.lookMovability pfn idx).pageNr with
    | none => exact ⟨b₁, rfl, fun pos => by rw [htested, hfirst, hn]; simp [Pinned]⟩
    | some n =>
      have hn0 := hpos n (by simp [hn])
      obtain ⟨b', hloop, hb'⟩ := @ih (idx + n) b₁ (by omega)
      exact ⟨b', hloop, fun pos => by rw [hb', htested, hfirst, hn]; simp [Pinned, or_assoc]⟩

theorem mem_tested_iff (m : Machine) (bitmap : ℕ → Bool) (pfn : ℕ) :
    ∃ b, m.movabilityBlock (some bitmap) pfn = some b ∧ ∀ pos, pos ∈ b.tested ↔
      ∃ i, m.Reached pfn 0 i ∧ i < 512 ∧ m.Pinned pfn i ∧ pos = pfn + i := by
  obtain ⟨b, hb, htested⟩ := @blockLoop_tested m pfn 0 512 bitmap {} (by omega)
  exact ⟨b, hb, fun pos => by simpa using htested pos⟩

end Machine

variable {m : Machine} {visit : ℕ → Option (List Credit)}

theorem exists_run_scan_iff (P : Credit → Prop) :
    (∃ fuel cs, Walk.run (m.scanNext visit) fuel (0, []) = some cs ∧ ∀ c ∈ cs, P c) ↔
      ∀ i < m.kpageflags.length / 512, ∃ cs, visit (512 * i) = some cs ∧ ∀ c ∈ cs, P c := by
  -- from block `j` on, with what is added so far
  have hfrom (k j : ℕ) (cs : List Credit) (hk : m.kpageflags.length / 512 = j + k) :
      (∃ fuel r, Walk.run (m.scanNext visit) fuel (512 * j, cs) = some r ∧ ∀ c ∈ r, P c) ↔
        (∀ c ∈ cs, P c) ∧ ∀ i, j ≤ i → i < j + k →
          ∃ new, visit (512 * i) = some new ∧ ∀ c ∈ new, P c := by
    induction k generalizing j cs with
    | zero =>
      rw [Walk.exists_run_inr (r := cs) (by rw [Machine.scanNext, if_pos (by omega)])]
      exact ⟨fun h => ⟨h, fun i hi hlt => by omega⟩, And.left⟩
    | succ k ih =>
      have hlen : ¬m.kpageflags.length < 512 * j + 512 := by omega
      cases hv : visit (512 * j) with
      | none =>
        have hstay : m.scanNext visit (512 * j, cs) = .inl (512 * j, cs) := by
          rw [Machine.scanNext, if_neg hlen, hv]
        constructor
        · rintro ⟨fuel, r, hr, -⟩
          exact absurd ⟨fuel, r, hr⟩ (Walk.not_stops_of_eq (i := 0) (j := 1) rfl
            (Walk.after_succ_of_inl rfl hstay) Nat.zero_lt_one)
        · rintro ⟨-, h⟩
          obtain ⟨new, hnew, -⟩ := h j le_rfl (by omega)
          rw [hv] at hnew
          cases hnew
      | some new =>
        have hnext : m.scanNext visit (512 * j, cs) = .inl (512 * (j + 1), cs ++ new) := by
          rw [Machine.scanNext, if_neg hlen, hv]
          rfl
        rw [Walk.exists_run_inl hnext, ih (j + 1) (cs ++ new) (by omega), forall_mem_append,
          and_assoc]
        refine and_congr_right fun _ =>
          ⟨?_, fun h => ⟨?_, fun i hi hlt => h i (by omega) (by omega)⟩⟩
        · rintro ⟨hnew, h⟩ i hi hlt
          obtain rfl | hji := hi.eq_or_lt
          · exact ⟨new, hv, hnew⟩
          · exact h i hji (by omega)
        · obtain ⟨new', hnew', hP⟩ := h j le_rfl (by omega)
          rwa [← Option.some.inj (hv.symm.trans hnew')] at hP
  have h0 := hfrom (m.kpageflags.length / 512) 0 [] (by omega)
  simpa using h0

end Sysak.Pagescan
