/-
# The bitmap of the scanned processes
-/

import Sysak.Pagescan.Movability

namespace Sysak.Pagescan

open List Lib

structure Region where
  vaStart : ℕ
  vaEnd : ℕ
  start_dvd : 4096 ∣ vaStart
  end_dvd : 4096 ∣ vaEnd
  le : vaStart ≤ vaEnd
  room : vaEnd + 2 ^ 21 ≤ 2 ^ 64

def scanStep (vaEnd vaIdx : ℕ) : ℕ := min ((vaIdx + 2 ^ 21) / 2 ^ 21 * 2 ^ 21) vaEnd

def rounds (vaEnd vaIdx : ℕ) (pagemap : List ℕ) : List (List ℕ) :=
  let target := (scanStep vaEnd vaIdx - vaIdx) / 4096
  if target = 0 ∨ pagemap = [] then []
  else pagemap.take target :: rounds vaEnd (scanStep vaEnd vaIdx) (pagemap.drop target)
termination_by vaEnd - vaIdx
decreasing_by
  have hle : scanStep vaEnd vaIdx ≤ vaEnd := min_le_right _ _
  omega

structure Process where
  pagemap : List ℕ
  regions : List Region

def scanMemoryRegion (pagemap : List ℕ) (r : Region) : List ℕ :=
  let raws := (rounds r.vaEnd r.vaStart (pagemap.drop (r.vaStart / 4096))).flatten
  (raws.filter (·.testBit 63)).map (· % 2 ^ 55)

def scanPids (ps : List Process) : List ℕ :=
  ps.flatMap fun p => p.regions.flatMap (scanMemoryRegion p.pagemap)

structure Scans where
  movability : Bool
  zeroSubpages : Bool

def Machine.movabilityTests (m : Machine) (bitmap : ℕ → Bool) : List ℕ :=
  (range (m.kpageflags.length / 512)).flatMap fun i =>
    if m.kernel310 && !m.readable (512 * i) then []
    else ((m.movabilityBlock (some bitmap) (512 * i)).map (·.tested)).getD []

def Machine.thpTests (m : Machine) : List ℕ :=
  (range ((m.kpageflags.length + 511) / 512)).map (512 * ·)

def positions (m : Machine) (opt : Scans) (ps : List Process) : List ℕ :=
  let set := scanPids ps
  set ++ (if opt.movability then m.movabilityTests fun pos => pos ∈ set else []) ++
    if opt.zeroSubpages then m.thpTests else []

def bitmapSize (phyMemInBytes : UInt64) : ℕ := ((phyMemInBytes + 4095) / 4096).toNat

theorem scanStep_spec {vaEnd vaIdx : ℕ} (hend : 4096 ∣ vaEnd) (hle : vaIdx ≤ vaEnd) :
    vaIdx ≤ scanStep vaEnd vaIdx ∧ scanStep vaEnd vaIdx ≤ vaEnd ∧ 4096 ∣ scanStep vaEnd vaIdx ∧
      (scanStep vaEnd vaIdx = vaIdx → vaIdx = vaEnd) := by
  unfold scanStep
  omega

theorem flatten_rounds {vaEnd vaIdx : ℕ} (hend : 4096 ∣ vaEnd) (hidx : 4096 ∣ vaIdx)
    (hle : vaIdx ≤ vaEnd) (pagemap : List ℕ) :
    (rounds vaEnd vaIdx pagemap).flatten = pagemap.take ((vaEnd - vaIdx) / 4096) := by
  induction hk : vaEnd - vaIdx using Nat.strong_induction_on generalizing vaIdx pagemap with
  | _ k ih =>
    obtain ⟨hge, hstep, hdvd, hstop⟩ := scanStep_spec hend hle
    rw [rounds]
    generalize scanStep vaEnd vaIdx = next at *
    by_cases hgo : (next - vaIdx) / 4096 = 0 ∨ pagemap = []
    · rw [if_pos hgo, flatten_nil]
      obtain hzero | rfl := hgo
      · -- a round of no page is at the end, as both ends are multiples of a page
        rw [show k / 4096 = 0 by omega, take_zero]
      · rw [take_nil]
    · rw [if_neg hgo, flatten_cons, ih (vaEnd - next) (by omega) hdvd hstep _ rfl,
        show k / 4096 = (next - vaIdx) / 4096 + (vaEnd - next) / 4096 by omega, take_add]

theorem mem_scanMemoryRegion_iff {pagemap : List ℕ} {r : Region} {pos : ℕ} :
    pos ∈ scanMemoryRegion pagemap r ↔ ∃ k raw, r.vaStart ≤ 4096 * k ∧ 4096 * k < r.vaEnd ∧
      pagemap[k]? = some raw ∧ raw.testBit 63 = true ∧ pos = raw % 2 ^ 55 := by
  have hs := r.start_dvd
  have he := r.end_dvd
  have hle := r.le
  rw [scanMemoryRegion, flatten_rounds he hs hle]
  simp only [mem_map, mem_filter]
  constructor
  · rintro ⟨raw, ⟨hraw, hpresent⟩, rfl⟩
    obtain ⟨j, hj⟩ := mem_iff_getElem?.mp hraw
    rw [getElem?_take, getElem?_drop] at hj
    split_ifs at hj with hlt
    exact ⟨r.vaStart / 4096 + j, raw, by omega, by omega, hj, hpresent, rfl⟩
  · rintro ⟨k, raw, hk, hlt, hraw, hpresent, rfl⟩
    refine ⟨raw, ⟨mem_iff_getElem?.mpr ⟨k - r.vaStart / 4096, ?_⟩, hpresent⟩, rfl⟩
    rw [getElem?_take, getElem?_drop, if_pos (by omega), Nat.add_sub_cancel' (by omega), hraw]

theorem mem_movabilityTests_iff {m : Machine} {bitmap : ℕ → Bool} {pos : ℕ} :
    pos ∈ m.movabilityTests bitmap ↔ ∃ i < m.kpageflags.length / 512,
      (m.kernel310 = true → m.readable (512 * i) = true) ∧
      ∃ idx, m.Reached (512 * i) 0 idx ∧ idx < 512 ∧ m.Pinned (512 * i) idx ∧
        pos = 512 * i + idx := by
  rw [Machine.movabilityTests, mem_flatMap]
  simp only [mem_range]
  refine exists_congr fun i => and_congr_right fun _ => ?_
  obtain ⟨b, hb, htested⟩ := Machine.mem_tested_iff m bitmap (512 * i)
  rw [hb, Option.map_some, Option.getD_some, ← htested]
  cases m.kernel310 <;> cases m.readable (512 * i) <;> simp

theorem mem_thpTests_iff {m : Machine} {pos : ℕ} :
    pos ∈ m.thpTests ↔ ∃ i, 512 * i < m.kpageflags.length ∧ pos = 512 * i := by
  simp only [Machine.thpTests, mem_map, mem_range]
  exact exists_congr fun i => and_congr (by omega) eq_comm

end Sysak.Pagescan
