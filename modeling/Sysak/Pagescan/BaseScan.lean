/-
# Sparse blocks of 2 MB

`scan_zero_subpages_in_base` of `detect/mem/pagescan/zero_subpage.c`, called by `scan_memory_region`
for each page of each round.  Its static variables are the state; the first page of a round resets
them and the last records the block.  A frame number rounded down to 512 says whether the block is a
THP, so that frames below 512 never are.
-/

import Sysak.Pagescan.Bitmap
import Sysak.Pagescan.ZeroSubpage

namespace Sysak.Pagescan

open List

structure BaseScan where
  nrScan : ℕ
  nrNotPresent : ℕ
  pageflagRead : Bool
  thpPfn : ℕ
  lastThpPfn : ℕ
  stat : HugeStat 512
  totalRssPages : ℕ
  totalThpDeferredSplit : ℕ

namespace BaseScan

def init : BaseScan := ⟨0, 0, false, 0, 0, .empty 512, 0, 0⟩

def newRound (s : BaseScan) : BaseScan :=
  { s with nrScan := 0, nrNotPresent := 0, pageflagRead := false, thpPfn := 0 }

def page (kpageflags : List ℕ) (s : BaseScan) (raw : ℕ) : BaseScan :=
  if raw.testBit 63 then
    let pfn := raw % 2 ^ 55
    { s with
      nrScan := s.nrScan + 1
      totalRssPages := s.totalRssPages + 1
      pageflagRead := true
      -- page flags that cannot be read are not those of a THP
      thpPfn := if !s.pageflagRead && (kpageflags.getD pfn 0).testBit 22 then pfn / 512 * 512
        else s.thpPfn }
  else { s with nrScan := s.nrScan + 1, nrNotPresent := s.nrNotPresent + 1 }

def endRound (s : BaseScan) : BaseScan :=
  { s with
    totalThpDeferredSplit :=
      if s.thpPfn ≠ 0 ∧ s.lastThpPfn ≠ s.thpPfn ∧ (s.nrScan < 512 ∨ s.nrNotPresent ≠ 0) then
        s.totalThpDeferredSplit + 1
      else s.totalThpDeferredSplit
    stat :=
      if h : s.thpPfn = 0 ∧ s.nrScan = 512 ∧ s.nrNotPresent < s.nrScan then
        s.stat.record s.nrNotPresent (h.2.1 ▸ h.2.2)
      else s.stat
    lastThpPfn := if s.thpPfn ≠ 0 then s.thpPfn else s.lastThpPfn }

end BaseScan

section Scan

variable (kpageflags : List ℕ)

def scanZeroSubpagesInBase (n : ℕ) (s : BaseScan) (p : ℕ × ℕ) : BaseScan :=
  let s := if p.2 = 0 then s.newRound else s
  let s := s.page kpageflags p.1
  if p.2 = n - 1 then s.endRound else s

def scanRound (s : BaseScan) (raws : List ℕ) : BaseScan :=
  raws.zipIdx.foldl (scanZeroSubpagesInBase kpageflags raws.length) s

def roundsOf (m : List ℕ × Region) : List (List ℕ) :=
  rounds m.2.vaEnd m.2.vaStart (m.1.drop (m.2.vaStart / 4096))

def mappings (ps : List Process) : List (List ℕ × Region) :=
  ps.flatMap fun p => p.regions.map fun r => (p.pagemap, r)

def scanBase (ps : List Process) : BaseScan :=
  (mappings ps).foldl (fun s m => (roundsOf m).foldl (scanRound kpageflags) s) .init

end Scan

def blocksInside (r : Region) : List ℕ :=
  let first := (r.vaStart + (2 ^ 21 - 1)) / 2 ^ 21
  range' first (r.vaEnd / 2 ^ 21 - first)

def pagesOf (pagemap : List ℕ) (b : ℕ) : List ℕ := (pagemap.drop (512 * b)).take 512

def absent (raws : List ℕ) : ℕ := raws.countP fun raw => !raw.testBit 63

def startsThp (kpageflags : List ℕ) (raws : List ℕ) : Bool :=
  (raws.find? (·.testBit 63)).any fun raw => (kpageflags.getD (raw % 2 ^ 55) 0).testBit 22

variable {kpageflags : List ℕ} {s : BaseScan} {raws : List ℕ} {k : ℕ}

def thpOf (kpageflags : List ℕ) (raws : List ℕ) : ℕ :=
  (raws.find? (·.testBit 63)).elim 0 fun raw =>
    if (kpageflags.getD (raw % 2 ^ 55) 0).testBit 22 then raw % 2 ^ 55 / 512 * 512 else 0

theorem thpOf_concat (raw : ℕ) : thpOf kpageflags (raws ++ [raw]) =
    if !raws.any (·.testBit 63) && raw.testBit 63 && (kpageflags.getD (raw % 2 ^ 55) 0).testBit 22
    then raw % 2 ^ 55 / 512 * 512 else thpOf kpageflags raws := by
  rw [thpOf, thpOf, find?_append, ← isSome_find?]
  cases raws.find? (·.testBit 63) with
  | some raw' => rfl
  | none =>
    cases hraw : raw.testBit 63 with
    | true => simp [hraw]
    | false => simp [hraw]

theorem foldl_page (kpageflags : List ℕ) (s : BaseScan) (raws : List ℕ) :
    raws.foldl (BaseScan.page kpageflags) s.newRound =
      { s with
        nrScan := raws.length
        nrNotPresent := absent raws
        pageflagRead := raws.any (·.testBit 63)
        thpPfn := thpOf kpageflags raws
        totalRssPages := s.totalRssPages + raws.countP (·.testBit 63) } := by
  induction raws using reverseRecOn with
  | nil => rfl
  | append_singleton raws raw ih =>
    rw [foldl_append, ih, foldl_cons, foldl_nil, BaseScan.page, thpOf_concat]
    cases hraw : raw.testBit 63 with
    | true => simp [hraw, absent, Nat.add_assoc]
    | false => simp [hraw, absent]

theorem foldl_scanZeroSubpages {n : ℕ} (raw : ℕ) (hlt : raws.length < n) :
    (raws ++ [raw]).zipIdx.foldl (scanZeroSubpagesInBase kpageflags n) s =
      let s' := (raws ++ [raw]).foldl (BaseScan.page kpageflags) s.newRound
      if raws.length = n - 1 then s'.endRound else s' := by
  induction raws using reverseRecOn generalizing raw with
  | nil => rfl
  | append_singleton raws raw' ih =>
    have hlen : (raws ++ [raw']).length = raws.length + 1 := by
      rw [length_append, length_singleton]
    have hmid : raws.length ≠ n - 1 := by omega
    have hprev := ih raw' (by omega)
    simp only [if_neg hmid] at hprev
    rw [zipIdx_append, foldl_append, hprev, Nat.zero_add, hlen]
    simp only [foldl_append, foldl_cons, foldl_nil, zipIdx_cons, zipIdx_nil,
      scanZeroSubpagesInBase, Nat.succ_ne_zero, if_false]

theorem scanRound_eq (kpageflags : List ℕ) (s : BaseScan) (hne : raws ≠ []) :
    scanRound kpageflags s raws =
      (raws.foldl (BaseScan.page kpageflags) s.newRound).endRound := by
  obtain ⟨raws, raw, rfl⟩ : ∃ l x, raws = l ++ [x] := ⟨_, _, (dropLast_append_getLast hne).symm⟩
  rw [scanRound, foldl_scanZeroSubpages raw (by simp)]
  exact if_pos (by simp)

theorem thpOf_eq_zero_iff (hframe : ∀ raw ∈ raws, raw.testBit 63 = true → 512 ≤ raw % 2 ^ 55) :
    thpOf kpageflags raws = 0 ↔ startsThp kpageflags raws = false := by
  rw [thpOf, startsThp]
  cases hfind : raws.find? (·.testBit 63) with
  | none => exact ⟨fun _ => rfl, fun _ => rfl⟩
  | some raw =>
    have hlarge := hframe raw (mem_of_find?_eq_some hfind)
      (find?_some (p := fun raw : ℕ => raw.testBit 63) hfind)
    have hpos : raw % 2 ^ 55 / 512 * 512 ≠ 0 := by omega
    simp only [Option.elim_some, Option.any_some]
    cases (kpageflags.getD (raw % 2 ^ 55) 0).testBit 22 with
    | true => exact ⟨fun h => absurd h hpos, fun h => by cases h⟩
    | false => exact ⟨fun _ => rfl, fun _ => rfl⟩

theorem zeroPages_scanRound (s : BaseScan) (hne : raws ≠ []) (hk : k < 512)
    (hframe : ∀ raw ∈ raws, raw.testBit 63 = true → 512 ≤ raw % 2 ^ 55) :
    (scanRound kpageflags s raws).stat.zeroPages k = s.stat.zeroPages k +
      if raws.length = 512 ∧ absent raws = k ∧ startsThp kpageflags raws = false then 1 else 0 := by
  rw [scanRound_eq kpageflags s hne, foldl_page, BaseScan.endRound]
  simp only [thpOf_eq_zero_iff hframe]
  by_cases hadd : startsThp kpageflags raws = false ∧ raws.length = 512 ∧ absent raws < raws.length
  · rw [dif_pos hadd]
    show Function.update s.stat.zeroPages (absent raws) _ k = _
    rw [Function.update_apply]
    simp only [hadd.1, hadd.2.1, true_and, and_true, eq_comm (a := k)]
    split_ifs with heq
    · rw [heq]
    · rfl
  · rw [dif_neg hadd, if_neg]
    · rfl
    · rintro ⟨hlen, rfl, hthp⟩
      exact hadd ⟨hthp, hlen, hlen ▸ hk⟩

theorem rounds_blocks {pagemap : List ℕ} {vaEnd vaIdx : ℕ} (hend : 4096 ∣ vaEnd)
    (hidx : 4096 ∣ vaIdx) (hle : vaIdx ≤ vaEnd) (hfull : vaEnd / 4096 ≤ pagemap.length) :
    (rounds vaEnd vaIdx (pagemap.drop (vaIdx / 4096))).filter (·.length = 512) =
      (range' ((vaIdx + (2 ^ 21 - 1)) / 2 ^ 21)
        (vaEnd / 2 ^ 21 - (vaIdx + (2 ^ 21 - 1)) / 2 ^ 21)).map (pagesOf pagemap) := by
  induction hk : vaEnd - vaIdx using Nat.strong_induction_on generalizing vaIdx with
  | _ k ih =>
    obtain ⟨hge, hstep, hdvd, hstop⟩ := scanStep_spec hend hle
    have hnext : scanStep vaEnd vaIdx = min ((vaIdx + 2 ^ 21) / 2 ^ 21 * 2 ^ 21) vaEnd := rfl
    rw [rounds]
    generalize scanStep vaEnd vaIdx = next at *
    by_cases hgo : (next - vaIdx) / 4096 = 0 ∨ pagemap.drop (vaIdx / 4096) = []
    · rw [if_pos hgo, drop_eq_nil_iff] at *
      have hstop : vaEnd / 2 ^ 21 - (vaIdx + (2 ^ 21 - 1)) / 2 ^ 21 = 0 := by omega
      rw [hstop, range'_zero, map_nil, filter_nil]
    · obtain ⟨hpos, hne⟩ := not_or.mp hgo
      have hlen : ((pagemap.drop (vaIdx / 4096)).take ((next - vaIdx) / 4096)).length =
          (next - vaIdx) / 4096 := by
        rw [length_take, length_drop]
        omega
      have hrest : vaIdx / 4096 + (next - vaIdx) / 4096 = next / 4096 := by omega
      rw [if_neg hgo, filter_cons, hlen, drop_drop, hrest,
        ih (vaEnd - next) (by omega) hdvd hstep rfl]
      by_cases hblock : (next - vaIdx) / 4096 = 512
      · -- the round is the block with this number
        have hb : vaIdx / 4096 = 512 * ((vaIdx + (2 ^ 21 - 1)) / 2 ^ 21) := by omega
        have hfst : (next + (2 ^ 21 - 1)) / 2 ^ 21 = (vaIdx + (2 ^ 21 - 1)) / 2 ^ 21 + 1 := by omega
        have hcount : vaEnd / 2 ^ 21 - (vaIdx + (2 ^ 21 - 1)) / 2 ^ 21 =
            vaEnd / 2 ^ 21 - (next + (2 ^ 21 - 1)) / 2 ^ 21 + 1 := by omega
        rw [if_pos (decide_eq_true hblock), hcount, range'_succ, map_cons, hblock, hb, hfst,
          ← pagesOf]
      · -- no block begins in the round that lies in the mapping
        rw [if_neg (by rwa [decide_eq_true_eq])]
        have hsame : (next + (2 ^ 21 - 1)) / 2 ^ 21 = (vaIdx + (2 ^ 21 - 1)) / 2 ^ 21 ∨
            vaEnd / 2 ^ 21 - (next + (2 ^ 21 - 1)) / 2 ^ 21 = 0 ∧
              vaEnd / 2 ^ 21 - (vaIdx + (2 ^ 21 - 1)) / 2 ^ 21 = 0 := by omega
        rcases hsame with hsame | ⟨hnext, hidx⟩
        · rw [hsame]
        · rw [hnext, hidx, range'_zero, range'_zero]

theorem rounds_ne_nil {vaEnd vaIdx : ℕ} {pagemap : List ℕ} :
    ∀ raws ∈ rounds vaEnd vaIdx pagemap, raws ≠ [] := by
  fun_induction rounds vaEnd vaIdx pagemap with
  | case1 => exact fun raws h => by cases h
  | case2 vaIdx pagemap target hgo ih =>
    obtain ⟨hpos, hne⟩ := not_or.mp hgo
    refine forall_mem_cons.mpr ⟨?_, ih⟩
    rw [ne_eq, take_eq_nil_iff]
    exact not_or.mpr ⟨hpos, hne⟩

theorem flatten_roundsOf (m : List ℕ × Region) : (roundsOf m).flatten =
    (m.1.drop (m.2.vaStart / 4096)).take ((m.2.vaEnd - m.2.vaStart) / 4096) :=
  flatten_rounds m.2.end_dvd m.2.start_dvd m.2.le _

def blocksOf (ps : List Process) : List (List ℕ) :=
  (mappings ps).flatMap fun m => (blocksInside m.2).map (pagesOf m.1)

theorem zeroPages_foldl (rs : List (List ℕ)) (s : BaseScan) (hk : k < 512)
    (hne : ∀ raws ∈ rs, raws ≠ [])
    (hframe : ∀ raws ∈ rs, ∀ raw ∈ raws, raw.testBit 63 = true → 512 ≤ raw % 2 ^ 55) :
    (rs.foldl (scanRound kpageflags) s).stat.zeroPages k = s.stat.zeroPages k +
      (rs.filter (·.length = 512)).countP fun raws =>
        absent raws = k ∧ startsThp kpageflags raws = false := by
  induction rs generalizing s with
  | nil => rfl
  | cons raws rs ih =>
    obtain ⟨hne₀, hne⟩ := forall_mem_cons.mp hne
    obtain ⟨hframe₀, hframe⟩ := forall_mem_cons.mp hframe
    rw [foldl_cons, ih _ hne hframe, zeroPages_scanRound s hne₀ hk hframe₀, countP_filter,
      countP_filter, countP_cons]
    simp only [Bool.and_eq_true, decide_eq_true_eq, and_comm (a := raws.length = 512)]
    omega

theorem scanBase_eq (kpageflags : List ℕ) (ps : List Process) :
    scanBase kpageflags ps =
      ((mappings ps).flatMap roundsOf).foldl (scanRound kpageflags) .init := by
  rw [scanBase, foldl_flatMap]

theorem mem_pagemap_of_mem_rounds {m : List ℕ × Region} (hraws : raws ∈ roundsOf m) {raw : ℕ}
    (hraw : raw ∈ raws) : raw ∈ m.1 := by
  have hmem : raw ∈ (roundsOf m).flatten := mem_flatten.mpr ⟨raws, hraws, hraw⟩
  rw [flatten_roundsOf] at hmem
  exact mem_of_mem_drop (mem_of_mem_take hmem)

theorem scanBase_counts (kpageflags : List ℕ) (ps : List Process)
    (hfull : ∀ m ∈ mappings ps, m.2.vaEnd / 4096 ≤ m.1.length)
    (hframe : ∀ m ∈ mappings ps, ∀ raw ∈ m.1, raw.testBit 63 = true → 512 ≤ raw % 2 ^ 55) :
    (∀ k < 512, (scanBase kpageflags ps).stat.zeroPages k = (blocksOf ps).countP fun raws =>
      absent raws = k ∧ startsThp kpageflags raws = false) ∧
    ∀ m ∈ mappings ps, (roundsOf m).flatten =
      (range' (m.2.vaStart / 4096) ((m.2.vaEnd - m.2.vaStart) / 4096)).map (m.1.getD · 0) := by
  refine ⟨fun k hk => ?_, fun m hm => ?_⟩
  · have hblocks : ((mappings ps).flatMap roundsOf).filter (·.length = 512) = blocksOf ps := by
      rw [filter_flatMap, blocksOf]
      refine flatMap_congr fun m hm => ?_
      exact rounds_blocks m.2.end_dvd m.2.start_dvd m.2.le (hfull m hm)
    rw [scanBase_eq, zeroPages_foldl _ _ hk ?_ ?_, hblocks]
    · exact Nat.zero_add _
    · intro raws hraws
      obtain ⟨m, -, hraws⟩ := mem_flatMap.mp hraws
      exact rounds_ne_nil raws hraws
    · intro raws hraws raw hraw
      obtain ⟨m, hm, hraws⟩ := mem_flatMap.mp hraws
      exact hframe m hm raw (mem_pagemap_of_mem_rounds hraws hraw)
  · have hlen := hfull m hm
    have hle := m.2.le
    rw [flatten_roundsOf]
    refine ext_getElem? fun i => ?_
    rw [getElem?_take, getElem?_drop, getElem?_map]
    split_ifs with hlt
    · have hin : m.2.vaStart / 4096 + i < m.1.length := by omega
      rw [getElem?_range' hlt, Nat.one_mul, Option.map_some, getD_eq_getElem?_getD,
        getElem?_eq_getElem hin, Option.getD_some]
    · rw [getElem?_eq_none (by rw [length_range']; omega)]
      rfl

def onePage : List ℕ := replicate 511 0 ++ [2 ^ 63 + 512]

def oneBlock : Region := ⟨0, 2097152, Nat.dvd_zero 4096, Nat.dvd_of_mod_eq_zero rfl, Nat.zero_le _,
  Nat.le_of_ble_eq_true rfl⟩

theorem scanBase_counts_one : (scanBase [] [⟨onePage, [oneBlock]⟩]).stat.zeroPages 511 = 1 := by
  have hcount := (scanBase_counts [] [⟨onePage, [oneBlock]⟩] (by decide +kernel)
    (by decide +kernel)).1 511 (by decide)
  rw [hcount]
  decide +kernel

end Sysak.Pagescan
