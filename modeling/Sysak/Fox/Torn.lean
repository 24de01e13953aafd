/-
# Opening a file that a crash cut short
-/

import Sysak.Fox.Scan

namespace Sysak.Fox

open Lib List Option

def complete (es : List Entry) (size : ℕ) : ℕ :=
  Nat.findGreatest (fun c => off es c ≤ size) es.length

theorem complete_le (es : List Entry) (size : ℕ) : complete es size ≤ es.length :=
  Nat.findGreatest_le _

theorem off_complete_le (es : List Entry) (size : ℕ) : off es (complete es size) ≤ size := by
  have h₀ : off es 0 ≤ size := by simp
  exact Nat.findGreatest_spec (P := fun c => off es c ≤ size) (Nat.zero_le _) h₀

theorem lt_off_of_complete_lt {es : List Entry} {size c : ℕ} (h : complete es size < c)
    (hc : c ≤ es.length) : size < off es c :=
  Nat.lt_of_not_le (Nat.findGreatest_is_greatest (P := fun c => off es c ≤ size) h hc)

theorem take_content (es : List Entry) (size : ℕ) :
    (content es).take size = content (es.take (complete es size)) ++
      (content (es.drop (complete es size))).take (size - off es (complete es size)) := by
  have hsplit : content es =
      content (es.take (complete es size)) ++ content (es.drop (complete es size)) := by
    rw [← content_append, take_append_drop]
  have hlen : (content (es.take (complete es size))).length = off es (complete es size) := rfl
  conv_lhs => rw [hsplit, take_append, hlen,
    take_of_length_le (hlen ▸ off_complete_le es size)]

def nextOffsets (file : Bytes) : ℕ → ℕ → List ℕ
  | 0, _ => []
  | fuel + 1, o =>
    let (ret, head) := foxReadHead file o ⟨0, 0, 0, 0, 0, 0⟩
    if 0 < ret then o :: nextOffsets file fuel head.next.toNat else []

theorem Framed.nextOffsets_eq {es : List Entry} (hf : Framed es) (n : ℕ) :
    ∀ (i fuel : ℕ), i + n = es.length →
      nextOffsets (content es) (fuel + n + 1) (off es i) = (range' i n).map (off es) := by
  induction n with
  | zero =>
    intro i fuel hi
    obtain rfl : i = es.length := hi
    rw [nextOffsets, foxReadHead_eof (off_length es).ge]
    rfl
  | succ n ih =>
    intro i fuel hi
    rw [show fuel + (n + 1) + 1 = fuel + n + 1 + 1 by omega, nextOffsets,
      hf.readable_content i (by omega)]
    simp only [headSize_pos, if_true, hf.next i (by omega)]
    rw [ih (i + 1) fuel (by omega), range'_succ, map_cons]

theorem Framed.nextOffsets_content {es : List Entry} (hf : Framed es) :
    nextOffsets (content es) ((content es).length + 1) 0 = (range es.length).map (off es) := by
  have hle := length_le_content es
  have h := hf.nextOffsets_eq es.length 0 ((content es).length - es.length) (Nat.zero_add _)
  rwa [Nat.sub_add_cancel hle, off_zero, ← range_eq_range'] at h

section Torn

variable {es : List Entry} {size : ℕ}

theorem foxCheckHead_torn_head (hf : Framed es) (h₁ : off es (complete es size) < size)
    (h₂ : size < off es (complete es size) + headSize) (hsize : size ≤ (content es).length)
    (man : FoxManager) :
    foxCheckHead ((content es).take size) man = some (-EACCES, man) := by
  have hlen : ((content es).take size).length = size := by
    rw [length_take, Nat.min_eq_left hsize]
  rw [take_content] at hlen ⊢
  obtain ⟨fuel, hfuel, heq⟩ := foxCheckHead_eq (hf.take (complete es size)) _ man
  obtain ⟨fuel, rfl⟩ : ∃ m, fuel = m + 1 := ⟨fuel - 1, by omega⟩
  have hoff : (content (es.take (complete es size))).length = off es (complete es size) := rfl
  rw [heq, foxCheckHeadLoop, foxReadHead_short (by rw [hlen, hoff]; exact h₁)
    (by rw [hlen, hoff]; exact h₂)]
  rfl

theorem foxCheckHead_torn_data (hf : Framed es) (h₁ : off es (complete es size) + headSize ≤ size)
    (hlt : complete es size < es.length) (man : FoxManager) :
    ∃ man', foxCheckHead ((content es).take size) man = some (0, man') ∧
      man'.pos = off es (complete es size + 1) := by
  have hnext : size < off es (complete es size + 1) :=
    lt_off_of_complete_lt (Nat.lt_succ_self _) hlt
  have hlen : ((content es).take size).length ≤ size := by
    rw [length_take]
    omega
  rw [take_content] at hlen ⊢
  generalize complete es size = c at *
  obtain ⟨fuel, hfuel, heq⟩ := foxCheckHead_eq (hf.take c)
    ((content (es.drop c)).take (size - off es c)) man
  obtain ⟨fuel, rfl⟩ : ∃ m, fuel = m + 2 := ⟨fuel - 2, by omega⟩
  -- the header of the cut record is whole
  have hdrop : (content (es.take c) ++ (content (es.drop c)).take (size - off es c)).drop
      (content (es.take c)).length = es[c].head.encode ++
        ((es[c].data ++ content (es.drop (c + 1))).take (size - off es c - headSize)) := by
    rw [drop_left, drop_eq_getElem_cons hlt]
    show ((es[c].head.encode ++ es[c].data) ++ content (es.drop (c + 1))).take _ = _
    rw [append_assoc, take_append, take_of_length_le (by simp; omega),
      FoxHead.length_encode]
  rw [heq, foxCheckHeadLoop, foxReadHead_encode hdrop (hf.magic c hlt)]
  simp only [headSize_pos, if_true, hf.next c hlt]
  rw [foxCheckHeadLoop, foxReadHead_eof (by omega)]
  exact ⟨_, rfl, rfl⟩

end Torn

def Recovers (gmtoff : ℤ) (fs : Fs) (man : FoxManager) (d : FoxDate) (now : UInt64)
    (es : List Entry) (size : ℕ) : Prop :=
  ∃ ret man' fs', foxSetupWrite .ok fs man d now = some (ret, man', fs') ∧ (0 ≤ ret →
    man'.pos = size ∧
      nextOffsets ((content es).take size) (size + 1) 0 =
        (range (complete es size)).map (off es) ∧
      ∀ ss, (∀ p ∈ es.map Entry.pair, OfDay gmtoff d p) → (∀ s ∈ ss, OfDay gmtoff d s.pair) →
        size + sampleBytes (accepted now ss) < 2 ^ 31 →
        ∃ man'' fs'', foxWrites fs' man' d ss = some (man'', fs'') ∧
          ReadsDay gmtoff fs'' d ((es.take (complete es size)).map Entry.pair ++
            (accepted now ss).map Sample.pair))

section Recovers

variable {es : List Entry} {size : ℕ} {gmtoff : ℤ} {fs : Fs} {d : FoxDate}

theorem foxSetupWrite_err {file : Bytes} (hfile : fs (packFname d) = some file)
    (h : ∀ man, foxCheckHead file man = some (-EACCES, man)) (man : FoxManager) (now : UInt64) :
    ∃ man' fs', foxSetupWrite .ok fs man d now = some (-EACCES, man', fs') := by
  refine ⟨{ man with fd := none }, openCreate fs (packFname d), ?_⟩
  simp only [foxSetupWrite, foxCheck, SetupIO.ok, hfile, getD_some, h]
  rfl

theorem foxSetupWrite_pos {file : Bytes} (hfile : fs (packFname d) = some file) {pos : ℕ}
    (h : ∀ man, ∃ man', foxCheckHead file man = some (0, man') ∧ man'.pos = pos)
    (man : FoxManager) (now : UInt64) :
    ∃ man' fs', foxSetupWrite .ok fs man d now = some (0, man', fs') ∧ man'.pos = pos := by
  obtain ⟨man₁, hwalk, hpos⟩ := h { man with fd := some (packFname d) }
  refine ⟨{ man₁ with year := d.year, mon := d.mon, mday := d.mday, now := now },
    openCreate fs (packFname d), ?_, hpos⟩
  simp only [foxSetupWrite, foxCheck, SetupIO.ok, hfile, getD_some, hwalk]
  rfl

theorem recovers_boundary (hf : Framed es)
    (hfile : fs (packFname d) = some ((content es).take size))
    (hcut : size = off es (complete es size)) (man : FoxManager) (now : UInt64) :
    Recovers gmtoff fs man d now es size := by
  have hboundary : (content es).take size = content (es.take (complete es size)) := by
    rw [take_content, ← hcut, Nat.sub_self, take_zero, append_nil]
  have hlen : (content (es.take (complete es size))).length = size := hcut.symm
  have hfr := hf.take (complete es size)
  have hmin : (es.take (complete es size)).length = complete es size := by
    rw [length_take, Nat.min_eq_left (complete_le es size)]
  rw [hboundary] at hfile
  refine ⟨0, _, _, foxSetupWrite_content (by rw [hfile]; rfl) hfr man now, fun _ => ⟨hlen, ?_, ?_⟩⟩
  · have hwalk := hfr.nextOffsets_content
    rw [hlen, hmin] at hwalk
    rw [hboundary, hwalk]
    exact map_congr_left fun i hi =>
      offset_take Entry.bytes (Nat.le_of_lt (mem_range.mp hi))
  · intro ss hes hss hsize
    refine (WriterOn.of_setup (d := d) hfr fs man now).writes_readsDay (fun p hp => hes p ?_) hss ?_
    · exact (map_subset _ (take_subset _ _)) hp
    · rw [hlen]
      exact hsize

theorem foxSetupWrite_torn_iff (hf : Framed es) (hsize : size ≤ (content es).length)
    (hfile : fs (packFname d) = some ((content es).take size)) (man : FoxManager) (now : UInt64) :
    Recovers gmtoff fs man d now es size ↔
      ∀ i < es.length, ¬ (off es i + headSize ≤ size ∧ size < off es (i + 1)) := by
  have hle := off_complete_le es size
  have hc := complete_le es size
  constructor
  · intro h i hi ⟨h₁, h₂⟩
    -- the cut record is the first that is not complete
    have hci : complete es size = i := by
      by_contra hne
      rcases Nat.lt_or_gt_of_ne hne with hlt | hgt
      · have := lt_off_of_complete_lt hlt hi.le
        omega
      · have := off_mono es (show i + 1 ≤ complete es size from hgt)
        omega
    subst hci
    obtain ⟨man₁, fs₁, hcall, hpos⟩ := foxSetupWrite_pos hfile
      (foxCheckHead_torn_data hf h₁ hi) man now
    obtain ⟨ret, man', fs', hcall', hgood⟩ := h
    rw [hcall] at hcall'
    cases hcall'
    have := (hgood le_rfl).1
    omega
  · intro hcut
    rcases Nat.eq_or_lt_of_le hle with heq | hlt
    · exact recovers_boundary hf hfile heq.symm man now
    · have hlast : complete es size < es.length := by
        refine Nat.lt_of_le_of_ne hc fun heq => ?_
        rw [heq, off_length] at hlt
        omega
      have hnext : size < off es (complete es size + 1) :=
        lt_off_of_complete_lt (Nat.lt_succ_self _) hlast
      have hhead : size < off es (complete es size) + headSize := by
        by_contra hge
        exact hcut _ hlast ⟨Nat.le_of_not_lt hge, hnext⟩
      obtain ⟨man', fs', hcall⟩ := foxSetupWrite_err hfile
        (foxCheckHead_torn_head hf hlt hhead hsize) man now
      exact ⟨_, man', fs', hcall, fun h => absurd h (by decide)⟩

end Recovers

def tornFs (size : ℕ) : Fs :=
  Function.update (fun _ => none) (packFname sampleDate)
    (some ((content (samplePair 1671000000000000 1671000000000010)).take size))

theorem foxSetupWrite_torn_sample :
    Recovers 0 (tornFs 25) .zero sampleDate 1671000000000020
      (samplePair 1671000000000000 1671000000000010) 25 :=
  (foxSetupWrite_torn_iff (linked_samplePair ..).toFramed (by decide) (Function.update_self ..)
    .zero _).mpr (by decide)

theorem foxSetupWrite_torn_past_end :
    (∃ man' fs', foxSetupWrite .ok (tornFs 24) .zero sampleDate 1671000000000020 =
        some (0, man', fs') ∧ man'.pos = 25 ∧ (fs' (packFname sampleDate)).map List.length = some 24) ∧
      ¬ Recovers 0 (tornFs 24) .zero sampleDate 1671000000000020
        (samplePair 1671000000000000 1671000000000010) 24 := by
  have hcall : ∃ man' fs', foxSetupWrite .ok (tornFs 24) .zero sampleDate 1671000000000020 =
      some (0, man', fs') ∧ man'.pos = 25 ∧
        (fs' (packFname sampleDate)).map List.length = some 24 :=
    ⟨_, _, rfl, by decide, by decide⟩
  refine ⟨hcall, fun ⟨ret, man', fs', hcall', hgood⟩ => ?_⟩
  obtain ⟨man₁, fs₁, hcall, hpos, -⟩ := hcall
  rw [hcall] at hcall'
  cases hcall'
  have := (hgood le_rfl).1
  omega

end Sysak.Fox
