/-
# Reading forward
-/

import Sysak.Fox.Recovery
import Sysak.Fox.Reader

namespace Sysak.Fox

open List

def nowAt (dayMax : UInt64) (es : List Entry) (k i : ℕ) : UInt64 :=
  if i < k then (es[i]?.map fun e => e.head.tUs).getD dayMax else dayMax

variable {es : List Entry}

theorem nowAt_of_lt {k i : ℕ} (dayMax : UInt64) (hi : i < k) (hk : k ≤ es.length) :
    nowAt dayMax es k i = es[i].head.tUs := by
  rw [nowAt, if_pos hi, getElem?_eq_getElem (by omega)]
  rfl

theorem nowAt_of_ge {k i : ℕ} (dayMax : UInt64) (es : List Entry) (h : k ≤ i) :
    nowAt dayMax es k i = dayMax := by
  rw [nowAt, if_neg (by omega)]

def HasPayload (file : Bytes) (es : List Entry) (i : ℕ) : Prop :=
  ∀ h : i < es.length,
    (file.drop (off es i + headSize)).take es[i].data.length = es[i].data

theorem hasPayload_content (es : List Entry) (rest : Bytes) (i : ℕ) :
    HasPayload (content es ++ rest) es i := by
  intro h
  rw [← drop_drop, drop_off_of_lt h, drop_left' (FoxHead.length_encode _),
    take_left]

variable {file : Bytes}

theorem foxReadStream_of_hasPayload {i : ℕ} (hp : HasPayload file es i) (h : i < es.length)
    (junk : Junk) :
    foxReadStream junk file (off es i + headSize) es[i].data.length = es[i].data := by
  rw [foxReadStream]
  simp only [hp h, Nat.sub_self, range_zero, map_nil, append_nil]

variable {stop : UInt64}

section Step

variable (gmtoff : ℤ) (junk : Junk) {file : Bytes} {es : List Entry} {man : FoxManager}
  {i k : ℕ}

theorem foxCurNext_at (hr : Readable file es) (hf : Framed es) (hi : i < k) (hk : k ≤ es.length)
    (hsize : man.fsize = off es k) (hsmall : i + 1 < k → off es (i + 1) < 2 ^ 31) :
    ∃ ret, 0 ≤ ret ∧ foxCurNext gmtoff junk file man es[i].head =
      (ret, { man with
        pos := off es (i + 1)
        now := nowAt (foxReadDayMax gmtoff man) es k (i + 1) }) := by
  have hnext := hf.next i (by omega)
  by_cases hlast : i + 1 < k
  · have hlt : off es (i + 1) < off es k := off_lt hlast hk
    refine ⟨headSize, by decide, ?_⟩
    simp only [foxCurNext, hnext, hsize, hlt, if_true, lseekInt_nonneg (hsmall hlast), if_false,
      hr (i + 1) (by omega), nowAt_of_lt _ hlast hk]
    rfl
  · obtain rfl : k = i + 1 := by omega
    refine ⟨0, le_rfl, ?_⟩
    simp only [foxCurNext, hnext, hsize, lt_irrefl, if_false, nowAt_of_ge _ es (le_refl (i + 1))]
    rfl

theorem foxCurNext_err (hf : Framed es) (hk : k ≤ es.length) (hsize : man.fsize = off es k)
    (hlast : i + 1 < k) (hbig : 2 ^ 31 ≤ off es (i + 1)) :
    (foxCurNext gmtoff junk file man es[i].head).1 < 0 := by
  have hneg := lseekInt_neg hbig (hf.off_lt _)
  simp only [foxCurNext, hf.next i (by omega), hsize, off_lt hlast hk, if_true, hneg]

theorem toInt_payload (hf : Framed es) (hi : i < es.length)
    (hlen : es[i].data.length < 2 ^ 31) :
    toInt (es[i].head.next.toNat - off es i - headSize) = es[i].data.length := by
  rw [hf.next i hi, off_succ hi, toInt_of_lt] <;> push_cast <;> omega

theorem foxRead_at (hr : Readable file es) (hf : Framed es) (hp : HasPayload file es i) (hi : i < k)
    (hk : k ≤ es.length) (hpos : man.pos = off es i) (hsize : man.fsize = off es k)
    (hsmall : off es i < 2 ^ 31) (hsmall' : i + 1 < k → off es (i + 1) < 2 ^ 31)
    (hlen : es[i].data.length < 2 ^ 31) (hnow : man.now ≤ stop) :
    foxRead gmtoff junk file man stop =
      (⟨es[i].data.length, es[i].head.tUs, es[i].data⟩, { man with
        pos := off es (i + 1)
        now := nowAt (foxReadDayMax gmtoff man) es k (i + 1) }) := by
  obtain ⟨ret, hret, hcur⟩ :=
    foxCurNext_at gmtoff junk hr hf hi hk hsize hsmall'
  have hsz := toInt_payload hf (show i < es.length by omega) hlen
  simp only [foxRead, hnow, if_true, hpos, lseekInt_nonneg hsmall, if_false,
    hr i (show i < es.length by omega), headSize_not_neg, hsz,
    show ¬ ((es[i].data.length : ℤ) < 0) by omega, Int.toNat_natCast,
    foxReadStream_of_hasPayload hp (show i < es.length by omega), hcur,
    show ¬ ret < 0 by omega]

theorem foxRead_stop (hnow : stop < man.now) :
    foxRead gmtoff junk file man stop = (⟨0, 0, []⟩, man) := by
  rw [foxRead, if_neg (UInt64.not_le.mpr hnow)]

theorem foxRead_seek_err (hbig : 2 ^ 31 ≤ man.pos) (hlt : man.pos < 2 ^ 32) {stop : UInt64}
    (hnow : man.now ≤ stop) : (foxRead gmtoff junk file man stop).1.ret < 0 := by
  rw [foxRead, if_pos hnow, if_pos (lseekInt_neg hbig hlt)]
  exact show -EACCES < 0 by decide

theorem foxRead_next_err (hr : Readable file es) (hf : Framed es) (hk : k ≤ es.length)
    (hpos : man.pos = off es i) (hsize : man.fsize = off es k) (hlast : i + 1 < k)
    (hsmall : off es i < 2 ^ 31) (hlen : es[i].data.length < 2 ^ 31)
    (hbig : 2 ^ 31 ≤ off es (i + 1)) (hnow : man.now ≤ stop) :
    (foxRead gmtoff junk file man stop).1.ret < 0 := by
  have hcur : (foxCurNext gmtoff junk file man es[i].head).1 < 0 :=
    foxCurNext_err gmtoff junk hf hk hsize hlast hbig
  have hsz := toInt_payload hf (show i < es.length by omega) hlen
  simp only [foxRead, hnow, if_true, hpos, lseekInt_nonneg hsmall, if_false,
    hr i (show i < es.length by omega), headSize_not_neg, hsz,
    show ¬ ((es[i].data.length : ℤ) < 0) by omega, hcur]

end Step

def readAll (gmtoff : ℤ) (junk : Junk) (file : Bytes) (stop : UInt64) :
    ℕ → FoxManager → Option (List (UInt64 × Bytes))
  | 0, _ => none
  | fuel + 1, man =>
    if man.pos = man.fsize then
      some []
    else
      let (r, man') := foxRead gmtoff junk file man stop
      if r.ret < 0 then
        none
      else
        (readAll gmtoff junk file stop fuel man').map fun rs =>
          if 0 < r.ret then (r.us, r.data) :: rs else rs

theorem readAll_from (gmtoff : ℤ) (junk : Junk) (hf : Framed es)
    (hsize : (content es).length < 2 ^ 31) (hdata : ∀ e ∈ es, e.data ≠ []) (n : ℕ) :
    ∀ (i : ℕ) (man : FoxManager), i + n = es.length → man.pos = off es i →
      man.fsize = (content es).length → (i < es.length → man.now ≤ stop) →
      (∀ j (h : j < es.length), i < j → es[j].head.tUs ≤ stop) → ∀ fuel,
      readAll gmtoff junk (content es) stop (fuel + n + 1) man =
        some ((es.drop i).map Entry.pair) := by
  have hsmall (j : ℕ) : off es j < 2 ^ 31 := lt_of_le_of_lt (off_le_length es j) hsize
  induction n with
  | zero =>
    intro i man hi hpos hfsize _ _ fuel
    obtain rfl : i = es.length := by omega
    rw [readAll, if_pos (by rw [hpos, hfsize, off_length]), drop_length]
    rfl
  | succ n ih =>
    intro i man hi hpos hfsize hnow hstop fuel
    have hlt : i < es.length := by omega
    have hne : man.pos ≠ man.fsize := by
      rw [hpos, hfsize, ← off_length]
      exact Nat.ne_of_lt (off_lt hlt le_rfl)
    have hlen : es[i].data.length < 2 ^ 31 := by
      have h₁ := off_succ hlt
      have h₂ := hsmall (i + 1)
      omega
    have hpos' : 0 < es[i].data.length :=
      length_pos_iff.mpr (hdata _ (getElem_mem hlt))
    have hread := foxRead_at gmtoff junk
      hf.readable_content hf (by simpa using hasPayload_content es [] i) hlt le_rfl hpos
      (by rw [hfsize, off_length]) (hsmall i) (fun _ => hsmall (i + 1)) hlen (hnow hlt)
    have hrest := ih (i + 1) { man with
        pos := off es (i + 1)
        now := nowAt (foxReadDayMax gmtoff man) es es.length (i + 1) }
      (by omega) rfl hfsize
      (fun h => by
        rw [nowAt_of_lt _ h le_rfl]
        exact hstop _ h (Nat.lt_succ_self i))
      (fun j hj hij => hstop j hj (by omega)) fuel
    rw [readAll, if_neg hne, hread]
    simp only [show ¬ ((es[i].data.length : ℤ) < 0) by omega, if_false,
      show (0 : ℤ) < (es[i].data.length : ℤ) by omega, if_true]
    rw [show fuel + (n + 1) = fuel + n + 1 by omega, hrest, drop_eq_getElem_cons hlt]
    rfl

def FoxManager.rewound (man : FoxManager) (gmtoff : ℤ) (d : FoxDate) (size : ℕ) : FoxManager :=
  { man with
    now := dayFirst gmtoff d
    pos := 0
    lastPos := 0
    fsize := size
    fd := some (packFname d)
    year := d.year
    mon := d.mon
    mday := d.mday }

@[simp] theorem FoxManager.rewound_now (man : FoxManager) (gmtoff : ℤ) (d : FoxDate) (size : ℕ) :
    (man.rewound gmtoff d size).now = dayFirst gmtoff d := rfl

variable {fs : Fs} {d : FoxDate}

theorem foxSetupRead_eq (hfile : fs (packFname d) = some file) (gmtoff : ℤ) (junk : Junk)
    (man : FoxManager) (now : UInt64) :
    foxSetupRead gmtoff junk fs man d now =
      (foxCursor gmtoff junk file (man.rewound gmtoff d file.length) now).map fun (ret, man') =>
        if ret < 0 then (ret, { man' with fd := none }) else (ret, man') := by
  rw [foxSetupRead, hfile]
  rfl

theorem foxSetupRead_dayFirst (hfile : fs (packFname d) = some file) (gmtoff : ℤ) (junk : Junk)
    (man : FoxManager) :
    foxSetupRead gmtoff junk fs man d (dayFirst gmtoff d) =
      some (0, man.rewound gmtoff d file.length) := by
  have hcur : foxCursor gmtoff junk file (man.rewound gmtoff d file.length) (dayFirst gmtoff d) =
      some (0, man.rewound gmtoff d file.length) := by
    rw [foxCursor, FoxManager.rewound_now, if_neg (UInt64.lt_irrefl _),
      if_neg (UInt64.lt_irrefl _)]
  rw [foxSetupRead_eq hfile, hcur]
  rfl

def ReadsDay (gmtoff : ℤ) (fs : Fs) (d : FoxDate) (rs : List (UInt64 × Bytes)) : Prop :=
  ∀ junk man, ∃ man' file, fs (packFname d) = some file ∧
    foxSetupRead gmtoff junk fs man d (dayFirst gmtoff d) = some (0, man') ∧
    readAll gmtoff junk file (dayEnd gmtoff d - 1) (file.length + 1) man' = some rs

def OfDay (gmtoff : ℤ) (d : FoxDate) (p : UInt64 × Bytes) : Prop :=
  p.2 ≠ [] ∧ dayFirst gmtoff d ≤ p.1 ∧ p.1 ≤ dayEnd gmtoff d - 1

instance (gmtoff : ℤ) (d : FoxDate) : DecidablePred (OfDay gmtoff d) :=
  fun _ => inferInstanceAs (Decidable (_ ∧ _ ∧ _))

theorem Framed.readsDay (hf : Framed es) {gmtoff : ℤ} (hfile : fs (packFname d) = some (content es))
    (hsize : (content es).length < 2 ^ 31) (hday : ∀ p ∈ es.map Entry.pair, OfDay gmtoff d p) :
    ReadsDay gmtoff fs d (es.map Entry.pair) := by
  have hday' (e : Entry) (he : e ∈ es) : OfDay gmtoff d e.pair :=
    hday _ (mem_map_of_mem he)
  intro junk man
  refine ⟨_, _, hfile, foxSetupRead_dayFirst hfile gmtoff junk man, ?_⟩
  have hle := length_le_content es
  have hread := readAll_from gmtoff junk hf hsize (fun e he => (hday' e he).1) es.length 0
    (man.rewound gmtoff d (content es).length) (Nat.zero_add _) rfl rfl
    (fun h => UInt64.le_trans (hday' es[0] (getElem_mem h)).2.1
      (hday' es[0] (getElem_mem h)).2.2)
    (fun j h _ => (hday' es[j] (getElem_mem h)).2.2) ((content es).length - es.length)
  rw [Nat.sub_add_cancel hle] at hread
  exact hread

variable {ss : List Sample}

theorem mem_accepted {now : UInt64} {s : Sample} (h : s ∈ accepted now ss) : s ∈ ss := by
  induction ss generalizing now with
  | nil => exact h
  | cons s' ss ih =>
    rw [accepted] at h
    split_ifs at h
    · rcases mem_cons.mp h with rfl | h
      · exact mem_cons_self ..
      · exact mem_cons_of_mem _ (ih h)
    · exact mem_cons_of_mem _ (ih h)

theorem length_content_of_pairs (h : es.map Entry.pair = ss.map Sample.pair) :
    (content es).length = sampleBytes ss := by
  have hes : (content es).length = ((es.map Entry.pair).map fun p => headSize + p.2.length).sum := by
    rw [content, List.length_flatMap, map_map]
    simp only [Entry.length_bytes]
    rfl
  rw [hes, h, map_map]
  rfl

theorem WriterOn.writes_readsDay {gmtoff : ℤ} {man : FoxManager}
    (hw : WriterOn fs man d (packFname d) es) (hes : ∀ p ∈ es.map Entry.pair, OfDay gmtoff d p)
    (hss : ∀ s ∈ ss, OfDay gmtoff d s.pair)
    (hsize : (content es).length + sampleBytes (accepted man.now ss) < 2 ^ 31) :
    ∃ man' fs', foxWrites fs man d ss = some (man', fs') ∧
      ReadsDay gmtoff fs' d (es.map Entry.pair ++ (accepted man.now ss).map Sample.pair) := by
  obtain ⟨man', fs', new, hrun, hon, hnew, -, -⟩ := foxWrites_spec ss hw (by omega)
  refine ⟨man', fs', hrun, ?_⟩
  have hlen : (content (es ++ new)).length < 2 ^ 31 := by
    rw [content_append, length_append, length_content_of_pairs hnew]
    exact hsize
  rw [← hnew, ← map_append]
  refine hon.framed.readsDay hon.file hlen fun p hp => ?_
  rw [map_append, mem_append, hnew] at hp
  rcases hp with hp | hp
  · exact hes p hp
  · obtain ⟨s, hs, rfl⟩ := mem_map.mp hp
    exact hss s (mem_accepted hs)

theorem write_read_roundtrip {gmtoff : ℤ} {fs : Fs} {d : FoxDate} {ss : List Sample}
    (hfs : fs (packFname d) = none) (man : FoxManager) (now : UInt64)
    (hss : ∀ s ∈ ss, OfDay gmtoff d s.pair)
    (hsize : sampleBytes (accepted now ss) < 2 ^ 31) :
    ∃ man₁ fs₁ man₂ fs₂, foxSetupWrite .ok fs man d now = some (0, man₁, fs₁) ∧
      foxWrites fs₁ man₁ d ss = some (man₂, fs₂) ∧
      ReadsDay gmtoff fs₂ d ((accepted now ss).map Sample.pair) := by
  have hempty : (fs (packFname d)).getD [] = content [] := by
    rw [hfs]
    rfl
  have hw := WriterOn.of_setup (d := d) framed_nil fs man now
  obtain ⟨man₂, fs₂, hrun, hread⟩ := hw.writes_readsDay (by simp) hss (by
    show 0 + sampleBytes (accepted now ss) < 2 ^ 31
    omega)
  exact ⟨_, _, man₂, fs₂, foxSetupWrite_content hempty framed_nil man now, hrun, hread⟩

def sampleWrites : List Sample :=
  [⟨1671000000000001, [7], 0⟩, ⟨1671000000000000, [8], 0⟩, ⟨1671000000000002, [9, 9], 0⟩]

theorem write_read_roundtrip_sample :
    ∃ man₁ fs₁ man₂ fs₂,
      foxSetupWrite .ok (fun _ => none) .zero sampleDate 1671000000000000 =
        some (0, man₁, fs₁) ∧
      foxWrites fs₁ man₁ sampleDate sampleWrites = some (man₂, fs₂) ∧
      ReadsDay 0 fs₂ sampleDate [(1671000000000001, [7]), (1671000000000002, [9, 9])] :=
  write_read_roundtrip rfl .zero 1671000000000000 (by decide) (by decide)

end Sysak.Fox
