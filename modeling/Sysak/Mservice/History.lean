/-
# Where the history begins to be printed
-/

import Sysak.Lib.CString
import Sysak.Lib.Fgets
import Sysak.Lib.Halving
import Sysak.Mservice.Items
import Sysak.Mservice.Record

namespace Sysak.Mservice

open Lib List

def len10M : ℕ := 10485760

inductive Probe where
  | found (pos : ℕ)
  | left (pos : ℕ)
  | right (pos : ℕ)
  | format (pos : ℕ)
  | untaken (pos : ℕ)
  | fatal
deriving Repr, DecidableEq

inductive Search where
  | fatal
  | ret (code : ℕ) (printFileNumber : Option ℤ) (pos : ℕ)
deriving Repr, DecidableEq

structure History where
  file : Bytes
  lineLen : ℕ
  tToken : ℤ
  number : ℤ
  errno : Bool

namespace History

variable (h : History)

def probe (offset : ℕ) : Probe :=
  match fgetsLines len10M (h.file.drop offset) with
  | skipped :: line :: _ =>
    let pos := offset + skipped.length + line.length
    if stringAt line ≠ [] ∧ h.lineLen < offset then
      match strpbrk (stringAt line) sectionSplit with
      | some i =>
        let tGet := atol (line.take i)
        if |tGet - h.tToken| ≤ 60 then .found pos
        else if h.tToken < tGet then .left pos
        else .right pos
      | none => .format pos
    else .untaken pos
  | skipped => if h.errno then .fatal else .untaken (offset + skipped.flatten.length)

def notTaken (offStart offEnd pos : ℕ) : Search :=
  if offEnd = h.file.length then
    if 0 < h.number then .ret 2 (some (h.number - 1)) pos else .ret 3 none pos
  else if offStart = 0 then .ret 1 (some h.number) pos
  else .ret 6 none pos

def notMoved (offStart pos : ℕ) : Search :=
  if offStart = 0 then .ret 6 none pos else .ret 4 (some h.number) pos

def loop : ℕ → ℕ → ℕ → Option Search
  | 0, _, _ => none
  | fuel + 1, offStart, offEnd =>
    let offset := (offStart + offEnd) / 2
    match h.probe offset with
    | .fatal => some .fatal
    | .format pos => some (.ret 5 none pos)
    | .untaken pos => some (h.notTaken offStart offEnd pos)
    | .found pos => some (.ret 0 (some h.number) pos)
    | .left pos =>
      if offset = (offStart + offset) / 2 then some (h.notMoved offStart pos)
      else loop fuel offStart offset
    | .right pos =>
      if offset = (offset + offEnd) / 2 then some (h.notMoved offset pos)
      else loop fuel offset offEnd

end History

def findOffsetFromStart (file : Bytes) (tToken number : ℤ) (errno : Bool) : Option Search :=
  match fgetsLines len10M file with
  | [] => some .fatal
  | line :: _ =>
    (History.mk file (stringAt line).length tToken number errno).loop (file.length + 1) 0
      file.length

namespace History

variable (h : History)

def verdict (offset : ℕ) : Verdict :=
  match h.probe offset with
  | .found _ => .hit
  | .left _ => .left
  | .right _ => .right
  | _ => .stop

theorem loop_isSome (fuel : ℕ) : ∀ s e : ℕ,
    (h.loop fuel s e).isSome = (halve h.verdict fuel s e).isSome := by
  induction fuel with
  | zero => exact fun _ _ => rfl
  | succ fuel ih =>
    intro s e
    rw [loop, halve, verdict]
    cases h.probe ((s + e) / 2) with
    | left pos =>
      simp only
      split_ifs
      · rfl
      · exact ih _ _
    | right pos =>
      simp only
      split_ifs
      · rfl
      · exact ih _ _
    | _ => rfl

theorem notTaken_ne (s e pos pos' : ℕ) (p : Option ℤ) : h.notTaken s e pos ≠ .ret 0 p pos' := by
  rw [notTaken]
  split_ifs <;> simp

theorem notMoved_ne (s pos pos' : ℕ) (p : Option ℤ) : h.notMoved s pos ≠ .ret 0 p pos' := by
  rw [notMoved]
  split_ifs <;> simp

theorem loop_eq_zero_iff (fuel : ℕ) {p : Option ℤ} {pos : ℕ} : ∀ {s e : ℕ},
    h.loop fuel s e = some (.ret 0 p pos) ↔
      ∃ x, halve h.verdict fuel s e = some (.hit x) ∧ h.probe x = .found pos ∧
        p = some h.number := by
  induction fuel with
  | zero => simp [loop, halve]
  | succ fuel ih =>
    intro s e
    rw [loop, halve]
    cases hprobe : h.probe ((s + e) / 2) with
    | found pos' =>
      simp only [verdict, hprobe, Option.some.injEq, Search.ret.injEq, Outcome.hit.injEq,
        true_and, exists_eq_left', Probe.found.injEq]
      rw [and_comm, eq_comm (a := p)]
    | left pos' =>
      simp only [verdict, hprobe]
      split_ifs
      · simp [h.notMoved_ne]
      · exact ih
    | right pos' =>
      simp only [verdict, hprobe]
      split_ifs
      · simp [h.notMoved_ne]
      · exact ih
    | untaken pos' => simp [verdict, hprobe, h.notTaken_ne]
    | format pos' => simp [verdict, hprobe]
    | fatal => simp [verdict, hprobe]

end History

theorem findOffsetFromStart_isSome (file : Bytes) (tToken number : ℤ) (errno : Bool) :
    (findOffsetFromStart file tToken number errno).isSome := by
  rw [findOffsetFromStart]
  split
  · rfl
  · rw [History.loop_isSome]
    exact halve_isSome _ (Nat.zero_le _) (by omega)

structure DataLine where
  time : ℤ
  rest : Bytes
  newline_free : 10 ∉ rest
  nul_free : 0 ∉ rest
  fits : (decInt time ++ sectionSplit :: rest).length + 1 < len10M

namespace DataLine

variable (l : DataLine)

def body (l : DataLine) : Bytes := decInt l.time ++ sectionSplit :: l.rest

def text (l : DataLine) : Bytes := l.body ++ [10]

theorem newline_notMem_body : 10 ∉ l.body := by
  rw [body, mem_append, mem_cons, not_or, not_or]
  exact ⟨not_mem_decInt (by decide) (by decide) _, by decide, l.newline_free⟩

theorem nul_notMem_text : 0 ∉ l.text := by
  rw [text, body, mem_append, mem_append, mem_cons, not_or, not_or, not_or]
  exact ⟨⟨not_mem_decInt (by decide) (by decide) _, by decide, l.nul_free⟩, by decide⟩

theorem stringAt_text : stringAt l.text = l.text := by
  rw [stringAt, takeWhile_eq_self_iff]
  intro c hc
  rw [bne_iff_ne]
  rintro rfl
  exact l.nul_notMem_text hc

theorem time_text : strpbrk l.text sectionSplit = some (decInt l.time).length ∧
    atol (l.text.take (decInt l.time).length) = l.time := by
  have htext : l.text = decInt l.time ++ sectionSplit :: (l.rest ++ [10]) := by
    rw [text, body, append_assoc, cons_append]
  constructor
  · rw [htext, strpbrk_append_cons (sectionSplit_notMem_decInt _)]
  · have hnum := atol_decInt l.time (s := []) (fun c hc => absurd hc (by simp))
    rw [append_nil] at hnum
    rw [htext, take_left, hnum]

theorem length_text : 3 ≤ l.text.length := by
  have hpos : 0 < (decInt l.time).length := by
    cases l.time with
    | ofNat n => exact length_dec_pos n
    | negSucc n => exact Nat.succ_pos _
  rw [text, body]
  simp only [length_append, length_cons, length_nil]
  omega

end DataLine

def fileText (lines : List DataLine) : Bytes := lines.flatMap DataLine.text

def lineStart (lines : List DataLine) (i : ℕ) : ℕ := (fileText (lines.take i)).length

variable {i j : ℕ} {x : ℕ}

section Lines

variable {lines : List DataLine}

theorem fgetsLines_fileText (lines : List DataLine) :
    fgetsLines len10M (fileText lines) = lines.map DataLine.text := by
  induction lines with
  | nil => rfl
  | cons l lines ih =>
    have htext : fileText (l :: lines) = l.body ++ 10 :: fileText lines := by
      rw [fileText, flatMap_cons, DataLine.text, append_assoc]
      rfl
    rw [htext, fgetsLines_cons l.newline_notMem_body l.fits, ih]
    rfl

theorem lineStart_succ {i : ℕ} (hi : i < lines.length) :
    lineStart lines (i + 1) = lineStart lines i + lines[i].text.length := by
  rw [lineStart, lineStart, take_succ_eq_append_getElem hi, fileText, fileText,
    flatMap_append, length_append, flatMap_singleton]

theorem lineStart_length : lineStart lines lines.length = (fileText lines).length := by
  rw [lineStart, take_length]

theorem lineStart_lt (hij : i < j) (hj : j ≤ lines.length) :
    lineStart lines i + 2 < lineStart lines j := by
  induction j with
  | zero => exact absurd hij (Nat.not_lt_zero i)
  | succ j ih =>
    have hlen := (lines[j]).length_text
    rw [lineStart_succ hj]
    rcases Nat.lt_succ_iff_lt_or_eq.mp hij with hlt | rfl
    · have := ih hlt (Nat.le_of_succ_le hj)
      omega
    · omega

theorem lineStart_le (hij : i ≤ j) (hj : j ≤ lines.length) :
    lineStart lines i ≤ lineStart lines j := by
  rcases Nat.lt_or_eq_of_le hij with hlt | rfl
  · have := lineStart_lt hlt hj
    omega
  · exact le_rfl

theorem exists_line (hx : x < (fileText lines).length) :
    ∃ i, i < lines.length ∧ lineStart lines i ≤ x ∧ x < lineStart lines (i + 1) := by
  have hex : ∃ i, x < lineStart lines i := ⟨lines.length, lineStart_length.symm ▸ hx⟩
  have hle : Nat.find hex ≤ lines.length := Nat.find_min' hex (lineStart_length.symm ▸ hx)
  have hspec := Nat.find_spec hex
  cases hk : Nat.find hex with
  | zero =>
    rw [hk] at hspec
    exact absurd hspec (Nat.not_lt_zero x)
  | succ i =>
    rw [hk] at hspec hle
    exact ⟨i, hle, Nat.not_lt.mp (Nat.find_min hex (hk ▸ Nat.lt_succ_self i)), hspec⟩

theorem fgetsLines_drop {i x : ℕ} (hi : i < lines.length) (hle : lineStart lines i ≤ x)
    (hlt : x < lineStart lines (i + 1)) :
    ∃ rest : Bytes, x + rest.length = lineStart lines (i + 1) ∧
      fgetsLines len10M ((fileText lines).drop x) =
        rest :: (lines.drop (i + 1)).map DataLine.text := by
  have hfile : fileText lines =
      fileText (lines.take i) ++ (lines[i].body ++ 10 :: fileText (lines.drop (i + 1))) := by
    have hsplit : lines = lines.take i ++ lines[i] :: lines.drop (i + 1) := by
      rw [getElem_cons_drop, take_append_drop]
    conv_lhs => rw [hsplit]
    rw [fileText, flatMap_append, flatMap_cons, DataLine.text, append_assoc]
    rfl
  obtain ⟨k, rfl⟩ := Nat.exists_eq_add_of_le hle
  rw [lineStart_succ hi] at hlt ⊢
  have hk : k ≤ lines[i].body.length := by
    rw [DataLine.text, length_append, length_singleton] at hlt
    omega
  have hdrop : (fileText lines).drop (lineStart lines i + k) =
      lines[i].body.drop k ++ 10 :: fileText (lines.drop (i + 1)) := by
    rw [hfile, lineStart, ← drop_drop, drop_left, drop_append_of_le_length hk]
  have hnot : 10 ∉ lines[i].body.drop k := fun hm =>
    lines[i].newline_notMem_body (mem_of_mem_drop hm)
  have hfits : (lines[i].body.drop k).length + 1 < len10M := by
    have := lines[i].fits
    rw [length_drop, DataLine.body]
    omega
  refine ⟨lines[i].body.drop k ++ [10], ?_, ?_⟩
  · rw [DataLine.text, length_append, length_append, length_drop,
      length_singleton]
    omega
  · rw [hdrop, fgetsLines_cons hnot hfits, fgetsLines_fileText]

end Lines

section Probe

variable {lines : List DataLine} {h : History} {i x : ℕ}

def History.decide (h : History) (time : ℤ) (pos : ℕ) : Probe :=
  if |time - h.tToken| ≤ 60 then .found pos
  else if h.tToken < time then .left pos
  else .right pos

theorem probe_eq (hfile : h.file = fileText lines) (hi : i + 1 < lines.length)
    (hle : lineStart lines i ≤ x) (hlt : x < lineStart lines (i + 1)) :
    h.probe x = if h.lineLen < x then h.decide lines[i + 1].time (lineStart lines (i + 2))
      else .untaken (lineStart lines (i + 2)) := by
  obtain ⟨rest, hpos, hread⟩ := fgetsLines_drop (by omega) hle hlt
  have hcons : (lines.drop (i + 1)).map DataLine.text =
      lines[i + 1].text :: (lines.drop (i + 2)).map DataLine.text := by
    rw [← getElem_cons_drop (h := hi), map_cons]
  have hend : x + rest.length + lines[i + 1].text.length = lineStart lines (i + 2) := by
    rw [hpos, ← lineStart_succ hi]
  have hne : lines[i + 1].text ≠ [] := by simp [DataLine.text]
  obtain ⟨hsec, htime⟩ := lines[i + 1].time_text
  rw [History.probe, hfile, hread, hcons]
  simp only [DataLine.stringAt_text, hsec, htime, hend, hne, ne_eq, not_false_eq_true, true_and]
  rfl

theorem verdict_last (hfile : h.file = fileText lines) (hne : lines ≠ [])
    (hx : lineStart lines (lines.length - 1) ≤ x) : h.verdict x = .stop := by
  have hpos : 0 < lines.length := length_pos_iff.mpr hne
  have hshort : ∀ l : List Bytes, l.length ≤ 1 →
      fgetsLines len10M (h.file.drop x) = l → h.verdict x = .stop := by
    rintro (_ | ⟨line, _ | ⟨next, l⟩⟩) hl hread
    · rw [History.verdict, History.probe, hread]
      cases h.errno <;> rfl
    · rw [History.verdict, History.probe, hread]
      cases h.errno <;> rfl
    · exact absurd hl (by simp)
  by_cases hin : x < (fileText lines).length
  · have hlt : x < lineStart lines (lines.length - 1 + 1) := by
      rw [Nat.sub_add_cancel hpos, lineStart_length]
      exact hin
    obtain ⟨rest, -, hread⟩ := fgetsLines_drop (by omega) hx hlt
    refine hshort _ ?_ (hfile ▸ hread)
    simp
    omega
  · refine hshort [] (Nat.zero_le 1) ?_
    rw [hfile, drop_of_length_le (Nat.not_lt.mp hin)]
    rfl

end Probe

def firstNear (lines : List DataLine) (t : ℤ) : ℕ :=
  max 2 (lines.findIdx fun l => decide (t ≤ l.time + 60))

def firstLate (lines : List DataLine) (t : ℤ) : ℕ :=
  lines.findIdx fun l => decide (t + 60 < l.time)

section Near

variable {lines : List DataLine} {t : ℤ}

def Chronological (lines : List DataLine) : Prop := lines.Pairwise fun l l' => l.time ≤ l'.time

theorem Chronological.le (hs : Chronological lines) (hij : i ≤ j) (hj : j < lines.length) :
    lines[i].time ≤ lines[j].time := by
  rcases Nat.lt_or_eq_of_le hij with hlt | rfl
  · exact pairwise_iff_getElem.mp hs i j (by omega) hj hlt
  · exact le_rfl

theorem findIdx_le_iff {p : DataLine → Bool} (hmono : ∀ i j (hij : i ≤ j) (hj : j < lines.length),
    p lines[i] = true → p lines[j] = true) {j : ℕ} (hj : j < lines.length) :
    lines.findIdx p ≤ j ↔ p lines[j] = true := by
  constructor
  · intro hle
    exact hmono _ j hle hj (findIdx_getElem (w := hle.trans_lt hj))
  · intro hp
    by_contra hlt
    rw [not_of_lt_findIdx (Nat.not_le.mp hlt)] at hp
    exact Bool.false_ne_true hp

theorem findIdx_near (hs : Chronological lines) {j : ℕ} (hj : j < lines.length) :
    (lines.findIdx fun l => decide (t ≤ l.time + 60)) ≤ j ↔ t ≤ lines[j].time + 60 := by
  rw [findIdx_le_iff _ hj, decide_eq_true_iff]
  intro i j hij hj
  have := hs.le hij hj
  simp only [decide_eq_true_iff]
  omega

theorem firstLate_le (hs : Chronological lines) {j : ℕ} (hj : j < lines.length) :
    firstLate lines t ≤ j ↔ t + 60 < lines[j].time := by
  rw [firstLate, findIdx_le_iff _ hj, decide_eq_true_iff]
  intro i j hij hj
  have := hs.le hij hj
  simp only [decide_eq_true_iff]
  omega

def HasNear (lines : List DataLine) (t : ℤ) : Prop :=
  ∃ (j : ℕ) (hj : j < lines.length), 2 ≤ j ∧ |lines[j].time - t| ≤ 60

theorem HasNear.lt (hnear : HasNear lines t) (hs : Chronological lines) :
    firstNear lines t < firstLate lines t ∧ firstLate lines t ≤ lines.length := by
  obtain ⟨j, hj, htwo, habs⟩ := hnear
  rw [abs_le] at habs
  have hnear := (findIdx_near (t := t) hs hj).mpr (by omega)
  have hlate : ¬ firstLate lines t ≤ j := by
    rw [firstLate_le hs hj]
    omega
  refine ⟨?_, findIdx_le_length⟩
  rw [firstNear]
  omega

variable {h : History}

theorem exists_taken (hfile : h.file = fileText lines) (hlen : h.lineLen = lineStart lines 1)
    (hlow : lineStart lines 1 < x) (hhigh : x < lineStart lines (lines.length - 1)) :
    ∃ (i : ℕ) (hi : i + 1 < lines.length), 1 ≤ i ∧ lineStart lines i ≤ x ∧
      x < lineStart lines (i + 1) ∧
      h.probe x = h.decide lines[i + 1].time (lineStart lines (i + 2)) := by
  have hin : x < (fileText lines).length := by
    rw [← lineStart_length]
    exact hhigh.trans_le (lineStart_le (Nat.sub_le _ _) le_rfl)
  obtain ⟨i, hi, hle, hlt⟩ := exists_line hin
  have hone : 1 ≤ i := by
    by_contra hzero
    obtain rfl : i = 0 := by omega
    exact absurd hlt (Nat.not_lt.mpr hlow.le)
  have hnext : i + 1 < lines.length := by
    by_contra hlast
    obtain rfl : i = lines.length - 1 := by omega
    exact absurd hhigh (Nat.not_lt.mpr hle)
  exact ⟨i, hnext, hone, hle, hlt, by rw [probe_eq hfile hnext hle hlt, hlen, if_pos hlow]⟩

theorem lt_lineStart_iff {i k x : ℕ} (hk : k ≤ lines.length) (hi : i < lines.length)
    (hle : lineStart lines i ≤ x) (hlt : x < lineStart lines (i + 1)) :
    x < lineStart lines k ↔ i < k := by
  constructor
  · intro hx
    by_contra hki
    exact absurd (lineStart_le (Nat.not_lt.mp hki) hi.le) (by omega)
  · intro hik
    exact hlt.trans_le (lineStart_le hik hk)

theorem verdict_first (hfile : h.file = fileText lines) (hlen : h.lineLen = lineStart lines 1)
    (hmany : 2 < lines.length) (hx : x ≤ lineStart lines 1) : h.verdict x = .stop := by
  have htwo : lineStart lines 1 + 2 < lineStart lines 2 := lineStart_lt (by omega) hmany.le
  have hin : x < (fileText lines).length := by
    have := lineStart_le hmany.le (le_refl lines.length)
    rw [lineStart_length] at this
    omega
  obtain ⟨i, hi, hle, hlt⟩ := exists_line hin
  have hi' : i < 2 := (lt_lineStart_iff hmany.le hi hle hlt).mp (by omega)
  rw [History.verdict, probe_eq hfile (by omega) hle hlt, hlen, if_neg (Nat.not_lt.mpr hx)]

theorem range_verdict (hfile : h.file = fileText lines) (hlen : h.lineLen = lineStart lines 1)
    (hs : Chronological lines) (hnear : HasNear lines h.tToken) :
    Range h.verdict (lineStart lines 1) (lineStart lines (firstNear lines h.tToken - 1))
      (lineStart lines (firstLate lines h.tToken - 1)) (lineStart lines (lines.length - 1)) := by
  obtain ⟨hlt, hle⟩ := hnear.lt hs
  have hfirst : firstNear lines h.tToken =
      max 2 (lines.findIdx fun l => decide (h.tToken ≤ l.time + 60)) := rfl
  have hlow : lineStart lines 1 + 2 < lineStart lines (firstLate lines h.tToken - 1) :=
    lineStart_lt (by omega) (by omega)
  have hlate : lineStart lines (firstLate lines h.tToken - 1) ≤
      lineStart lines (lines.length - 1) := lineStart_le (by omega) (by omega)
  have hin : lineStart lines (firstNear lines h.tToken - 1) + 2 <
      lineStart lines (firstLate lines h.tToken - 1) := lineStart_lt (by omega) (by omega)
  refine ⟨lineStart_le (by omega) (by omega), by omega, hlate, by omega, ?_, ?_, ?_, ?_⟩
  · rintro x (hx | hx)
    · exact verdict_first hfile hlen (by omega) hx
    · exact verdict_last hfile (ne_nil_of_length_pos (by omega)) hx
  · intro x hx hxa
    obtain ⟨i, hi, hone, hil, hir, hprobe⟩ := exists_taken hfile hlen hx (by omega)
    have hline := (lt_lineStart_iff (by omega) (by omega) hil hir).mp hxa
    have hearly : ¬ h.tToken ≤ lines[i + 1].time + 60 := by
      rw [← findIdx_near hs hi]
      omega
    rw [History.verdict, hprobe, History.decide, if_neg (by rw [abs_le]; omega),
      if_neg (by omega)]
  · intro x hx hxa hxb
    obtain ⟨i, hi, hone, hil, hir, hprobe⟩ := exists_taken hfile hlen hx (by omega)
    have hline := (lt_lineStart_iff (by omega) (by omega) hil hir).mp hxb
    have hline' := mt (lt_lineStart_iff (by omega) (by omega) hil hir).mpr (Nat.not_lt.mpr hxa)
    have hnot : h.tToken ≤ lines[i + 1].time + 60 := by
      rw [← findIdx_near hs hi]
      omega
    have hnot' : ¬ h.tToken + 60 < lines[i + 1].time := by
      rw [← firstLate_le hs hi]
      omega
    rw [History.verdict, hprobe, History.decide, if_pos (by rw [abs_le]; omega)]
  · intro x hxb hxh
    obtain ⟨i, hi, hone, hil, hir, hprobe⟩ := exists_taken hfile hlen (by omega) hxh
    have hline := mt (lt_lineStart_iff (by omega) (by omega) hil hir).mpr (Nat.not_lt.mpr hxb)
    have hafter : h.tToken + 60 < lines[i + 1].time := by
      rw [← firstLate_le hs hi]
      omega
    rw [History.verdict, hprobe, History.decide, if_neg (by rw [abs_le]; omega),
      if_pos (by omega)]

theorem exists_near_of_hit (hfile : h.file = fileText lines) (hlen : h.lineLen = lineStart lines 1)
    (hlow : lineStart lines 1 < x) (hhigh : x < lineStart lines (lines.length - 1))
    (hhit : h.verdict x = .hit) :
    ∃ (j : ℕ) (hj : j < lines.length), |lines[j].time - h.tToken| ≤ 60 ∧
      h.probe x = .found (lineStart lines (j + 1)) := by
  obtain ⟨i, hi, -, -, -, hprobe⟩ := exists_taken hfile hlen hlow hhigh
  rw [History.verdict, hprobe, History.decide] at hhit
  by_cases hclose : |lines[i + 1].time - h.tToken| ≤ 60
  · exact ⟨i + 1, hi, hclose, by rw [hprobe, History.decide, if_pos hclose]⟩
  · rw [if_neg hclose] at hhit
    split_ifs at hhit

theorem findOffsetFromStart_fileText (hne : lines ≠ []) (t number : ℤ) (errno : Bool) :
    findOffsetFromStart (fileText lines) t number errno =
      (History.mk (fileText lines) (lineStart lines 1) t number errno).loop
        ((fileText lines).length + 1) 0 (fileText lines).length := by
  cases lines with
  | nil => exact absurd rfl hne
  | cons l lines =>
    have hlen : lineStart (l :: lines) 1 = l.text.length := by
      simp [lineStart, fileText]
    rw [findOffsetFromStart, fgetsLines_fileText, map_cons, hlen]
    simp only [l.stringAt_text]

end Near

theorem findOffsetFromStart_iff {lines : List DataLine} {t : ℤ} (hs : Chronological lines)
    (hnear : HasNear lines t) (number : ℤ) (errno : Bool) :
    (∀ file t' number' errno', (findOffsetFromStart file t' number' errno').isSome) ∧
    ((∃ (j : ℕ) (hj : j < lines.length), |lines[j].time - t| ≤ 60 ∧
        findOffsetFromStart (fileText lines) t number errno =
          some (.ret 0 (some number) (lineStart lines (j + 1)))) ↔
      FirstHas (fun x => (x + (fileText lines).length) / 2)
          (lineStart lines (firstNear lines t - 1) ≤ ·)
          (· < lineStart lines (lines.length - 1)) 0 ∧
        FirstHas (· / 2) (· < lineStart lines (firstLate lines t - 1))
          (lineStart lines 1 < ·) (fileText lines).length) := by
  refine ⟨findOffsetFromStart_isSome, ?_⟩
  obtain ⟨hlt, hle⟩ := hnear.lt hs
  have hne : lines ≠ [] := ne_nil_of_length_pos (by omega)
  let h : History := ⟨fileText lines, lineStart lines 1, t, number, errno⟩
  have hrange := range_verdict (h := h) rfl rfl hs hnear
  have hlast : lineStart lines (lines.length - 1) < (fileText lines).length := by
    have := lineStart_lt (show lines.length - 1 < lines.length by omega) le_rfl
    rw [lineStart_length] at this
    omega
  rw [findOffsetFromStart_fileText hne, ← hrange.halve_hit_iff hlast (Nat.lt_succ_self _)]
  constructor
  · rintro ⟨j, hj, -, hloop⟩
    obtain ⟨x, hx, -, -⟩ := (h.loop_eq_zero_iff _).mp hloop
    obtain ⟨-, ha, hb⟩ := hrange.of_hit (probe_of_halve hx)
    exact ⟨x, ha, hb, hx⟩
  · rintro ⟨x, -, -, hx⟩
    have hhit := probe_of_halve hx
    obtain ⟨hlow, -, hb⟩ := hrange.of_hit hhit
    obtain ⟨j, hj, hclose, hprobe⟩ := exists_near_of_hit (h := h) rfl rfl hlow
      (hb.trans_le hrange.le_high) hhit
    exact ⟨j, hj, hclose, (h.loop_eq_zero_iff _).mpr ⟨x, hx, hprobe, rfl⟩⟩

theorem tick_fits : ∀ i : Fin 5,
    (decInt (100 * i : ℕ) ++ sectionSplit :: []).length + 1 < len10M := by
  decide

theorem tick_nul : 0 ∉ ([] : Bytes) := not_mem_nil

def tick (i : Fin 5) : DataLine :=
  ⟨(100 * i : ℕ), [], not_mem_nil, tick_nul, tick_fits i⟩

local instance neZeroFive : NeZero 5 := ⟨Nat.succ_ne_zero 4⟩

def ticks : List DataLine := [tick 0, tick 1, tick 2, tick 3, tick 4]

theorem findOffsetFromStart_ticks :
    ∃ (j : ℕ) (hj : j < ticks.length), |ticks[j].time - 200| ≤ 60 ∧
      findOffsetFromStart (fileText ticks) 200 0 false =
        some (.ret 0 (some 0) (lineStart ticks (j + 1))) := by
  have hs : Chronological ticks := by
    rw [Chronological, ticks]
    decide
  have hnear : HasNear ticks 200 := ⟨2, by decide, le_rfl, by decide⟩
  refine (findOffsetFromStart_iff hs hnear 0 false).2.mpr ⟨?_, ?_⟩
  · -- of 11, 17, … the first one at 3 or behind it is before 18
    exact (firstHas_of_pos (by decide)).mpr (by decide)
  · -- of 11, 5, … the first one before 8 is behind 3
    exact (firstHas_of_neg (by decide)).mpr ((firstHas_of_pos (by decide)).mpr (by decide))

theorem findOffsetFromStart_long_last :
    findOffsetFromStart (bytes "0|\n100|\n200|\n300|aaaaaaaaaaaaaaaaaaaa\n") 200 0 false =
      some (.ret 3 none 38) := by
  decide

end Sysak.Mservice
