/-
# The protocol of the structure database
-/

import Mathlib.Data.Bool.AllAny
import Sysak.Lib.Hex
import Sysak.Lib.Utf8

namespace Sysak.Surftrace

open Lib List Option

def lbcBuffSize : ℕ := 83886080

def lbcText (send : List Char) : List Char := "LBC".toList ++ (hex8 send.length ++ send)

def sendLbc (send : List Char) : Bytes := encode (lbcText send)

structure Json (R : Type*) where
  loads : List Char → Option R
  logOk : R → Bool
  loads_digit : ∀ c t res, IsHex c → loads (c :: t) = some res → logOk res = false

variable {R : Type*}

inductive Outcome (R : Type*) where
  | returned (res : R)
  | nothing
  | raised
deriving Repr, DecidableEq

def Outcome.IsError : Outcome R → Prop
  | .returned _ => False
  | .nothing => True
  | .raised => True

def Json.finish (J : Json R) (d : List Char) : Outcome R :=
  match J.loads (d.drop 11) with
  | some res => if J.logOk res then .returned res else .raised
  | none => .raised

def readSize (c : Bytes) : Except (Outcome R) (List Char × ℕ) :=
  match decode c with
  | none => .error .raised
  | some d =>
    if d.take 3 ≠ "LBC".toList then .error .nothing
    else
      match int16 ((d.drop 3).take 8) with
      | none => .error .raised
      | some n => if lbcBuffSize < n + 11 then .error .nothing else .ok (d, n + 11)

def recvLoop (J : Json R) (recv : ℕ → Bytes) (size : ℕ) : ℕ → ℕ → List Char → Option (Outcome R)
  | 0, _, _ => none
  | fuel + 1, i, d =>
    if d.length < size then
      match decode (recv i) with
      | none => some .raised
      | some e => recvLoop J recv size fuel (i + 1) (d ++ e)
    else
      some (J.finish d)

def recvLbc (J : Json R) (recv : ℕ → Bytes) (fuel : ℕ) : Option (Outcome R) :=
  match readSize (recv 0) with
  | .error o => some o
  | .ok (d, size) => recvLoop J recv size fuel 1 d

structure Message (J : Json R) where
  text : List Char
  value : R
  loads_text : J.loads text = some value
  logOk_value : J.logOk value = true
  loads_part : ∀ p, p <+: text → p ≠ text → J.loads p = none

def closing (chunks : List Bytes) (i : ℕ) : Bytes := chunks.getD i []

variable {chunks : List Bytes}

theorem closing_eq {i : ℕ} (hi : i < chunks.length) : closing chunks i = chunks[i] := by
  rw [closing, getD_eq_getElem?_getD, getElem?_eq_getElem hi, getD_some]

theorem closing_eq_nil {i : ℕ} (hi : chunks.length ≤ i) : closing chunks i = [] := by
  rw [closing, getD_eq_getElem?_getD, getElem?_eq_none hi, getD_none]

def chars (chunks : List Bytes) : ℕ := (chunks.map fun c => ((decode c).getD []).length).sum

def announced (send : List Char) (k : ℕ) : ℕ :=
  hexValue ((hex8 send.length).take (min (k - 3) 8)) + 11

def Readable (send : List Char) (chunks : List Bytes) : Prop :=
  4 ≤ (chunks.headD []).length ∧ (∀ c ∈ chunks, (decode c).isSome = true) ∧
    announced send (chunks.headD []).length ≤ lbcBuffSize

def header (send : List Char) : List Char := "LBC".toList ++ (hex8 send.length).take 8

def behind (send : List Char) : List Char := (hex8 send.length).drop 8 ++ send

theorem lbcText_eq (send : List Char) : lbcText send = header send ++ behind send := by
  rw [lbcText, header, behind, append_assoc, ← append_assoc (List.take 8 _),
    take_append_drop]

theorem length_header (send : List Char) : (header send).length = 11 := by
  have hlen := (length_hex8 send.length).1
  rw [header, length_append, length_take, Nat.min_eq_left hlen]
  rfl

theorem ascii_header (send : List Char) : ∀ c ∈ header send, c.val ≤ 127 := by
  obtain ⟨hhex, -⟩ := hex8_spec send.length
  have hlbc : ∀ c ∈ "LBC".toList, c.val ≤ 127 := all_iff_forall_prop.mp (by decide)
  exact forall_mem_append.mpr ⟨hlbc, fun c hc => (hhex c (mem_of_mem_take hc)).2⟩

variable {send : List Char}

variable {c : Bytes}

theorem decode_header (hc : c <+: sendLbc send) (hle : c.length ≤ 11) :
    decode c = some ((header send).take c.length) := by
  rw [decode_eq_some_iff, ← take_encode_ascii (ascii_header send) (behind send)
    (length_header send ▸ hle), ← lbcText_eq]
  exact prefix_iff_eq_take.mp hc

variable {d : List Char}

theorem digits_of_decode (hc : c <+: sendLbc send) (hle : 3 ≤ c.length) (hd : decode c = some d) :
    d.take 3 = "LBC".toList ∧
      (d.drop 3).take 8 = (hex8 send.length).take (min (c.length - 3) 8) := by
  have hlen := length_header send
  rcases Nat.lt_or_ge 11 c.length with hlt | hge
  · -- the header is complete
    have hpre : d <+: header send ++ behind send := by
      rw [← lbcText_eq]
      rw [decode_eq_some_iff] at hd
      exact isPrefix_of_encode (hd ▸ hc)
    have hdlen : 11 < d.length := by
      by_contra hshort
      have hpre' : d <+: header send :=
        prefix_of_prefix_length_le hpre (prefix_append _ _) (by omega)
      have hbytes := length_encode_ascii fun c hc => ascii_header send c (hpre'.subset hc)
      rw [← decode_eq_some_iff.mp hd] at hbytes
      omega
    obtain ⟨t, rfl⟩ : header send <+: d :=
      prefix_of_prefix_length_le (prefix_append _ _) hpre (by omega)
    rw [Nat.min_eq_right (by omega : 8 ≤ c.length - 3), header, append_assoc]
    refine ⟨rfl, ?_⟩
    show ((hex8 send.length).take 8 ++ t).take 8 = _
    rw [take_left' (by rw [length_take, Nat.min_eq_left (length_hex8 send.length).1])]
  · rw [decode_header hc hge] at hd
    obtain rfl := some.inj hd
    constructor
    · rw [take_take, Nat.min_eq_left hle]
      rfl
    · rw [drop_take]
      show (((hex8 send.length).take 8).take (c.length - 3)).take 8 = _
      rw [take_take, take_take]
      congr 1
      omega

theorem readSize_eq (hc : c <+: sendLbc send) :
    (readSize c : Except (Outcome R) (List Char × ℕ)) =
      if c.length < 3 then .error .nothing
      else if c.length = 3 then .error .raised
      else
        match decode c with
        | none => .error .raised
        | some d =>
          if lbcBuffSize < announced send c.length then .error .nothing
          else .ok (d, announced send c.length) := by
  obtain ⟨hhex, -⟩ := hex8_spec send.length
  have hlen8 := (length_hex8 send.length).1
  by_cases hlt : c.length < 3
  · have hshort : ((header send).take c.length).take 3 ≠ "LBC".toList := by
      intro hl
      have := congrArg List.length hl
      rw [length_take, length_take, length_header,
        Nat.min_eq_left (by omega : c.length ≤ 11), Nat.min_eq_right hlt.le] at this
      exact absurd this (Nat.ne_of_lt hlt)
    rw [if_pos hlt, readSize, decode_header hc (by omega)]
    simp only [if_pos hshort]
  rw [if_neg hlt]
  by_cases heq : c.length = 3
  · rw [if_pos heq, readSize, decode_header hc (by omega), heq]
    rfl
  rw [if_neg heq, readSize]
  cases hd : decode c with
  | none => rfl
  | some d =>
    obtain ⟨hl, hdigits⟩ := digits_of_decode hc (by omega) hd
    have hne : (hex8 send.length).take (min (c.length - 3) 8) ≠ [] := by
      refine ne_nil_of_length_pos ?_
      rw [length_take]
      omega
    have hnum := int16_eq hne fun c hc => hhex c (mem_of_mem_take hc)
    simp only [hl, hdigits, hnum, ne_eq, not_true_eq_false, if_false]
    rfl

inductive Progress where
  | stopped (d : List Char)
  | failed
  | waiting (d : List Char)

def progress (size : ℕ) : List Char → List Bytes → Progress
  | d, [] => if d.length < size then .waiting d else .stopped d
  | d, c :: cs =>
    if d.length < size then
      match decode c with
      | none => .failed
      | some e => progress size (d ++ e) cs
    else
      .stopped d

section Loop

variable {J : Json R} {recv : ℕ → Bytes} {size : ℕ}

theorem recvLoop_mono {fuel : ℕ} : ∀ {i : ℕ} {d : List Char} {o : Outcome R},
    recvLoop J recv size fuel i d = some o → recvLoop J recv size (fuel + 1) i d = some o := by
  induction fuel with
  | zero => exact fun h => absurd h (by simp [recvLoop])
  | succ fuel ih =>
    intro i d o h
    rw [recvLoop] at h ⊢
    split_ifs at h ⊢
    · cases hd : decode (recv i) with
      | none =>
        rw [hd] at h
        exact h
      | some e =>
        rw [hd] at h
        exact ih h
    · exact h

theorem recvLoop_add {fuel i : ℕ} {o : Outcome R} (k : ℕ)
    (h : recvLoop J recv size fuel i d = some o) :
    recvLoop J recv size (fuel + k) i d = some o := by
  induction k with
  | zero => exact h
  | succ k ih => exact recvLoop_mono ih

theorem recvLoop_unique {fuel fuel' i : ℕ} {o o' : Outcome R}
    (h : recvLoop J recv size fuel i d = some o) (h' : recvLoop J recv size fuel' i d = some o') :
    o = o' := by
  have h₁ := recvLoop_add fuel' h
  have h₂ := recvLoop_add fuel h'
  rw [Nat.add_comm] at h₂
  exact some.inj (h₁.symm.trans h₂)

theorem recvLoop_progress {cs : List Bytes} : ∀ {i : ℕ} {d : List Char},
    (∀ (t : ℕ) (ht : t < cs.length), recv (i + t) = cs[t]) →
      match progress size d cs with
      | .stopped d' => ∃ fuel, recvLoop J recv size fuel i d = some (J.finish d')
      | .failed => ∃ fuel, recvLoop J recv size fuel i d = some .raised
      | .waiting d' => ∀ fuel, recvLoop J recv size (fuel + cs.length) i d =
          recvLoop J recv size fuel (i + cs.length) d' := by
  induction cs with
  | nil =>
    intro i d _
    rw [progress]
    by_cases hlt : d.length < size
    · simp only [if_pos hlt]
      exact fun fuel => rfl
    · simp only [if_neg hlt]
      exact ⟨1, by rw [recvLoop, if_neg hlt]⟩
  | cons c cs ih =>
    intro i d hrecv
    have h0 : recv i = c := hrecv 0 (Nat.zero_lt_succ _)
    have hrest : ∀ (t : ℕ) (ht : t < cs.length), recv (i + 1 + t) = cs[t] := by
      intro t ht
      rw [Nat.add_assoc, Nat.add_comm 1 t]
      exact hrecv (t + 1) (Nat.succ_lt_succ ht)
    rw [progress]
    by_cases hlt : d.length < size
    · rw [if_pos hlt]
      cases hd : decode c with
      | none => exact ⟨1, by rw [recvLoop, if_pos hlt, h0, hd]⟩
      | some e =>
        have hstep : ∀ fuel, recvLoop J recv size (fuel + 1) i d =
            recvLoop J recv size fuel (i + 1) (d ++ e) := by
          intro fuel
          rw [recvLoop, if_pos hlt, h0, hd]
        have ih := @ih (i + 1) (d ++ e) hrest
        cases hp : progress size (d ++ e) cs with
        | stopped d' =>
          simp only [hp] at ih ⊢
          obtain ⟨fuel, hfuel⟩ := ih
          exact ⟨fuel + 1, (hstep fuel).trans hfuel⟩
        | failed =>
          simp only [hp] at ih ⊢
          obtain ⟨fuel, hfuel⟩ := ih
          exact ⟨fuel + 1, (hstep fuel).trans hfuel⟩
        | waiting d' =>
          simp only [hp] at ih ⊢
          intro fuel
          rw [length_cons, ← Nat.add_assoc, hstep, ih, Nat.add_assoc, Nat.add_comm 1]
    · rw [if_neg hlt]
      exact ⟨1, by rw [recvLoop, if_neg hlt]⟩

theorem recvLoop_empty {fuel : ℕ} : ∀ {i : ℕ} {d : List Char}, (∀ j, i ≤ j → recv j = []) →
    d.length < size → recvLoop J recv size fuel i d = none := by
  have hnil : decode [] = some [] := decode_encode []
  induction fuel with
  | zero => exact fun _ _ => rfl
  | succ fuel ih =>
    intro i d hrecv hlt
    rw [recvLoop, if_pos hlt, hrecv i le_rfl, hnil]
    simp only [append_nil]
    exact ih (fun j hj => hrecv j (by omega)) hlt

end Loop

theorem chars_cons {e : List Char} (hd : decode c = some e) (cs : List Bytes) :
    chars (c :: cs) = e.length + chars cs := by
  rw [chars, map_cons, sum_cons, hd]
  rfl

variable {size : ℕ}

variable {cs : List Bytes}

theorem progress_waiting_iff : ∀ {d : List Char},
    (∃ d', progress size d cs = .waiting d') ↔
      (∀ c ∈ cs, (decode c).isSome = true) ∧ d.length + chars cs < size := by
  induction cs with
  | nil =>
    intro d
    rw [progress]
    split_ifs with hlt
    · exact ⟨fun _ => ⟨fun c hc => absurd hc not_mem_nil, hlt⟩, fun _ => ⟨d, rfl⟩⟩
    · exact ⟨by simp, fun h => absurd h.2 hlt⟩
  | cons c cs ih =>
    intro d
    rw [progress, forall_mem_cons]
    split_ifs with hlt
    · cases hd : decode c with
      | none => simp
      | some e =>
        simp only [isSome_some, true_and]
        rw [ih, chars_cons hd, length_append, Nat.add_assoc]
    · exact ⟨by simp, fun h => absurd h.2 (by omega)⟩

theorem encode_of_stopped : ∀ {d d' : List Char},
    progress size d cs = .stopped d' → encode d' <+: encode d ++ cs.flatten ∧ size ≤ d'.length := by
  induction cs with
  | nil =>
    intro d d' h
    rw [progress] at h
    split_ifs at h with hlt
    obtain rfl := Progress.stopped.inj h
    exact ⟨prefix_append _ _, Nat.not_lt.mp hlt⟩
  | cons c cs ih =>
    intro d d' h
    rw [progress] at h
    split_ifs at h with hlt
    · cases hd : decode c with
      | none =>
        rw [hd] at h
        exact Progress.noConfusion h
      | some e =>
        rw [hd] at h
        obtain ⟨hpre, hle⟩ := ih h
        rw [encode_append, append_assoc, ← decode_eq_some_iff.mp hd] at hpre
        exact ⟨hpre, hle⟩
    · obtain rfl := Progress.stopped.inj h
      exact ⟨prefix_append _ _, Nat.not_lt.mp hlt⟩

theorem encode_of_waiting : ∀ {d d' : List Char},
    progress size d cs = .waiting d' → encode d' = encode d ++ cs.flatten ∧ d'.length < size := by
  induction cs with
  | nil =>
    intro d d' h
    rw [progress] at h
    split_ifs at h with hlt
    obtain rfl := Progress.waiting.inj h
    exact ⟨by simp, hlt⟩
  | cons c cs ih =>
    intro d d' h
    rw [progress] at h
    split_ifs at h with hlt
    cases hd : decode c with
    | none =>
      rw [hd] at h
      exact Progress.noConfusion h
    | some e =>
      rw [hd] at h
      obtain ⟨hbytes, hlt'⟩ := ih h
      rw [encode_append, append_assoc, ← decode_eq_some_iff.mp hd] at hbytes
      exact ⟨hbytes, hlt'⟩

variable {J : Json R}

variable {recv : ℕ → Bytes}

theorem recvLoop_waits {J : Json R} {recv : ℕ → Bytes} {size i : ℕ} {d d' : List Char}
    {cs : List Bytes} (hrest : ∀ (t : ℕ) (ht : t < cs.length), recv (i + t) = cs[t])
    (hnil : ∀ j, i + cs.length ≤ j → recv j = []) (hp : progress size d cs = .waiting d')
    (fuel : ℕ) : recvLoop J recv size fuel i d = none := by
  have hloop := @recvLoop_progress _ J recv size cs i d hrest
  simp only [hp] at hloop
  obtain ⟨-, hlt⟩ := encode_of_waiting hp
  cases hrun : recvLoop J recv size fuel i d with
  | none => rfl
  | some o =>
    have hmore := recvLoop_add cs.length hrun
    rw [hloop, recvLoop_empty hnil hlt] at hmore
    exact hmore.symm

theorem progress_stopped_iff {t : List Char} (hsize : size ≤ t.length) {cs : List Bytes}
    (hne : ∀ c ∈ cs, c ≠ []) : ∀ {d : List Char},
    encode d ++ cs.flatten = encode t →
      (progress size d cs = .stopped t ↔ (∀ c ∈ cs, (decode c).isSome = true) ∧
        (cs ≠ [] → d.length + chars cs.dropLast < size)) := by
  induction cs with
  | nil =>
    intro d h
    rw [flatten_nil, append_nil] at h
    obtain rfl := encode_injective h
    rw [progress, if_neg (Nat.not_lt.mpr hsize)]
    simp
  | cons c cs ih =>
    intro d h
    obtain ⟨hc, hne⟩ := forall_mem_cons.mp hne
    rw [progress, forall_mem_cons]
    split_ifs with hlt
    · cases hd : decode c with
      | none => simp
      | some e =>
        have hbytes : encode (d ++ e) ++ cs.flatten = encode t := by
          rw [encode_append, append_assoc, ← decode_eq_some_iff.mp hd]
          exact h
        simp only [isSome_some, true_and]
        rw [ih hne hbytes]
        rcases eq_or_ne cs [] with rfl | hcs
        · simpa [chars] using hlt
        · rw [dropLast_cons_of_ne_nil hcs, chars_cons hd, length_append,
            Nat.add_assoc]
          simp [hcs]
    · constructor
      · intro hstop
        obtain rfl := Progress.stopped.inj hstop
        have := congrArg List.length h
        rw [length_append, flatten_cons, length_append] at this
        exact absurd (length_pos_iff.mpr hc) (by omega)
      · rintro ⟨-, hlast⟩
        exact absurd (hlast (cons_ne_nil _ _)) (by omega)

namespace Message

variable {J : Json R} (m : Message J)

theorem behind_eq (hlt : m.text.length < 4294967296) : behind m.text = m.text := by
  have hlen := (length_hex8 m.text.length).2.mpr hlt
  rw [behind, drop_eq_nil_of_le hlen.le, nil_append]

theorem finish_text (hlt : m.text.length < 4294967296) :
    J.finish (lbcText m.text) = .returned m.value := by
  have hdrop : (lbcText m.text).drop 11 = m.text := by
    rw [lbcText_eq, drop_left' (length_header _), m.behind_eq hlt]
  rw [Json.finish, hdrop, m.loads_text]
  simp only [m.logOk_value, if_true]

theorem finish_of_part (hpre : d <+: lbcText m.text)
    (hne : m.text.length < 4294967296 → d ≠ lbcText m.text) (hlen : 11 ≤ d.length) :
    J.finish d = .raised := by
  have hlen' := length_header m.text
  rw [lbcText_eq] at hpre hne
  obtain ⟨p, rfl⟩ := prefix_of_prefix_length_le (prefix_append _ _) hpre (by omega)
  have hp : p <+: behind m.text := (prefix_append_right_inj _).mp hpre
  have hdrop : (header m.text ++ p).drop 11 = p := drop_left' hlen'
  rw [Json.finish, hdrop]
  rcases Nat.lt_or_ge m.text.length 4294967296 with hlt | hge
  · rw [m.behind_eq hlt] at hp hne
    rw [m.loads_part p hp fun heq => hne hlt (by rw [heq])]
  · cases p with
    | nil =>
      have hnil : [] ≠ m.text := by
        intro hnil
        rw [← hnil] at hge
        exact absurd hge (by decide)
      rw [m.loads_part [] ⟨_, rfl⟩ hnil]
    | cons c p =>
      obtain ⟨hhex, -⟩ := hex8_spec m.text.length
      obtain ⟨hlen8, hiff⟩ := length_hex8 m.text.length
      have hpos : 0 < ((hex8 m.text.length).drop 8).length := by
        rw [length_drop]
        omega
      obtain ⟨e, es, hes⟩ := exists_cons_of_length_pos hpos
      rw [behind, hes] at hp
      obtain rfl : c = e := (cons_prefix_cons.mp hp).1
      have hc : IsHex c := hhex c (mem_of_mem_drop (hes ▸ mem_cons_self))
      cases hr : J.loads (c :: p) with
      | none => rfl
      | some res => simp only [J.loads_digit c p res hc hr, Bool.false_eq_true, if_false]

theorem announced_bounds (k : ℕ) :
    11 ≤ announced m.text k ∧ announced m.text k ≤ (lbcText m.text).length := by
  obtain ⟨-, hval⟩ := hex8_spec m.text.length
  have hlen := (length_hex8 m.text.length).1
  have hle := hexValue_take_le (hex8 m.text.length) (min (k - 3) 8)
  rw [hval] at hle
  rw [announced, lbcText, length_append, length_append]
  refine ⟨by omega, ?_⟩
  show _ ≤ 3 + _
  omega

theorem recvLoop_returned_iff {cs : List Bytes} (hsize : 11 ≤ size ∧ size ≤ (lbcText m.text).length)
    (hrest : ∀ (t : ℕ) (ht : t < cs.length), recv (1 + t) = cs[t])
    (hbytes : encode d ++ cs.flatten = encode (lbcText m.text)) :
    (∃ fuel, recvLoop J recv size fuel 1 d = some (.returned m.value)) ↔
      m.text.length < 4294967296 ∧ progress size d cs = .stopped (lbcText m.text) := by
  have hloop := @recvLoop_progress _ J recv size cs 1 d hrest
  cases hp : progress size d cs with
  | stopped d' =>
    obtain ⟨hpre, hle⟩ := encode_of_stopped hp
    simp only [hp] at hloop
    obtain ⟨fuel', hfuel'⟩ := hloop
    rw [Progress.stopped.injEq]
    constructor
    · rintro ⟨fuel, h⟩
      by_contra hne
      rw [hbytes] at hpre
      rw [m.finish_of_part (isPrefix_of_encode hpre) (not_and.mp hne) (by omega)] at hfuel'
      exact absurd (recvLoop_unique h hfuel') (by simp)
    · rintro ⟨hlt, rfl⟩
      exact ⟨fuel', hfuel'.trans (congrArg some (m.finish_text hlt))⟩
  | failed =>
    simp only [hp] at hloop
    obtain ⟨fuel', hfuel'⟩ := hloop
    refine ⟨fun ⟨fuel, h⟩ => ?_, fun h => Progress.noConfusion h.2⟩
    exact absurd (recvLoop_unique h hfuel') (by simp)
  | waiting d' =>
    -- all of the text is there, and it is as long as the size
    obtain ⟨hall, hlt⟩ := encode_of_waiting hp
    rw [hbytes] at hall
    rw [encode_injective hall] at hlt
    omega

theorem recvLoop_error_iff {cs : List Bytes} (hsize : 11 ≤ size)
    (hrest : ∀ (t : ℕ) (ht : t < cs.length), recv (1 + t) = cs[t])
    (hnil : ∀ j, 1 + cs.length ≤ j → recv j = [])
    (hpre : encode d ++ cs.flatten <+: encode (lbcText m.text))
    (hpart : encode d ++ cs.flatten ≠ encode (lbcText m.text)) :
    (∃ fuel o, recvLoop J recv size fuel 1 d = some o ∧ o.IsError) ↔
      ¬ ∃ d', progress size d cs = .waiting d' := by
  have hloop := @recvLoop_progress _ J recv size cs 1 d hrest
  cases hp : progress size d cs with
  | stopped d' =>
    simp only [hp] at hloop
    obtain ⟨fuel, hfuel⟩ := hloop
    obtain ⟨hpre', hle⟩ := encode_of_stopped hp
    have hne : d' ≠ lbcText m.text := by
      rintro rfl
      exact hpart (hpre.eq_of_length_le hpre'.length_le)
    rw [m.finish_of_part (isPrefix_of_encode (hpre'.trans hpre)) (fun _ => hne)
      (hsize.trans hle)] at hfuel
    exact ⟨fun _ => by simp, fun _ => ⟨fuel, _, hfuel, trivial⟩⟩
  | failed =>
    simp only [hp] at hloop
    obtain ⟨fuel, hfuel⟩ := hloop
    exact ⟨fun _ => by simp, fun _ => ⟨fuel, _, hfuel, trivial⟩⟩
  | waiting d' => simp [recvLoop_waits hrest hnil hp]

end Message

theorem recvLbc_of_readable (m : Message J) (hpre : c <+: sendLbc m.text) (hlen : 4 ≤ c.length)
    (hd : decode c = some d) (hsize : announced m.text c.length ≤ lbcBuffSize) (h0 : recv 0 = c)
    (fuel : ℕ) : recvLbc J recv fuel = recvLoop J recv (announced m.text c.length) fuel 1 d := by
  rw [recvLbc, h0, readSize_eq hpre, if_neg (by omega), if_neg (by omega), hd]
  simp only [if_neg (Nat.not_lt.mpr hsize)]

theorem recvLbc_of_not_readable (m : Message J) (hpre : c <+: sendLbc m.text)
    (h : ¬ (4 ≤ c.length ∧ (decode c).isSome = true ∧ announced m.text c.length ≤ lbcBuffSize))
    (h0 : recv 0 = c) : ∃ o : Outcome R, o.IsError ∧ ∀ fuel, recvLbc J recv fuel = some o := by
  have hsplit := readSize_eq (R := R) hpre
  have hend : ∀ o : Outcome R, readSize c = .error o → o.IsError →
      ∃ o : Outcome R, o.IsError ∧ ∀ fuel, recvLbc J recv fuel = some o := by
    intro o ho herr
    refine ⟨o, herr, fun fuel => ?_⟩
    rw [recvLbc, h0, ho]
  by_cases hlt : c.length < 3
  · rw [if_pos hlt] at hsplit
    exact hend _ hsplit trivial
  rw [if_neg hlt] at hsplit
  by_cases heq : c.length = 3
  · rw [if_pos heq] at hsplit
    exact hend _ hsplit trivial
  rw [if_neg heq] at hsplit
  cases hd : decode c with
  | none =>
    rw [hd] at hsplit
    exact hend _ hsplit trivial
  | some d =>
    have hsize : lbcBuffSize < announced m.text c.length := by
      by_contra hle
      exact h ⟨by omega, by rw [hd]; rfl, Nat.not_lt.mp hle⟩
    simp only [hd, if_pos hsize] at hsplit
    exact hend _ hsplit trivial

theorem recvLbc_returned_iff (m : Message J) (hne : ∀ c ∈ chunks, c ≠ [])
    (hall : chunks.flatten = sendLbc m.text)
    (hrecv : ∀ (i : ℕ) (hi : i < chunks.length), recv i = chunks[i]) :
    (∃ fuel, recvLbc J recv fuel = some (.returned m.value)) ↔
      m.text.length < 4294967296 ∧ Readable m.text chunks ∧
        chars chunks.dropLast < announced m.text (chunks.headD []).length := by
  obtain ⟨c, cs, rfl⟩ : ∃ c cs, chunks = c :: cs := by
    refine exists_cons_of_ne_nil ?_
    rintro rfl
    have hnil : encode [] = encode (lbcText m.text) := hall
    exact absurd (encode_injective hnil) (by simp [lbcText])
  have hpre : c <+: sendLbc m.text := ⟨cs.flatten, hall⟩
  have h0 : recv 0 = c := hrecv 0 (Nat.zero_lt_succ _)
  by_cases hread : 4 ≤ c.length ∧ (decode c).isSome = true ∧
      announced m.text c.length ≤ lbcBuffSize
  · obtain ⟨hlen, hsome, hsize⟩ := hread
    obtain ⟨d, hd⟩ := isSome_iff_exists.mp hsome
    have hrest : ∀ (t : ℕ) (ht : t < cs.length), recv (1 + t) = cs[t] := by
      intro t ht
      rw [Nat.add_comm]
      exact hrecv (t + 1) (Nat.succ_lt_succ ht)
    have hbytes : encode d ++ cs.flatten = encode (lbcText m.text) := by
      rw [← decode_eq_some_iff.mp hd]
      exact hall
    have hbounds := m.announced_bounds c.length
    simp only [recvLbc_of_readable m hpre hlen hd hsize h0]
    rw [m.recvLoop_returned_iff hbounds hrest hbytes,
      progress_stopped_iff hbounds.2 (forall_mem_cons.mp hne).2 hbytes, Readable,
      headD_cons, forall_mem_cons]
    rcases eq_or_ne cs [] with rfl | hcs
    · simp [hlen, hsome, hsize, chars]
      omega
    · rw [dropLast_cons_of_ne_nil hcs, chars_cons hd]
      simp [hlen, hsome, hsize, hcs]
  · obtain ⟨o, herr, hrun⟩ := recvLbc_of_not_readable m hpre hread h0
    constructor
    · rintro ⟨fuel, h⟩
      obtain rfl := some.inj ((hrun fuel).symm.trans h)
      exact absurd herr id
    · rintro ⟨-, ⟨hlen, hdec, hsize⟩, -⟩
      exact absurd ⟨hlen, hdec c mem_cons_self, hsize⟩ hread

theorem recvLbc_error_iff (m : Message J) (hpre : chunks.flatten <+: sendLbc m.text)
    (hpart : chunks.flatten ≠ sendLbc m.text) :
    (∃ fuel o, recvLbc J (closing chunks) fuel = some o ∧ o.IsError) ↔
      ¬ (Readable m.text chunks ∧ chars chunks < announced m.text (chunks.headD []).length) := by
  have h0 : closing chunks 0 = chunks.headD [] := by
    cases chunks <;> rfl
  have hfirst : chunks.headD [] <+: sendLbc m.text := by
    cases chunks with
    | nil => exact ⟨_, rfl⟩
    | cons c cs => exact (prefix_append c cs.flatten).trans hpre
  by_cases hread : 4 ≤ (chunks.headD []).length ∧ (decode (chunks.headD [])).isSome = true ∧
      announced m.text (chunks.headD []).length ≤ lbcBuffSize
  · obtain ⟨hlen, hsome, hsize⟩ := hread
    obtain ⟨c, cs, rfl⟩ : ∃ c cs, chunks = c :: cs := by
      refine exists_cons_of_ne_nil ?_
      rintro rfl
      exact absurd hlen (by decide)
    rw [headD_cons] at hlen hsome hsize hfirst h0
    obtain ⟨d, hd⟩ := isSome_iff_exists.mp hsome
    have hrest : ∀ (t : ℕ) (ht : t < cs.length), closing (c :: cs) (1 + t) = cs[t] := by
      intro t ht
      rw [Nat.add_comm]
      exact closing_eq (Nat.succ_lt_succ ht)
    have hwait : Readable m.text (c :: cs) ∧
        chars (c :: cs) < announced m.text ((c :: cs).headD []).length ↔
        ∃ d', progress (announced m.text c.length) d cs = .waiting d' := by
      rw [progress_waiting_iff, Readable, headD_cons, forall_mem_cons, chars_cons hd]
      simp [hlen, hsome, hsize]
    have hnil : ∀ j, 1 + cs.length ≤ j → closing (c :: cs) j = [] := by
      intro j hj
      exact closing_eq_nil (by rw [length_cons]; omega)
    rw [flatten_cons, decode_eq_some_iff.mp hd] at hpre hpart
    rw [hwait]
    simp only [recvLbc_of_readable m hfirst hlen hd hsize h0]
    exact m.recvLoop_error_iff (m.announced_bounds _).1 hrest hnil hpre hpart
  · obtain ⟨o, herr, hrun⟩ := recvLbc_of_not_readable m hfirst hread h0
    refine ⟨fun _ => ?_, fun _ => ⟨0, o, hrun 0, herr⟩⟩
    rintro ⟨⟨hlen, hdec, hsize⟩, -⟩
    cases chunks with
    | nil => exact absurd hlen (by decide)
    | cons c cs => exact hread ⟨hlen, hdec c mem_cons_self, hsize⟩

theorem recvLbc_iff {J : Json R} (m : Message J) :
    (∀ chunks : List Bytes, (∀ c ∈ chunks, c ≠ []) → chunks.flatten = sendLbc m.text →
      ∀ recv : ℕ → Bytes, (∀ (i : ℕ) (hi : i < chunks.length), recv i = chunks[i]) →
        ((∃ fuel, recvLbc J recv fuel = some (.returned m.value)) ↔
          m.text.length < 4294967296 ∧ Readable m.text chunks ∧
            chars chunks.dropLast < announced m.text (chunks.headD []).length)) ∧
    (∀ chunks : List Bytes, (∀ c ∈ chunks, c ≠ []) → chunks.flatten <+: sendLbc m.text →
      chunks.flatten ≠ sendLbc m.text →
        ((∃ fuel o, recvLbc J (closing chunks) fuel = some o ∧ o.IsError) ↔
          ¬ (Readable m.text chunks ∧
            chars chunks < announced m.text (chunks.headD []).length))) :=
  ⟨fun _ hne hall _ hrecv => recvLbc_returned_iff m hne hall hrecv,
    fun _ _ hpre hpart => recvLbc_error_iff m hpre hpart⟩

def okText : List Char := "\x7b\"log\":\"ok.\"\x7d".toList

def okJson : Json Unit where
  loads t := if t = okText then some () else none
  logOk _ := true
  loads_digit := by
    intro c t res hc h
    rw [ite_none_right_eq_some] at h
    obtain rfl : c = '\x7b' := (List.cons.inj h.1).1
    exact absurd hc.1 (by decide)

def okMessage : Message okJson where
  text := okText
  value := ()
  loads_text := rfl
  logOk_value := rfl
  loads_part _ _ hne := if_neg hne

theorem recvLbc_whole :
    ∃ fuel, recvLbc okJson (closing [sendLbc okText]) fuel = some (.returned ()) := by
  have hdec : decode (sendLbc okText) = some (lbcText okText) := decode_encode _
  refine ((recvLbc_iff okMessage).1 [sendLbc okText] ?_ ?_ _ ?_).mpr ⟨by decide, ⟨?_, ?_, ?_⟩, ?_⟩
  · intro c hc
    rw [mem_singleton.mp hc]
    decide
  · exact append_nil _
  · exact fun i hi => closing_eq hi
  · decide
  · intro c hc
    rw [mem_singleton.mp hc, hdec]
    rfl
  · decide
  · decide

theorem recvLbc_cut :
    (∀ fuel, recvLbc okJson (closing [(sendLbc okText).take 2, (sendLbc okText).drop 2]) fuel =
      some .nothing) ∧
    ∀ fuel, recvLbc okJson (closing [(sendLbc okText).take 12]) fuel = none := by
  constructor
  · intro fuel
    have h0 : closing [(sendLbc okText).take 2, (sendLbc okText).drop 2] 0 =
        (sendLbc okText).take 2 := rfl
    rw [recvLbc, h0, readSize_eq ( take_prefix 2 (sendLbc okText))]
    rfl
  · intro fuel
    have hdec : decode ((sendLbc okText).take 12) = some ((lbcText okText).take 12) :=
      decode_eq_some_iff.mpr (by decide)
    rw [recvLbc_of_readable okMessage ( take_prefix 12 (sendLbc okText)) (by decide) hdec
      (by decide) rfl]
    exact recvLoop_empty (fun j hj => closing_eq_nil hj) (by decide)

end Sysak.Surftrace
