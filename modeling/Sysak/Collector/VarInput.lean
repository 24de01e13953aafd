/-
# Tokens and the arrays they are read into
-/

import Sysak.Collector.Procffi
import Sysak.Lib.Sscanf

namespace Sysak.Collector
namespace VarInput

open Lib List Option

abbrev Cells (α : Type*) : Type _ := { l : List α // l.length = varIndexMax }

section Cells

variable {α : Type*}

def Cells.put (c : Cells α) (i : ℕ) (v : α) : Option (Cells α) :=
  if i < varIndexMax then some ⟨c.1.set i v, by rw [length_set, c.2]⟩ else none

def Cells.zero (z : α) : Cells α := ⟨replicate varIndexMax z, length_replicate⟩

end Cells

structure VarLong where
  no : ℕ
  value : Cells ℤ

structure VarString where
  no : ℕ
  s : Cells Bytes

structure VarKvs where
  no : ℕ
  s : Bytes
  value : Cells ℤ

section Loop

variable {α : Type*} (scan : Bytes → ℤ × Option α)

def inputLoop : ℕ → ℕ → Bytes → Cells α → Option (ℕ × Cells α)
  | 0, i, _, c => some (i, c)
  | n + 1, i, pv, c =>
    (match (scan pv).2 with
      | none => some c
      | some v => c.put i v).bind fun c =>
    if (scan pv).1 = 0 then some (i + 1, c)
    else
      match varNext (strchr pv 32) with
      | none => some (i + 1, c)
      | some pv => inputLoop n (i + 1) pv c

def inputCells (pv : Option Bytes) (c : Cells α) : Option (ℕ × Cells α) :=
  match varNext pv with
  | none => some (0, c)
  | some pv => inputLoop scan varIndexMax 0 pv c

end Loop

def varInputLong (line : Bytes) (p : VarLong) : Option (ℤ × VarLong) :=
  (inputCells sscanfLong (some (cString line)) p.value).map fun r => (0, ⟨r.1, r.2⟩)

def varInputString (line : Bytes) (p : VarString) : Option (ℤ × VarString) :=
  (inputCells (sscanfString 31) (some (cString line)) p.s).map fun r => (0, ⟨r.1, r.2⟩)

def varInputKvs (line : Bytes) (p : VarKvs) : Option (ℤ × VarKvs) :=
  match varNext (some (cString line)) with
  | none => some (0, { p with no := 0 })
  | some pv =>
    let s := (sscanfString 31 pv).2.getD p.s
    if (sscanfString 31 pv).1 = 0 then some (-1, { p with no := 0, s := s })
    else (inputCells sscanfLong (strchr pv 32) p.value).map fun r => (0, ⟨r.1, s, r.2⟩)

theorem noDigit_of_endsWord {s : Bytes} (h : EndsWord s) : NoDigit s := by
  intro c hc
  rw [h c hc]
  rfl

theorem isSpace_of_endsWord {s : Bytes} (h : EndsWord s) : ∀ c ∈ s.head?, isSpace c = true := by
  intro c hc
  rw [h c hc]
  rfl

def tokens (s : Bytes) : List Bytes := (s.splitOnP (· == 32)).filter fun t => !t.isEmpty

def IsToken (w : Bytes) : Prop := w ≠ [] ∧ ∀ c ∈ w, c ≠ 32

section Tokens

variable {w r : Bytes}

theorem tokens_blank (s : Bytes) : tokens (32 :: s) = tokens s := by
  unfold tokens
  rw [splitOnP_cons_eq_if_modifyHead, if_pos (beq_self_eq_true _)]
  rfl

theorem tokens_append (hw : IsToken w) (hr : EndsWord r) : tokens (w ++ r) = w :: tokens r := by
  have hno : ∀ c ∈ w, (c == 32) = false := fun c hc => beq_eq_false_iff_ne.mpr (hw.2 c hc)
  have hkeep : ∀ ts : List Bytes, (w :: ts).filter (fun t => !t.isEmpty) =
      w :: ts.filter fun t => !t.isEmpty := fun ts => by simp [hw.1]
  unfold tokens
  cases r with
  | nil =>
    rw [append_nil, splitOnP_eq_singleton hno, hkeep]
    rfl
  | cons c r =>
    obtain rfl : c = 32 := hr c rfl
    rw [splitOnP_append_cons_of_forall_mem hno _ (beq_self_eq_true _), hkeep]
    exact congrArg (w :: ·) (tokens_blank r).symm

theorem varNext_cases (s : Bytes) :
    varNext (some s) = none ∧ tokens s = [] ∨
    ∃ w r, varNext (some s) = some (w ++ r) ∧ IsToken w ∧ EndsWord r ∧
      tokens s = w :: tokens r := by
  induction s with
  | nil => exact .inl ⟨rfl, rfl⟩
  | cons c s ih =>
    by_cases hc : c = 32
    · subst hc
      rw [tokens_blank]
      exact ih
    · have hdrop : (c :: s).dropWhile (· == 32) = c :: s :=
        dropWhile_cons_of_neg (by simpa using hc)
      have hnext : varNext (some (c :: s)) = some (c :: s) := by
        rw [varNext, bind_some, hdrop]
        rfl
      have hw : IsToken (c :: s.takeWhile (· != 32)) := by
        refine ⟨cons_ne_nil _ _, fun d hd => ?_⟩
        rcases mem_cons.mp hd with rfl | hd
        · exact hc
        · simpa using mem_takeWhile_imp hd
      have hr : EndsWord (s.dropWhile (· != 32)) := by
        intro d hd
        have hfail := head?_dropWhile_not (· != 32) s
        rw [hd] at hfail
        simpa using hfail
      have heq : c :: s.takeWhile (· != 32) ++ s.dropWhile (· != 32) = c :: s := by
        rw [cons_append, takeWhile_append_dropWhile]
      refine .inr ⟨_, _, ?_, hw, hr, ?_⟩
      · rw [hnext, heq]
      · rw [← tokens_append hw hr, heq]

theorem varNext_strchr_token (hw : IsToken w) (hr : EndsWord r) :
    varNext (strchr (w ++ r) 32) = varNext (some r) := by
  have hdrop : (w ++ r).dropWhile (· != 32) = r := by
    rw [dropWhile_append_of_pos fun c hc => by simpa using hw.2 c hc]
    cases r with
    | nil => rfl
    | cons c r => rw [hr c rfl, dropWhile_cons_of_neg (by simp)]
  rw [strchr, hdrop]
  split_ifs with hnil
  · rw [hnil]
    rfl
  · rfl

end Tokens

variable {n i : ℕ}

section Run

variable {α : Type*} {scan : Bytes → ℤ × Option α} {read : Bytes → α} {w r : Bytes}

theorem Cells.put_of_lt {i : ℕ} (hi : i < varIndexMax) (c : Cells α) (v : α) :
    ∃ c', c.put i v = some c' ∧ c'.1 = c.1.take i ++ v :: c.1.drop (i + 1) := by
  refine ⟨⟨c.1.set i v, by rw [length_set, c.2]⟩, by rw [Cells.put, if_pos hi], ?_⟩
  show c.1.set i v = _
  rw [set_eq_take_append_cons_drop, if_pos (by rw [c.2]; exact hi)]

theorem inputLoop_succ (hw : IsToken w) (hr : EndsWord r) (n i : ℕ) (c : Cells α) :
    inputLoop scan (n + 1) i (w ++ r) c =
      (match (scan (w ++ r)).2 with
        | none => some c
        | some v => c.put i v).bind fun c =>
      if (scan (w ++ r)).1 = 0 then some (i + 1, c)
      else
        match varNext (some r) with
        | none => some (i + 1, c)
        | some pv => inputLoop scan n (i + 1) pv c := by
  rw [inputLoop, varNext_strchr_token hw hr]

theorem exists_inputLoop (hw : IsToken w) (hr : EndsWord r) {n i : ℕ} (hi : i + n = varIndexMax)
    (c : Cells α) : ∃ q, inputLoop scan n i (w ++ r) c = some q := by
  induction n generalizing w r i c with
  | zero => exact ⟨_, rfl⟩
  | succ n ih =>
    rw [inputLoop_succ hw hr]
    obtain ⟨c', hc'⟩ : ∃ c', (match (scan (w ++ r)).2 with
        | none => some c
        | some v => c.put i v) = some c' := by
      cases (scan (w ++ r)).2 with
      | none => exact ⟨c, rfl⟩
      | some v =>
        obtain ⟨c', hput, -⟩ := c.put_of_lt (i := i) (by omega) v
        exact ⟨c', hput⟩
    rw [hc', bind_some]
    split_ifs
    · exact ⟨_, rfl⟩
    · rcases varNext_cases r with ⟨hnone, -⟩ | ⟨w', r', hsome, hw', hr', -⟩
      · exact ⟨_, by rw [hnone]⟩
      · rw [hsome]
        exact ih hw' hr' (by omega) c'

theorem inputLoop_reads (hw : IsToken w) (hr : EndsWord r) (hi : i + n = varIndexMax) (c : Cells α)
    (h : ∀ t ∈ (w :: tokens r).take n, ∀ s, EndsWord s → scan (t ++ s) = (1, some (read t))) :
    ∃ c', inputLoop scan n i (w ++ r) c = some (i + ((w :: tokens r).take n).length, c') ∧
      c'.1 = c.1.take i ++ (((w :: tokens r).take n).map read ++
        c.1.drop (i + ((w :: tokens r).take n).length)) := by
  induction n generalizing w r i c with
  | zero => exact ⟨c, rfl, (take_append_drop i c.1).symm⟩
  | succ n ih =>
    have hscan := h w (by simp) r hr
    obtain ⟨c₁, hput, hc₁⟩ := c.put_of_lt (i := i) (by omega) (read w)
    have hlen : (c.1.take i).length = i := by
      rw [length_take, c.2]
      omega
    rw [inputLoop_succ hw hr, hscan]
    simp only [hput, bind_some, one_ne_zero, if_false, take_succ_cons,
      length_cons, map_cons]
    rcases varNext_cases r with ⟨hnone, hnil⟩ | ⟨w', r', hsome, hw', hr', htok⟩
    · rw [hnone, hnil]
      exact ⟨c₁, by simp, by simpa using hc₁⟩
    · rw [hsome, htok]
      have hrest := ih hw' hr' (i := i + 1) (by omega) c₁ fun t ht =>
        h t (by rw [htok, take_succ_cons]; exact mem_cons_of_mem _ ht)
      obtain ⟨c', hrun, hc'⟩ := hrest
      refine ⟨c', hrun.trans (by rw [Nat.add_right_comm, Nat.add_assoc]), ?_⟩
      have htake : c₁.1.take (i + 1) = c.1.take i ++ [read w] := by
        rw [hc₁, take_append, hlen, take_of_length_le (by omega)]
        simp
      have hdrop : ∀ k, c₁.1.drop (i + 1 + k) = c.1.drop (i + (k + 1)) := by
        intro k
        rw [hc₁, drop_append, hlen, drop_of_length_le (by omega), nil_append,
          show i + 1 + k - i = k + 1 by omega, drop_succ_cons, drop_drop]
        congr 1
        omega
      rw [hc', htake, hdrop]
      simp

variable {q : ℕ × Cells α}

theorem inputLoop_lt (hw : IsToken w) (hr : EndsWord r) {n i k : ℕ} {c : Cells α}
    (hq : inputLoop scan n i (w ++ r) c = some q) (hk : k < ((w :: tokens r).take n).length)
    (h : ∀ t ∈ (w :: tokens r).take k, ∀ s, EndsWord s → (scan (t ++ s)).1 ≠ 0) : i + k < q.1 := by
  induction n generalizing w r i k c with
  | zero => exact absurd hk (Nat.not_lt_zero _)
  | succ n ih =>
    rw [inputLoop_succ hw hr] at hq
    obtain ⟨c', -, hq⟩ := bind_eq_some_iff.mp hq
    cases k with
    | zero =>
      split_ifs at hq
      · cases hq
        exact Nat.lt_succ_self _
      · rcases varNext_cases r with ⟨hnone, -⟩ | ⟨w', r', hsome, hw', hr', -⟩
        · rw [hnone] at hq
          cases hq
          exact Nat.lt_succ_self _
        · rw [hsome] at hq
          cases n with
          | zero =>
            cases hq
            exact Nat.lt_succ_self _
          | succ n =>
            have hnext := ih hw' hr' hq (k := 0) (by simp) (by simp)
            omega
    | succ k =>
      rw [if_neg (h w (by simp) r hr)] at hq
      rcases varNext_cases r with ⟨-, hnil⟩ | ⟨w', r', hsome, hw', hr', htok⟩
      · rw [hnil] at hk
        simp at hk
      · rw [hsome] at hq
        rw [htok] at hk h
        have hnext := ih hw' hr' hq (k := k) (by simpa using hk) fun t ht =>
          h t (by rw [take_succ_cons]; exact mem_cons_of_mem _ ht)
        omega

theorem inputLoop_forall {P : α → Prop} (hscan : ∀ s, ∀ v ∈ (scan s).2, P v) {pv : Bytes}
    {c : Cells α} (hc : ∀ v ∈ c.1, P v) (hq : inputLoop scan n i pv c = some q) :
    ∀ v ∈ q.2.1, P v := by
  induction n generalizing pv i c with
  | zero =>
    cases hq
    exact hc
  | succ n ih =>
    rw [inputLoop] at hq
    obtain ⟨c', hput, hq⟩ := bind_eq_some_iff.mp hq
    have hc' : ∀ v ∈ c'.1, P v := by
      cases hv : (scan pv).2 with
      | none =>
        rw [hv] at hput
        cases hput
        exact hc
      | some v =>
        rw [hv] at hput
        unfold Cells.put at hput
        split_ifs at hput
        cases hput
        intro u hu
        rcases mem_or_eq_of_mem_set hu with hu | rfl
        · exact hc u hu
        · exact hscan pv u hv
    split_ifs at hq
    · cases hq
      exact hc'
    · cases hnext : varNext (strchr pv 32) with
      | none =>
        rw [hnext] at hq
        cases hq
        exact hc'
      | some pv' =>
        rw [hnext] at hq
        exact ih hc' hq

theorem inputCells_cases (scan : Bytes → ℤ × Option α) (s : Bytes) (c : Cells α) :
    inputCells scan (some s) c = some (0, c) ∧ tokens s = [] ∨
    ∃ w r, inputCells scan (some s) c = inputLoop scan varIndexMax 0 (w ++ r) c ∧
      IsToken w ∧ EndsWord r ∧ tokens s = w :: tokens r := by
  unfold inputCells
  rcases varNext_cases s with ⟨hnone, hnil⟩ | ⟨w, r, hsome, hw, hr, htok⟩
  · exact .inl ⟨by rw [hnone], hnil⟩
  · exact .inr ⟨w, r, by rw [hsome], hw, hr, htok⟩

theorem exists_inputCells (s : Bytes) (c : Cells α) : ∃ q, inputCells scan (some s) c = some q := by
  rcases inputCells_cases scan s c with ⟨h, -⟩ | ⟨w, r, h, hw, hr, -⟩
  · exact ⟨_, h⟩
  · rw [h]
    exact exists_inputLoop hw hr (Nat.zero_add _) c

theorem inputCells_reads (read : Bytes → α) (s : Bytes) (c : Cells α)
    (h : ∀ t ∈ (tokens s).take varIndexMax, ∀ s, EndsWord s → scan (t ++ s) = (1, some (read t))) :
    ∃ c', inputCells scan (some s) c = some (((tokens s).take varIndexMax).length, c') ∧
      c'.1 = ((tokens s).take varIndexMax).map read ++
        c.1.drop ((tokens s).take varIndexMax).length := by
  rcases inputCells_cases scan s c with ⟨hrun, hnil⟩ | ⟨w, r, hrun, hw, hr, htok⟩
  · rw [hnil]
    exact ⟨c, hrun, rfl⟩
  · rw [htok] at h ⊢
    rw [hrun]
    simpa using inputLoop_reads hw hr (Nat.zero_add _) c h

theorem inputCells_lt {s : Bytes} {k : ℕ} {c : Cells α} (hq : inputCells scan (some s) c = some q)
    (hk : k < ((tokens s).take varIndexMax).length)
    (h : ∀ t ∈ (tokens s).take k, ∀ s, EndsWord s → (scan (t ++ s)).1 ≠ 0) : k < q.1 := by
  rcases inputCells_cases scan s c with ⟨-, hnil⟩ | ⟨w, r, hrun, hw, hr, htok⟩
  · rw [hnil] at hk
    exact absurd hk (Nat.not_lt_zero _)
  · rw [htok] at h hk
    rw [hrun] at hq
    simpa using inputLoop_lt hw hr hq hk h

end Run

theorem varInputKvs_key {line w r : Bytes} (hnext : varNext (some (cString line)) = some (w ++ r))
    (hw : IsToken w) (hr : EndsWord r) (p : VarKvs) :
    varInputKvs line p = (inputCells sscanfLong (some r) p.value).map fun q =>
      (0, ⟨q.1, (sscanfString 31 (w ++ r)).2.getD p.s, q.2⟩) := by
  have hrest : inputCells sscanfLong (strchr (w ++ r) 32) p.value =
      inputCells sscanfLong (some r) p.value := by
    unfold inputCells
    rw [varNext_strchr_token hw hr]
  simp only [varInputKvs, hnext, if_neg (sscanfString_ne_zero 31 (w ++ r)), hrest]

def varCells {α : Type*} (scan : Bytes → α × Bool) (pv : Option Bytes) : List α :=
  match varNext pv with
  | none => []
  | some pv => varLoop scan varIndexMax pv

section Zero

variable {α : Type*} {scan : Bytes → ℤ × Option α} {scan' : Bytes → α × Bool} {z : α}

theorem Cells.exists_assigned (hi : i < varIndexMax) {c : Cells α}
    (hc : c.1.drop i = replicate (n + 1) z) (pv : Bytes) :
    ∃ c', (match (scan pv).2 with
        | none => some c
        | some v => c.put i v) = some c' ∧
      c'.1.take (i + 1) = c.1.take i ++ [(scan pv).2.getD z] ∧
      c'.1.drop (i + 1) = replicate n z := by
  have hdrop : c.1.drop (i + 1) = replicate n z := by
    rw [← tail_drop, hc]
    rfl
  cases (scan pv).2 with
  | none =>
    refine ⟨c, rfl, ?_, hdrop⟩
    rw [take_add_one, ← head?_drop, hc]
    rfl
  | some v =>
    obtain ⟨c', hput, hc'⟩ := c.put_of_lt hi v
    have hlen : (c.1.take i ++ [v]).length = i + 1 := by
      rw [length_append, length_take, c.2, Nat.min_eq_left hi.le]
      rfl
    rw [hdrop, append_cons] at hc'
    exact ⟨c', hput, by rw [hc', take_left' hlen]; rfl, by rw [hc', drop_left' hlen]⟩

theorem inputLoop_zero (hscan : ∀ s, scan' s = ((scan s).2.getD z, decide ((scan s).1 = 0)))
    (hi : i + n = varIndexMax) (pv : Bytes) {c : Cells α} (hc : c.1.drop i = replicate n z) :
    ∃ c', inputLoop scan n i pv c = some (i + (varLoop scan' n pv).length, c') ∧
      c'.1.take (i + (varLoop scan' n pv).length) = c.1.take i ++ varLoop scan' n pv := by
  induction n generalizing i pv c with
  | zero => exact ⟨c, rfl, by simp [varLoop]⟩
  | succ n ih =>
    obtain ⟨c₁, hput, htake, hdrop⟩ := Cells.exists_assigned (by omega) hc pv
    have hval : (scan' pv).1 = (scan pv).2.getD z := by rw [hscan]
    rw [← hval] at htake
    have hres : (scan' pv).2 = decide ((scan pv).1 = 0) := by rw [hscan]
    rw [inputLoop, hput, bind_some, varLoop, hres]
    by_cases hzero : (scan pv).1 = 0
    · simp only [hzero, if_true, decide_true]
      exact ⟨c₁, rfl, htake⟩
    · simp only [hzero, if_false, decide_false, Bool.false_eq_true]
      cases varNext (strchr pv 32) with
      | none => exact ⟨c₁, rfl, htake⟩
      | some pv' =>
        obtain ⟨c', hrun, hc'⟩ := ih (i := i + 1) (by omega) pv' hdrop
        refine ⟨c', hrun.trans ?_, ?_⟩
        · rw [length_cons, Nat.add_right_comm, Nat.add_assoc]
        · rw [length_cons, ← Nat.add_assoc, Nat.add_right_comm, hc', htake,
            append_assoc]
          rfl

theorem inputCells_zero (hscan : ∀ s, scan' s = ((scan s).2.getD z, decide ((scan s).1 = 0)))
    (pv : Option Bytes) :
    ∃ c', inputCells scan pv (Cells.zero z) = some ((varCells scan' pv).length, c') ∧
      c'.1.take (varCells scan' pv).length = varCells scan' pv := by
  unfold inputCells varCells
  cases varNext pv with
  | none => exact ⟨_, rfl, rfl⟩
  | some pv =>
    simpa using inputLoop_zero hscan (Nat.zero_add _) pv (c := Cells.zero z) rfl

end Zero

theorem scanLong_eq (s : Bytes) :
    scanLong s = ((sscanfLong s).2.getD 0, decide ((sscanfLong s).1 = 0)) := by
  unfold scanLong sscanfLong
  dsimp only
  split_ifs <;> rfl

theorem scanString_eq (s : Bytes) :
    scanString s = ((sscanfString 31 s).2.getD [], decide ((sscanfString 31 s).1 = 0)) := by
  unfold scanString sscanfString
  dsimp only
  split_ifs with h
  · rw [h]
    rfl
  · rfl

theorem varInputLong_zero (line : Bytes) :
    ∃ q, varInputLong line ⟨0, Cells.zero 0⟩ = some (0, q) ∧
      q.no = (Collector.varInputLong line).length ∧
      q.value.1.take q.no = Collector.varInputLong line := by
  obtain ⟨c', hrun, hc'⟩ := inputCells_zero scanLong_eq (some (cString line))
  exact ⟨⟨_, c'⟩, by rw [varInputLong, hrun]; rfl, rfl, hc'⟩

theorem varInputString_zero (line : Bytes) :
    ∃ q, varInputString line ⟨0, Cells.zero []⟩ = some (0, q) ∧
      q.no = (Collector.varInputString line).length ∧
      q.s.1.take q.no = Collector.varInputString line := by
  obtain ⟨c', hrun, hc'⟩ := inputCells_zero scanString_eq (some (cString line))
  exact ⟨⟨_, c'⟩, by rw [varInputString, hrun]; rfl, rfl, hc'⟩

/-- On a zeroed record the C code writes the cells that the list model lists. -/
theorem varInputKvs_zero (line : Bytes) :
    ∃ q, varInputKvs line ⟨0, [], Cells.zero 0⟩ = some (0, q) ∧
      q.no = (Collector.varInputKvs line).value.length ∧
      Collector.varInputKvs line = ⟨q.s, q.value.1.take q.no⟩ := by
  unfold varInputKvs Collector.varInputKvs
  cases hnext : varNext (some (cString line)) with
  | none => exact ⟨_, rfl, rfl, rfl⟩
  | some pv =>
    obtain ⟨c', hrun, hc'⟩ := inputCells_zero scanLong_eq (strchr pv 32)
    refine ⟨⟨(varCells scanLong (strchr pv 32)).length, (sscanfString 31 pv).2.getD [], c'⟩,
      ?_, rfl, ?_⟩
    · simp only [if_neg (sscanfString_ne_zero 31 pv), hrun]
      rfl
    · rw [hc']
      exact congrArg (Collector.VarKvs.mk · _) (congrArg Prod.fst (scanString_eq pv))

end VarInput
end Sysak.Collector
