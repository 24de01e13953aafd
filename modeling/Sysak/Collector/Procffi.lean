/-
# Reading a line of a file in `/proc`
-/

import Mathlib.Data.List.TakeWhile
import Sysak.Lib.Decimal

namespace Sysak.Collector

open Lib List

def varIndexMax : ℕ := 64

def varNext (pv : Option Bytes) : Option Bytes :=
  pv.bind fun s =>
    let s := s.dropWhile (· == 32)
    if s = [] then none else some s

def strchr (s : Bytes) (c : UInt8) : Option Bytes :=
  let r := s.dropWhile (· != c)
  if r = [] then none else some r

def scanString (s : Bytes) : Bytes × Bool :=
  (((s.dropWhile isSpace).takeWhile fun c => !isSpace c).take 31, false)

def scanLong (s : Bytes) : ℤ × Bool :=
  let s := s.dropWhile isSpace
  let t := sign s
  let ds := t.2.takeWhile isDigit
  if s = [] then (0, false)
  else if ds = [] then (0, true)
  else
    let v : ℤ := if t.1 then -decimal ds else decimal ds
    (max (-9223372036854775808) (min v 9223372036854775807), false)

def varLoop {α : Type*} (scan : Bytes → α × Bool) : ℕ → Bytes → List α
  | 0, _ => []
  | i + 1, pv =>
    let r := scan pv
    r.1 :: if r.2 then [] else
      match varNext (strchr pv 32) with
      | none => []
      | some pv => varLoop scan i pv

def cString (line : Bytes) : Bytes := line.takeWhile (· != 0)

def varInputLong (line : Bytes) : List ℤ :=
  match varNext (some (cString line)) with
  | none => []
  | some pv => varLoop scanLong varIndexMax pv

def varInputString (line : Bytes) : List Bytes :=
  match varNext (some (cString line)) with
  | none => []
  | some pv => varLoop scanString varIndexMax pv

structure VarKvs where
  s : Bytes
  value : List ℤ
  deriving DecidableEq, Repr

def varInputKvs (line : Bytes) : VarKvs :=
  match varNext (some (cString line)) with
  | none => ⟨[], []⟩
  | some pv =>
    ⟨(scanString pv).1,
      match varNext (strchr pv 32) with
      | none => []
      | some pv => varLoop scanLong varIndexMax pv⟩

def IsWord (w : Bytes) : Prop := w ≠ [] ∧ ∀ c ∈ w, isSpace c = false ∧ c ≠ 0

def spaced (ws : List (ℕ × Bytes)) : Bytes :=
  ws.flatMap fun p => replicate p.1 32 ++ p.2

def EndsWord (s : Bytes) : Prop := ∀ c ∈ s.head?, c = 32

section Spaced

variable {w s : Bytes} {ws : List (ℕ × Bytes)} {gap : ℕ}

theorem spaced_cons (p : ℕ × Bytes) (ws : List (ℕ × Bytes)) :
    spaced (p :: ws) = replicate p.1 32 ++ (p.2 ++ spaced ws) := by
  rw [spaced, flatMap_cons, append_assoc, ← spaced]

theorem endsWord_spaced (hgap : ∀ p ∈ ws, 0 < p.1) : EndsWord (spaced ws) := by
  cases ws with
  | nil => exact fun _ hc => by cases hc
  | cons p ws =>
    obtain ⟨n, hn⟩ := Nat.exists_eq_succ_of_ne_zero (hgap p mem_cons_self).ne'
    intro c hc
    rw [spaced_cons, hn, replicate_succ] at hc
    exact (Option.some.inj hc).symm

theorem varNext_append (hw : IsWord w) (gap : ℕ) (s : Bytes) :
    varNext (some (replicate gap 32 ++ (w ++ s))) = some (w ++ s) := by
  obtain ⟨c, t, rfl⟩ := exists_cons_of_ne_nil hw.1
  have hc : (c == 32) = false := by
    refine beq_eq_false_iff_ne.mpr fun heq => ?_
    have hspace := (hw.2 c mem_cons_self).1
    rw [heq] at hspace
    exact absurd hspace (by decide)
  have hdrop : (replicate gap 32 ++ (c :: t ++ s)).dropWhile (· == 32) = c :: t ++ s := by
    rw [dropWhile_append_of_pos (by simp), cons_append,
      dropWhile_cons_of_neg (by simp [hc])]
  rw [varNext, Option.bind_some, hdrop]
  rfl

theorem strchr_append (hw : IsWord w) (hs : EndsWord s) :
    strchr (w ++ s) 32 = if s = [] then none else some s := by
  have hno : ∀ c ∈ w, (c != 32) = true := by
    intro c hc
    refine bne_iff_ne.mpr fun heq => ?_
    have hspace := (hw.2 c hc).1
    rw [heq] at hspace
    exact absurd hspace (by decide)
  have hdrop : (w ++ s).dropWhile (· != 32) = s := by
    rw [dropWhile_append_of_pos hno]
    cases s with
    | nil => rfl
    | cons c s => rw [hs c rfl, dropWhile_cons_of_neg (by simp)]
  rw [strchr, hdrop]

theorem varNext_strchr (hw : IsWord w) (hws : ∀ p ∈ ws, 0 < p.1 ∧ IsWord p.2) :
    varNext (strchr (w ++ spaced ws) 32) = ws.head?.map fun p => p.2 ++ spaced ws.tail := by
  rw [strchr_append hw (endsWord_spaced fun p hp => (hws p hp).1)]
  cases ws with
  | nil => rfl
  | cons p ws =>
    obtain ⟨hgap, hp⟩ := hws p mem_cons_self
    have hne : spaced (p :: ws) ≠ [] := by
      rw [spaced_cons]
      simp [hp.1]
    rw [if_neg hne, spaced_cons, varNext_append hp]
    rfl

theorem varLoop_spaced {α : Type*} {scan : Bytes → α × Bool} {read : Bytes → α}
    (hw : IsWord w) (hws : ∀ p ∈ ws, 0 < p.1 ∧ IsWord p.2)
    (hscan : ∀ v ∈ w :: ws.map Prod.snd, ∀ s, EndsWord s → scan (v ++ s) = (read v, false))
    {i : ℕ} (hi : ws.length < i) :
    varLoop scan i (w ++ spaced ws) = read w :: (ws.map Prod.snd).map read := by
  induction ws generalizing w i with
  | nil =>
    obtain ⟨i, rfl⟩ := Nat.exists_eq_succ_of_ne_zero (Nat.ne_zero_of_lt hi)
    rw [varLoop, hscan w mem_cons_self _ (endsWord_spaced (by simp)),
      varNext_strchr hw hws]
    rfl
  | cons p ws ih =>
    obtain ⟨i, rfl⟩ := Nat.exists_eq_succ_of_ne_zero (Nat.ne_zero_of_lt hi)
    have hrest := ih (hws p mem_cons_self).2
      (fun q hq => hws q (mem_cons_of_mem _ hq))
      (fun v hv => hscan v (mem_cons_of_mem _ hv)) (Nat.lt_of_succ_lt_succ hi)
    rw [varLoop, hscan w mem_cons_self _ (endsWord_spaced fun q hq => (hws q hq).1),
      varNext_strchr hw hws]
    exact congrArg (read w :: ·) hrest

theorem cString_spaced (hws : ∀ p ∈ ws, IsWord p.2) : cString (spaced ws) = spaced ws := by
  refine takeWhile_eq_self_iff.mpr fun c hc => bne_iff_ne.mpr ?_
  obtain ⟨p, hp, hc⟩ := mem_flatMap.mp hc
  rcases mem_append.mp hc with hc | hc
  · rw [eq_of_mem_replicate hc]
    decide
  · exact ((hws p hp).2 c hc).2

theorem scanString_append (hw : IsWord w) (hlen : w.length ≤ 31) (hs : EndsWord s) :
    scanString (w ++ s) = (w, false) := by
  have hdrop : (w ++ s).dropWhile isSpace = w ++ s := by
    obtain ⟨c, t, rfl⟩ := exists_cons_of_ne_nil hw.1
    rw [cons_append, dropWhile_cons_of_neg]
    rw [(hw.2 c mem_cons_self).1]
    decide
  have htake : (w ++ s).takeWhile (fun c => !isSpace c) = w := by
    rw [takeWhile_append_of_pos fun c hc => by rw [(hw.2 c hc).1]; rfl]
    cases s with
    | nil => simp
    | cons c s =>
      rw [hs c rfl, takeWhile_cons_of_neg (by decide), append_nil]
  rw [scanString, hdrop, htake, take_of_length_le hlen]

theorem isWord_dec (n : ℕ) : IsWord (dec n) := by
  refine ⟨dec_ne_nil n, fun c hc => ⟨isSpace_of_isDigit (isDigit_of_mem_dec hc), ?_⟩⟩
  rintro rfl
  exact absurd (isDigit_of_mem_dec hc) (by decide)

theorem scanLong_dec {n : ℕ} (hn : n < 9223372036854775808) (hs : EndsWord s) :
    scanLong (dec n ++ s) = ((n : ℤ), false) := by
  have hno : NoDigit s := by
    intro c hc
    rw [hs c hc]
    decide
  have hne : dec n ++ s ≠ [] := by simp [dec_ne_nil]
  simp only [scanLong, dropWhile_isSpace_dec, sign_dec, takeWhile_dec hno, decimal_dec,
    if_neg hne, if_neg (dec_ne_nil n), Bool.false_eq_true, if_false]
  rw [min_eq_left (by omega), max_eq_right (by omega)]

theorem varInputString_spaced (hws : ∀ p ∈ ws, 0 < p.1 ∧ IsWord p.2 ∧ p.2.length ≤ 31)
    (gap : ℕ) (hw : IsWord w) (hlen : w.length ≤ 31) (hmax : ws.length < varIndexMax) :
    varInputString (spaced ((gap, w) :: ws)) = w :: ws.map Prod.snd := by
  have hword : ∀ p ∈ (gap, w) :: ws, IsWord p.2 := by
    intro p hp
    rcases mem_cons.mp hp with rfl | hp
    · exact hw
    · exact (hws p hp).2.1
  have hscan : ∀ v ∈ w :: ws.map Prod.snd, ∀ s, EndsWord s →
      scanString (v ++ s) = (id v, false) := by
    intro v hv s hs
    rcases mem_cons.mp hv with rfl | hv
    · exact scanString_append hw hlen hs
    · obtain ⟨p, hp, rfl⟩ := mem_map.mp hv
      exact scanString_append (hws p hp).2.1 (hws p hp).2.2 hs
  rw [varInputString, cString_spaced hword, spaced_cons, varNext_append hw]
  show varLoop scanString varIndexMax (w ++ spaced ws) = _
  rw [varLoop_spaced hw (fun p hp => ⟨(hws p hp).1, (hws p hp).2.1⟩) hscan hmax, map_id]
  rfl

theorem varInputKvs_spaced {ns : List (ℕ × ℕ)}
    (hns : ∀ p ∈ ns, 0 < p.1 ∧ p.2 < 9223372036854775808) (gap : ℕ) (hw : IsWord w)
    (hlen : w.length ≤ 31) (hmax : ns.length ≤ varIndexMax) :
    varInputKvs (spaced ((gap, w) :: ns.map fun p => (p.1, dec p.2))) =
      ⟨w, ns.map fun p => (p.2 : ℤ)⟩ := by
  have hws : ∀ p ∈ ns.map fun p => (p.1, dec p.2), 0 < p.1 ∧ IsWord p.2 := by
    intro p hp
    obtain ⟨q, hq, rfl⟩ := mem_map.mp hp
    exact ⟨(hns q hq).1, isWord_dec q.2⟩
  have hword : ∀ p ∈ (gap, w) :: ns.map fun p => (p.1, dec p.2), IsWord p.2 := by
    intro p hp
    rcases mem_cons.mp hp with rfl | hp
    · exact hw
    · exact (hws p hp).2
  rw [varInputKvs, cString_spaced hword, spaced_cons, varNext_append hw]
  show VarKvs.mk _ _ = _
  rw [scanString_append hw hlen (endsWord_spaced fun p hp => (hws p hp).1), varNext_strchr hw hws]
  congr 1
  cases ns with
  | nil => rfl
  | cons n ns =>
    have hscan : ∀ v ∈ dec n.2 :: (ns.map fun p => (p.1, dec p.2)).map Prod.snd, ∀ s,
        EndsWord s → scanLong (v ++ s) = ((decimal v : ℤ), false) := by
      intro v hv s hs
      rw [map_map] at hv
      obtain ⟨p, hp, rfl⟩ : ∃ p ∈ n :: ns, dec p.2 = v := mem_map.mp hv
      rw [decimal_dec]
      exact scanLong_dec (hns p hp).2 hs
    refine (varLoop_spaced (isWord_dec n.2) (fun p hp => hws p (mem_cons_of_mem _ hp)) hscan
      (by rwa [length_map])).trans ?_
    simp only [map_cons, map_map, Function.comp_def, decimal_dec]

end Spaced

end Sysak.Collector
