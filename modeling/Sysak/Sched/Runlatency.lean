/-
# The parser of the latency logs
-/

import Sysak.Lib.Reads
import Mathlib.Data.List.TakeWhile

namespace Sysak.Sched.Runlatency

open Lib List Option

abbrev Text := List UInt8

def accept (stop : UInt8 → Bool) (s : Text) : Text := (s.dropWhile (!stop ·)).tail

def copyName (beg : Text) : ℕ → Option Text
  | 0 => none
  | size + 1 => some (beg.take size)

def word (stop : UInt8 → Bool) (s : Text) : Option (Text × Text) :=
  let cur := accept stop s
  (copyName s (s.length - cur.length)).map (·, cur)

def isColon (c : UInt8) : Bool := c == 58

def isEnd (c : UInt8) : Bool := c == 9 || c == 10

def isNewline (c : UInt8) : Bool := c == 10

def parserArgs : ℕ → Text → Option (List (Text × Text) × Text)
  | 0, _ => none
  | n + 1, s => (word isColon s).bind fun (title, s) => (word isEnd s).bind fun (value, cur) =>
      if s[s.length - cur.length - 1]? = some 10 then some ([(title, value)], cur)
      else (parserArgs n cur).map fun (args, s) => ((title, value) :: args, s)

def blanks (s : Text) : Text := s.dropWhile (· == 32)

def headArgs (s : Text) : Option (List (Text × Text) × Text) := parserArgs s.length (blanks s)

def stackGet : ℕ → Text → Option (List Text × Text)
  | 0, s => if s.head? = some 10 then some ([], s.tail) else none
  | n + 1, s => if s.head? = some 10 then some ([], s.tail) else
      (word isNewline (blanks s)).bind fun (line, cur) =>
        (stackGet n cur).map fun (stack, s) => (line :: stack, s)

def body (mode : String) (s : Text) : Option ((String × List (Text × Text) × List Text) × Text) :=
  (headArgs s).bind fun (args, s) =>
    (stackGet s.length s).map fun (stack, s) => ((mode, args, stack), s)

def bodyRunq (s : Text) : Option ((String × List (Text × Text) × List Text) × Text) :=
  (headArgs s).bind fun (args, s) => s.tail?.map fun s => (("runq", args, []), s)

inductive Log
  | irqoff
  | nosch
  | runq
deriving DecidableEq

def parser (stream : Text) : Log → Option (List (String × List (Text × Text) × List Text))
  | .irqoff =>
    let beg := accept isNewline (accept isNewline (accept isNewline stream))
    -- at the NUL already `sBeg[1]` is not of the text
    (readLoop (·[1]? = some 115) (body "hard") beg.length beg).bind fun (hard, s) =>
      let s := accept isNewline s
      (readLoop isEmpty (body "soft") s.length s).map (hard ++ ·.1)
  | .nosch => (readLoop isEmpty (body "nosch") stream.length stream).map (·.1)
  | .runq => (readLoop isEmpty bodyRunq stream.length stream).map (·.1)

structure First (stop : UInt8 → Bool) (s t : Text) (c : UInt8) (r : Text) : Prop where
  eq : s = t ++ c :: r
  before : ∀ x ∈ t, stop x = false
  stops : stop c

section First

variable {stop : UInt8 → Bool} {s t r : Text} {c : UInt8}

theorem First.dropWhile_eq (h : First stop s t c r) : s.dropWhile (!stop ·) = c :: r := by
  rw [h.eq, dropWhile_append_of_pos fun x hx => by simp [h.before x hx],
    dropWhile_cons_of_neg (by simp [h.stops])]

theorem first_or (stop : UInt8 → Bool) (s : Text) :
    (∃ t c r, First stop s t c r) ∨ ∀ x ∈ s, stop x = false := by
  induction s with
  | nil => exact .inr (by simp)
  | cons a s ih =>
    cases ha : stop a with
    | true => exact .inl ⟨[], a, s, rfl, by simp, ha⟩
    | false =>
      rcases ih with ⟨t, c, r, h⟩ | h
      · exact .inl ⟨a :: t, c, r, by rw [h.eq, cons_append], by simpa [ha] using h.before, h.stops⟩
      · exact .inr (by simpa [ha] using h)

theorem First.length_lt (h : First stop s t c r) : r.length < s.length := by
  rw [h.eq, length_append, length_cons]
  omega

theorem First.getElem?_eq (h : First stop s t c r) : s[s.length - r.length - 1]? = some c := by
  simp [h.eq, show t.length + (r.length + 1) - r.length - 1 = t.length by omega]

theorem First.word_eq (h : First stop s t c r) : word stop s = some (t, r) := by
  rw [word, accept, h.dropWhile_eq, tail_cons,
    show s.length - r.length = t.length + 1 by simp [h.eq]; omega]
  simp [copyName, h.eq]

theorem eq_nil_of_word (h : ∀ x ∈ s, stop x = false) {w cur : Text}
    (hw : word stop s = some (w, cur)) : cur = [] := by
  rw [word, accept, dropWhile_eq_nil_iff.mpr (by simpa using h)] at hw
  obtain ⟨_, -, heq⟩ := map_eq_some_iff.mp hw
  exact (Prod.mk.inj heq).2.symm

end First

inductive Args : Text → Text → Prop
  | last {s t u v r : Text} : First isColon s t 58 u → First isEnd u v 10 r → Args s r
  | more {s t u v m r : Text} : First isColon s t 58 u → First isEnd u v 9 m → Args m r → Args s r

inductive Stack : Text → Text → Prop
  | done {r : Text} : Stack (10 :: r) r
  | line {s l m r : Text} : s.head? ≠ some 10 → First isNewline (blanks s) l 10 m → Stack m r →
      Stack s r

def Record (s r : Text) : Prop := ∃ m, Args (blanks s) m ∧ Stack m r

def RunqRecord (s r : Text) : Prop := ∃ c, Args (blanks s) (c :: r)

def WholeRecords (text : Text) : Log → Prop
  | .irqoff => ∃ s, Leads (·[1]? = some 115) Record
      (accept isNewline (accept isNewline (accept isNewline text))) s ∧
      Leads isEmpty Record (accept isNewline s) []
  | .nosch => Leads isEmpty Record text []
  | .runq => Leads isEmpty RunqRecord text []

variable {s t u v m r : Text} {n : ℕ}

theorem blanks_length_le (s : Text) : (blanks s).length ≤ s.length :=
  (dropWhile_sublist _).length_le

theorem Args.length_lt (h : Args s r) : r.length < s.length := by
  induction h with
  | last ht hv => exact Nat.lt_trans hv.length_lt ht.length_lt
  | more ht hv _ ih => exact Nat.lt_trans (Nat.lt_trans ih hv.length_lt) ht.length_lt

theorem Stack.length_lt (h : Stack s r) : r.length < s.length := by
  induction h with
  | done => exact Nat.lt_succ_self _
  | line _ hl _ ih => exact Nat.lt_of_lt_of_le (Nat.lt_trans ih hl.length_lt) (blanks_length_le _)

theorem parserArgs_nil (n : ℕ) : parserArgs n [] = none := by cases n <;> rfl

theorem parserArgs_last (ht : First isColon s t 58 u) (hv : First isEnd u v 10 r) :
    parserArgs (n + 1) s = some ([(t, v)], r) := by
  simp [parserArgs, ht.word_eq, hv.word_eq, hv.getElem?_eq]

theorem parserArgs_more (ht : First isColon s t 58 u) (hv : First isEnd u v 9 m) :
    parserArgs (n + 1) s = (parserArgs n m).map fun (args, s) => ((t, v) :: args, s) := by
  simp [parserArgs, ht.word_eq, hv.word_eq, hv.getElem?_eq]

theorem parserArgs_of_no_colon (h : ∀ x ∈ s, isColon x = false) : parserArgs n s = none := by
  cases n with
  | zero => rfl
  | succ n =>
    refine bind_eq_none_iff.mpr fun ⟨w, cur⟩ hw => ?_
    obtain rfl := eq_nil_of_word h hw
    rfl

theorem parserArgs_of_no_end (ht : First isColon s t 58 u) (h : ∀ x ∈ u, isEnd x = false) :
    parserArgs n s = none := by
  cases n with
  | zero => rfl
  | succ n =>
    rw [parserArgs, ht.word_eq, bind_some]
    refine bind_eq_none_iff.mpr fun ⟨w, cur⟩ hw => ?_
    obtain rfl := eq_nil_of_word h hw
    have hne : u[u.length - 1]? ≠ some 10 := fun he =>
      absurd (h 10 (mem_of_getElem? he)) (by decide)
    simp [hne, parserArgs_nil]

theorem args_of_parserArgs {o : List (Text × Text)} (h : parserArgs n s = some (o, r)) :
    Args s r := by
  induction n generalizing s o with
  | zero => cases h
  | succ n ih =>
    rcases first_or isColon s with ⟨t, c, u, ht⟩ | hs
    · obtain rfl : c = 58 := beq_iff_eq.mp ht.stops
      rcases first_or isEnd u with ⟨v, c, m, hv⟩ | hu
      · obtain rfl | rfl : c = 9 ∨ c = 10 := by simpa [isEnd] using hv.stops
        · rw [parserArgs_more ht hv] at h
          obtain ⟨⟨args, r'⟩, ha, heq⟩ := map_eq_some_iff.mp h
          obtain ⟨-, rfl⟩ := Prod.mk.inj heq
          exact .more ht hv (ih ha)
        · rw [parserArgs_last ht hv] at h
          obtain ⟨-, rfl⟩ := Prod.mk.inj (some.inj h)
          exact .last ht hv
      · rw [parserArgs_of_no_end ht hu] at h
        cases h
    · rw [parserArgs_of_no_colon hs] at h
      cases h

theorem Args.exists_parserArgs (h : Args s r) :
    s.length ≤ n → ∃ o, parserArgs n s = some (o, r) := by
  induction h generalizing n with
  | last ht hv =>
    intro hn
    obtain ⟨n, rfl⟩ := Nat.exists_eq_succ_of_ne_zero (by have := ht.length_lt; omega : n ≠ 0)
    exact ⟨_, parserArgs_last ht hv⟩
  | @more s t u v m r ht hv _ ih =>
    intro hn
    have hu := ht.length_lt
    have hm := hv.length_lt
    obtain ⟨n, rfl⟩ := Nat.exists_eq_succ_of_ne_zero (by omega : n ≠ 0)
    obtain ⟨o, ho⟩ := ih (n := n) (by omega)
    exact ⟨(t, v) :: o, by rw [parserArgs_more ht hv, ho, map_some]⟩

theorem headArgs_iff : (∃ o, headArgs s = some (o, r)) ↔ Args (blanks s) r := by
  constructor
  · rintro ⟨o, ho⟩
    exact args_of_parserArgs ho
  · intro h
    exact h.exists_parserArgs (blanks_length_le s)

theorem stackGet_done (h : s.head? = some 10) : stackGet n s = some ([], s.tail) := by
  cases n <;> exact if_pos h

theorem stackGet_line {l : Text} (h : s.head? ≠ some 10) (hl : First isNewline (blanks s) l 10 m) :
    stackGet (n + 1) s = (stackGet n m).map fun (stack, s) => (l :: stack, s) := by
  simp [stackGet, h, hl.word_eq]

theorem stackGet_nil (n : ℕ) : stackGet n [] = none := by cases n <;> rfl

theorem stack_of_head {o : List Text} (hs : s.head? = some 10) (h : stackGet n s = some (o, r)) :
    Stack s r := by
  obtain ⟨m, rfl⟩ := head?_eq_some_iff.mp hs
  rw [stackGet_done hs] at h
  obtain ⟨-, rfl⟩ := Prod.mk.inj (some.inj h)
  exact .done

theorem stack_of_stackGet {o : List Text} (h : stackGet n s = some (o, r)) : Stack s r := by
  induction n generalizing s o with
  | zero =>
    by_cases hs : s.head? = some 10
    · exact stack_of_head hs h
    · rw [stackGet, if_neg hs] at h
      cases h
  | succ n ih =>
    by_cases hs : s.head? = some 10
    · exact stack_of_head hs h
    · rcases first_or isNewline (blanks s) with ⟨l, c, m, hl⟩ | hn
      · obtain rfl : c = 10 := beq_iff_eq.mp hl.stops
        rw [stackGet_line hs hl] at h
        obtain ⟨⟨stack, r'⟩, hk, heq⟩ := map_eq_some_iff.mp h
        obtain ⟨-, rfl⟩ := Prod.mk.inj heq
        exact .line hs hl (ih hk)
      · -- the line goes to the NUL, and the next one is a copy of size 0
        rw [stackGet, if_neg hs] at h
        obtain ⟨⟨l, cur⟩, hw, h⟩ := bind_eq_some_iff.mp h
        obtain rfl := eq_nil_of_word hn hw
        simp [stackGet_nil] at h

theorem Stack.exists_stackGet (h : Stack s r) : s.length ≤ n → ∃ o, stackGet n s = some (o, r) := by
  induction h generalizing n with
  | done => exact fun _ => ⟨[], stackGet_done rfl⟩
  | @line s l m r hs hl _ ih =>
    intro hn
    have hm := hl.length_lt
    have hb := blanks_length_le s
    obtain ⟨n, rfl⟩ := Nat.exists_eq_succ_of_ne_zero (by omega : n ≠ 0)
    obtain ⟨o, ho⟩ := ih (n := n) (by omega)
    exact ⟨l :: o, by rw [stackGet_line hs hl, ho, map_some]⟩

theorem reads_body (mode : String) : Reads (body mode) Record := by
  intro s r
  constructor
  · rintro ⟨o, ho⟩
    obtain ⟨⟨args, m⟩, ha, ho⟩ := bind_eq_some_iff.mp ho
    obtain ⟨⟨stack, r'⟩, hk, heq⟩ := map_eq_some_iff.mp ho
    obtain ⟨-, rfl⟩ := Prod.mk.inj heq
    exact ⟨m, headArgs_iff.mp ⟨args, ha⟩, stack_of_stackGet hk⟩
  · rintro ⟨m, hm, hr⟩
    obtain ⟨args, ha⟩ := headArgs_iff.mpr hm
    obtain ⟨stack, hk⟩ := hr.exists_stackGet le_rfl
    exact ⟨(mode, args, stack), by simp [body, ha, hk]⟩

theorem reads_bodyRunq : Reads bodyRunq RunqRecord := by
  intro s r
  constructor
  · rintro ⟨o, ho⟩
    obtain ⟨⟨args, m⟩, ha, ho⟩ := bind_eq_some_iff.mp ho
    cases m with
    | nil => cases ho
    | cons c m =>
      obtain ⟨-, rfl⟩ := Prod.mk.inj (some.inj ho)
      exact ⟨c, headArgs_iff.mp ⟨args, ha⟩⟩
  · rintro ⟨c, hc⟩
    obtain ⟨args, ha⟩ := headArgs_iff.mpr hc
    exact ⟨("runq", args, []), by simp [bodyRunq, ha]⟩

theorem Record.length_lt (s r : Text) : Record s r → r.length < s.length := by
  rintro ⟨m, hm, hr⟩
  exact Nat.lt_of_lt_of_le (Nat.lt_trans hr.length_lt hm.length_lt) (blanks_length_le s)

theorem RunqRecord.length_lt (s r : Text) : RunqRecord s r → r.length < s.length := by
  rintro ⟨c, hc⟩
  exact Nat.lt_of_lt_of_le (Nat.lt_trans (Nat.lt_succ_self _) hc.length_lt) (blanks_length_le s)

theorem eq_nil_of_leads {R : Text → Text → Prop} (h : Leads isEmpty R s r) : r = [] := by
  induction h with
  | here h => exact isEmpty_iff.mp h
  | next _ _ _ ih => exact ih

theorem isSome_toEnd_iff {β : Type*} {p : Text → Option (β × Text)} {R : Text → Text → Prop}
    (hp : Reads p R) (hR : ∀ s r, R s r → r.length < s.length) (s : Text) :
    (readLoop isEmpty p s.length s).isSome ↔ Leads isEmpty R s [] := by
  constructor
  · intro h
    obtain ⟨⟨os, e⟩, he⟩ := isSome_iff_exists.mp h
    have hl := (hp.loop_iff hR le_rfl).mp ⟨os, he⟩
    rwa [eq_nil_of_leads hl] at hl
  · intro h
    obtain ⟨os, ho⟩ := (hp.loop_iff hR le_rfl).mpr h
    rw [ho, isSome_some]

theorem survives_iff (log : Log) (text : Text) :
    (parser text log).isSome ↔ WholeRecords text log := by
  cases log with
  | irqoff =>
    rw [parser, WholeRecords]
    constructor
    · intro h
      obtain ⟨os, ho⟩ := isSome_iff_exists.mp h
      obtain ⟨⟨hard, s⟩, hh, hs⟩ := bind_eq_some_iff.mp ho
      refine ⟨s, ((reads_body "hard").loop_iff Record.length_lt le_rfl).mp ⟨hard, hh⟩, ?_⟩
      obtain ⟨soft, hk, -⟩ := map_eq_some_iff.mp hs
      exact (isSome_toEnd_iff (reads_body "soft") Record.length_lt _).mp
        (isSome_iff_exists.mpr ⟨soft, hk⟩)
    · rintro ⟨s, hs, he⟩
      obtain ⟨hard, hh⟩ := ((reads_body "hard").loop_iff Record.length_lt le_rfl).mpr hs
      rw [hh, bind_some, isSome_map]
      exact (isSome_toEnd_iff (reads_body "soft") Record.length_lt _).mpr he
  | nosch =>
    rw [parser, isSome_map]
    exact isSome_toEnd_iff (reads_body "nosch") Record.length_lt text
  | runq =>
    rw [parser, isSome_map]
    exact isSome_toEnd_iff reads_bodyRunq RunqRecord.length_lt text

theorem not_survives_cut : (parser [99, 112, 117, 58, 49] .nosch).isSome = false := by
  decide

end Sysak.Sched.Runlatency
