/-
# Words of a shell command
-/

import Sysak.Lib.LuaString

namespace Sysak.Lib
namespace Shell

open List Option

inductive Token where
  | word (w : Bytes)
  | separator
deriving Repr, DecidableEq

inductive Mode where
  | plain | escaped | double | doubleEscaped | single
deriving Repr, DecidableEq

def isSpecial (c : UInt8) : Bool :=
  c == 36 || c == 96 || c == 124 || c == 38 || c == 60 || c == 62 || c == 40 || c == 41 ||
    c == 42 || c == 63 || c == 91 || c == 35 || c == 126

def emit (w : Option Bytes) (ts : List Token) : List Token :=
  match w with
  | some v => .word v :: ts
  | none => ts

def push (w : Option Bytes) (s : Bytes) : Option Bytes := some (w.getD [] ++ s)

def lex : Mode → Option Bytes → Bytes → Option (List Token)
  | .plain, w, [] => some (emit w [])
  | _, _, [] => none
  | .plain, w, c :: s =>
    if c = 32 ∨ c = 9 then (lex .plain none s).map (emit w)
    else if c = 59 ∨ c = 10 then (lex .plain none s).map fun ts => emit w (.separator :: ts)
    else if c = 34 then lex .double (push w []) s
    else if c = 39 then lex .single (push w []) s
    else if c = 92 then lex .escaped w s
    else if isSpecial c then none
    else lex .plain (push w [c]) s
  | .escaped, w, c :: s => if c = 10 then lex .plain w s else lex .plain (push w [c]) s
  | .double, w, c :: s =>
    if c = 34 then lex .plain w s
    else if c = 36 ∨ c = 96 then none
    else if c = 92 then lex .doubleEscaped w s
    else lex .double (push w [c]) s
  | .doubleEscaped, w, c :: s =>
    if c = 10 then lex .double w s
    else if c = 36 ∨ c = 96 ∨ c = 34 ∨ c = 92 then lex .double (push w [c]) s
    else lex .double (push w [92, c]) s
  | .single, w, c :: s => if c = 39 then lex .plain w s else lex .single (push w [c]) s

def words : List Token → List Bytes
  | [] => []
  | .word w :: ts => w :: words ts
  | .separator :: ts => words ts

def isPlain (c : UInt8) : Bool :=
  !(c == 32 || c == 9 || c == 59 || c == 10 || c == 34 || c == 39 || c == 92 || isSpecial c)

def Clean : Bytes → Prop
  | [] => True
  | c :: s => c ≠ 34 ∧ c ≠ 36 ∧ c ≠ 96 ∧ (c = 92 → ∃ d ∈ s.head?, d ≠ 92 ∧ d ≠ 10) ∧ Clean s

@[simp] theorem words_emit (w : Option Bytes) (ts : List Token) :
    words (emit w ts) = w.toList ++ words ts := by
  cases w <;> rfl

@[simp] theorem getD_push (w : Option Bytes) (s : Bytes) :
    (push w s).getD [] = w.getD [] ++ s := rfl

theorem lex_plain_cons {c : UInt8} (hc : isPlain c = true) (w : Option Bytes) (s : Bytes) :
    lex .plain w (c :: s) = lex .plain (push w [c]) s := by
  have hne : ∀ d, isPlain d = false → c ≠ d := by
    rintro d hd rfl
    exact Bool.false_ne_true (hd.symm.trans hc)
  have hspecial : isSpecial c = false := by
    cases h : isSpecial c
    · rfl
    · simp [isPlain, h] at hc
  rw [lex, if_neg (not_or.mpr ⟨hne 32 rfl, hne 9 rfl⟩),
    if_neg (not_or.mpr ⟨hne 59 rfl, hne 10 rfl⟩), if_neg (hne 34 rfl), if_neg (hne 39 rfl),
    if_neg (hne 92 rfl), hspecial, if_neg Bool.false_ne_true]

theorem lex_plain {p : Bytes} (hp : ∀ c ∈ p, isPlain c = true) (u s : Bytes) :
    lex .plain (some u) (p ++ s) = lex .plain (some (u ++ p)) s := by
  induction p generalizing u with
  | nil => rw [append_nil, nil_append]
  | cons c p ih =>
    obtain ⟨hc, hp⟩ := forall_mem_cons.mp hp
    rw [cons_append, lex_plain_cons hc, push, getD_some, ih hp, append_assoc,
      singleton_append]

theorem lex_plain_none {p : Bytes} (hne : p ≠ []) (hp : ∀ c ∈ p, isPlain c = true) (s : Bytes) :
    lex .plain none (p ++ s) = lex .plain (some p) s := by
  cases p with
  | nil => exact absurd rfl hne
  | cons c p =>
    obtain ⟨hc, hp⟩ := forall_mem_cons.mp hp
    rw [cons_append, lex_plain_cons hc, push, getD_none, nil_append,
      lex_plain hp, singleton_append]

theorem lex_double_of_clean {a : Bytes} (ha : Clean a) (u rest : Bytes) :
    lex .double (some u) (a ++ 34 :: rest) = lex .plain (some (u ++ a)) rest := by
  induction a generalizing u with
  | nil => rw [nil_append, lex, if_pos rfl, append_nil]
  | cons c a ih =>
    obtain ⟨h34, h36, h96, hesc, ha⟩ := ha
    rw [cons_append, lex, if_neg h34, if_neg (not_or.mpr ⟨h36, h96⟩)]
    by_cases h92 : c = 92
    · -- the byte behind the backslash leaves it as it is
      subst h92
      obtain ⟨d, hd, hd92, hd10⟩ := hesc rfl
      cases a with
      | nil => exact absurd hd (by simp)
      | cons e a =>
        obtain rfl : e = d := by simpa using hd
        have hstep := ih ha (u ++ [92])
        obtain ⟨he34, he36, he96, -, -⟩ := ha
        rw [cons_append, lex, if_neg he34, if_neg (not_or.mpr ⟨he36, he96⟩), if_neg hd92]
          at hstep
        rw [if_pos rfl, cons_append, lex, if_neg hd10, if_neg (by simp [*])]
        simpa [push] using hstep
    · rw [if_neg h92, push, getD_some, ih ha, append_assoc, singleton_append]

theorem lex_some {s : Bytes} : ∀ {m : Mode} {u : Bytes} {ts : List Token},
    lex m (some u) s = some ts → ∃ v ts', ts = .word v :: ts' ∧ u <+: v := by
  induction s with
  | nil =>
    intro m u ts h
    cases m with
    | plain =>
      obtain rfl := some.inj h
      exact ⟨u, [], rfl, prefix_rfl⟩
    | _ => exact absurd h (by simp [lex])
  | cons c s ih =>
    have hpush : ∀ {m : Mode} {u x : Bytes} {ts : List Token},
        lex m (push (some u) x) s = some ts → ∃ v ts', ts = .word v :: ts' ∧ u <+: v := by
      intro m u x ts h
      obtain ⟨v, ts', rfl, hv⟩ := ih h
      exact ⟨v, ts', rfl, (prefix_append u x).trans hv⟩
    intro m u ts h
    cases m with
    | plain =>
      rw [lex] at h
      split_ifs at h
      · obtain ⟨ts', -, rfl⟩ := map_eq_some_iff.mp h
        exact ⟨u, ts', rfl, prefix_rfl⟩
      · obtain ⟨ts', -, rfl⟩ := map_eq_some_iff.mp h
        exact ⟨u, _, rfl, prefix_rfl⟩
      · exact hpush h
      · exact hpush h
      · exact ih h
      · exact hpush h
    | escaped =>
      rw [lex] at h
      split_ifs at h
      · exact ih h
      · exact hpush h
    | double =>
      rw [lex] at h
      split_ifs at h
      · exact ih h
      · exact ih h
      · exact hpush h
    | doubleEscaped =>
      rw [lex] at h
      split_ifs at h
      · exact ih h
      · exact hpush h
      · exact hpush h
    | single =>
      rw [lex] at h
      split_ifs at h
      · exact ih h
      · exact hpush h

theorem lex_double_eq_none {a : Bytes} (ha : 34 ∉ a) : ∀ w : Option Bytes,
    lex .double w a = none ∧ lex .doubleEscaped w a = none := by
  induction a with
  | nil => exact fun w => ⟨rfl, rfl⟩
  | cons c a ih =>
    obtain ⟨hc, ha⟩ := not_or.mp (mt mem_cons.mpr ha)
    intro w
    constructor
    · rw [lex, if_neg (Ne.symm hc)]
      split_ifs
      · rfl
      · exact (ih ha w).2
      · exact (ih ha _).1
    · rw [lex]
      split_ifs
      · exact (ih ha w).1
      · exact (ih ha _).1
      · exact (ih ha _).1

def Passed (a u v : Bytes) : Prop :=
  34 ∈ v.drop u.length ∨ (∃ x, v = u ++ x ∧ x.length < a.length) ∨ Clean a ∧ v = u ++ a

theorem Passed.more {a u v x y : Bytes} (h : Passed a (u ++ x) v)
    (hxy : x.length < y.length ∨ x = y ∧ (Clean a → Clean (y ++ a))) : Passed (y ++ a) u v := by
  have hle : x.length ≤ y.length := hxy.elim le_of_lt fun h => h.1 ▸ le_rfl
  rcases h with hquote | ⟨z, rfl, hz⟩ | ⟨hclean, rfl⟩
  · left
    rw [length_append, ← drop_drop] at hquote
    exact mem_of_mem_drop hquote
  · refine .inr (.inl ⟨x ++ z, append_assoc _ _ _, ?_⟩)
    rw [length_append, length_append]
    omega
  · rcases hxy with hlt | ⟨rfl, hmore⟩
    · refine .inr (.inl ⟨x ++ a, append_assoc _ _ _, ?_⟩)
      rw [length_append, length_append]
      omega
    · exact .inr (.inr ⟨hmore hclean, append_assoc _ _ _⟩)

theorem lex_double_cases {a rest : Bytes} (ha : 34 ∉ a) (hrest : ∀ c ∈ rest.head?, c = 32) :
    ∀ {u : Bytes} {ts : List Token},
      (lex .double (some u) (a ++ 34 :: rest) = some ts →
        ∃ v ts', ts = .word v :: ts' ∧ Passed a u v) ∧
      (lex .doubleEscaped (some u) (a ++ 34 :: rest) = some ts →
        ∃ v ts', ts = .word v :: ts' ∧ Passed (92 :: a) u v) := by
  induction a with
  | nil =>
    intro u ts
    constructor
    · intro h
      rw [nil_append, lex, if_pos rfl] at h
      have hpassed : Passed [] u u := .inr (.inr ⟨trivial, (append_nil u).symm⟩)
      cases rest with
      | nil =>
        obtain rfl := some.inj h
        exact ⟨u, [], rfl, hpassed⟩
      | cons c rest =>
        obtain rfl : c = 32 := hrest c rfl
        rw [lex, if_pos (Or.inl rfl)] at h
        obtain ⟨ts', -, rfl⟩ := map_eq_some_iff.mp h
        exact ⟨u, ts', rfl, hpassed⟩
    · intro h
      rw [nil_append, lex, if_neg (by decide), if_pos (by decide)] at h
      obtain ⟨v, ts', rfl, t, rfl⟩ := lex_some h
      exact ⟨_, ts', rfl, Or.inl (by simp)⟩
  | cons c a ih =>
    obtain ⟨hc, ha'⟩ := not_or.mp (mt mem_cons.mpr ha)
    intro u ts
    constructor
    · intro h
      rw [cons_append, lex, if_neg (Ne.symm hc)] at h
      split_ifs at h with hexp hesc
      · rw [hesc]
        exact (ih ha').2 h
      · obtain ⟨h36, h96⟩ := not_or.mp hexp
        obtain ⟨v, ts', rfl, hv⟩ := (ih ha').1 h
        have hclean : Clean a → Clean ([c] ++ a) := fun hclean =>
          ⟨Ne.symm hc, h36, h96, fun h => absurd h hesc, hclean⟩
        exact ⟨v, ts', rfl, hv.more (.inr ⟨rfl, hclean⟩)⟩
    · intro h
      rw [cons_append, lex] at h
      split_ifs at h with hnl hesc
      · rw [← append_nil u] at h
        obtain ⟨v, ts', rfl, hv⟩ := (ih ha').1 h
        exact ⟨v, ts', rfl, hv.more (y := [92, c]) (.inl (by simp))⟩
      · obtain ⟨v, ts', rfl, hv⟩ := (ih ha').1 h
        exact ⟨v, ts', rfl, hv.more (y := [92, c]) (.inl (by simp))⟩
      · obtain ⟨h36, h96, h34, h92⟩ : c ≠ 36 ∧ c ≠ 96 ∧ c ≠ 34 ∧ c ≠ 92 := by
          simpa only [not_or] using hesc
        obtain ⟨v, ts', rfl, hv⟩ := (ih ha').1 h
        have hclean : Clean a → Clean ([92, c] ++ a) := fun hclean =>
          ⟨by decide, by decide, by decide, fun _ => ⟨c, rfl, h92, hnl⟩,
            h34, h36, h96, fun h => absurd h h92, hclean⟩
        exact ⟨v, ts', rfl, hv.more (.inr ⟨rfl, hclean⟩)⟩

theorem clean_of_lex_double {a rest : Bytes} (ha : 34 ∉ a) (hrest : ∀ c ∈ rest.head?, c = 32)
    {u : Bytes} {ts : List Token}
    (h : lex .double (some u) (a ++ 34 :: rest) = some (.word (u ++ a) :: ts)) : Clean a := by
  obtain ⟨v, ts', heq, hv⟩ := (lex_double_cases ha hrest).1 h
  obtain ⟨hword, -⟩ := List.cons.inj heq
  obtain rfl := Token.word.inj hword
  rcases hv with hv | ⟨x, heq, hx⟩ | ⟨hclean, -⟩
  · rw [drop_left] at hv
    exact absurd hv ha
  · rw [append_cancel_left heq] at hx
    exact absurd hx (lt_irrefl _)
  · exact hclean

def Mode.pending : Mode → ℕ
  | .escaped => 1
  | .doubleEscaped => 1
  | _ => 0

structure Takes (m : Mode) (u s : Bytes) (ts : List Token) (o : ℕ) : Prop where
  le : (words ts).flatten.length + s.count 34 + u.count 34 + (words ts).length + o ≤
    s.length + u.length + 1 + (words ts).flatten.count 34 + m.pending
  quotes : o = 0 → (words ts).flatten.count 34 = u.count 34
  single : m = .single → o ≠ 0

theorem count_quote_cons (c : UInt8) (s : Bytes) :
    (c :: s).count 34 = s.count 34 + [c].count 34 := by
  rw [← singleton_append, count_append, Nat.add_comm]

variable {m m' : Mode} {u s : Bytes} {c : UInt8} {ts ts' : List Token} {o : ℕ}

theorem Takes.cons {x : Bytes} (h : Takes m' (u ++ x) s ts o) (k : ℕ)
    (hle : x.length + m'.pending + [c].count 34 + k ≤ 1 + m.pending + x.count 34)
    (hquotes : o + k = 0 → x.count 34 = 0) (hsingle : m = .single → o + k ≠ 0) :
    Takes m u (c :: s) ts (o + k) := by
  obtain ⟨hle', hquotes', -⟩ := h
  rw [count_append, length_append] at hle'
  rw [count_append] at hquotes'
  refine ⟨?_, fun ho => ?_, hsingle⟩
  · rw [count_quote_cons, length_cons]
    omega
  · rw [hquotes' (by omega), hquotes ho, Nat.add_zero]

theorem Takes.emit {w : Option Bytes} (h : Takes .plain [] s ts' o)
    (hwords : words ts = w.toList ++ words ts') (hc : c ≠ 34) :
    Takes .plain (w.getD []) (c :: s) ts o := by
  obtain ⟨hle, hquotes, -⟩ := h
  have hcount : [c].count 34 = 0 := count_eq_zero.mpr (by simpa using hc.symm)
  refine ⟨?_, fun ho => ?_, fun hm => absurd hm (by decide)⟩
  · rw [hwords, count_quote_cons, hcount]
    cases w <;> simp [Mode.pending] at hle ⊢ <;> omega
  · rw [hwords]
    cases w <;> simpa using hquotes ho

theorem lex_count {s : Bytes} : ∀ {m : Mode} {w : Option Bytes} {ts : List Token},
    lex m w s = some ts → ∃ o, Takes m (w.getD []) s ts o := by
  induction s with
  | nil =>
    intro m w ts h
    cases m with
    | plain =>
      obtain rfl := some.inj h
      refine ⟨0, ?_, fun _ => ?_, fun h => absurd h (by decide)⟩
      · cases w with
        | none => simp [words, Mode.pending]
        | some u =>
          have hwords : words (Shell.emit (some u) []) = [u] := rfl
          simp only [hwords, flatten_singleton, getD_some, count_nil,
            length_nil, length_singleton]
          omega
      · cases w <;> simp [words]
    | _ => exact absurd h (by simp [lex])
  | cons c s ih =>
    intro m w ts h
    have hkeep : ∀ {m' : Mode}, lex m' w s = some ts →
        ∃ o, Takes m' (w.getD [] ++ []) s ts o := by
      intro m' h
      rw [append_nil]
      exact ih h
    have hpush : ∀ {m' : Mode} (x : Bytes), lex m' (push w x) s = some ts →
        ∃ o, Takes m' (w.getD [] ++ x) s ts o := by
      intro m' x h
      rw [← getD_push]
      exact ih h
    cases m with
    | plain =>
      rw [lex] at h
      split_ifs at h with hblank hsep hdq hsq hesc hspec
      · obtain ⟨ts', h', rfl⟩ := map_eq_some_iff.mp h
        obtain ⟨o, ho⟩ := ih h'
        exact ⟨o, ho.emit (words_emit w ts') (by rintro rfl; simp at hblank)⟩
      · obtain ⟨ts', h', rfl⟩ := map_eq_some_iff.mp h
        obtain ⟨o, ho⟩ := ih h'
        exact ⟨o, ho.emit (words_emit w (.separator :: ts')) (by rintro rfl; simp at hsep)⟩
      · obtain ⟨o, ho⟩ := hpush [] h
        exact ⟨_, ho.cons 0 (by simp [hdq, Mode.pending]) (by simp) (by simp)⟩
      · obtain ⟨o, ho⟩ := hpush [] h
        exact ⟨_, ho.cons 1 (by simp [hsq, Mode.pending]) (by simp) (by simp)⟩
      · obtain ⟨o, ho⟩ := hkeep h
        exact ⟨_, ho.cons 0 (by simp [hesc, Mode.pending]) (by simp) (by simp)⟩
      · obtain ⟨o, ho⟩ := hpush [c] h
        exact ⟨_, ho.cons 0 (by simp [hdq, Mode.pending]) (by simp [hdq]) (by simp)⟩
    | escaped =>
      rw [lex] at h
      split_ifs at h with hnl
      · obtain ⟨o, ho⟩ := hkeep h
        exact ⟨_, ho.cons 1 (by simp [hnl, Mode.pending]) (by simp) (by simp)⟩
      · obtain ⟨o, ho⟩ := hpush [c] h
        refine ⟨_, ho.cons 1 ?_ (by simp) (by simp)⟩
        simp only [length_singleton, Mode.pending]
        omega
    | double =>
      rw [lex] at h
      split_ifs at h with hdq hexp hesc
      · obtain ⟨o, ho⟩ := hkeep h
        exact ⟨_, ho.cons 0 (by simp [hdq, Mode.pending]) (by simp) (by simp)⟩
      · obtain ⟨o, ho⟩ := hkeep h
        exact ⟨_, ho.cons 0 (by simp [hesc, Mode.pending]) (by simp) (by simp)⟩
      · obtain ⟨o, ho⟩ := hpush [c] h
        exact ⟨_, ho.cons 0 (by simp [hdq, Mode.pending]) (by simp [hdq]) (by simp)⟩
    | doubleEscaped =>
      rw [lex] at h
      split_ifs at h with hnl hesc
      · obtain ⟨o, ho⟩ := hkeep h
        exact ⟨_, ho.cons 1 (by simp [hnl, Mode.pending]) (by simp) (by simp)⟩
      · obtain ⟨o, ho⟩ := hpush [c] h
        refine ⟨_, ho.cons 1 ?_ (by simp) (by simp)⟩
        simp only [length_singleton, Mode.pending]
        omega
      · obtain ⟨o, ho⟩ := hpush [92, c] h
        have hc : c ≠ 34 := fun hc => hesc (Or.inr (Or.inr (Or.inl hc)))
        exact ⟨_, ho.cons 0 (by simp [hc, Mode.pending]) (by simp [hc]) (by simp)⟩
    | single =>
      rw [lex] at h
      split_ifs at h with hsq
      · obtain ⟨o, ho⟩ := hkeep h
        exact ⟨_, ho.cons 1 (by simp [hsq, Mode.pending]) (by simp) (by simp)⟩
      · obtain ⟨o, ho⟩ := hpush [c] h
        have hpos := ho.single rfl
        exact ⟨_, ho.cons 0 (by simp [Mode.pending]) (fun h => absurd h hpos) fun _ => hpos⟩

end Shell
end Sysak.Lib
