/-
# Splitting and joining
-/

import Sysak.Common.PystringLua

namespace Sysak.Pystring

open Lib List

def occurrences (pat : Pattern) : ℕ → Bytes → ℕ
  | _, [] => 0
  | skip + 1, _ :: s => occurrences pat skip s
  | 0, c :: s =>
    if matchHere pat (c :: s) then 1 + occurrences pat (pat.length - 1) s
    else occurrences pat 0 s

def weave : List Bytes → List Bytes → Bytes
  | [], _ => []
  | p :: _, [] => p
  | p :: ps, c :: cs => p ++ (c ++ weave ps cs)

def Occurs (pat : Pattern) (p : Bytes) : Prop := ∃ x y, p = x ++ y ∧ matchHere pat y = true

structure Cuts (pat : Pattern) (n : ℕ) (s : Bytes) (pieces cuts : List Bytes) : Prop where
  weave_eq : weave pieces cuts = s
  length_pieces : pieces.length = 1 + cuts.length
  length_cuts : cuts.length = min n (occurrences pat 0 s)
  matches_cut : ∀ c ∈ cuts, c.length = pat.length ∧ matchHere pat c = true
  free : ∀ p ∈ pieces.dropLast, ¬ Occurs pat p

section Occurrences

variable {pat : Pattern} {s a b : Bytes}

theorem occurrences_skip (k : ℕ) (s : Bytes) :
    occurrences pat k s = occurrences pat 0 (s.drop k) := by
  induction s generalizing k with
  | nil => cases k <;> rfl
  | cons c s ih =>
    cases k with
    | zero => rfl
    | succ k => exact ih k

theorem occurrences_of_find (hpat : pat ≠ []) (h : find pat s = some (a, b)) :
    occurrences pat 0 s = 1 + occurrences pat 0 b := by
  have hpos := length_pos_iff.mpr hpat
  induction s generalizing a with
  | nil =>
    have hlen := length_of_find h
    rw [length_nil] at hlen
    omega
  | cons c s ih =>
    rw [find] at h
    rw [occurrences]
    split_ifs at h ⊢ with hm
    · obtain ⟨k, hk⟩ := Nat.exists_eq_succ_of_ne_zero hpos.ne'
      cases h
      rw [occurrences_skip, hk]
      rfl
    · obtain ⟨⟨a', b'⟩, hr, heq⟩ := Option.map_eq_some_iff.mp h
      cases heq
      exact ih hr

theorem occurrences_of_find_none (h : find pat s = none) : occurrences pat 0 s = 0 := by
  induction s with
  | nil => rfl
  | cons c s ih =>
    rw [find] at h
    rw [occurrences]
    split_ifs at h ⊢ with hm
    exact ih (Option.map_eq_none_iff.mp h)

theorem NoMatch.not_occurs (hpat : pat ≠ []) {r : Bytes} (h : NoMatch pat a r) :
    ¬ Occurs pat a := by
  rintro ⟨x, y, rfl, hy⟩
  have hlen := length_le_of_matchHere hy
  have hpos := length_pos_iff.mpr hpat
  have hne : y ≠ [] := length_pos_iff.mp (by omega)
  have := h x y rfl hne
  rw [matchHere_append r hlen, hy] at this
  exact Bool.false_ne_true this.symm

end Occurrences

section Cuts

variable {pat : Pattern} {d : Bytes}

theorem splitLoop_cuts (hpat : pat ≠ []) (n fuel : ℕ) :
    ∀ (nums : ℕ) (s : Bytes), nums < n → s.length < fuel →
      ∃ cuts, Cuts pat (n - nums) s (splitLoop pat (some n) fuel nums s) cuts := by
  induction fuel with
  | zero => exact fun _ _ _ h => absurd h (Nat.not_lt_zero _)
  | succ fuel ih =>
    intro nums s hnums hfuel
    rw [splitLoop]
    cases hfind : find pat s with
    | none =>
      refine ⟨[], rfl, rfl, ?_, fun c hc => absurd hc not_mem_nil,
        fun p hp => absurd hp not_mem_nil⟩
      rw [occurrences_of_find_none hfind, Nat.min_zero]
      rfl
    | some r =>
      obtain ⟨a, b⟩ := r
      obtain ⟨m, hs, hlen, hmatch, hno⟩ := find_spec hfind
      have hocc := occurrences_of_find hpat hfind
      have hfree := NoMatch.not_occurs hpat hno
      simp only [Option.any_some, decide_eq_true_eq]
      split_ifs with hlast
      · -- The limit is reached, and the rest is the last piece.
        refine ⟨[m], hs.symm, rfl, ?_, ?_, ?_⟩
        · rw [hocc, length_singleton]
          omega
        · exact forall_mem_singleton.mpr ⟨hlen, hmatch⟩
        · exact forall_mem_singleton.mpr hfree
      · have hshort := length_of_find hfind
        have hpos := length_pos_iff.mpr hpat
        obtain ⟨cuts, hcuts⟩ := ih (nums + 1) b (by omega) (by omega)
        have hpieces : splitLoop pat (some n) fuel (nums + 1) b ≠ [] := by
          intro hnil
          have := hcuts.length_pieces
          rw [hnil, length_nil] at this
          omega
        refine ⟨m :: cuts, ?_, ?_, ?_, ?_, ?_⟩
        · rw [weave, hcuts.weave_eq, ← hs]
        · rw [length_cons, length_cons, hcuts.length_pieces]
          omega
        · rw [length_cons, hcuts.length_cuts, hocc]
          omega
        · exact forall_mem_cons.mpr ⟨⟨hlen, hmatch⟩, hcuts.matches_cut⟩
        · rw [dropLast_cons_of_ne_nil hpieces]
          exact forall_mem_cons.mpr ⟨hfree, hcuts.free⟩

variable {pieces cuts : List Bytes}

theorem join_eq_weave (d : Bytes) (h : pieces.length = 1 + cuts.length) :
    join d pieces = weave pieces (cuts.map fun _ => d) := by
  induction cuts generalizing pieces with
  | nil =>
    obtain ⟨p, rfl⟩ := length_eq_one_iff.mp h
    exact join_singleton d p
  | cons c cuts ih =>
    obtain ⟨p, ps, rfl⟩ := exists_cons_of_ne_nil
      (length_pos_iff.mp (show 0 < pieces.length by omega))
    rw [length_cons, length_cons] at h
    have hps : ps ≠ [] := length_pos_iff.mp (by omega)
    rw [join_cons hps, ih (by omega)]
    rfl

theorem weave_inj {pieces cs cs' : List Bytes} (hp : pieces.length = 1 + cs.length)
    (hlen : cs.map List.length = cs'.map List.length) (h : weave pieces cs = weave pieces cs') :
    cs = cs' := by
  induction cs generalizing pieces cs' with
  | nil => exact (map_eq_nil_iff.mp hlen.symm).symm
  | cons c cs ih =>
    cases cs' with
    | nil => exact absurd hlen (by simp)
    | cons c' cs' =>
      obtain ⟨hc, hcs⟩ := List.cons.inj hlen
      cases pieces with
      | nil => simp at hp
      | cons p ps =>
        obtain ⟨hhead, htail⟩ := append_inj (append_cancel_left h) hc
        rw [length_cons, length_cons] at hp
        rw [hhead, ih (by omega) hcs htail]

variable {n : ℕ}

theorem Cuts.join_eq_iff {s : Bytes} (h : Cuts (setupDelimiter d) n s pieces cuts) :
    join d pieces = s ↔ ∀ c ∈ cuts, c = d := by
  rw [join_eq_weave d h.length_pieces, ← h.weave_eq]
  constructor
  · intro heq c hc
    have hlen : cuts.map List.length = (cuts.map fun _ => d).map List.length := by
      rw [map_map]
      refine map_congr_left fun c hc => ?_
      rw [(h.matches_cut c hc).1]
      exact length_map ..
    have hcuts := weave_inj h.length_pieces hlen heq.symm
    rw [hcuts] at hc
    obtain ⟨_, -, rfl⟩ := mem_map.mp hc
    rfl
  · intro hall
    congr 1
    exact (map_congr_left hall).symm.trans (map_id' cuts)

theorem setupDelimiter_eq_literal (hd : 32 ∉ d) : setupDelimiter d = literal d := by
  refine map_congr_left fun x hx => if_neg ?_
  rintro rfl
  exact hd hx

theorem eq_of_matchHere (hd : 32 ∉ d) {c : Bytes} (hlen : c.length = (setupDelimiter d).length)
    (hc : matchHere (setupDelimiter d) c = true) : c = d := by
  rw [setupDelimiter_eq_literal hd] at hlen hc
  have hstart := matchHere_literal_iff.mp hc
  exact (hstart.eq_of_length (by rw [hlen]; exact (length_map ..).symm)).symm

theorem Cuts.join_eq {s : Bytes} (h : Cuts (setupDelimiter d) n s pieces cuts) (hd : 32 ∉ d) :
    join d pieces = s :=
  h.join_eq_iff.mpr fun c hc => eq_of_matchHere hd (h.matches_cut c hc).1 (h.matches_cut c hc).2

theorem exists_cuts (s : Bytes) (hd : d ≠ []) (hnul : 0 ∉ d) (hn : 1 ≤ n) :
    ∃ pieces cuts, Lua.split s (some d) (some n) = some pieces ∧
      Cuts (setupDelimiter d) n s pieces cuts := by
  have hpat : setupDelimiter d ≠ [] := by simpa [setupDelimiter] using hd
  obtain ⟨cuts, hcuts⟩ := splitLoop_cuts hpat n (s.length + n + 1) 0 s hn (by omega)
  exact ⟨_, cuts, Lua.split_eq hd hnul s (some n), hcuts⟩

end Cuts

theorem split_join_iff (s d : Bytes) (n : ℕ) (hd : d ≠ []) (hnul : 0 ∉ d) (hn : 1 ≤ n) :
    ∃ pieces cuts, Lua.split s (some d) (some n) = some pieces ∧
      Cuts (setupDelimiter d) n s pieces cuts ∧ (join d pieces = s ↔ ∀ c ∈ cuts, c = d) ∧
      (32 ∉ d → join d pieces = s) := by
  obtain ⟨pieces, cuts, hsplit, hcuts⟩ := exists_cuts s hd hnul hn
  exact ⟨pieces, cuts, hsplit, hcuts, hcuts.join_eq_iff, hcuts.join_eq⟩

theorem split_join_iff_star :
    ∃ pieces cuts, Lua.split (bytes "a*b*c*d") (some (bytes "*")) (some 2) = some pieces ∧
      Cuts (setupDelimiter (bytes "*")) 2 (bytes "a*b*c*d") pieces cuts ∧
      (join (bytes "*") pieces = bytes "a*b*c*d" ↔ ∀ c ∈ cuts, c = bytes "*") ∧
      (32 ∉ bytes "*" → join (bytes "*") pieces = bytes "a*b*c*d") :=
  split_join_iff _ _ 2 (by decide) (by decide) (by decide)

theorem split_tab :
    Lua.split (bytes "a\tb") (some (bytes " ")) (some 1) = some [bytes "a", bytes "b"] ∧
      join (bytes " ") [bytes "a", bytes "b"] = bytes "a b" ∧ bytes "a b" ≠ bytes "a\tb" := by
  decide

theorem join_concat {d y : Bytes} {ys : List Bytes} (h : ys ≠ []) :
    join d (ys ++ [y]) = join d ys ++ (d ++ y) := by
  induction ys with
  | nil => exact absurd rfl h
  | cons x ys ih =>
    by_cases hys : ys = []
    · subst hys
      rw [singleton_append, join_cons (cons_ne_nil _ _), join_singleton, join_singleton]
    · rw [cons_append, join_cons (by simp), join_cons hys, ih hys, append_assoc,
        append_assoc]

theorem join_reverse (d : Bytes) (qs : List Bytes) :
    join d (qs.map reverse).reverse = (join d.reverse qs).reverse := by
  induction qs with
  | nil => rfl
  | cons q qs ih =>
    by_cases hqs : qs = []
    · subst hqs
      rw [map_singleton, reverse_singleton, join_singleton, join_singleton]
    · rw [map_cons, reverse_cons, join_concat (by simpa using hqs), ih, join_cons hqs]
      simp

theorem rsplit_mirror (s d : Bytes) (n : ℕ) (hd : d ≠ []) (hblank : 32 ∉ d) (hnul : 0 ∉ d)
    (hn : 1 ≤ n) :
    ∃ ps qs, Lua.rsplit s (some d) (some n) = some ps ∧
      Lua.split s.reverse (some d.reverse) (some n) = some qs ∧
      ps = (qs.map reverse).reverse ∧ join d ps = s := by
  obtain ⟨qs, cuts, hsplit, hcuts⟩ := exists_cuts s.reverse (d := d.reverse) (by simpa using hd)
    (by simpa using hnul) hn
  have hjoin := hcuts.join_eq (by simpa using hblank)
  refine ⟨_, qs, ?_, hsplit, rfl, ?_⟩
  · rw [Lua.rsplit_eq hd hnul, hsplit, Option.map_some]
  · rw [join_reverse, hjoin, reverse_reverse]

theorem rsplit_mirror_star :
    ∃ ps qs, Lua.rsplit (bytes "hello*lua *language") (some (bytes "*")) (some 1) = some ps ∧
      Lua.split (bytes "hello*lua *language").reverse (some (bytes "*").reverse) (some 1) =
        some qs ∧
      ps = (qs.map reverse).reverse ∧ join (bytes "*") ps = bytes "hello*lua *language" :=
  rsplit_mirror _ _ 1 (by decide) (by decide) (by decide) (by decide)

end Sysak.Pystring
