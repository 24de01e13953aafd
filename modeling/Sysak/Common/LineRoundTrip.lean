/-
# Reading a packed line back
-/

import Sysak.Common.LineParse

namespace Sysak.LineParse

open Lib Pystring List Option

def isNameByte (c : UInt8) : Bool := c != 44 && c != 61 && 32 < c && c != 127

def Plain (s : Bytes) : Prop := s ≠ [] ∧ s.all isNameByte = true

instance (s : Bytes) : Decidable (Plain s) :=
  inferInstanceAs (Decidable (s ≠ [] ∧ s.all isNameByte = true))

structure Line where
  title : Bytes
  ls : List (Bytes × Bytes)
  vs : List (Bytes × Value)
  title_plain : Plain title
  ls_plain : ∀ p ∈ ls, Plain p.1 ∧ Plain p.2
  ls_nodup : (ls.map Prod.fst).Nodup
  vs_plain : ∀ p ∈ vs, Plain p.1
  vs_nodup : (vs.map Prod.fst).Nodup
  vs_ne_nil : vs ≠ []

def Line.RoundTrips (J : Cjson) (l : Line) : Prop :=
  ∃ p, parse J (pack J l.title l.ls l.vs) = some p ∧ p.title = l.title ∧
    (∀ k, p.ls.lookup k = l.ls.lookup k) ∧
    (∀ k z, (k, .int z) ∈ l.vs → p.vs.lookup k = some z.1) ∧
    ∀ k s, (k, .str s) ∈ l.vs → p.log.lookup k = some s

variable {s : Bytes}

theorem Plain.checkDelimiter (hs : Plain s) :
    ∀ c ∈ s, checkDelimiter 44 c = false ∧ checkDelimiter 61 c = false ∧
      checkDelimiter 32 c = false := by
  intro c hc
  have hname := all_eq_true.mp hs.2 c hc
  simp only [isNameByte, Bool.and_eq_true, bne_iff_ne, decide_eq_true_eq] at hname
  obtain ⟨⟨⟨h44, h61⟩, h32⟩, -⟩ := hname
  refine ⟨beq_eq_false_iff_ne.mpr h44, beq_eq_false_iff_ne.mpr h61, ?_⟩
  show isSpace c = false
  rw [UInt8.lt_iff_toNat_lt] at h32
  have h32' : (32 : UInt8).toNat = 32 := rfl
  have h13 : (13 : UInt8).toNat = 13 := rfl
  simp only [isSpace, Bool.or_eq_false_iff, beq_eq_false_iff_ne, Bool.and_eq_false_iff,
    decide_eq_false_iff_not, UInt8.le_iff_toNat_le, ne_eq, ← UInt8.toNat_inj]
  omega

def labelTable (ls t : List (Bytes × Bytes)) : List (Bytes × Bytes) :=
  ls.foldl (fun t p => luaAssign t p.1 (some p.2)) t

theorem split_labelCell {p : Bytes × Bytes} (hp : Plain p.1) :
    split (labelCell p) (bytes "=") (some 1) = [p.1, p.2] :=
  split_byte (fun c hc => (hp.checkDelimiter c hc).2.1) rfl

theorem checkDelimiter_labelCell {p : Bytes × Bytes} (hp : Plain p.1 ∧ Plain p.2) :
    ∀ c ∈ labelCell p, checkDelimiter 44 c = false ∧ checkDelimiter 32 c = false := by
  intro c hc
  rcases mem_append.mp hc with hc | hc
  · obtain ⟨hcomma, -, hblank⟩ := hp.1.checkDelimiter c hc
    exact ⟨hcomma, hblank⟩
  · rcases mem_cons.mp hc with rfl | hc
    · exact ⟨rfl, rfl⟩
    · obtain ⟨hcomma, -, hblank⟩ := hp.2.checkDelimiter c hc
      exact ⟨hcomma, hblank⟩

theorem split_labels {ls : List (Bytes × Bytes)} (hls : ∀ p ∈ ls, Plain p.1 ∧ Plain p.2)
    (hne : ls ≠ []) :
    split (join (bytes ",") (ls.map labelCell)) (bytes ",") none = ls.map labelCell := by
  induction ls with
  | nil => exact absurd rfl hne
  | cons p ls ih =>
    obtain ⟨hp, hls⟩ := forall_mem_cons.mp hls
    have hcomma : ∀ c ∈ labelCell p, checkDelimiter 44 c = false := fun c hc =>
      (checkDelimiter_labelCell hp c hc).1
    rw [map_cons]
    by_cases hnil : ls = []
    · rw [hnil, map_nil, join_singleton]
      exact split_byte_none hcomma
    · have hcut : find (setupDelimiter (bytes ",")) (labelCell p ++ (bytes "," ++
          join (bytes ",") (ls.map labelCell))) =
          some (labelCell p, join (bytes ",") (ls.map labelCell)) :=
        find_append (noMatch_of_head [] _ hcomma) rfl
      rw [join_cons (by simpa using hnil), split_cons (by decide) hcut, ih hls hnil]

theorem parseLabel_labels {ls : List (Bytes × Bytes)} (hls : ∀ p ∈ ls, Plain p.1 ∧ Plain p.2)
    (hne : ls ≠ []) (t : List (Bytes × Bytes)) :
    parseLabel (join (bytes ",") (ls.map labelCell)) t = labelTable ls t := by
  rw [parseLabel, split_labels hls hne, labelTable, foldl_map]
  refine foldl_ext _ _ _ fun t p hp => ?_
  rw [split_labelCell (hls p hp).1]
  rfl

variable {J : Cjson}

theorem parse_pack (l : Line) : parse J (pack J l.title l.ls l.vs) =
    (parseValue J (packValues J l.vs)).map fun t =>
      ⟨l.title, labelTable l.ls [], t.vs, t.log⟩ := by
  have htitle : ∀ c ∈ l.title, checkDelimiter 44 c = false := fun c hc =>
    (l.title_plain.checkDelimiter c hc).1
  have hblank : ∀ c ∈ packHeads l.title l.ls, checkDelimiter 32 c = false := by
    intro c hc
    have htitle' : ∀ c ∈ l.title, checkDelimiter 32 c = false := fun c hc =>
      (l.title_plain.checkDelimiter c hc).2.2
    rw [packHeads] at hc
    split_ifs at hc
    · rcases mem_append.mp hc with hc | hc
      · exact htitle' c hc
      · rcases mem_cons.mp hc with rfl | hc
        · rfl
        · rcases mem_join hc with hc | ⟨x, hx, hc⟩
          · obtain rfl : c = 44 := by simpa [bytes] using hc
            rfl
          · obtain ⟨p, hp, rfl⟩ := mem_map.mp hx
            exact (checkDelimiter_labelCell (l.ls_plain p hp) c hc).2
    · exact htitle' c hc
  have hline : split (pack J l.title l.ls l.vs) (bytes " ") (some 1) =
      [packHeads l.title l.ls, packValues J l.vs] := split_byte hblank rfl
  rw [parse, hline]
  by_cases hls : l.ls = []
  · have hheads : split (packHeads l.title l.ls) (bytes ",") (some 1) = [l.title] := by
      rw [packHeads, hls]
      exact split_byte_none htitle
    rw [hls] at hheads ⊢
    simp only [hheads]
    rfl
  · have hheads : split (packHeads l.title l.ls) (bytes ",") (some 1) =
        [l.title, join (bytes ",") (l.ls.map labelCell)] := by
      rw [packHeads, if_pos (length_pos_iff.mpr hls)]
      exact split_byte htitle rfl
    simp only [hheads, getElem?_cons_succ, getElem?_cons_zero,
      parseLabel_labels l.ls_plain hls]
    rfl

abbrev Guarded : Bytes → Prop := List.IsChain fun p c => c = 34 → p = 92

theorem guarded_append {e s : Bytes} (he : 34 ∉ e) (hs : ∀ p, Guarded (p :: s)) :
    ∀ p, Guarded (p :: (e ++ s)) := by
  induction e with
  | nil => exact hs
  | cons c e ih =>
    obtain ⟨hc, he⟩ := ne_and_not_mem_of_not_mem_cons he
    intro p
    exact isChain_cons_cons.mpr ⟨fun h => absurd h.symm hc, ih he c⟩

theorem guarded_escape (s : Bytes) : ∀ p, Guarded (p :: s.flatMap J.escape) := by
  induction s with
  | nil => exact fun p => List.IsChain.singleton p
  | cons c s ih =>
    rw [flatMap_cons]
    by_cases hquote : c = 34
    · rw [hquote, J.escape_quote]
      intro p
      refine isChain_cons_cons.mpr ⟨fun h => absurd h (by decide), ?_⟩
      exact isChain_cons_cons.mpr ⟨fun _ => rfl, ih 34⟩
    · by_cases hslash : c = 92
      · rw [hslash, J.escape_slash]
        exact guarded_append (by decide) ih
      · exact guarded_append (J.escape_other c hquote hslash).2.1 ih

theorem getLast_escape_iff (s : Bytes) :
    (s.flatMap J.escape).getLast? = some 92 ↔ s.getLast? = some 92 := by
  induction s using reverseRecOn with
  | nil => rfl
  | append_singleton s c _ =>
    rw [flatMap_append, flatMap_singleton, getLast?_concat]
    by_cases hquote : c = 34
    · rw [hquote, J.escape_quote]
      simp
    · by_cases hslash : c = 92
      · rw [hslash, J.escape_slash]
        simp
      · obtain ⟨hne, -, hlast⟩ := J.escape_other c hquote hslash
        rw [getLast?_append_of_ne_nil _ hne]
        simp [hlast, hslash]

theorem nextQuote_append {e s : Bytes} : ∀ {idx : ℕ} {p : UInt8}, Guarded (p :: e) →
    nextQuote idx p (e ++ s) = nextQuote (idx + e.length) (e.getLastD p) s := by
  induction e with
  | nil => exact fun _ => rfl
  | cons c e ih =>
    intro idx p h
    obtain ⟨hc, he⟩ := isChain_cons_cons.mp h
    have hskip : ¬(c = 34 ∧ p ≠ 92) := fun hquote => hquote.2 (hc hquote.1)
    rw [cons_append, nextQuote, if_neg hskip, ih he, length_cons, getLastD_cons,
      Nat.add_right_comm, Nat.add_assoc]

theorem le_of_nextQuote : ∀ {i : ℕ} {p : UInt8} {idx : ℕ},
    nextQuote i p s = some idx → i ≤ idx := by
  induction s with
  | nil => exact fun h => absurd h (by simp [nextQuote])
  | cons c s ih =>
    intro i p idx h
    rw [nextQuote] at h
    split_ifs at h
    · exact (some.inj h).le
    · have := ih h
      omega

theorem getNextQuote_encode (s t : Bytes) : getNextQuote (J.encode s ++ t) =
    if s.getLast? = some 92 then nextQuote ((J.encode s).length + 1) 34 t
    else some (J.encode s).length := by
  have hlast : (s.flatMap J.escape).getLastD 34 = 92 ↔ s.getLast? = some 92 := by
    rw [← getLast_escape_iff (J := J), getLastD_eq_getLast?]
    cases (s.flatMap J.escape).getLast? with
    | none => decide
    | some c => simp
  have hlen : (J.encode s).length = 2 + (s.flatMap J.escape).length := by
    simp [Cjson.encode]
    omega
  have hskip : getNextQuote (J.encode s ++ t) = nextQuote (2 + (s.flatMap J.escape).length)
      ((s.flatMap J.escape).getLastD 34) (34 :: t) := by
    rw [← nextQuote_append (guarded_escape s 34)]
    simp [Cjson.encode, getNextQuote]
  rw [hskip, nextQuote, hlen]
  by_cases hs : s.getLast? = some 92
  · rw [if_pos hs, if_neg fun h => h.2 (hlast.mpr hs)]
  · rw [if_neg hs, if_pos ⟨rfl, fun h => hs (hlast.mp h)⟩]

def behind : Option Bytes → Bytes
  | none => []
  | some rest => 44 :: rest

def next (J : Cjson) (vs : List (Bytes × Value)) : Option Bytes :=
  if vs = [] then none else some (packValues J vs)

theorem packValues_cons (p : Bytes × Value) (vs : List (Bytes × Value)) :
    packValues J (p :: vs) = valueCell J p ++ behind (next J vs) := by
  rw [packValues, map_cons, next]
  by_cases hnil : vs = []
  · rw [hnil, if_pos rfl, map_nil, join_singleton, behind, append_nil]
  · rw [if_neg hnil, join_cons (by simpa using hnil)]
    rfl

def Value.isBad : Value → Bool
  | .int _ => false
  | .str s => s.getLast? == some 92

def Tables.put (t : Tables) : Bytes × Value → Tables
  | (k, .int z) => { t with vs := luaAssign t.vs k (some (LuaNumber.readBack z.1)) }
  | (k, .str s) => { t with log := luaAssign t.log k (some s) }

@[simp] theorem Tables.put_int (t : Tables) (k : Bytes) (z : LuaNumber.LuaInt) :
    t.put (k, .int z) =
      { t with vs := luaAssign t.vs k (some (LuaNumber.readBack z.1)) } := rfl

@[simp] theorem Tables.put_str (t : Tables) (k s : Bytes) :
    t.put (k, .str s) = { t with log := luaAssign t.log k (some s) } := rfl

def Tables.Holds (t : Tables) (k : Bytes) : Value → Prop
  | .int z => t.vs.lookup k = some (LuaNumber.readBack z.1)
  | .str s => t.log.lookup k = some s

theorem split_valueCell {p : Bytes × Value} (hp : Plain p.1) (s : Bytes) :
    split (valueCell J p ++ s) (bytes "=") (some 1) = [p.1, p.2.text J ++ s] := by
  rw [valueCell, append_assoc]
  exact split_byte (fun c hc => (hp.checkDelimiter c hc).2.1) rfl

theorem split_number (z : ℤ) (next : Option Bytes) :
    split (LuaNumber.tostring z ++ behind next) (bytes ",") (some 1) =
      LuaNumber.tostring z :: next.toList := by
  have hcomma : ∀ c ∈ LuaNumber.tostring z, checkDelimiter 44 c = false := fun c hc =>
    beq_eq_false_iff_ne.mpr (LuaNumber.isNumByte_tostring z c hc).spec.2.2.1
  cases next with
  | none =>
    rw [behind, append_nil]
    exact split_byte_none hcomma
  | some rest => exact split_byte hcomma rfl

theorem head_number (z : ℤ) (s : Bytes) : (LuaNumber.tostring z ++ s).head? ≠ some 34 := by
  obtain ⟨c, t, hct⟩ := exists_cons_of_ne_nil (LuaNumber.tostring_ne_nil z)
  have hc := (LuaNumber.isNumByte_tostring z c (hct ▸ mem_cons_self)).spec.2.1
  rw [hct]
  simpa using hc

theorem round_valueCell {p : Bytes × Value} (hp : Plain p.1) (hbad : p.2.isBad = false)
    (next : Option Bytes) (t : Tables) :
    round J (valueCell J p ++ behind next) t = some (t.put p, next) := by
  obtain ⟨k, v⟩ := p
  cases v with
  | int z =>
    have hsplit : split (valueCell J (k, .int z) ++ behind next) (bytes "=") (some 1) =
        [k, LuaNumber.tostring z.1 ++ behind next] := split_valueCell hp _
    simp only [round, hsplit, if_neg (head_number z.1 _), split_number, headD_cons,
      LuaNumber.tonumber_tostring, Tables.put]
    cases next <;> rfl
  | str s =>
    have hsplit : split (valueCell J (k, .str s) ++ behind next) (bytes "=") (some 1) =
        [k, J.encode s ++ behind next] := split_valueCell hp _
    have hquote : (J.encode s ++ behind next).head? = some 34 := rfl
    have hgood : s.getLast? ≠ some 92 := by simpa [Value.isBad] using hbad
    have hend := getNextQuote_encode (J := J) s (behind next)
    rw [if_neg hgood] at hend
    have hdecode : J.decode (J.encode s) = some s := J.decode_encode s
    simp only [round, hsplit, if_pos hquote, hend, map_some, take_left, hdecode,
      Tables.put]
    cases next with
    | none => simp [behind]
    | some rest =>
      have hcomma : (J.encode s ++ behind (some rest))[(J.encode s).length]? = some 44 := by
        rw [getElem?_append_right le_rfl, Nat.sub_self]
        rfl
      have hdrop : (J.encode s ++ behind (some rest)).drop ((J.encode s).length + 1) = rest :=
        by simp [behind]
      rw [if_pos hcomma, hdrop]

variable {vs : List (Bytes × Value)}

theorem parseLoop_packValues (hplain : ∀ p ∈ vs, Plain p.1) (hbad : ∀ p ∈ vs, p.2.isBad = false)
    (hne : vs ≠ []) :
    ∀ {fuel : ℕ} (t : Tables), vs.length ≤ fuel →
      parseLoop J fuel (packValues J vs) t = some (vs.foldl Tables.put t) := by
  induction vs with
  | nil => exact absurd rfl hne
  | cons p vs ih =>
    intro fuel t hfuel
    obtain ⟨fuel, rfl⟩ := Nat.exists_eq_succ_of_ne_zero (Nat.ne_zero_of_lt hfuel)
    obtain ⟨hp, hplain⟩ := forall_mem_cons.mp hplain
    obtain ⟨hpb, hbad⟩ := forall_mem_cons.mp hbad
    rw [packValues_cons, parseLoop, round_valueCell hp hpb, bind_some, foldl_cons,
      next]
    by_cases hnil : vs = []
    · simp [hnil]
    · simp only [if_neg hnil]
      exact ih hplain hbad hnil _ (Nat.le_of_succ_le_succ hfuel)

theorem length_le_packValues (vs : List (Bytes × Value)) :
    vs.length ≤ (packValues J vs).length := by
  induction vs with
  | nil => exact Nat.zero_le _
  | cons p vs ih =>
    rw [packValues_cons, valueCell, next]
    simp only [length_append, length_cons]
    by_cases hnil : vs = []
    · rw [hnil, length_nil]
      omega
    · rw [if_neg hnil, behind, length_cons]
      omega

theorem put_of_notMem {k : Bytes} (hk : k ∉ vs.map Prod.fst) :
    ∀ t : Tables, (vs.foldl Tables.put t).vs.lookup k = t.vs.lookup k ∧
      (vs.foldl Tables.put t).log.lookup k = t.log.lookup k := by
  induction vs with
  | nil => exact fun t => ⟨rfl, rfl⟩
  | cons p vs ih =>
    obtain ⟨hp, hk⟩ := ne_and_not_mem_of_not_mem_cons hk
    intro t
    obtain ⟨hvs, hlog⟩ := ih hk (t.put p)
    rw [foldl_cons, hvs, hlog]
    obtain ⟨k', z | s⟩ := p
    · exact ⟨by rw [Tables.put_int, lookup_luaAssign_of_ne hp], rfl⟩
    · exact ⟨rfl, by rw [Tables.put_str, lookup_luaAssign_of_ne hp]⟩

theorem holds_of_mem {vs : List (Bytes × Value)} (hnodup : (vs.map Prod.fst).Nodup) {k : Bytes}
    {v : Value} (hmem : (k, v) ∈ vs) : ∀ t : Tables, (vs.foldl Tables.put t).Holds k v := by
  induction vs with
  | nil => exact absurd hmem not_mem_nil
  | cons p vs ih =>
    obtain ⟨hp, hnodup⟩ := nodup_cons.mp hnodup
    intro t
    rcases mem_cons.mp hmem with rfl | hmem
    · obtain ⟨hvs, hlog⟩ := put_of_notMem hp (t.put (k, v))
      cases v with
      | int z =>
        rw [Tables.put_int, lookup_luaAssign_self] at hvs
        exact hvs
      | str s =>
        rw [Tables.put_str, lookup_luaAssign_self] at hlog
        exact hlog
    · exact ih hnodup hmem (t.put p)

abbrev Marked : Type := List (UInt8 × Bool)

def unmarked (s : Bytes) : Marked := s.map fun c => (c, false)

def Marked.text (m : Marked) : Bytes := m.map Prod.fst

def Marked.credit (m : Marked) : ℕ := m.countP Prod.snd

def Paid (J : Cjson) (m : Marked) : Prop :=
  ∀ idx, getNextQuote m.text = some idx →
    J.decode (m.text.take idx) = none ∨ 0 < Marked.credit (m.take idx)

def Fine (J : Cjson) (m : Marked) : Prop :=
  ∀ (b : Bool) (m' : Marked), (61, b) :: m' <:+ m → m'.text.head? = some 34 → Paid J m'

theorem Fine.suffix {m m' : Marked} (h : Fine J m) (hm : m' <:+ m) : Fine J m' :=
  fun b m'' hsuf => h b m'' (hsuf.trans hm)

variable {m : Marked}

variable (v : Value) (p : UInt8 × Bool)

theorem Fine.cons (h : Fine J m) (hp : p.1 = 61 → m.text.head? = some 34 → Paid J m) :
    Fine J (p :: m) := by
  intro b m' hsuf hquote
  rcases suffix_cons_iff.mp hsuf with heq | hsuf
  · obtain ⟨rfl, rfl⟩ := List.cons.inj heq
    exact hp rfl hquote
  · exact h b m' hsuf hquote

theorem fine_nil : Fine J [] := fun b m' hsuf =>
  absurd (suffix_nil.mp hsuf) (cons_ne_nil (61, b) m')

theorem suffix_of_text {k rest : Bytes} {c : UInt8} (h : m.text = k ++ c :: rest) :
    ∃ (b : Bool) (m' : Marked), (c, b) :: m' <:+ m ∧ m'.text = rest := by
  obtain ⟨m₁, m₂, rfl, -, hm₂⟩ := map_eq_append_iff.mp h
  obtain ⟨⟨c, b⟩, m', rfl, rfl, hm'⟩ := map_eq_cons_iff.mp hm₂
  exact ⟨b, m', ⟨m₁, rfl⟩, hm'⟩

theorem credit_le_of_suffix {m m' : Marked} (h : m' <:+ m) : m'.credit ≤ m.credit :=
  h.sublist.countP_le

theorem credit_take_add_drop_le (m : Marked) (idx : ℕ) :
    Marked.credit (m.take idx) + Marked.credit (m.drop (idx + 1)) ≤ m.credit := by
  have hdrop : Marked.credit (m.drop (idx + 1)) ≤ Marked.credit (m.drop idx) :=
    (drop_sublist_drop_left m (Nat.le_succ idx)).countP_le
  calc Marked.credit (m.take idx) + Marked.credit (m.drop (idx + 1))
      ≤ Marked.credit (m.take idx) + Marked.credit (m.drop idx) := Nat.add_le_add_left hdrop _
    _ = Marked.credit (m.take idx ++ m.drop idx) := countP_append.symm
    _ = m.credit := by rw [take_append_drop]

theorem length_log_le {fuel : ℕ} : ∀ {m : Marked} {t t' : Tables}, Fine J m →
    parseLoop J fuel m.text t = some t' → t'.log.length ≤ t.log.length + m.credit := by
  induction fuel with
  | zero => exact fun _ h => absurd h (by simp [parseLoop])
  | succ fuel ih =>
    intro m t t' hfine h
    rw [parseLoop] at h
    obtain ⟨⟨t₁, next⟩, hround, h⟩ := bind_eq_some_iff.mp h
    obtain ⟨k, vStr, htext, hcase⟩ := round_cases hround
    obtain ⟨b, m₁, hvalue, rfl⟩ := suffix_of_text htext
    have hsuf : m₁ <:+ m := (suffix_cons _ _).trans hvalue
    -- what is left of the text has the marks that are left
    have hloop : ∀ m₂ : Marked, m₂ <:+ m₁ → (∀ rest, next = some rest → rest = m₂.text) →
        t'.log.length ≤ t₁.log.length + m₂.credit := by
      intro m₂ hm₂ hnext
      cases next with
      | none =>
        obtain rfl : t₁ = t' := some.inj h
        exact Nat.le_add_right _ _
      | some rest =>
        obtain rfl := hnext rest rfl
        exact ih (hfine.suffix (hm₂.trans hsuf)) h
    refine le_trans ?_ (Nat.add_le_add_left (credit_le_of_suffix hsuf) _)
    rcases hcase with ⟨idx, hquote, hidx, rfl, hnext⟩ | ⟨hlog, hnext⟩
    · have hstep := hloop (m₁.drop (idx + 1)) (drop_suffix _ _) fun rest hrest => by
        rw [hnext rest hrest]
        exact (map_drop ..).symm
      have hassign := length_luaAssign_le (t := t.log) (k := k) (J.decode (m₁.text.take idx))
      have hpaid : (J.decode (m₁.text.take idx)).toList.length ≤
          Marked.credit (m₁.take idx) := by
        rcases hfine b m₁ hvalue hquote idx hidx with hnone | hpos
        · rw [hnone]
          exact Nat.zero_le _
        · exact le_trans length_toList_le hpos
      have hsplit := credit_take_add_drop_le m₁ idx
      calc t'.log.length ≤ _ := hstep
        _ ≤ t.log.length + Marked.credit (m₁.take idx) + Marked.credit (m₁.drop (idx + 1)) :=
          Nat.add_le_add_right (hassign.trans (Nat.add_le_add_left hpaid _)) _
        _ ≤ t.log.length + m₁.credit := by omega
    · rw [← hlog]
      cases next with
      | none => exact hloop m₁ suffix_rfl fun _ hrest => absurd hrest (by simp)
      | some rest =>
        obtain ⟨v, hv⟩ := hnext rest rfl
        obtain ⟨_, m₂, hcomma, rfl⟩ := suffix_of_text hv
        have hm₂ : m₂ <:+ m₁ := (suffix_cons _ _).trans hcomma
        have hstep := hloop m₂ hm₂ fun _ hrest => (some.inj hrest).symm
        exact hstep.trans (Nat.add_le_add_left (credit_le_of_suffix hm₂) _)

def markText (J : Cjson) : Value → Marked
  | .int z => unmarked (LuaNumber.tostring z.1)
  | .str s => (34, false) :: (unmarked (s.flatMap J.escape) ++ [(34, !(Value.str s).isBad)])

def markCell (J : Cjson) (p : Bytes × Value) : Marked :=
  unmarked p.1 ++ (61, false) :: markText J p.2

def markValues (J : Cjson) : List (Bytes × Value) → Marked
  | [] => []
  | p :: vs => markCell J p ++ if vs = [] then [] else (44, false) :: markValues J vs

@[simp] theorem text_append (m m' : Marked) : Marked.text (m ++ m') = m.text ++ m'.text :=
  map_append

@[simp] theorem text_cons (m : Marked) :
    Marked.text (p :: m) = p.1 :: m.text := rfl

@[simp] theorem text_unmarked (s : Bytes) : (unmarked s).text = s := by
  simp [Marked.text, unmarked, Function.comp_def]

theorem text_markText : (markText J v).text = v.text J := by
  cases v with
  | int z => exact text_unmarked _
  | str s =>
    rw [markText, text_cons, text_append, text_unmarked]
    rfl

theorem text_markValues (vs : List (Bytes × Value)) :
    (markValues J vs).text = packValues J vs := by
  induction vs with
  | nil => rfl
  | cons p vs ih =>
    rw [markValues, packValues_cons, text_append, markCell, text_append, text_unmarked, text_cons,
      text_markText, valueCell, next]
    by_cases hnil : vs = []
    · simp only [if_pos hnil]
      rfl
    · simp only [if_neg hnil, text_cons, ih, behind]

theorem text_markRest (vs : List (Bytes × Value)) :
    Marked.text (if vs = [] then [] else (44, false) :: markValues J vs) =
      behind (next J vs) := by
  rw [next]
  by_cases hnil : vs = []
  · rw [if_pos hnil, if_pos hnil]
    rfl
  · rw [if_neg hnil, if_neg hnil, text_cons, text_markValues]
    rfl

theorem Fine.unmarked (hs : 61 ∉ s) (hm : Fine J m) : Fine J (unmarked s ++ m) := by
  induction s with
  | nil => exact hm
  | cons c s ih =>
    obtain ⟨hc, hs⟩ := ne_and_not_mem_of_not_mem_cons hs
    exact (ih hs).cons (c, false) fun h => absurd h.symm hc

theorem two_le_of_getNextQuote {idx : ℕ} (h : getNextQuote s = some idx) : 2 ≤ idx := by
  cases s with
  | nil => exact absurd h (by simp [getNextQuote])
  | cons c s => exact le_of_nextQuote h

theorem paid_of_mark (c : UInt8) (m : Marked) : Paid J ((c, true) :: m) := by
  intro idx hidx
  obtain ⟨n, rfl⟩ := Nat.exists_eq_add_of_le (two_le_of_getNextQuote hidx)
  right
  rw [Marked.credit, Nat.add_comm, take_succ_cons, countP_cons_of_pos rfl]
  exact Nat.succ_pos _

theorem Fine.body {b : Bool} (hm : Fine J ((34, b) :: m)) {e : Bytes} (he : Guarded e)
    (hb : e.getLast? = some 61 → b = true) : Fine J (LineParse.unmarked e ++ (34, b) :: m) := by
  induction e with
  | nil => exact hm
  | cons c e ih =>
    cases e with
    | nil =>
      refine hm.cons (c, false) fun hc _ => ?_
      obtain rfl : b = true := hb (congrArg some hc)
      exact paid_of_mark 34 m
    | cons d e =>
      obtain ⟨hd, he⟩ := isChain_cons_cons.mp he
      refine (ih he (by simpa using hb)).cons (c, false) fun hc hquote => ?_
      have hslash := hd (by simpa [LineParse.unmarked] using hquote)
      exact absurd (hslash.symm.trans hc) (by decide)

theorem paid_markText {next : Option Bytes} (hm : m.text = behind next)
    (hquote : (Marked.text (markText J v ++ m)).head? = some 34) : Paid J (markText J v ++ m) := by
  have htext : Marked.text (markText J v ++ m) = v.text J ++ behind next := by
    rw [text_append, text_markText, hm]
  rw [htext] at hquote
  cases v with
  | int z => exact absurd hquote (head_number z.1 _)
  | str s =>
    intro idx hidx
    rw [htext] at hidx ⊢
    have hend := (getNextQuote_encode s (behind next)).symm.trans hidx
    by_cases hs : s.getLast? = some 92
    · -- the closing quote is skipped, and a comma is behind it
      left
      rw [if_pos hs] at hend
      cases next with
      | none => exact absurd hend (by simp [behind, nextQuote])
      | some rest =>
        obtain ⟨n, rfl⟩ := Nat.exists_eq_add_of_le (le_of_nextQuote hend)
        have htake : (Value.text J (.str s) ++ behind (some rest)).take
            ((J.encode s).length + 1 + n) = J.encode s ++ 44 :: rest.take n := by
          rw [Nat.add_assoc, Nat.add_comm 1 n]
          exact take_length_add_append _
        rw [htake, Cjson.encode, cons_append, append_assoc]
        exact J.decode_more s _
    · right
      rw [if_neg hs] at hend
      have hlen : idx = (markText J (.str s)).length := by
        rw [← some.inj hend, ← length_map (f := Prod.fst)]
        exact congrArg List.length (text_markText (J := J) (.str s)).symm
      rw [hlen, take_left]
      simp [Marked.credit, markText, Value.isBad, hs]

theorem fine_markText (hm : Fine J m) : Fine J (markText J v ++ m) := by
  cases v with
  | int z =>
    refine hm.unmarked fun h => ?_
    exact (LuaNumber.isNumByte_tostring z.1 61 h).spec.2.2.2 rfl
  | str s =>
    have hclose := hm.cons (34, !(Value.str s).isBad) fun h => absurd h (by simp)
    have hbody := hclose.body (guarded_escape (J := J) s 0).of_cons fun hlast => ?_
    · have hopen := hbody.cons (34, false) fun h => absurd h (by simp)
      simpa [markText] using hopen
    · have hgood : s.getLast? ≠ some 92 := by
        rw [Ne, ← getLast_escape_iff (J := J), hlast]
        decide
      simpa [Value.isBad] using hgood

theorem fine_markValues (hplain : ∀ p ∈ vs, Plain p.1) : Fine J (markValues J vs) := by
  induction vs with
  | nil => exact fine_nil
  | cons p vs ih =>
    obtain ⟨hp, hplain⟩ := forall_mem_cons.mp hplain
    have hname : 61 ∉ p.1 := fun h => absurd (hp.checkDelimiter 61 h).2.1 (by decide)
    have hrest : Fine J (if vs = [] then [] else (44, false) :: markValues J vs) := by
      split_ifs
      · exact fine_nil
      · exact (ih hplain).cons (44, false) fun h => absurd h (by simp)
    rw [markValues, markCell, append_assoc]
    refine Fine.unmarked hname ?_
    rw [cons_append]
    exact (fine_markText p.2 hrest).cons (61, false) fun _ hquote =>
      paid_markText p.2 (text_markRest vs) hquote

def Value.isStr : Value → Bool
  | .int _ => false
  | .str _ => true

@[simp] theorem credit_append (m m' : Marked) :
    Marked.credit (m ++ m') = m.credit + m'.credit := countP_append

@[simp] theorem credit_cons (m : Marked) : Marked.credit (p :: m) = m.credit + p.2.toNat := by
  rw [Marked.credit, countP_cons]
  cases p.2 <;> rfl

@[simp] theorem credit_unmarked (s : Bytes) : (unmarked s).credit = 0 := by
  simp [Marked.credit, unmarked]

theorem credit_markValues (vs : List (Bytes × Value)) :
    (markValues J vs).credit + vs.countP (·.2.isBad) = vs.countP (·.2.isStr) := by
  induction vs with
  | nil => rfl
  | cons p vs ih =>
    have hrest : Marked.credit (if vs = [] then [] else (44, false) :: markValues J vs) =
        (markValues J vs).credit := by
      by_cases hnil : vs = []
      · rw [if_pos hnil, hnil]
        rfl
      · rw [if_neg hnil]
        exact credit_cons _ _
    have hmark : (markText J p.2).credit + p.2.isBad.toNat = p.2.isStr.toNat := by
      cases p.2 with
      | int z => exact credit_unmarked _
      | str s =>
        simp only [markText, credit_cons, credit_append, credit_unmarked, Value.isStr]
        cases (Value.str s).isBad <;> rfl
    have hbad : (p :: vs).countP (·.2.isBad) = vs.countP (·.2.isBad) + p.2.isBad.toNat := by
      rw [countP_cons]
      cases p.2.isBad <;> rfl
    have hstr : (p :: vs).countP (·.2.isStr) = vs.countP (·.2.isStr) + p.2.isStr.toNat := by
      rw [countP_cons]
      cases p.2.isStr <;> rfl
    rw [markValues, credit_append, hrest, markCell, credit_append, credit_unmarked, credit_cons,
      hbad, hstr]
    simp only [Bool.toNat_false]
    omega

variable {l : Line}

theorem mem_str_isBad : (∀ p ∈ l.vs, p.2.isBad = false) ↔
    ∀ k s, (k, Value.str s) ∈ l.vs → s.getLast? ≠ some 92 := by
  constructor
  · intro h k s hmem
    simpa [Value.isBad] using h _ hmem
  · rintro h ⟨k, z | s⟩ hmem
    · rfl
    · simpa [Value.isBad] using h k s hmem

theorem isBad_of_roundTrips (h : l.RoundTrips J) : ∀ p ∈ l.vs, p.2.isBad = false := by
  obtain ⟨r, hparse, -, -, -, hlog⟩ := h
  rw [parse_pack] at hparse
  obtain ⟨t, ht, rfl⟩ := map_eq_some_iff.mp hparse
  rw [parseValue, ← text_markValues] at ht
  have hle : t.log.length ≤ 0 + (markValues J l.vs).credit :=
    length_log_le (fine_markValues l.vs_plain) ht
  have hnodup : ((l.vs.filter (·.2.isStr)).map Prod.fst).Nodup :=
    l.vs_nodup.sublist (filter_sublist.map _)
  have hfields := length_le_of_lookup (t := t.log) hnodup fun k hk => by
    obtain ⟨⟨k, z | s⟩, hmem, rfl⟩ := mem_map.mp hk
    · exact absurd (mem_filter.mp hmem).2 (by simp [Value.isStr])
    · exact ne_none_iff_exists'.mpr ⟨s, hlog k s (mem_filter.mp hmem).1⟩
  rw [length_map, ← countP_eq_length_filter] at hfields
  have hcredit := credit_markValues (J := J) l.vs
  have hzero : l.vs.countP (·.2.isBad) = 0 := by omega
  intro p hp
  simpa using countP_eq_zero.mp hzero p hp

theorem parse_pack_of_good (h : ∀ p ∈ l.vs, p.2.isBad = false) :
    parse J (pack J l.title l.ls l.vs) =
      some ⟨l.title, labelTable l.ls [], (l.vs.foldl Tables.put ⟨[], []⟩).vs,
        (l.vs.foldl Tables.put ⟨[], []⟩).log⟩ := by
  have hfuel := length_le_packValues (J := J) l.vs
  rw [parse_pack, parseValue, parseLoop_packValues l.vs_plain h l.vs_ne_nil _ (by omega)]
  rfl

def unquote : Bytes → Option Bytes
  | [] => none
  | c :: s =>
    if c = 34 then if s = [] then some [] else none
    else if c = 92 then
      match s with
      | [] => none
      | d :: s => (unquote s).map (d :: ·)
    else (unquote s).map (c :: ·)

def plainEscape (c : UInt8) : Bytes := if c = 34 ∨ c = 92 then [92, c] else [c]

theorem unquote_escape (v s : Bytes) :
    unquote (v.flatMap plainEscape ++ s) = (unquote s).map (v ++ ·) := by
  induction v with
  | nil => simp
  | cons c v ih =>
    have hother : ∀ s, c ≠ 34 → c ≠ 92 → unquote (c :: s) = (unquote s).map (c :: ·) := by
      intro s hquote hslash
      cases s <;> simp [unquote, hquote, hslash]
    have hhead : unquote (plainEscape c ++ (v.flatMap plainEscape ++ s)) =
        (unquote (v.flatMap plainEscape ++ s)).map (c :: ·) := by
      by_cases hc : c = 34 ∨ c = 92
      · rw [plainEscape, if_pos hc]
        rfl
      · rw [plainEscape, if_neg hc, singleton_append]
        exact hother _ (fun h => hc (.inl h)) fun h => hc (.inr h)
    rw [flatMap_cons, append_assoc, hhead, ih, Option.map_map]
    rfl

def plainJson : Cjson where
  escape := plainEscape
  decode s := if s.head? = some 34 then unquote s.tail else none
  escape_quote := rfl
  escape_slash := rfl
  escape_other := by
    intro c hquote hslash
    rw [plainEscape, if_neg (by simp [hquote, hslash])]
    exact ⟨cons_ne_nil _ _, by simpa using Ne.symm hquote, by simpa using hslash⟩
  decode_encode := by
    intro v
    rw [head?_cons, if_pos rfl, tail_cons, unquote_escape]
    simp [unquote]
  decode_more := by
    intro v t
    rw [head?_cons, if_pos rfl, tail_cons, unquote_escape]
    simp [unquote]

theorem parse_pack_iff (J : Cjson) (l : Line) : l.RoundTrips J ↔
    (∀ k s, (k, Value.str s) ∈ l.vs → s.getLast? ≠ some 92) ∧
      ∀ k z, (k, Value.int z) ∈ l.vs → LuaNumber.readBack z.1 = z.1 := by
  rw [← mem_str_isBad]
  constructor
  · intro h
    have hgood := isBad_of_roundTrips h
    refine ⟨hgood, fun k z hmem => ?_⟩
    obtain ⟨r, hparse, -, -, hvs, -⟩ := h
    rw [parse_pack_of_good hgood] at hparse
    obtain rfl := some.inj hparse
    have hread : _ = some (LuaNumber.readBack z.1) := holds_of_mem l.vs_nodup hmem ⟨[], []⟩
    exact some.inj (hread.symm.trans (hvs k z hmem))
  · rintro ⟨hgood, hread⟩
    refine ⟨_, parse_pack_of_good hgood, rfl, fun k => ?_, fun k z hmem => ?_, fun k s hmem => ?_⟩
    · exact (lookup_foldl_luaAssign l.ls_nodup k).trans (or_none ..)
    · rw [← hread k z hmem]
      exact holds_of_mem l.vs_nodup hmem ⟨[], []⟩
    · exact holds_of_mem l.vs_nodup hmem ⟨[], []⟩

def helloLine : Line where
  title := bytes "hello"
  ls := [(bytes "i", bytes "1")]
  vs := [(bytes "log", .str (bytes "a\\b,\"c\"")),
    (bytes "v", .int ⟨3, LuaNumber.isDouble_of_lt (by decide)⟩)]
  title_plain := by decide
  ls_plain := by simpa using ⟨by decide, by decide⟩
  ls_nodup := by decide
  vs_plain := by simpa using ⟨by decide, by decide⟩
  vs_nodup := by simpa using (by decide : bytes "log" ≠ bytes "v")
  vs_ne_nil := cons_ne_nil _ _

theorem parse_pack_hello : helloLine.RoundTrips plainJson := by
  refine (parse_pack_iff plainJson helloLine).mpr ⟨fun k s hmem => ?_, fun k z hmem => ?_⟩
  · have hs : k = bytes "log" ∧ s = bytes "a\\b,\"c\"" := by simpa [helloLine] using hmem
    rw [hs.2]
    decide
  · have hz : k = bytes "v" ∧ z.1 = 3 := by simpa [helloLine, Subtype.ext_iff] using hmem
    rw [hz.2]
    exact LuaNumber.readBack_of_lt (by decide)

def oneLine (v : Value) : Line where
  title := bytes "hello"
  ls := []
  vs := [(bytes "v", v)]
  title_plain := by decide
  ls_plain := by simp
  ls_nodup := nodup_nil
  vs_plain := by simpa using (by decide : Plain (bytes "v"))
  vs_nodup := nodup_singleton _
  vs_ne_nil := cons_ne_nil _ _

theorem parse_pack_lost :
    (parse plainJson (pack plainJson (bytes "hello") [] [(bytes "v", .str (bytes "C:\\"))]) = none ∧
      ¬(oneLine (.str (bytes "C:\\"))).RoundTrips plainJson) ∧
    ¬(oneLine (.int ⟨100000000000001, LuaNumber.isDouble_of_lt (by decide)⟩)).RoundTrips
      plainJson := by
  refine ⟨⟨by decide, ?_⟩, ?_⟩
  · rintro ⟨p, hp, -⟩
    have hnone : parse plainJson (pack plainJson (bytes "hello") []
        [(bytes "v", .str (bytes "C:\\"))]) = none := by decide
    exact absurd (hnone.symm.trans hp) (by simp)
  · rintro ⟨p, hp, -, -, hvs, -⟩
    have hsome : parse plainJson (pack plainJson (bytes "hello") []
        [(bytes "v", .int ⟨100000000000001, LuaNumber.isDouble_of_lt (by decide)⟩)]) =
        some ⟨bytes "hello", [], [(bytes "v", 100000000000000)], []⟩ := by decide
    obtain rfl := some.inj (hsome.symm.trans hp)
    have hread := hvs (bytes "v") _ mem_cons_self
    exact absurd hread (by decide)

end Sysak.LineParse
