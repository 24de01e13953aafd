/-
# Requests in a stream of chunks
-/

import Mathlib.Data.Bool.AllAny
import Sysak.Beaver.Frame

namespace Sysak.Beaver

open Lib Pystring List Option

def fieldLine (f : Bytes × Bytes) : Bytes := f.1 ++ bytes ":" ++ f.2

def IsLength (v : Bytes) (n : ℕ) : Prop :=
  ∃ l ds r, v = l ++ (ds ++ r) ∧ (∀ c ∈ l, c = 32 ∨ c = 9) ∧ (∀ c ∈ r, c = 32 ∨ c = 9) ∧
    ds ≠ [] ∧ (∀ c ∈ ds, isDigit c = true) ∧ decimal ds = n

structure Request where
  method : Bytes
  path : Bytes
  vers : Bytes
  fields : List (Bytes × Bytes)
  body : Bytes
  method_ok : ∀ c ∈ method, isSpace c = false
  path_ok : path ≠ [] ∧ ∀ c ∈ path, isSpace c = false
  vers_ok : ∀ c ∈ vers, isSpace c = false
  fields_ne : fields ≠ []
  name_ok : ∀ f ∈ fields, ∀ c ∈ f.1, c ≠ 58 ∧ c ≠ 13 ∧ c ≠ 10
  value_ok : ∀ f ∈ fields, ∀ c ∈ f.2, c ≠ 13 ∧ c ≠ 10
  length_ok : ∀ f ∈ fields, lower f.1 = bytes "content-length" → IsLength f.2 body.length
  no_length : (∀ f ∈ fields, lower f.1 ≠ bytes "content-length") → body = []

namespace Request

def stat (r : Request) : Bytes := r.method ++ bytes " " ++ (r.path ++ bytes " " ++ r.vers)

def block (r : Request) : Bytes := crlf.intercalate (r.fields.map fieldLine)

def head (r : Request) : Bytes := r.stat ++ (crlf ++ (r.block ++ crlf2))

def encode (r : Request) : Bytes := r.head ++ r.body

def seen (r : Request) : TReq where
  method := r.method
  path := r.path
  vers := r.vers
  header := r.fields.map fun f => (lower f.1, lstrip f.2)
  data := r.body

end Request

structure FieldsOk (fields : List (Bytes × Bytes)) : Prop where
  name : ∀ f ∈ fields, ∀ c ∈ f.1, c ≠ 58 ∧ c ≠ 13 ∧ c ≠ 10
  value : ∀ f ∈ fields, ∀ c ∈ f.2, c ≠ 13 ∧ c ≠ 10

theorem Request.fieldsOk (r : Request) : FieldsOk r.fields := ⟨r.name_ok, r.value_ok⟩

def statLine (method path vers : Bytes) : Bytes :=
  method ++ bytes " " ++ (path ++ bytes " " ++ vers)

theorem fieldLine_ne_nil (f : Bytes × Bytes) : fieldLine f ≠ [] := by
  simp [fieldLine, bytes]

section FieldsOk

variable {fields : List (Bytes × Bytes)}

theorem FieldsOk.tail {f : Bytes × Bytes} (h : FieldsOk (f :: fields)) : FieldsOk fields :=
  ⟨fun g hg => h.name g (mem_cons_of_mem _ hg),
    fun g hg => h.value g (mem_cons_of_mem _ hg)⟩

theorem FieldsOk.lines_no_cr (h : FieldsOk fields) :
    ∀ s ∈ fields.map fieldLine, ∀ c ∈ s, c ≠ 13 := by
  intro s hs c hc
  obtain ⟨f, hf, rfl⟩ := mem_map.mp hs
  rcases mem_append.mp hc with hc | hc
  · rcases mem_append.mp hc with hc | hc
    · exact (h.name f hf c hc).2.1
    · rw [mem_singleton.mp (show c ∈ [58] from hc)]
      decide
  · exact (h.value f hf c hc).1

theorem lines_ne_nil (fields : List (Bytes × Bytes)) : ∀ s ∈ fields.map fieldLine, s ≠ [] := by
  intro s hs
  obtain ⟨f, -, rfl⟩ := mem_map.mp hs
  exact fieldLine_ne_nil f

end FieldsOk

theorem isSpace_cr_of_not {c : UInt8} (h : isSpace c = false) : c ≠ 13 := by
  rintro rfl
  cases h

section StatLine

variable {method path vers : Bytes} (hmethod : ∀ c ∈ method, isSpace c = false)
  (hpath : ∀ c ∈ path, isSpace c = false) (hvers : ∀ c ∈ vers, isSpace c = false)

include hmethod hpath hvers

theorem statLine_no_cr : ∀ c ∈ statLine method path vers, c ≠ 13 := by
  intro c hc
  have hblank : ∀ c ∈ bytes " ", c ≠ 13 := all_iff_forall_prop.mp (by decide)
  simp only [statLine, mem_append] at hc
  rcases hc with (hc | hc) | (hc | hc) | hc
  · exact isSpace_cr_of_not (hmethod c hc)
  · exact hblank c hc
  · exact isSpace_cr_of_not (hpath c hc)
  · exact hblank c hc
  · exact isSpace_cr_of_not (hvers c hc)

theorem split_statLine :
    split (statLine method path vers) (bytes " ") none = [method, path, vers] := by
  have find_blank {a : Bytes} (s : Bytes) (ha : ∀ c ∈ a, isSpace c = false) :
      find (setupDelimiter (bytes " ")) (a ++ (bytes " " ++ s)) = some (a, s) :=
    find_append (noMatch_of_head _ _ ha) rfl
  have hlast : find (setupDelimiter (bytes " ")) vers = none := find_eq_none_of_head _ hvers
  rw [statLine, append_assoc, append_assoc,
    split_cons (by decide) (find_blank (path ++ (bytes " " ++ vers)) hmethod),
    split_cons (by decide) (find_blank vers hpath), split_none hlast]

end StatLine

theorem find_crlf {a : Bytes} (s : Bytes) (ha : ∀ c ∈ a, c ≠ 13) :
    find (setupDelimiter crlf) (a ++ (crlf ++ s)) = some (a, s) := by
  have hno : NoMatch (setupDelimiter crlf) a (crlf ++ s) :=
    noMatch_of_head _ _ fun c hc => beq_false_of_ne (ha c hc)
  exact find_append hno (matchHere_literal crlf s)

theorem find_colon {a : Bytes} (s : Bytes) (ha : ∀ c ∈ a, c ≠ 58) :
    find (setupDelimiter (bytes ":")) (a ++ (bytes ":" ++ s)) = some (a, s) :=
  find_append (noMatch_of_head _ _ fun c hc => beq_false_of_ne (ha c hc)) rfl

variable {fields : List (Bytes × Bytes)}

theorem FieldsOk.parseHeader (h : FieldsOk fields) :
    parseHeader (fields.map fieldLine) = some (fields.map fun f => (lower f.1, lstrip f.2)) := by
  induction fields with
  | nil => rfl
  | cons f fields ih =>
    have hcut : split (fieldLine f) (bytes ":") (some 1) = [f.1, f.2] := by
      refine split_one ?_
      rw [fieldLine, append_assoc]
      exact find_colon f.2 fun c hc => (h.name f (mem_cons_self ..) c hc).1
    rw [map_cons, Beaver.parseHeader, hcut]
    simp only [ih h.tail]
    rfl

theorem noMatch_crlf {s : Bytes} (h : ∀ c ∈ s.head?, c ≠ 13) : NoMatch (literal crlf2) crlf s := by
  intro x y heq hy
  change [13, 10] = x ++ y at heq
  rcases x with _ | ⟨a, _ | ⟨b, x⟩⟩
  · obtain rfl : [13, 10] = y := heq
    cases s with
    | nil => rfl
    | cons c s =>
      have hc : (c == 13) = false := beq_false_of_ne (h c rfl)
      show ((c == 13) && _) = false
      rw [hc, Bool.false_and]
  · obtain ⟨-, rfl⟩ := cons_eq_cons.mp heq
    rfl
  · obtain ⟨-, htail⟩ := cons_eq_cons.mp heq
    obtain ⟨-, hnil⟩ := cons_eq_cons.mp htail
    exact absurd (append_eq_nil_iff.mp hnil.symm).2 hy

section Lines

variable {lines : List Bytes} (hcr : ∀ s ∈ lines, ∀ c ∈ s, c ≠ 13)

include hcr

theorem split_lines (hne : lines ≠ []) : split (crlf.intercalate lines) crlf none = lines := by
  induction lines with
  | nil => exact absurd rfl hne
  | cons s lines ih =>
    have hs := hcr s (mem_cons_self ..)
    cases lines with
    | nil =>
      have hnone : find (setupDelimiter crlf) s = none :=
        find_eq_none_of_head _ fun c hc => beq_false_of_ne (hs c hc)
      rw [intercalate_singleton, split_none hnone]
    | cons t lines =>
      rw [intercalate_cons_cons, append_assoc,
        split_cons (by decide) (find_crlf _ hs),
        ih (fun s hs => hcr s (mem_cons_of_mem _ hs)) (cons_ne_nil _ _)]

variable (hne : ∀ s ∈ lines, s ≠ [])

include hne

theorem lines_head {s : Bytes} (hlines : lines ≠ []) :
    ∀ c ∈ (crlf.intercalate lines ++ s).head?, c ≠ 13 := by
  obtain ⟨a, lines, rfl⟩ := exists_cons_of_ne_nil hlines
  obtain ⟨c, a, rfl⟩ := exists_cons_of_ne_nil (hne a (mem_cons_self ..))
  have hc := hcr (c :: a) (mem_cons_self ..) c (mem_cons_self ..)
  cases lines with
  | nil =>
    intro c' hc'
    rw [intercalate_singleton] at hc'
    cases hc'
    exact hc
  | cons b lines =>
    intro c' hc'
    rw [intercalate_cons_cons] at hc'
    cases hc'
    exact hc

theorem noMatch_lines (s : Bytes) : NoMatch (literal crlf2) (crlf.intercalate lines) s := by
  induction lines with
  | nil =>
    intro x y heq hy
    exact absurd (append_eq_nil_iff.mp heq.symm).2 hy
  | cons a lines ih =>
    have ha (t : Bytes) : NoMatch (literal crlf2) a t :=
      noMatch_of_head _ _ fun c hc => beq_false_of_ne (hcr a (mem_cons_self ..) c hc)
    cases lines with
    | nil =>
      rw [intercalate_singleton]
      exact ha s
    | cons b lines =>
      have hcr' : ∀ s ∈ b :: lines, ∀ c ∈ s, c ≠ 13 :=
        fun s hs => hcr s (mem_cons_of_mem _ hs)
      have hne' : ∀ s ∈ b :: lines, s ≠ [] := fun s hs => hne s (mem_cons_of_mem _ hs)
      rw [intercalate_cons_cons, append_assoc]
      refine (ha _).append (NoMatch.append (noMatch_crlf ?_) (ih hcr' hne'))
      exact lines_head hcr' hne' (cons_ne_nil _ _)

end Lines

theorem FieldsOk.find_block (h : FieldsOk fields) (t : Bytes) :
    find (setupDelimiter crlf2) (crlf.intercalate (fields.map fieldLine) ++ (crlf2 ++ t)) =
      some (crlf.intercalate (fields.map fieldLine), t) :=
  find_append (noMatch_lines h.lines_no_cr (lines_ne_nil fields) _) (matchHere_literal crlf2 t)

theorem parseUrl_fields {method path vers : Bytes} (hmethod : ∀ c ∈ method, isSpace c = false)
    (hpath : ∀ c ∈ path, isSpace c = false) (hvers : ∀ c ∈ vers, isSpace c = false)
    (hok : FieldsOk fields) (hne : fields ≠ []) (url : Bytes → Option Url) (data : Bytes)
    (reads : List Bytes) :
    parseUrl url (statLine method path vers ++
        (crlf ++ (crlf.intercalate (fields.map fieldLine) ++ (crlf2 ++ data)))) reads =
      match url path with
      | none => .error .raised
      | some u =>
        (waitHttpRest ⟨method, path, vers, fields.map fun f => (lower f.1, lstrip f.2), data⟩
          reads).map fun r => (u, r) := by
  have hstat := split_one (find_crlf
    (crlf.intercalate (fields.map fieldLine) ++ (crlf2 ++ data))
    (statLine_no_cr hmethod hpath hvers))
  have hhead := split_one (hok.find_block data)
  have hlines : split (crlf.intercalate (fields.map fieldLine)) crlf none = fields.map fieldLine :=
    split_lines hok.lines_no_cr (by simpa using hne)
  cases hurl : url path <;>
    simp only [parseUrl, hstat, split_statLine hmethod hpath hvers, hurl, hhead, hlines,
      hok.parseHeader]

variable (r : Request)

theorem stat_no_cr : ∀ c ∈ r.stat, c ≠ 13 := statLine_no_cr r.method_ok r.path_ok.2 r.vers_ok

theorem find_head (t : Bytes) :
    find (literal crlf2) (r.head ++ t) = some (r.stat ++ (crlf ++ r.block), t) := by
  have hblock := noMatch_lines r.fieldsOk.lines_no_cr (lines_ne_nil r.fields) (crlf2 ++ t)
  have hcrlf : NoMatch (literal crlf2) crlf (r.block ++ (crlf2 ++ t)) :=
    noMatch_crlf (lines_head r.fieldsOk.lines_no_cr (lines_ne_nil r.fields)
      (by simpa using r.fields_ne))
  have hstat (s : Bytes) : NoMatch (literal crlf2) r.stat s :=
    noMatch_of_head _ _ fun c hc => beq_false_of_ne (stat_no_cr r c hc)
  have heq : r.head ++ t = r.stat ++ (crlf ++ r.block) ++ (crlf2 ++ t) := by
    simp [Request.head]
  rw [heq]
  exact find_append ((hstat _).append (hcrlf.append hblock)) (matchHere_literal crlf2 t)

theorem parse_head (data : Bytes) (reads : List Bytes) :
    parse (r.head ++ data) reads = waitHttpRest { r.seen with data := data } reads := by
  have htext : r.head ++ data = statLine r.method r.path r.vers ++
      (crlf ++ (crlf.intercalate (r.fields.map fieldLine) ++ (crlf2 ++ data))) := by
    rw [Request.head, append_assoc, append_assoc, append_assoc]
    rfl
  rw [parse_eq_parseUrl, htext, parseUrl_fields r.method_ok r.path_ok.2 r.vers_ok r.fieldsOk
    r.fields_ne, keepPath, if_neg r.path_ok.1]
  show Except.map Prod.snd
    ((waitHttpRest { r.seen with data := data } reads).map fun s => (_, s)) = _
  cases waitHttpRest { r.seen with data := data } reads <;> rfl

theorem isSome_find_iff {s t t' : Bytes} (h : s ++ t' = r.head ++ t) :
    (find (literal crlf2) s).isSome = decide (r.head.length ≤ s.length) := by
  have hhead := find_head r t
  by_cases hlen : r.head.length ≤ s.length
  · obtain ⟨u, rfl⟩ : r.head <+: s := prefix_of_prefix_length_le ⟨t, rfl⟩ ⟨t', h⟩ hlen
    rw [find_head r u, decide_eq_true hlen]
    rfl
  · rw [decide_eq_false hlen, isSome_eq_false_iff, isNone_iff_eq_none]
    by_contra hsome
    obtain ⟨⟨a, b⟩, hf⟩ := ne_none_iff_exists'.mp hsome
    -- the match would be the first of the whole stream
    have hfull := find_append_right t' hf
    rw [h, hhead] at hfull
    cases hfull
    have hin := length_of_find hf
    have hall : (r.stat ++ (crlf ++ r.block)).length + (literal crlf2).length = r.head.length := by
      simp [Request.head, literal, Nat.add_assoc]
    omega

theorem tonumber_lstrip {v : Bytes} {n : ℕ} (h : IsLength v n) : tonumber (lstrip v) = some n := by
  obtain ⟨l, ds, b, rfl, hl, hb, hne, hdigit, rfl⟩ := h
  have hblank : ∀ c : UInt8, c = 32 ∨ c = 9 → isSpace c = true := by
    rintro c (rfl | rfl) <;> rfl
  have hstrip : lstrip (l ++ (ds ++ b)) = [] ++ (ds ++ b) := by
    refine dropWhile_blanks (fun c hc => hblank c (hl c hc)) fun c hc => ?_
    rw [head?_append_of_ne_nil _ hne] at hc
    exact isSpace_of_isDigit (hdigit c (mem_of_mem_head? hc))
  rw [hstrip]
  exact tonumber_numeral (fun c hc => by cases hc) hne hdigit fun c hc => hblank c (hb c hc)

structure LengthOk (fields : List (Bytes × Bytes)) (body : Bytes) : Prop where
  length : ∀ f ∈ fields, lower f.1 = bytes "content-length" → IsLength f.2 body.length
  none : (∀ f ∈ fields, lower f.1 ≠ bytes "content-length") → body = []

theorem Request.lengthOk (r : Request) : LengthOk r.fields r.body := ⟨r.length_ok, r.no_length⟩

theorem LengthOk.get {body : Bytes} (h : LengthOk fields body) (tReq : TReq)
    (hheader : tReq.header = fields.map fun f => (lower f.1, lstrip f.2)) :
    (tReq.get (bytes "content-length") = .none ∧ body = []) ∨
      ∃ v, tReq.get (bytes "content-length") = some v ∧ tonumber v = some body.length := by
  cases hget : tReq.get (bytes "content-length") with
  | none =>
    refine Or.inl ⟨rfl, h.none fun f hf heq => ?_⟩
    rw [TReq.get, hheader] at hget
    have hall := lookup_eq_none_iff.mp hget (lower f.1, lstrip f.2)
      (mem_reverse.mpr (mem_map_of_mem hf))
    simp [heq] at hall
  | some v =>
    refine Or.inr ⟨v, rfl, ?_⟩
    obtain ⟨l₁, l₂, heq, -⟩ := lookup_eq_some_iff.mp hget
    have hmem : (bytes "content-length", v) ∈ tReq.header := by
      rw [← mem_reverse, heq]
      simp
    rw [hheader] at hmem
    obtain ⟨f, hf, hpair⟩ := mem_map.mp hmem
    obtain ⟨hname, rfl⟩ := Prod.mk.inj hpair
    exact tonumber_lstrip (h.length f hf hname)

def longer (n : ℕ) (s : Bytes) : Bool := decide (n ≤ s.length)

theorem longer_mono {m n : ℕ} (h : m ≤ n) (s : Bytes) (hs : longer n s = true) :
    longer m s = true := by
  simp only [longer, decide_eq_true_eq] at hs ⊢
  omega

theorem head_le_encode : r.head.length ≤ r.encode.length := by
  rw [Request.encode, length_append]
  exact Nat.le_add_right _ _

variable {t : Bytes}

theorem waitHttpHead_request {chunks : List Bytes} (h : chunks.flatten = r.head ++ t) :
    waitHttpHead [] chunks = readUntil (longer r.head.length) [] chunks := by
  rw [waitHttpHead_eq _ _ rfl]
  refine readUntil_congr fun k _ => ?_
  rw [nil_append]
  have hcut : (chunks.take k).flatten ++ (chunks.drop k).flatten = r.head ++ t := by
    rw [← flatten_append, take_append_drop, h]
  exact isSome_find_iff r hcut

theorem waitHttpRest_request {data out : Bytes} {reads rest : List Bytes}
    (h : readUntil (longer r.encode.length) (r.head ++ data) reads = some (out, rest)) :
    waitHttpRest { r.seen with data := data } reads =
      if restMax < (r.encode.length : ℤ) - (r.head ++ data).length then .error .closed
      else .ok ({ r.seen with data := out.drop r.head.length }, rest) := by
  have hencode : r.encode.length = r.head.length + r.body.length := by
    rw [Request.encode, length_append]
  have hmissing : (r.encode.length : ℤ) - (r.head ++ data).length =
      (r.body.length : ℤ) - data.length := by
    rw [hencode, length_append]
    omega
  rw [hmissing]
  rw [readUntil_append] at h
  obtain ⟨⟨data', rest'⟩, hread, heq⟩ := map_eq_some_iff.mp h
  cases heq
  rw [drop_left]
  rcases r.lengthOk.get { r.seen with data := data } rfl with
    ⟨hget, hbody⟩ | ⟨v, hget, hnum⟩
  · -- without a body the data is complete
    have hstop : readUntil (fun s => longer r.encode.length (r.head ++ s)) data reads =
        some (data, reads) := by
      refine readUntil_eq_some_iff.mpr ⟨[], rfl, by simp, stops_nil.mpr (decide_eq_true ?_)⟩
      rw [hencode, hbody, length_append]
      exact Nat.add_le_add_left (Nat.zero_le _) _
    rw [hstop] at hread
    cases hread
    have hnone : ¬ restMax < (r.body.length : ℤ) - data.length := by
      rw [hbody, restMax, length_nil]
      omega
    rw [waitHttpRest, hget, if_neg hnone]
  · have hloop : waitDataRest ((r.body.length : ℤ) - data.length) 0 data reads =
        some (data', rest') := by
      rw [waitDataRest_eq _ data reads 0 data rfl, ← hread]
      refine readUntil_congr fun k _ => ?_
      simp only [longer, hencode, length_append]
      exact decide_eq_decide.mpr (by omega)
    simp only [waitHttpRest, hget, hnum, hloop, gt_iff_lt]

theorem proc_request {chunks : List Bytes} (h : chunks.flatten = r.encode ++ t) :
    ∃ out rest out' rest', readUntil (longer r.head.length) [] chunks = some (out, rest) ∧
      readUntil (longer r.encode.length) [] chunks = some (out', rest') ∧
      proc chunks = if restMax < (r.encode.length : ℤ) - out.length then .error .closed
        else .ok ({ r.seen with data := out'.drop r.head.length }, rest') := by
  have hstream : chunks.flatten = r.head ++ (r.body ++ t) := by
    rw [h, Request.encode, append_assoc]
  have hreach {n : ℕ} (hn : n ≤ r.encode.length) :
      ∃ out rest, readUntil (longer n) [] chunks = some (out, rest) := by
    refine exists_readUntil (decide_eq_true ?_)
    rw [nil_append, h, length_append]
    omega
  obtain ⟨out, rest, hout⟩ := hreach (head_le_encode r)
  obtain ⟨out', rest', hout'⟩ := hreach le_rfl
  refine ⟨out, rest, out', rest', hout, hout', ?_⟩
  -- what was read with the head begins with it
  obtain ⟨g, rfl, rfl, hstop⟩ := readUntil_eq_some_iff.mp hout
  obtain ⟨data, hdata⟩ : r.head <+: [] ++ g.flatten :=
    prefix_of_prefix_length_le ⟨_, hstream.symm⟩
      ⟨rest.flatten, by rw [nil_append, ← flatten_append]⟩ (of_decide_eq_true hstop.holds)
  have hgo := readUntil_of_readUntil (longer_mono (head_le_encode r)) hout
  rw [proc, waitHttpHead_request r hstream, hout]
  rw [hout', ← hdata] at hgo
  rw [← hdata]
  simp only [parse_head]
  exact waitHttpRest_request r hgo

def Request.InTime (r : Request) (g : List Bytes) : Prop :=
  ∀ n, r.head.length ≤ (g.take n).flatten.length →
    (r.encode.length : ℤ) - (g.take n).flatten.length ≤ restMax

def Aligned : List Request → List Bytes → Prop
  | [], chunks => chunks = []
  | r :: reqs, chunks => ∃ g rest, chunks = g ++ rest ∧ g.flatten = r.encode ∧ r.InTime g ∧
      Aligned reqs rest

theorem length_take_mono (chunks : List Bytes) {m n : ℕ} (h : m ≤ n) :
    (chunks.take m).flatten.length ≤ (chunks.take n).flatten.length := by
  obtain ⟨l, hl⟩ := take_prefix_take_left (l := chunks) h
  rw [← hl, flatten_append, length_append]
  exact Nat.le_add_right _ _

theorem length_take_lt {g : List Bytes} (hne : ∀ c ∈ g, c ≠ []) {k : ℕ} (hk : k < g.length) :
    (g.take k).flatten.length < g.flatten.length := by
  have hpos := length_pos_iff.mpr (hne _ (getElem_mem hk))
  calc (g.take k).flatten.length
      < (g.take k).flatten.length + (g.drop k).flatten.length := by
        rw [drop_eq_getElem_cons hk, flatten_cons, length_append]
        omega
    _ = g.flatten.length := by
        rw [← length_append, ← flatten_append, take_append_drop]

theorem readUntil_longer {g : List Bytes} (hne : ∀ c ∈ g, c ≠ []) {n : ℕ}
    (hn : g.flatten.length = n) (rest : List Bytes) :
    readUntil (longer n) [] (g ++ rest) = some (g.flatten, rest) := by
  refine readUntil_eq_some_iff.mpr ⟨g, rfl, by rw [nil_append], ?_⟩
  refine ⟨decide_eq_true (by rw [nil_append, hn]), fun k hk => decide_eq_false ?_⟩
  have hlt := length_take_lt hne hk
  rw [nil_append]
  omega

theorem inTime_iff {g g₁ rest rest₁ : List Bytes} (hstop : Stops (longer r.head.length) [] g₁)
    (hcuts : g₁ ++ rest₁ = g ++ rest) (henc : g.flatten = r.encode) :
    r.InTime g ↔ ¬ restMax < (r.encode.length : ℤ) - g₁.flatten.length := by
  have htake : (g ++ rest).take g₁.length = g₁ := by rw [← hcuts, take_left]
  -- before the chunks `g₁` the head is not complete
  have hfirst {n : ℕ} (hn : r.head.length ≤ ((g ++ rest).take n).flatten.length) :
      g₁.length ≤ n := by
    by_contra hlt
    have hbefore := hstop.before n (Nat.lt_of_not_le hlt)
    rw [nil_append, ← htake, take_take, Nat.min_eq_left (Nat.le_of_not_le hlt)] at hbefore
    exact of_decide_eq_false hbefore hn
  have hcut (n : ℕ) : g.take n = (g ++ rest).take (min n g.length) := by
    rw [← take_take, take_left]
  have hle : g₁.length ≤ g.length :=
    hfirst (by rw [take_left, henc]; exact head_le_encode r)
  constructor
  · intro hin
    have hdone := hin g₁.length (by
      rw [hcut, Nat.min_eq_left hle, htake]
      exact of_decide_eq_true hstop.holds)
    rw [hcut, Nat.min_eq_left hle, htake] at hdone
    exact Int.not_lt.mpr hdone
  · intro hlimit n hn
    rw [hcut] at hn ⊢
    have hmono := length_take_mono (g ++ rest) (hfirst hn)
    rw [htake] at hmono
    omega

theorem proc_eq_seen_iff {chunks rest : List Bytes} (hne : ∀ c ∈ chunks, c ≠ [])
    (h : chunks.flatten = r.encode ++ t) :
    proc chunks = .ok (r.seen, rest) ↔
      ∃ g, chunks = g ++ rest ∧ g.flatten = r.encode ∧ r.InTime g := by
  obtain ⟨out, rest₁, out', rest', hout, hout', hproc⟩ := proc_request r h
  obtain ⟨g₁, hg₁, rfl, hstop₁⟩ := readUntil_eq_some_iff.mp hout
  rw [nil_append] at hproc
  constructor
  · intro hseen
    rw [hproc] at hseen
    split_ifs at hseen with hlimit
    obtain ⟨g, hg, rfl, hstop⟩ := readUntil_eq_some_iff.mp hout'
    obtain ⟨hdata, rfl⟩ : (([] ++ g.flatten).drop r.head.length = r.body) ∧ rest' = rest := by
      simpa [Request.seen] using hseen
    rw [nil_append] at hdata
    have hlong : r.encode.length ≤ g.flatten.length := of_decide_eq_true hstop.holds
    have hpre : r.encode <+: g.flatten :=
      prefix_of_prefix_length_le ⟨t, h.symm⟩ ⟨rest'.flatten, by rw [hg, flatten_append]⟩
        hlong
    have hlen : g.flatten.length = r.encode.length := by
      have hdrop := congrArg List.length hdata
      rw [length_drop] at hdrop
      have henc : r.encode.length = r.head.length + r.body.length := length_append
      omega
    have henc : g.flatten = r.encode := (hpre.eq_of_length hlen.symm).symm
    exact ⟨g, hg, henc, (inTime_iff r hstop₁ (hg₁.symm.trans hg) henc).mpr hlimit⟩
  · rintro ⟨g, rfl, henc, hin⟩
    have hread := readUntil_longer (fun c hc => hne c (mem_append_left _ hc))
      (congrArg List.length henc) rest
    rw [hout'] at hread
    cases hread
    rw [hproc, if_neg ((inTime_iff r hstop₁ hg₁.symm henc).mp hin), henc, Request.encode,
      drop_left]
    rfl

theorem framing_iff (reqs : List Request) (chunks : List Bytes) (hne : ∀ c ∈ chunks, c ≠ [])
    (h : chunks.flatten = reqs.flatMap Request.encode) :
    serve chunks = reqs.map Request.seen ↔ Aligned reqs chunks := by
  induction reqs generalizing chunks with
  | nil =>
    have hnil : chunks = [] := by
      by_contra hcons
      obtain ⟨c, l, rfl⟩ := exists_cons_of_ne_nil hcons
      exact hne c (mem_cons_self ..) (append_eq_nil_iff.mp h).1
    subst hnil
    exact iff_of_true rfl rfl
  | cons r reqs ih =>
    rw [flatMap_cons] at h
    have hrest {g rest : List Bytes} (hg : chunks = g ++ rest) (henc : g.flatten = r.encode) :
        serve rest = reqs.map Request.seen ↔ Aligned reqs rest := by
      refine ih rest (fun c hc => hne c (by rw [hg]; exact mem_append_right _ hc)) ?_
      rw [hg, flatten_append, henc] at h
      exact append_cancel_left h
    constructor
    · intro hserve
      cases hproc : proc chunks with
      | error e =>
        rw [serve_nil hproc] at hserve
        cases hserve
      | ok p =>
        rw [serve_cons hproc, map_cons, List.cons.injEq] at hserve
        obtain ⟨hseen, hserve⟩ := hserve
        rw [show p = (r.seen, p.2) from Prod.ext hseen rfl] at hproc
        obtain ⟨g, hg, henc, hin⟩ := (proc_eq_seen_iff r hne h).mp hproc
        exact ⟨g, p.2, hg, henc, hin, (hrest hg henc).mp hserve⟩
    · rintro ⟨g, rest, hg, henc, hin, halign⟩
      have hproc := (proc_eq_seen_iff r hne h).mpr ⟨g, hg, henc, hin⟩
      rw [serve_cons hproc, map_cons, (hrest hg henc).mpr halign]

def getSample : Request where
  method := bytes "GET"
  path := bytes "/a"
  vers := bytes "HTTP/1.1"
  fields := [(bytes "Host", bytes " h")]
  body := []
  method_ok := all_iff_forall_prop.mp (by decide)
  path_ok := ⟨by decide, all_iff_forall_prop.mp (by decide)⟩
  vers_ok := all_iff_forall_prop.mp (by decide)
  fields_ne := by decide
  name_ok := fun f hf => by
    rw [mem_singleton.mp hf]
    exact all_iff_forall_prop.mp (by decide)
  value_ok := fun f hf => by
    rw [mem_singleton.mp hf]
    exact all_iff_forall_prop.mp (by decide)
  length_ok := fun f hf heq => by
    rw [mem_singleton.mp hf] at heq
    exact absurd heq (by decide)
  no_length := fun _ => rfl

def postSample : Request where
  method := bytes "POST"
  path := bytes "/b"
  vers := bytes "HTTP/1.1"
  fields := [(bytes "Content-Length", bytes " 2")]
  body := bytes "ok"
  method_ok := all_iff_forall_prop.mp (by decide)
  path_ok := ⟨by decide, all_iff_forall_prop.mp (by decide)⟩
  vers_ok := all_iff_forall_prop.mp (by decide)
  fields_ne := by decide
  name_ok := fun f hf => by
    rw [mem_singleton.mp hf]
    exact all_iff_forall_prop.mp (by decide)
  value_ok := fun f hf => by
    rw [mem_singleton.mp hf]
    exact all_iff_forall_prop.mp (by decide)
  length_ok := fun f hf _ => by
    rw [mem_singleton.mp hf]
    refine ⟨bytes " ", bytes "2", [], ?_, ?_, ?_, ?_, ?_, ?_⟩
    all_goals first | exact all_iff_forall_prop.mp (by decide) | decide
  no_length := fun h => absurd (by decide) (h _ (mem_singleton.mpr rfl))

theorem framing_sample :
    serve [postSample.head ++ bytes "o", bytes "k", getSample.encode] =
      [postSample.seen, getSample.seen] := by
  have htime {r : Request} {g : List Bytes} (hr : r.encode.length < 100) : r.InTime g := by
    intro n _
    rw [restMax]
    omega
  refine (framing_iff [postSample, getSample] _ (by decide) (by decide)).mpr ?_
  exact ⟨[postSample.head ++ bytes "o", bytes "k"], [getSample.encode], rfl, by decide,
    htime (by decide), [getSample.encode], [], rfl, by decide, htime (by decide), rfl⟩

theorem framing_swallows :
    serve [getSample.encode ++ getSample.encode] =
      [{ getSample.seen with data := getSample.encode }] := by
  decide +kernel

end Sysak.Beaver
