/-
# The text of a request
-/

import Sysak.Beaver.Framing

namespace Sysak.Beaver

open Lib Pystring List

structure Message where
  method : Bytes
  path : Bytes
  vers : Bytes
  fields : List (Bytes × Bytes)
  body : Bytes
  method_ok : ∀ c ∈ method, isSpace c = false
  path_ok : ∀ c ∈ path, isSpace c = false
  vers_ok : ∀ c ∈ vers, isSpace c = false
  fields_ok : FieldsOk fields
  length_ok : LengthOk fields body

namespace Message

def text (m : Message) : Bytes :=
  statLine m.method m.path m.vers ++
    (crlf ++ ((m.fields.flatMap fun f => fieldLine f ++ crlf) ++ (crlf ++ m.body)))

def lastValue (m : Message) (name : Bytes) : Option Bytes :=
  (m.fields.reverse.find? fun f => lower f.1 == name).map fun f => lstrip f.2

structure Same (m : Message) (u : Url) (tReq : TReq) : Prop where
  method : tReq.method = m.method
  path : u.path = some m.path
  vers : tReq.vers = m.vers
  data : tReq.data = m.body
  header : ∀ name, tReq.get name = m.lastValue name

def Parsed (url : Bytes → Option Url) (m : Message) (reads : List Bytes) : Prop :=
  ∃ stream rest u tReq, waitHttpHead [] (m.text :: reads) = some (stream, rest) ∧
    parseUrl url stream rest = .ok (u, tReq, reads) ∧ m.Same u tReq

theorem flatMap_lines {fields : List (Bytes × Bytes)} (hne : fields ≠ []) :
    (fields.flatMap fun f => fieldLine f ++ crlf) =
      crlf.intercalate (fields.map fieldLine) ++ crlf := by
  induction fields with
  | nil => exact absurd rfl hne
  | cons f fields ih =>
    cases fields with
    | nil => simp
    | cons g fields =>
      rw [flatMap_cons, ih (cons_ne_nil g fields)]
      simp only [map_cons, intercalate_cons_cons, append_assoc]

variable (m : Message)

theorem text_of_fields (hne : m.fields ≠ []) :
    m.text = statLine m.method m.path m.vers ++
      (crlf ++ (crlf.intercalate (m.fields.map fieldLine) ++ (crlf2 ++ m.body))) := by
  rw [text, flatMap_lines hne, append_assoc (crlf.intercalate _),
    ← append_assoc crlf crlf]
  rfl

theorem text_of_nil (hnil : m.fields = []) :
    m.text = statLine m.method m.path m.vers ++ (crlf ++ crlf) := by
  have hbody : m.body = [] := m.length_ok.none (by simp [hnil])
  rw [text, hnil, hbody]
  rfl

theorem waitHttpHead_text (reads : List Bytes) :
    waitHttpHead [] (m.text :: reads) = some (m.text, reads) := by
  have hsome : (find (literal crlf2) m.text).isSome = true := by
    by_cases hnil : m.fields = []
    · rw [m.text_of_nil hnil]
      exact isSome_find_append _ rfl
    · rw [m.text_of_fields hnil, ← append_assoc, ← append_assoc]
      exact isSome_find_append _ (matchHere_literal crlf2 m.body)
  rw [waitHttpHead, nil_append, if_pos hsome]

def seen : TReq where
  method := m.method
  path := m.path
  vers := m.vers
  header := m.fields.map fun f => (lower f.1, lstrip f.2)
  data := m.body

theorem get_seen (name : Bytes) : m.seen.get name = m.lastValue name := by
  rw [TReq.get, lastValue, seen, ← map_reverse]
  induction m.fields.reverse with
  | nil => rfl
  | cons f fields ih =>
    rw [map_cons, lookup_cons, find?_cons, ih]
    rw [Bool.beq_comm]
    cases lower f.1 == name <;> rfl

theorem same_seen {u : Url} (hu : u.path = some m.path) : m.Same u m.seen :=
  ⟨rfl, hu, rfl, rfl, m.get_seen⟩

theorem waitHttpRest_seen (reads : List Bytes) :
    waitHttpRest m.seen reads = .ok (m.seen, reads) := by
  rw [waitHttpRest]
  rcases m.length_ok.get m.seen rfl with ⟨hget, -⟩ | ⟨v, hget, hnum⟩
  · rw [hget]
  · have hdata : waitDataRest 0 0 m.body reads = some (m.body, reads) := by
      cases reads <;> rfl
    have hrest : ((m.body.length : ℤ) - m.seen.data.length) = 0 := Int.sub_self _
    simp only [hget, hnum, hrest, restMax]
    simp [seen, hdata]

theorem parseUrl_text (hne : m.fields ≠ []) (url : Bytes → Option Url) (reads : List Bytes) :
    parseUrl url m.text reads =
      match url m.path with
      | none => .error .raised
      | some u => .ok (u, m.seen, reads) := by
  rw [m.text_of_fields hne,
    parseUrl_fields m.method_ok m.path_ok m.vers_ok m.fields_ok hne url m.body reads]
  cases url m.path with
  | none => rfl
  | some u => exact congrArg (Except.map fun r => (u, r)) (m.waitHttpRest_seen reads)

theorem parseUrl_text_nil (hnil : m.fields = []) (url : Bytes → Option Url) (reads : List Bytes) :
    ∃ e, parseUrl url m.text reads = .error e := by
  have hstat : split m.text crlf (some 1) = [statLine m.method m.path m.vers, crlf] := by
    rw [m.text_of_nil hnil]
    exact split_one (find_crlf crlf (statLine_no_cr m.method_ok m.path_ok m.vers_ok))
  have hhead : split crlf crlf2 (some 1) = [crlf] := rfl
  simp only [parseUrl, hstat, split_statLine m.method_ok m.path_ok m.vers_ok, hhead]
  cases url m.path <;> exact ⟨_, rfl⟩

theorem eq_seen {url : Bytes → Option Url} {reads rest : List Bytes} {u : Url} {tReq : TReq}
    (h : parseUrl url m.text reads = .ok (u, tReq, rest)) :
    m.fields ≠ [] ∧ url m.path = some u ∧ tReq = m.seen ∧ rest = reads := by
  by_cases hnil : m.fields = []
  · obtain ⟨e, herror⟩ := m.parseUrl_text_nil hnil url reads
    rw [herror] at h
    cases h
  · rw [m.parseUrl_text hnil] at h
    cases hurl : url m.path with
    | none =>
      rw [hurl] at h
      cases h
    | some u' =>
      rw [hurl] at h
      cases h
      exact ⟨hnil, rfl, rfl, rfl⟩

theorem message_parsed_iff (url : Bytes → Option Url) (m : Message) (reads : List Bytes) :
    m.Parsed url reads ↔ m.fields ≠ [] ∧ (url m.path).bind Url.path = some m.path := by
  constructor
  · rintro ⟨stream, rest, u, tReq, hhead, hparse, hsame⟩
    rw [waitHttpHead_text] at hhead
    cases hhead
    obtain ⟨hne, hurl, -, -⟩ := m.eq_seen hparse
    exact ⟨hne, by rw [hurl]; exact hsame.path⟩
  · rintro ⟨hne, hpath⟩
    obtain ⟨u, hurl, hu⟩ := Option.bind_eq_some_iff.mp hpath
    refine ⟨m.text, reads, u, m.seen, m.waitHttpHead_text reads, ?_, m.same_seen hu⟩
    rw [m.parseUrl_text hne, hurl]

theorem isSpace_get : ∀ c ∈ bytes "GET", isSpace c = false :=
  all_iff_forall_prop.mp (by decide)

theorem isSpace_slash : ∀ c ∈ bytes "/", isSpace c = false :=
  all_iff_forall_prop.mp (by decide)

theorem isSpace_http11 : ∀ c ∈ bytes "HTTP/1.1", isSpace c = false :=
  all_iff_forall_prop.mp (by decide)

theorem fieldsOk_nil : FieldsOk [] := ⟨forall_mem_nil _, forall_mem_nil _⟩

theorem lengthOk_nil : LengthOk [] [] := ⟨forall_mem_nil _, fun _ => rfl⟩

def bare : Message where
  method := bytes "GET"
  path := bytes "/"
  vers := bytes "HTTP/1.1"
  fields := []
  body := []
  method_ok := isSpace_get
  path_ok := isSpace_slash
  vers_ok := isSpace_http11
  fields_ok := fieldsOk_nil
  length_ok := lengthOk_nil

theorem bare_refused :
    bare.text = bytes "GET / HTTP/1.1\r\n\r\n" ∧ keepPath bare.path = some ⟨some bare.path⟩ ∧
      parseUrl keepPath bare.text [] = .error .closed ∧ ¬ bare.Parsed keepPath [] := by
  have herror : parseUrl keepPath bare.text [] = .error .closed := by decide +kernel
  refine ⟨by decide, by decide, herror, ?_⟩
  rintro ⟨stream, rest, u, tReq, hhead, hparse, -⟩
  rw [waitHttpHead_text] at hhead
  cases hhead
  rw [herror] at hparse
  cases hparse

end Message

end Sysak.Beaver
