/-
# When a connection is kept
-/

import Mathlib.Data.List.DropRight
import Sysak.Beaver.RequestText
import Sysak.Lib.Decimal

namespace Sysak.Beaver

open Lib Pystring List Option

def checkKeep (tReq : TReq) : Bool :=
  let conn := tReq.get (bytes "connection")
  if tReq.vers = bytes "1.0" then
    if conn.map lower = some (bytes "keep-alive") then true else false
  else
    if conn.map lower = some (bytes "close") then false else true

structure ChttpBase (ρ σ : Type*) where
  urlCb : Bytes → Option (Url × TReq → Option ρ)
  echo : ρ → Bool → Option σ

def ChttpBase.call {ρ σ : Type*} (b : ChttpBase ρ σ) (u : Url) (tReq : TReq) : Option (σ × Bool) :=
  let keep := checkKeep tReq
  (u.path.bind b.urlCb).bind fun cb => (cb (u, tReq)).bind fun tRet =>
    (b.echo tRet keep).map fun res => (res, keep)

structure Version where
  major : ℕ
  minor : ℕ
deriving DecidableEq

namespace Version

def token (v : Version) : Bytes := bytes "HTTP/" ++ (dec v.major ++ (bytes "." ++ dec v.minor))

def Newer (v : Version) : Prop := 1 < v.major ∨ v.major = 1 ∧ 0 < v.minor

instance : DecidablePred Newer := fun _ => inferInstanceAs (Decidable (_ ∨ _))

end Version

def trim (s : Bytes) : Bytes := (lstrip s).rdropWhile isSpace

def elements (value : Bytes) : List Bytes := (value.splitOn 44).map fun e => lower (trim e)

namespace Message

def Asks (m : Message) (word : Bytes) : Prop :=
  ∃ f ∈ m.fields, lower f.1 = bytes "connection" ∧ word ∈ elements f.2

instance (m : Message) (word : Bytes) : Decidable (m.Asks word) :=
  inferInstanceAs (Decidable (∃ f ∈ m.fields, _))

def Persistent (m : Message) (v : Version) : Prop :=
  v = ⟨1, 0⟩ ∧ m.Asks (bytes "keep-alive") ∨ v.Newer ∧ ¬ m.Asks (bytes "close")

instance (m : Message) (v : Version) : Decidable (m.Persistent v) :=
  inferInstanceAs (Decidable (_ ∨ _))

def LastIsClose (m : Message) : Prop :=
  (m.lastValue (bytes "connection")).map lower = some (bytes "close")

instance (m : Message) : Decidable m.LastIsClose := inferInstanceAs (Decidable (_ = _))

def Plain (m : Message) (v : Version) : Prop :=
  if v.Newer then m.Asks (bytes "close") → m.LastIsClose
  else if v = ⟨1, 0⟩ then m.Asks (bytes "keep-alive") ↔ ¬ m.LastIsClose
  else m.LastIsClose

end Message

theorem Version.token_ne (v : Version) : v.token ≠ bytes "1.0" := fun h => by
  have hhead := congrArg head? h
  exact absurd (show (bytes "HTTP/").head? = _ from hhead) (by decide)

theorem Version.token_ok (v : Version) : ∀ c ∈ v.token, isSpace c = false := by
  intro c hc
  have hhttp : ∀ c ∈ bytes "HTTP/", isSpace c = false := all_iff_forall_prop.mp (by decide)
  have hdot : ∀ c ∈ bytes ".", isSpace c = false := all_iff_forall_prop.mp (by decide)
  simp only [token, mem_append] at hc
  rcases hc with hc | hc | hc | hc
  · exact hhttp c hc
  · exact isSpace_of_isDigit (isDigit_of_mem_dec hc)
  · exact hdot c hc
  · exact isSpace_of_isDigit (isDigit_of_mem_dec hc)

theorem checkKeep_of_token {tReq : TReq} {v : Version} (h : tReq.vers = v.token) :
    checkKeep tReq = true ↔ ¬ (tReq.get (bytes "connection")).map lower = some (bytes "close") := by
  rw [checkKeep, if_neg (h ▸ v.token_ne)]
  split_ifs with hclose <;> simp [hclose]

theorem mem_lower {c : UInt8} {s : Bytes} (hc : isSpace c = true ∨ c = 44) (h : c ∈ s) :
    c ∈ lower s := by
  have hlow : ¬ (65 ≤ c ∧ c ≤ 90) := by
    rintro ⟨hle, -⟩
    rcases hc with hspace | rfl
    · simp only [isSpace, Bool.or_eq_true, beq_iff_eq, Bool.and_eq_true,
        decide_eq_true_eq] at hspace
      rcases hspace with rfl | ⟨-, hle'⟩
      · exact absurd hle (by decide)
      · exact absurd (UInt8.le_trans hle hle') (by decide)
    · exact absurd hle (by decide)
  exact mem_map.mpr ⟨c, h, if_neg hlow⟩

theorem elements_eq_singleton {value word : Bytes} (hword : ∀ c ∈ word, isSpace c = false ∧ c ≠ 44)
    (h : lower (lstrip value) = word) : elements value = [word] := by
  have hmem : ∀ c ∈ lstrip value, ¬ (isSpace c = true ∨ c = 44) := by
    intro c hc hcut
    obtain ⟨hspace, hcomma⟩ := hword c (h ▸ mem_lower hcut hc)
    rcases hcut with hcut | hcut
    · rw [hspace] at hcut
      cases hcut
    · exact hcomma hcut
  have hcomma : 44 ∉ value := by
    intro hin
    rw [← takeWhile_append_dropWhile (p := isSpace) (l := value), mem_append] at hin
    rcases hin with hin | hin
    · exact absurd (mem_takeWhile_imp hin) (by decide)
    · exact hmem 44 hin (.inr rfl)
  have htrim : trim value = lstrip value :=
    rdropWhile_eq_self_iff.mpr fun hne hlast =>
      hmem _ (getLast_mem hne) (.inl hlast)
  rw [elements, splitOn_eq_singleton hcomma, map_singleton, htrim, h]

namespace Message

variable {m : Message}

theorem LastIsClose.asks (h : m.LastIsClose) : m.Asks (bytes "close") := by
  obtain ⟨value, hvalue, hlower⟩ := map_eq_some_iff.mp h
  obtain ⟨f, hf, rfl⟩ := map_eq_some_iff.mp hvalue
  have hname := find?_some hf
  refine ⟨f, mem_reverse.mp (mem_of_find?_eq_some hf), by simpa using hname, ?_⟩
  rw [elements_eq_singleton (all_iff_forall_prop.mp (by decide)) hlower]
  exact mem_singleton_self _

theorem not_lastIsClose_iff_persistent (m : Message) (v : Version) :
    (¬ m.LastIsClose ↔ m.Persistent v) ↔ m.Plain v := by
  have hasks := LastIsClose.asks (m := m)
  rw [Persistent, Plain]
  split_ifs with hnewer hone
  · have hne : v ≠ ⟨1, 0⟩ := by
      rintro rfl
      exact absurd hnewer (by decide)
    tauto
  · tauto
  · tauto

end Message

theorem keep_iff {ρ σ : Type*} (b : ChttpBase ρ σ) (url : Bytes → Option Url) {m : Message}
    {v : Version} (hvers : m.vers = v.token) {reads rest : List Bytes} {u : Url} {tReq : TReq}
    (hparse : parseUrl url m.text reads = .ok (u, tReq, rest)) {res : σ} {keep : Bool}
    (hcall : b.call u tReq = some (res, keep)) :
    (keep = true ↔ m.Persistent v) ↔ m.Plain v := by
  have hkeep : keep = checkKeep tReq := by
    obtain ⟨cb, -, hcall⟩ := bind_eq_some_iff.mp hcall
    obtain ⟨tRet, -, hcall⟩ := bind_eq_some_iff.mp hcall
    obtain ⟨res', -, hcall⟩ := map_eq_some_iff.mp hcall
    exact (Prod.mk.inj hcall).2.symm
  obtain ⟨-, -, rfl, -⟩ := m.eq_seen hparse
  have hclose : m.LastIsClose ↔
      (m.seen.get (bytes "connection")).map lower = some (bytes "close") := by
    rw [Message.LastIsClose, m.get_seen]
  rw [hkeep, checkKeep_of_token hvers, ← hclose, m.not_lastIsClose_iff_persistent]

def sampleBase : ChttpBase Bytes Bytes where
  urlCb path := if path = bytes "/" then some fun r => some r.2.data else none
  echo tRet _ := some tRet

def getWith (v : Version) (f : Bytes × Bytes) (hf : FieldsOk [f])
    (hlength : lower f.1 ≠ bytes "content-length") : Message where
  method := bytes "GET"
  path := bytes "/"
  vers := v.token
  fields := [f]
  body := []
  method_ok := Message.isSpace_get
  path_ok := Message.isSpace_slash
  vers_ok := v.token_ok
  fields_ok := hf
  length_ok := ⟨fun _ hf heq => absurd (mem_singleton.mp hf ▸ heq) hlength, fun _ => rfl⟩

def closeGet : Message :=
  getWith ⟨1, 1⟩ (bytes "Connection", bytes " Close")
    ⟨fun f hf => mem_singleton.mp hf ▸ all_iff_forall_prop.mp (by decide),
      fun f hf => mem_singleton.mp hf ▸ all_iff_forall_prop.mp (by decide)⟩ (by decide)

theorem keep_iff_closeGet :
    ∃ u tReq, parseUrl keepPath closeGet.text [] = .ok (u, tReq, []) ∧
      sampleBase.call u tReq = some ([], false) ∧
      ((false = true ↔ closeGet.Persistent ⟨1, 1⟩) ↔ closeGet.Plain ⟨1, 1⟩) := by
  have hparse : parseUrl keepPath closeGet.text [] =
      .ok (⟨some (bytes "/")⟩, closeGet.seen, []) := by
    decide +kernel
  have hcall : sampleBase.call ⟨some (bytes "/")⟩ closeGet.seen = some ([], false) := by
    decide +kernel
  exact ⟨_, _, hparse, hcall, keep_iff sampleBase keepPath rfl hparse hcall⟩

def oldGet : Message :=
  getWith ⟨1, 0⟩ (bytes "Host", bytes " h")
    ⟨fun f hf => mem_singleton.mp hf ▸ all_iff_forall_prop.mp (by decide),
      fun f hf => mem_singleton.mp hf ▸ all_iff_forall_prop.mp (by decide)⟩ (by decide)

theorem oldGet_kept :
    oldGet.text = bytes "GET / HTTP/1.0\r\nHost: h\r\n\r\n" ∧
      (∃ u tReq, parseUrl keepPath oldGet.text [] = .ok (u, tReq, []) ∧
        sampleBase.call u tReq = some ([], true)) ∧
      ¬ oldGet.Persistent ⟨1, 0⟩ := by
  have hparse : parseUrl keepPath oldGet.text [] = .ok (⟨some (bytes "/")⟩, oldGet.seen, []) := by
    decide +kernel
  refine ⟨by decide +kernel, ⟨_, _, hparse, by decide +kernel⟩, by decide +kernel⟩

end Sysak.Beaver
