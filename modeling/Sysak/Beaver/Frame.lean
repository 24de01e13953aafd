/-
# Reading HTTP requests
-/

import Sysak.Common.Pystring
import Sysak.Lib.ReadUntil

namespace Sysak.Beaver

open Lib Pystring List

def crlf : Bytes := bytes "\r\n"

def crlf2 : Bytes := bytes "\r\n\r\n"

structure TReq where
  method : Bytes
  path : Bytes
  vers : Bytes
  header : List (Bytes × Bytes)
  data : Bytes
  deriving DecidableEq, Repr

def TReq.get (tReq : TReq) (k : Bytes) : Option Bytes := tReq.header.reverse.lookup k

inductive Halt where
  | closed
  | raised
  deriving DecidableEq, Repr

def waitDataRest (rest : ℤ) (len : ℕ) (data : Bytes) (reads : List Bytes) :
    Option (Bytes × List Bytes) :=
  if len < rest then
    match reads with
    | [] => none
    | s :: reads => waitDataRest rest (len + s.length) (data ++ s) reads
  else
    some (data, reads)
termination_by structural reads

def restMax : ℤ := 10 * 1024 * 1024

def waitHttpRest (tReq : TReq) (reads : List Bytes) : Except Halt (TReq × List Bytes) :=
  match tReq.get (bytes "content-length") with
  | none => .ok (tReq, reads)
  | some v =>
    match tonumber v with
    | none => .error .raised
    | some lenInfo =>
      let rest : ℤ := lenInfo - tReq.data.length
      if rest > restMax then .error .closed
      else
        match waitDataRest rest 0 tReq.data reads with
        | none => .error .closed
        | some (data, reads) => .ok ({ tReq with data := data }, reads)

def waitHttpHead (stream : Bytes) : List Bytes → Option (Bytes × List Bytes)
  | [] => none
  | s :: reads =>
    if (find (literal crlf2) (stream ++ s)).isSome then some (stream ++ s, reads)
    else waitHttpHead (stream ++ s) reads

def parseHeader : List Bytes → Option (List (Bytes × Bytes))
  | [] => some []
  | s :: tHeader =>
    match split s (bytes ":") (some 1) with
    | k :: v :: _ => (parseHeader tHeader).map fun header => (lower k, lstrip v) :: header
    | _ => none

def parse (stream : Bytes) (reads : List Bytes) : Except Halt (TReq × List Bytes) :=
  match split stream crlf (some 1) with
  | stat :: heads :: _ =>
    match split stat (bytes " ") none with
    | method :: path :: vers :: _ =>
      if path = [] then .error .raised
      else
        match split heads crlf2 (some 1) with
        | headers :: data :: _ =>
          match parseHeader (split headers crlf none) with
          | some header => waitHttpRest ⟨method, path, vers, header, data⟩ reads
          | none => .error .closed
        | _ => .error .closed
    | _ => .error .closed
  | _ => .error .closed

structure Url where
  path : Option Bytes
  deriving DecidableEq, Repr

def parseUrl (url : Bytes → Option Url) (stream : Bytes) (reads : List Bytes) :
    Except Halt (Url × TReq × List Bytes) :=
  match split stream crlf (some 1) with
  | stat :: heads :: _ =>
    match split stat (bytes " ") none with
    | method :: path :: vers :: _ =>
      match url path with
      | none => .error .raised
      | some u =>
        match split heads crlf2 (some 1) with
        | headers :: data :: _ =>
          match parseHeader (split headers crlf none) with
          | some header =>
            (waitHttpRest ⟨method, path, vers, header, data⟩ reads).map fun r => (u, r)
          | none => .error .closed
        | _ => .error .closed
    | _ => .error .closed
  | _ => .error .closed

def keepPath (path : Bytes) : Option Url := if path = [] then none else some ⟨some path⟩

theorem parse_eq_parseUrl (stream : Bytes) (reads : List Bytes) :
    parse stream reads = (parseUrl keepPath stream reads).map Prod.snd := by
  unfold parse parseUrl keepPath
  split
  · split
    · split_ifs
      · rfl
      · simp only
        split
        · split
          · cases waitHttpRest _ reads <;> rfl
          · rfl
        · rfl
    · rfl
  · rfl

def proc (reads : List Bytes) : Except Halt (TReq × List Bytes) :=
  match waitHttpHead [] reads with
  | none => .error .closed
  | some (stream, reads) => parse stream reads

def serveLoop : ℕ → List Bytes → List TReq
  | 0, _ => []
  | fuel + 1, reads =>
    match proc reads with
    | .ok (tReq, reads) => tReq :: serveLoop fuel reads
    | .error _ => []

def serve (reads : List Bytes) : List TReq := serveLoop (reads.length + 1) reads

theorem waitDataRest_eq (rest : ℤ) (data : Bytes) (reads : List Bytes) : ∀ (len : ℕ) (d : Bytes),
    d.length = data.length + len →
    waitDataRest rest len d reads =
      readUntil (fun d => decide (rest + data.length ≤ d.length)) d reads := by
  induction reads with
  | nil =>
    intro len d hd
    rw [waitDataRest, readUntil]
    by_cases h : (len : ℤ) < rest
    · rw [if_pos h, if_neg (by simpa using by omega)]
    · rw [if_neg h, if_pos (by simpa using by omega)]
  | cons s reads ih =>
    intro len d hd
    rw [waitDataRest, readUntil]
    by_cases h : (len : ℤ) < rest
    · rw [if_pos h, if_neg (by simpa using by omega)]
      exact ih _ _ (by rw [length_append, hd, Nat.add_assoc])
    · rw [if_neg h, if_pos (by simpa using by omega)]

theorem waitHttpHead_eq (reads : List Bytes) : ∀ stream : Bytes,
    (find (literal crlf2) stream).isSome = false →
    waitHttpHead stream reads =
      readUntil (fun s => (find (literal crlf2) s).isSome) stream reads := by
  induction reads with
  | nil =>
    intro stream h
    rw [waitHttpHead, readUntil, h]
    rfl
  | cons s reads ih =>
    intro stream h
    rw [waitHttpHead, readUntil, h, if_neg Bool.false_ne_true]
    split_ifs with hs
    · cases reads <;> simp [readUntil, hs]
    · exact ih _ (by simpa using hs)

variable {reads : List Bytes}

theorem readUntil_length {p : Bytes → Bool} {acc : Bytes} {r : Bytes × List Bytes}
    (h : readUntil p acc reads = some r) : r.2.length ≤ reads.length := by
  obtain ⟨g, hg, -⟩ :=
    readUntil_eq_some_iff.mp (show readUntil p acc reads = some (r.1, r.2) from h)
  rw [hg, length_append]
  exact Nat.le_add_left _ _

variable {r : TReq × List Bytes}

theorem waitHttpRest_length {tReq : TReq} (h : waitHttpRest tReq reads = .ok r) :
    r.2.length ≤ reads.length := by
  rw [waitHttpRest] at h
  split at h
  · cases h
    exact Nat.le_refl _
  · split at h
    · cases h
    · simp only at h
      split_ifs at h
      split at h
      · cases h
      · rename_i hwait
        cases h
        rw [waitDataRest_eq _ _ _ 0 _ rfl] at hwait
        exact readUntil_length hwait

theorem parse_length {stream : Bytes} (h : parse stream reads = .ok r) :
    r.2.length ≤ reads.length := by
  unfold parse at h
  split at h
  · split at h
    · split_ifs at h
      split at h
      · split at h
        · exact waitHttpRest_length h
        · cases h
      · cases h
    · cases h
  · cases h

theorem waitHttpHead_length : ∀ {stream : Bytes} {r : Bytes × List Bytes},
    waitHttpHead stream reads = some r → r.2.length < reads.length := by
  induction reads with
  | nil =>
    intro stream r h
    cases h
  | cons s reads ih =>
    intro stream r h
    rw [waitHttpHead] at h
    split_ifs at h
    · cases h
      exact Nat.lt_succ_self _
    · exact (ih h).trans (Nat.lt_succ_self _)

theorem proc_length (h : proc reads = .ok r) : r.2.length < reads.length := by
  rw [proc] at h
  split at h
  · cases h
  · rename_i hhead
    exact (parse_length h).trans_lt (waitHttpHead_length hhead)

theorem serveLoop_fuel {fuel fuel' : ℕ} : ∀ {reads : List Bytes}, reads.length < fuel →
    reads.length < fuel' → serveLoop fuel reads = serveLoop fuel' reads := by
  induction fuel generalizing fuel' with
  | zero => exact fun h => absurd h (Nat.not_lt_zero _)
  | succ fuel ih =>
    intro reads h h'
    obtain ⟨fuel', rfl⟩ := Nat.exists_eq_succ_of_ne_zero (Nat.ne_zero_of_lt h')
    rw [serveLoop, serveLoop]
    cases hp : proc reads with
    | error e => rfl
    | ok r =>
      have hlen := proc_length hp
      have hrest : serveLoop fuel r.2 = serveLoop fuel' r.2 := ih (by omega) (by omega)
      simp only [hrest]

theorem serve_cons (h : proc reads = .ok r) : serve reads = r.1 :: serve r.2 := by
  have hlen := proc_length h
  rw [serve, serveLoop, h, serve, ← serveLoop_fuel hlen (Nat.lt_succ_self _)]

theorem serve_nil {e : Halt} (h : proc reads = .error e) : serve reads = [] := by
  rw [serve, serveLoop, h]

end Sysak.Beaver
