/-
# Writing an answer
-/

import Sysak.Lib.LuaString

namespace Sysak.Beaver

open Lib List

structure Event where
  evIn : ℤ
  evOut : ℤ
  evClose : ℤ
  deriving DecidableEq, Repr

inductive SendRes where
  | accept (k : ℕ)
  | fail (errno : ℕ)
  deriving DecidableEq, Repr

def EAGAIN : ℕ := 11

structure Sock where
  wire : Bytes
  log : List SendRes
  mods : List ℕ
  deriving DecidableEq, Repr

inductive LuaError where
  | posix (errno : ℕ)
  | compareNil
  deriving DecidableEq, Repr

inductive WriteRes where
  | one
  | retNil
  | raised (e : LuaError)
  | suspended
  deriving DecidableEq, Repr

def Sock.send (sock : Sock) (stream : Bytes) : SendRes → Except ℕ ℕ × Sock
  | .accept k =>
    let n := min (k + 1) stream.length
    (.ok n, { sock with wire := sock.wire ++ stream.take n, log := sock.log ++ [.accept k] })
  | .fail errno => (.error errno, { sock with log := sock.log ++ [.fail errno] })

def Sock.modFd (sock : Sock) (wr : ℕ) : Sock := { sock with mods := sock.mods ++ [wr] }

def writeLoop (sock : Sock) (stream : Bytes) (sent : Option ℕ) (script : List (Event × SendRes)) :
    WriteRes × Sock :=
  match sent with
  | none => (.raised .compareNil, sock)
  | some sent =>
    if sent < stream.length then
      match script with
      | [] => (.suspended, sock)
      | (e, r) :: script =>
        if e.evClose > 0 then (.retNil, sock)
        else
          -- `e.ev_out` is a number, and every number is true
          let stream := stream.drop sent
          match sock.send stream r with
          | (.ok sent, sock) => writeLoop sock stream (some sent) script
          | (.error errno, sock) =>
            if errno = EAGAIN then writeLoop sock stream none script
            else (.raised (.posix errno), sock)
    else
      (.one, sock.modFd 0)
termination_by structural script

def write (stream : Bytes) (first : SendRes) (script : List (Event × SendRes)) :
    WriteRes × Sock :=
  match (⟨[], [], []⟩ : Sock).send stream first with
  | (.ok sent, sock) =>
    if sent < stream.length then writeLoop (sock.modFd 1) stream (some sent) script
    else (.one, sock)
  | (.error errno, sock) => (.raised (.posix errno), sock)

def WriteRes.blocked : WriteRes → Bool
  | .raised .compareNil => true
  | .raised (.posix errno) => errno == EAGAIN
  | _ => false

structure Exact (stream : Bytes) (o : WriteRes × Sock) : Prop where
  begins : o.2.wire <+: stream
  whole : o.1 = .one → o.2.wire = stream
  blocked_iff : o.1.blocked = true ↔ .fail EAGAIN ∈ o.2.log

variable {stream whole left : Bytes} {sock : Sock}

def Left (whole : Bytes) (sock : Sock) (left : Bytes) : Prop := sock.wire ++ left = whole

theorem Left.send_accept (h : Left whole sock stream) (k : ℕ) :
    Left whole (sock.send stream (.accept k)).2 (stream.drop (min (k + 1) stream.length)) := by
  show sock.wire ++ stream.take _ ++ stream.drop _ = whole
  rw [append_assoc, take_append_drop]
  exact h

theorem exact_of_not_blocked (h : Left whole sock left) (hlog : .fail EAGAIN ∉ sock.log)
    {res : WriteRes} (hres : res.blocked = false) (hone : res = .one → left = []) :
    Exact whole (res, sock) := by
  refine ⟨⟨left, h⟩, fun heq => ?_, iff_of_false (by simp [hres]) hlog⟩
  rw [Left, hone heq, append_nil] at h
  exact h

theorem exact_of_sent {sent : ℕ} (h : Left whole sock (stream.drop sent))
    (hlog : .fail EAGAIN ∉ sock.log) (hsent : ¬ sent < stream.length) :
    Exact whole (.one, sock.modFd 0) := by
  have hmod : Left whole (sock.modFd 0) (stream.drop sent) := h
  exact exact_of_not_blocked hmod hlog rfl fun _ =>
    drop_eq_nil_of_le (Nat.le_of_not_lt hsent)

theorem exact_of_fail (h : Left whole sock left) (hlog : .fail EAGAIN ∉ sock.log) (stream : Bytes)
    (errno : ℕ) {e : LuaError} (he : (WriteRes.raised e).blocked = true ↔ errno = EAGAIN) :
    Exact whole (.raised e, (sock.send stream (.fail errno)).2) := by
  refine ⟨⟨left, h⟩, fun heq => (by cases heq), he.trans ?_⟩
  show errno = EAGAIN ↔ .fail EAGAIN ∈ sock.log ++ [.fail errno]
  simp [hlog, eq_comm]

theorem writeLoop_exact (script : List (Event × SendRes)) :
    ∀ {sock : Sock} {stream : Bytes} {sent : ℕ}, Left whole sock (stream.drop sent) →
      .fail EAGAIN ∉ sock.log → Exact whole (writeLoop sock stream (some sent) script) := by
  induction script with
  | nil =>
    intro sock stream sent hleft hlog
    rw [writeLoop]
    split_ifs with hlt
    · exact exact_of_not_blocked hleft hlog rfl fun h => by cases h
    · exact exact_of_sent hleft hlog hlt
  | cons step script ih =>
    intro sock stream sent hleft hlog
    obtain ⟨e, r⟩ := step
    rw [writeLoop]
    split_ifs with hlt hclose
    · exact exact_of_not_blocked hleft hlog rfl fun h => by cases h
    · cases r with
      | accept k => exact ih (hleft.send_accept k) (by simpa [Sock.send] using hlog)
      | fail errno =>
        show Exact whole (if errno = EAGAIN then writeLoop _ (stream.drop sent) none script
          else (.raised (.posix errno), _))
        split_ifs with hagain
        · rw [writeLoop]
          exact exact_of_fail hleft hlog (stream.drop sent) errno (iff_of_true rfl hagain)
        · exact exact_of_fail hleft hlog (stream.drop sent) errno (by simp [WriteRes.blocked])
    · exact exact_of_sent hleft hlog hlt

theorem write_exact (stream : Bytes) (first : SendRes) (script : List (Event × SendRes)) :
    (write stream first script).2.wire <+: stream ∧
      ((write stream first script).1 = .one → (write stream first script).2.wire = stream) ∧
      ((write stream first script).1.blocked = false ↔
        .fail EAGAIN ∉ (write stream first script).2.log) := by
  have hstart : Left stream ⟨[], [], []⟩ stream := rfl
  have hexact : Exact stream (write stream first script) := by
    cases first with
    | accept k =>
      have hleft := hstart.send_accept k
      have hlog : .fail EAGAIN ∉ ((⟨[], [], []⟩ : Sock).send stream (.accept k)).2.log := by
        simp [Sock.send]
      show Exact stream (if min (k + 1) stream.length < stream.length then
        writeLoop _ stream (some (min (k + 1) stream.length)) script else _)
      split_ifs with hlt
      · exact writeLoop_exact script hleft hlog
      · exact exact_of_not_blocked hleft hlog rfl fun _ =>
          drop_eq_nil_of_le (Nat.le_of_not_lt hlt)
    | fail errno =>
      exact exact_of_fail hstart not_mem_nil stream errno (by simp [WriteRes.blocked])
  refine ⟨hexact.begins, hexact.whole, ?_⟩
  rw [← Bool.not_eq_true]
  exact not_congr hexact.blocked_iff

theorem write_raises :
    (write [1, 2, 3] (.fail EAGAIN) []).1 = .raised (.posix EAGAIN) ∧
      (write [1, 2, 3] (.accept 1) [(⟨1, 0, 0⟩, .fail EAGAIN)]).1 = .raised .compareNil := by
  decide

end Sysak.Beaver
