/-
# The log of a retransmission
-/

import Sysak.Lib.CString
import Sysak.Lib.Inet

namespace Sysak.Collector
namespace NetRetrans

open Lib List Option

inductive RetransType where
  | rto
  | zero
  | rst
  | rstSk
  | rstActive
  | syn
  | synAck
  deriving DecidableEq

def RetransType.title : RetransType → Bytes
  | .rto => bytes "rto_retrans"
  | .zero => bytes "zero_probe"
  | .rst => bytes "noport_reset"
  | .rstSk => bytes "bad_sync"
  | .rstActive => bytes "net_proc"
  | .syn => bytes "syn_send"
  | .synAck => bytes "syn_ack"

structure Event where
  comm : CStr
  comm_lt : comm.bytes.length < 16
  pid : UInt32
  type : RetransType
  ipSrc : UInt32
  ipDst : UInt32
  sport : UInt16
  dport : UInt16
  skState : UInt16
  rcvNxt : UInt32
  rcvWup : UInt32
  sndNxt : UInt32
  sndUna : UInt32
  copiedSeq : UInt32
  sndWnd : UInt32
  rcvWnd : UInt32
  lostOut : UInt32
  packetsOut : UInt32
  retransOut : UInt32
  sackedOut : UInt32
  reordering : UInt32

def logMax : ℕ := 256

def decUint (v : UInt32) : Bytes := decInt v.toBitVec.toInt

def resetSock (func : Option Bytes) (skState : UInt16) : Bytes :=
  match func with
  | none => bytes "failure_sock"
  | some func =>
    if func = bytes "tcp_v4_rcv" then
      if skState = 12 then bytes "bad_ack" else bytes "tw_rst"
    else if func = bytes "tcp_check_req" then bytes "bad_syn"
    else if func = bytes "tcp_v4_do_rcv" then bytes "tcp_stat"
    else bytes "unknown_sock"

def resetActive (func : Option Bytes) : Bytes :=
  match func with
  | none => bytes "failure_active"
  | some func =>
    if func = bytes "tcp_out_of_resources" then bytes "tcp_oom"
    else if func = bytes "tcp_keepalive_timer" then bytes "keep_alive"
    else if func = bytes "inet_release" then bytes "bad_close"
    else if func = bytes "tcp_close" then bytes "bad_close"
    else if func = bytes "tcp_disconnect" then bytes "tcp_abort"
    else if func = bytes "tcp_abort" then bytes "tcp_abort"
    else bytes "unknown_active"

def task (e : Event) : Bytes := bytes "task:" ++ decUint e.pid ++ bytes "|"

def head (e : Event) : Bytes :=
  task e ++ e.comm.bytes ++ bytes ", tcp:" ++ endpoint e.ipSrc e.sport ++ bytes "->" ++
    endpoint e.ipSrc e.sport ++ bytes ", state:" ++ dec e.skState.toNat ++ bytes ", "

def fields (e : Event) : List (Bytes × UInt32) :=
  [(bytes "rcv_nxt:", e.rcvNxt), (bytes ", rcv_wup:", e.rcvWup), (bytes ", snd_nxt:", e.sndNxt),
    (bytes ", snd_una:", e.sndUna), (bytes ", copied_seq:", e.copiedSeq),
    (bytes ", snd_wnd:", e.sndWnd), (bytes ", rcv_wnd:", e.rcvWnd),
    (bytes ", lost_out:", e.lostOut), (bytes ", packets_out:", e.packetsOut),
    (bytes ", retrans_out:", e.retransOut), (bytes ", sacked_out:", e.sackedOut),
    (bytes ", reordering:", e.reordering)]

def counters (e : Event) : Bytes := (fields e).flatMap fun f => f.1 ++ decUint f.2

def appended (func : Option Bytes) (e : Event) : Bytes :=
  match e.type with
  | .rto | .zero | .syn | .synAck => snprintf logMax (counters e)
  | .rst => bytes "noport"
  | .rstSk => resetSock func e.skState
  | .rstActive => resetActive func

structure LogLine where
  table : Bytes
  type : Bytes
  log : Bytes
  deriving DecidableEq

def proc (func : Option Bytes) (e : Event) : Option LogLine :=
  (strncat logMax (snprintf logMax (head e)) (appended func e) logMax).map fun log =>
    ⟨bytes "net_retrans_log", e.type.title, log⟩

section Lengths

variable (func : Option Bytes) (e : Event)

theorem length_decUint (v : UInt32) : (decUint v).length ≤ 11 := by
  have hle : -2147483648 ≤ v.toBitVec.toInt := v.toBitVec.le_toInt
  have hlt : v.toBitVec.toInt < 2147483648 := v.toBitVec.toInt_lt
  unfold decUint
  cases hv : v.toBitVec.toInt with
  | ofNat n =>
    rw [hv, Int.ofNat_eq_natCast] at hlt
    exact (length_dec_le (k := 9) (by omega)).trans (by decide)
  | negSucc n =>
    have hdec := length_dec_le (k := 9) (n := n + 1) (by omega)
    rw [decInt, length_cons]
    omega

def headLength : ℕ :=
  26 + (decUint e.pid).length + e.comm.bytes.length +
    2 * ((inetNtoa e.ipSrc).length + (dec (htons e.sport).toNat).length) +
    (dec e.skState.toNat).length

def countersLength : ℕ := 136 + ((fields e).map fun f => (decUint f.2).length).sum

theorem length_head : (head e).length = headLength e := by
  have hword : (bytes "task:").length = 5 ∧ (bytes "|").length = 1 ∧ (bytes ", tcp:").length = 6 ∧
      (bytes "->").length = 2 ∧ (bytes ", state:").length = 8 ∧ (bytes ", ").length = 2 :=
    ⟨rfl, rfl, rfl, rfl, rfl, rfl⟩
  simp only [head, task, endpoint, headLength, length_append, length_cons, hword]
  omega

theorem length_counters : (counters e).length = countersLength e := by
  simp only [counters, countersLength, fields, flatMap_cons, flatMap_nil, map_cons,
    map_nil, sum_cons, sum_nil, length_append, length_nil]
  have hword : (bytes "rcv_nxt:").length = 8 ∧ (bytes ", rcv_wup:").length = 10 ∧
      (bytes ", snd_nxt:").length = 10 ∧ (bytes ", snd_una:").length = 10 ∧
      (bytes ", copied_seq:").length = 13 ∧ (bytes ", snd_wnd:").length = 10 ∧
      (bytes ", rcv_wnd:").length = 10 ∧ (bytes ", lost_out:").length = 11 ∧
      (bytes ", packets_out:").length = 14 ∧ (bytes ", retrans_out:").length = 14 ∧
      (bytes ", sacked_out:").length = 13 ∧ (bytes ", reordering:").length = 13 :=
    ⟨rfl, rfl, rfl, rfl, rfl, rfl, rfl, rfl, rfl, rfl, rfl, rfl⟩
  simp only [hword]
  omega

theorem headLength_le : headLength e ≤ 97 := by
  have hpid := length_decUint e.pid
  have hcomm := e.comm_lt
  have hip := length_inetNtoa e.ipSrc
  have hport := length_dec_uint16 (htons e.sport)
  have hstate := length_dec_uint16 e.skState
  unfold headLength
  omega

def RetransType.HasCounters (t : RetransType) : Prop :=
  t = .rto ∨ t = .zero ∨ t = .syn ∨ t = .synAck

def reasons : List Bytes :=
  [bytes "noport", bytes "failure_sock", bytes "bad_ack", bytes "tw_rst", bytes "bad_syn",
    bytes "tcp_stat", bytes "unknown_sock", bytes "failure_active", bytes "tcp_oom",
    bytes "keep_alive", bytes "bad_close", bytes "tcp_abort", bytes "unknown_active"]

theorem resetSock_mem_reasons (skState : UInt16) : resetSock func skState ∈ reasons := by
  unfold resetSock
  split
  · simp [reasons]
  · split_ifs <;> simp [reasons]

theorem resetActive_mem_reasons : resetActive func ∈ reasons := by
  unfold resetActive
  split
  · simp [reasons]
  · split_ifs <;> simp [reasons]

theorem appended_cases :
    e.type.HasCounters ∧ appended func e = snprintf logMax (counters e) ∨
      ¬ e.type.HasCounters ∧ appended func e ∈ reasons := by
  unfold RetransType.HasCounters appended
  cases e.type with
  | rto => exact .inl ⟨by simp, rfl⟩
  | zero => exact .inl ⟨by simp, rfl⟩
  | rst => exact .inr ⟨by simp, by simp [reasons]⟩
  | rstSk => exact .inr ⟨by simp, resetSock_mem_reasons func e.skState⟩
  | rstActive => exact .inr ⟨by simp, resetActive_mem_reasons func⟩
  | syn => exact .inl ⟨by simp, rfl⟩
  | synAck => exact .inl ⟨by simp, rfl⟩

theorem length_of_mem_reasons {word : Bytes} (h : word ∈ reasons) : word.length ≤ 14 := by
  have hall : ∀ word ∈ reasons, word.length ≤ 14 := by decide
  exact hall word h

theorem proc_eq : proc func e =
    if headLength e + (appended func e).length < 256 then
      some ⟨bytes "net_retrans_log", e.type.title, head e ++ appended func e⟩
    else none := by
  have hhead := headLength_le e
  have hbuf : snprintf logMax (head e) = head e :=
    take_of_length_le (by rw [length_head]; exact hhead.trans (by decide))
  have happ : (appended func e).length ≤ logMax := by
    rcases appended_cases func e with ⟨-, heq⟩ | ⟨-, hmem⟩
    · rw [heq]
      exact (length_take_le _ _).trans (by decide)
    · exact (length_of_mem_reasons hmem).trans (by decide)
  rw [proc, strncat, hbuf, take_of_length_le happ, length_append, length_head,
    apply_ite (Option.map _)]
  rfl

def Fits : Prop := e.type.HasCounters → headLength e + min 255 (countersLength e) < 256

theorem fits_iff : headLength e + (appended func e).length < 256 ↔ Fits e := by
  rcases appended_cases func e with ⟨hcounters, heq⟩ | ⟨hword, hmem⟩
  · have hcount : (snprintf logMax (counters e)).length = min 255 (countersLength e) := by
      rw [snprintf, length_take, length_counters]
      rfl
    rw [heq, hcount, Fits, forall_prop_of_true hcounters]
  · have hhead := headLength_le e
    have hlen := length_of_mem_reasons hmem
    exact iff_of_true (by omega) fun h => absurd h hword

end Lengths

section Text

variable {func : Option Bytes} {e : Event}

def ends (e : Event) : Bytes :=
  bytes ", tcp:" ++ endpoint e.ipSrc e.sport ++ bytes "->" ++ endpoint e.ipDst e.dport ++
    bytes ", state:"

theorem mem_decUint {v : UInt32} {c : UInt8} (hc : c ∈ decUint v) : c = 45 ∨ isDigit c = true := by
  unfold decUint at hc
  cases hv : v.toBitVec.toInt with
  | ofNat n =>
    rw [hv] at hc
    exact Or.inr (isDigit_of_mem_dec hc)
  | negSucc n =>
    rw [hv] at hc
    rcases mem_cons.mp hc with rfl | hc
    · exact Or.inl rfl
    · exact Or.inr (isDigit_of_mem_dec hc)

theorem not_mem_decUint {c : UInt8} (hsign : c ≠ 45) (hdigit : isDigit c = false) (v : UInt32) :
    c ∉ decUint v := fun hc => by
  rcases mem_decUint hc with h | h
  · exact hsign h
  · exact Bool.false_ne_true (hdigit.symm.trans h)

theorem arrow_not_mem_appended (func : Option Bytes) (e : Event) : 62 ∉ appended func e := by
  rcases appended_cases func e with ⟨-, heq⟩ | ⟨-, hmem⟩
  · rw [heq]
    intro hc
    obtain ⟨f, hf, hc⟩ := mem_flatMap.mp (mem_of_mem_take hc)
    rcases mem_append.mp hc with hc | hc
    · have hall : (fields e).all (fun f => !f.1.contains 62) = true := rfl
      have := all_eq_true.mp hall f hf
      simp [hc] at this
    · exact not_mem_decUint (by decide) rfl _ hc
  · have hall : ∀ word ∈ reasons, 62 ∉ word := by decide
    exact hall _ hmem

theorem arrow_not_mem_endpoint (a : UInt32) (p : UInt16) : 62 ∉ endpoint a p :=
  not_mem_endpoint (by decide) (by decide) rfl a p

theorem comma_not_mem_endpoint (a : UInt32) (p : UInt16) : 44 ∉ endpoint a p :=
  not_mem_endpoint (by decide) (by decide) rfl a p

theorem comma_not_mem_task (e : Event) : 44 ∉ task e := by
  intro hc
  rcases mem_append.mp hc with hc | hc
  · rcases mem_append.mp hc with hc | hc
    · exact absurd hc (by decide)
    · exact not_mem_decUint (by decide) rfl _ hc
  · exact absurd hc (by decide)

def source (e : Event) : Bytes := bytes ", tcp:" ++ endpoint e.ipSrc e.sport ++ bytes "-"

def behind (func : Option Bytes) (e : Event) : Bytes :=
  endpoint e.ipSrc e.sport ++ (bytes ", state:" ++ dec e.skState.toNat ++ bytes ", " ++
    appended func e)

theorem log_eq (func : Option Bytes) (e : Event) :
    head e ++ appended func e =
      task e ++ e.comm.bytes ++ (source e ++ 62 :: behind func e) := by
  have harrow : bytes "->" = bytes "-" ++ [62] := rfl
  simp only [head, source, behind, harrow, append_assoc, nil_append,
    cons_append]

theorem arrow_not_mem_source (e : Event) : 62 ∉ source e := by
  intro hc
  rcases mem_append.mp hc with hc | hc
  · rcases mem_append.mp hc with hc | hc
    · exact absurd hc (by decide)
    · exact arrow_not_mem_endpoint _ _ hc
  · exact absurd hc (by decide)

theorem arrow_not_mem_behind (func : Option Bytes) (e : Event) : 62 ∉ behind func e := by
  intro hc
  simp only [behind, mem_append] at hc
  rcases hc with hc | ((hc | hc) | hc) | hc
  · exact arrow_not_mem_endpoint _ _ hc
  · exact absurd hc (by decide)
  · exact not_mem_dec rfl _ hc
  · exact absurd hc (by decide)
  · exact arrow_not_mem_appended _ _ hc

theorem length_source (e : Event) : 16 ≤ (source e).length := by
  have hip := length_inetNtoa e.ipSrc
  have hport := length_dec_pos (htons e.sport).toNat
  have hword : (bytes ", tcp:").length = 6 ∧ (bytes "-").length = 1 := ⟨rfl, rfl⟩
  simp only [source, endpoint, length_append, length_cons, hword]
  omega

theorem ends_isInfix_iff (func : Option Bytes) (e : Event) :
    ends e <:+: head e ++ appended func e ↔ e.ipDst = e.ipSrc ∧ e.dport = e.sport := by
  have hends : ends e = source e ++ 62 :: (endpoint e.ipDst e.dport ++ bytes ", state:") := by
    have harrow : bytes "->" = bytes "-" ++ [62] := rfl
    simp only [ends, source, harrow, append_assoc, nil_append,
    cons_append]
  rw [log_eq, ← endpoint_inj]
  constructor
  · rintro ⟨u, v, huv⟩
    rw [hends] at huv
    -- The connection begins with a comma, and there is none in the first words.
    have htask : (task e).length ≤ u.length := by
      by_contra hlt
      have hcomma : (task e ++ (e.comm.bytes ++ (source e ++ 62 :: behind func e)))[u.length]? =
          some 44 := by
        rw [← append_assoc, ← huv, append_assoc, getElem?_append_right le_rfl,
          Nat.sub_self]
        rfl
      rw [getElem?_append_left (by omega)] at hcomma
      exact comma_not_mem_task e (mem_of_getElem? hcomma)
    -- So the arrow is not that of a command name, which has less than 16 bytes.
    have hlen : (task e ++ e.comm.bytes).length ≤ (u ++ source e).length := by
      have hcomm := e.comm_lt
      have hsource := length_source e
      rw [length_append, length_append]
      omega
    have hdrop := congrArg (List.drop (task e ++ e.comm.bytes).length) huv
    rw [drop_left, ← append_assoc u, append_assoc (u ++ source e),
      drop_append_of_le_length hlen, cons_append] at hdrop
    obtain ⟨-, -, hbehind⟩ := (append_cons_inj_of_notMem (arrow_not_mem_source e)
      (arrow_not_mem_behind func e)).mp hdrop.symm
    rw [behind, append_assoc (endpoint e.ipDst e.dport)] at hbehind
    exact (append_cons_inj (comma_not_mem_endpoint _ _) (comma_not_mem_endpoint _ _) hbehind).1.symm
  · intro heq
    rw [hends, heq]
    refine ⟨task e ++ e.comm.bytes, dec e.skState.toNat ++ bytes ", " ++ appended func e, ?_⟩
    simp only [behind, append_assoc, cons_append]

end Text

theorem retrans_log_iff (func : Option Bytes) (e : Event) :
    (∃ l, proc func e = some l ∧ l.log.length < logMax ∧ ends e <:+: l.log) ↔
      Fits e ∧ e.ipDst = e.ipSrc ∧ e.dport = e.sport := by
  rw [proc_eq, ← fits_iff func, ← ends_isInfix_iff func]
  constructor
  · rintro ⟨l, hl, -, hinfix⟩
    split_ifs at hl with hfits
    obtain rfl := some.inj hl
    exact ⟨hfits, hinfix⟩
  · rintro ⟨hfits, hends⟩
    refine ⟨_, if_pos hfits, ?_, hends⟩
    rwa [length_append, length_head]

def reset : Event where
  comm := ⟨bytes "nginx", by decide⟩
  comm_lt := by decide
  pid := 1
  type := .rst
  ipSrc := 0x0100000a
  ipDst := 0x0200000a
  sport := 0x5000
  dport := 0xbb01
  skState := 1
  rcvNxt := 0
  rcvWup := 0
  sndNxt := 0
  sndUna := 0
  copiedSeq := 0
  sndWnd := 0
  rcvWnd := 0
  lostOut := 0
  packetsOut := 0
  retransOut := 0
  sackedOut := 0
  reordering := 0

theorem proc_reset :
    (proc none reset).map LogLine.log =
        some (bytes "task:1|nginx, tcp:10.0.0.1:80->10.0.0.1:80, state:1, noport") ∧
      ends reset = bytes ", tcp:10.0.0.1:80->10.0.0.2:443, state:" ∧
      ¬ ∃ l, proc none reset = some l ∧ l.log.length < logMax ∧ ends reset <:+: l.log := by
  refine ⟨by decide +kernel, by decide +kernel, ?_⟩
  rintro ⟨l, hl, -, hinfix⟩
  rw [proc_eq] at hl
  split_ifs at hl
  obtain rfl := some.inj hl
  exact absurd ((ends_isInfix_iff none reset).mp hinfix).1 (by decide)

end NetRetrans
end Sysak.Collector
