/-
# Drops of the network interfaces
-/

import Sysak.Lib.BinarySearch
import Mathlib.Data.List.Chain

namespace Sysak.Rtrace

open Lib List

section Options

variable {α β : Type*} {f : α → Option β} {l : List α}

theorem mapM_of_forall {g : α → β} (h : ∀ x ∈ l, f x = some (g x)) :
    l.mapM f = some (l.map g) := by
  induction l with
  | nil => rfl
  | cons x l ih =>
    obtain ⟨hx, hl⟩ := forall_mem_cons.mp h
    simp [mapM_cons, hx, ih hl]

theorem exists_of_mapM {r : List β} (h : l.mapM f = some r) : ∀ x ∈ l, ∃ y, f x = some y := by
  induction l generalizing r with
  | nil => exact fun x hx => absurd hx not_mem_nil
  | cons x l ih =>
    rw [mapM_cons] at h
    obtain ⟨y, hy, h⟩ := Option.bind_eq_some_iff.mp h
    obtain ⟨ys, hys, -⟩ := Option.bind_eq_some_iff.mp h
    exact forall_mem_cons.mpr ⟨⟨y, hy⟩, ih hys⟩

end Options

inductive Member where
  | sentErrs | sentDrop | sentFifo | sentColls | sentCarrier
  | recvErrs | recvDrop | recvFifo | recvFrame
  deriving DecidableEq

namespace Member

def sent : List Member := [sentErrs, sentDrop, sentFifo, sentColls, sentCarrier]

def recv : List Member := [recvErrs, recvDrop, recvFifo, recvFrame]

def all : List Member := sent ++ recv

def key : Member → String
  | sentErrs => "sent_errs"
  | sentDrop => "sent_drop"
  | sentFifo => "sent_fifo"
  | sentColls => "sent_colls"
  | sentCarrier => "sent_carrier"
  | recvErrs => "recv_errs"
  | recvDrop => "recv_drop"
  | recvFifo => "recv_fifo"
  | recvFrame => "recv_frame"

def reason : Member → String
  | sentErrs | sentDrop => "硬件发包出错"
  | sentFifo => "硬件发包出错, fifo缓冲区不足"
  | sentColls | sentCarrier => "硬件发包出错，出现冲突"
  | recvErrs => "硬件收包出错，可能是包解析出错"
  | recvDrop | recvFrame => "硬件收包出错"
  | recvFifo => "硬件收包出错，fifo缓冲区不足，可能是流量过大"

theorem key_injective : Function.Injective key := by
  intro m m' h
  cases m <;> cases m' <;> first | rfl | exact absurd h (by decide)

theorem mem_all (m : Member) : m ∈ all := by
  cases m <;> decide

end Member

structure Sample where
  names : List String
  nodup : names.Nodup
  count : String → Member → UInt64

def Sample.get (s : Sample) (name : String) : Option (Member → UInt64) :=
  if name ∈ s.names then some (s.count name) else none

structure DeltaDev where
  predev : Sample
  curdev : Sample

structure DeviceDropStatus where
  dev : String
  key : String
  count : ℤ
  reason : String

def asIsize (cnt : UInt64) : ℤ :=
  if cnt.toNat < 9223372036854775808 then cnt.toNat else cnt.toNat - 18446744073709551616

def growth (pre cur : Sample) (name : String) (m : Member) : ℤ :=
  (cur.count name m).toNat - (pre.count name m).toNat

namespace DeltaDev

def new (s : Sample) : DeltaDev := ⟨s, s⟩

def update (d : DeltaDev) (s : Sample) : DeltaDev := { predev := d.curdev, curdev := s }

def stats (d : DeltaDev) : List String := d.curdev.names.mergeSort fun a b => a ≤ b

def entry (name : String) (m : Member) (cnt : UInt64) : List DeviceDropStatus :=
  if m = .sentErrs ∧ ¬0 < cnt then [] else [⟨name, m.key, asIsize cnt, m.reason⟩]

def line (cells : List String) : String :=
  " ".intercalate (cells.map fun c => c.rightpad 10 ' ') ++ "\n"

def table (titles : List String) (rows : List (String × List UInt64)) : String :=
  line titles ++ String.join (rows.map fun r => line (r.1 :: r.2.map toString))

section Reports

variable (checked : Bool) (d : DeltaDev)

def memberSub (first second : Member → UInt64) (m : Member) : Option UInt64 :=
  if checked ∧ first m < second m then none else some (first m - second m)

def dropReason : Option (List DeviceDropStatus) :=
  (d.stats.mapM fun name => (d.predev.get name).bind fun subtrahend =>
    (Member.all.mapM fun m =>
      (memberSub checked (d.curdev.count name) subtrahend m).map (entry name m)).map flatten).map
    flatten

def rows (ms : List Member) : Option (List (String × List UInt64)) :=
  d.stats.mapM fun name => (d.predev.get name).bind fun subtrahend =>
    (ms.mapM (memberSub checked (d.curdev.count name) subtrahend)).map fun cs => (name, cs)

def fmt : Option String :=
  (rows checked d Member.sent).bind fun sent => (rows checked d Member.recv).map fun recv =>
    table ["Interface", "SendErrs", "SendDrop", "SendFifo", "SendColls", "SendCarrier"] sent ++
      table ["Interface", "RecvErrs", "RecvDrop", "RecvFifo", "RecvFrameErr"] recv

def due (name : String) (r : DeviceDropStatus) : Prop :=
  ∃ m, r = ⟨name, m.key, growth d.predev d.curdev name m, m.reason⟩ ∧
    (m = .sentErrs → 0 < growth d.predev d.curdev name m)

def Survives : Prop :=
  ∃ rs sent recv, dropReason checked d = some rs ∧ rows checked d Member.sent = some sent ∧
    rows checked d Member.recv = some recv ∧ (fmt checked d).isSome ∧
    ∀ name ∈ d.curdev.names, name ∈ d.predev.names → (∀ m, 0 ≤ growth d.predev d.curdev name m) →
      (∀ r, r.dev = name → (r ∈ rs ↔ d.due name r)) ∧
      ∀ t ∈ [(sent, Member.sent), (recv, Member.recv)], ∃ cs, (name, cs) ∈ t.1 ∧
        cs.map (fun c => (c.toNat : ℤ)) = t.2.map (growth d.predev d.curdev name)

end Reports

def Comparable (checked : Bool) (pre cur : Sample) : Prop :=
  ∀ name ∈ cur.names, name ∈ pre.names ∧
    (checked = true → ∀ m, 0 ≤ growth pre cur name m) ∧
    ((∀ m, 0 ≤ growth pre cur name m) →
      ∀ m, growth pre cur name m < 9223372036854775808)

variable {checked : Bool} {d : DeltaDev} {name : String} {m : Member}

theorem mem_stats : name ∈ d.stats ↔ name ∈ d.curdev.names := (mergeSort_perm _ _).mem_iff

def diff (d : DeltaDev) (name : String) (m : Member) : UInt64 :=
  d.curdev.count name m - d.predev.count name m

theorem toNat_diff (h : 0 ≤ growth d.predev d.curdev name m) :
    ((d.diff name m).toNat : ℤ) = growth d.predev d.curdev name m := by
  rw [growth] at h ⊢
  have hle : d.predev.count name m ≤ d.curdev.count name m := UInt64.le_iff_toNat_le.mpr (by omega)
  rw [diff, UInt64.toNat_sub_of_le _ _ hle]
  omega

def Ready (checked : Bool) (d : DeltaDev) (name : String) : Prop :=
  name ∈ d.predev.names ∧ (checked = true → ∀ m, 0 ≤ growth d.predev d.curdev name m)

theorem memberSub_eq (h : checked = true → 0 ≤ growth d.predev d.curdev name m) :
    memberSub checked (d.curdev.count name) (d.predev.count name) m = some (d.diff name m) := by
  refine if_neg fun ⟨hchecked, hlt⟩ => ?_
  have hle := h hchecked
  rw [growth] at hle
  have := UInt64.lt_iff_toNat_lt.mp hlt
  omega

theorem dropReason_spec (h : ∀ name ∈ d.curdev.names, Ready checked d name) :
    ∃ rs, dropReason checked d = some rs ∧ ∀ r, r ∈ rs ↔
      ∃ name ∈ d.curdev.names, ∃ m, r ∈ entry name m (d.diff name m) := by
  refine ⟨(d.stats.map fun name => (Member.all.map fun m =>
    entry name m (d.diff name m)).flatten).flatten, ?_, fun r => ?_⟩
  · rw [dropReason, mapM_of_forall fun name hname => ?_, Option.map_some]
    obtain ⟨hpre, hle⟩ := h name (mem_stats.mp hname)
    rw [Sample.get, if_pos hpre, Option.bind_some, mapM_of_forall fun m _ => ?_, Option.map_some]
    rw [memberSub_eq fun hchecked => hle hchecked m, Option.map_some]
  · simp [mem_stats, Member.mem_all]

theorem ready_of_dropReason {rs : List DeviceDropStatus} (h : dropReason checked d = some rs)
    (hname : name ∈ d.curdev.names) : Ready checked d name := by
  obtain ⟨rss, hrss, -⟩ := Option.map_eq_some_iff.mp h
  obtain ⟨es, hes⟩ := exists_of_mapM hrss name (mem_stats.mpr hname)
  obtain ⟨sub, hsub, hes⟩ := Option.bind_eq_some_iff.mp hes
  obtain ⟨ess, hess, -⟩ := Option.map_eq_some_iff.mp hes
  rw [Sample.get] at hsub
  split_ifs at hsub with hpre
  obtain rfl := Option.some.inj hsub
  refine ⟨hpre, fun hchecked m => ?_⟩
  obtain ⟨e, he⟩ := exists_of_mapM hess m m.mem_all
  obtain ⟨cnt, hcnt, -⟩ := Option.map_eq_some_iff.mp he
  rw [memberSub] at hcnt
  split_ifs at hcnt with hlt
  have hle := UInt64.le_iff_toNat_le.mp (UInt64.not_lt.mp fun hlt' => hlt ⟨hchecked, hlt'⟩)
  rw [growth]
  omega

theorem rows_eq (h : ∀ name ∈ d.curdev.names, Ready checked d name) (ms : List Member) :
    rows checked d ms = some (d.stats.map fun name => (name, ms.map (d.diff name))) := by
  refine mapM_of_forall fun name hname => ?_
  obtain ⟨hpre, hle⟩ := h name (mem_stats.mp hname)
  rw [Sample.get, if_pos hpre, Option.bind_some, mapM_of_forall fun m _ => ?_, Option.map_some]
  exact memberSub_eq fun hchecked => hle hchecked m

theorem mem_entry {r : DeviceDropStatus} {cnt : UInt64} : r ∈ entry name m cnt ↔
    r = ⟨name, m.key, asIsize cnt, m.reason⟩ ∧ (m = .sentErrs → 0 < cnt) := by
  rw [entry]
  split_ifs with h
  · exact ⟨fun hr => absurd hr not_mem_nil, fun hr => absurd (hr.2 h.1) h.2⟩
  · rw [mem_singleton, iff_self_and]
    exact fun _ hm => not_not.mp fun hcnt => h ⟨hm, hcnt⟩

theorem asIsize_eq_iff (cnt : UInt64) :
    asIsize cnt = cnt.toNat ↔ cnt.toNat < 9223372036854775808 := by
  have := cnt.toNat_lt
  rw [asIsize]
  split_ifs <;> omega

theorem diff_pos_iff (h : 0 ≤ growth d.predev d.curdev name m) :
    0 < d.diff name m ↔ 0 < growth d.predev d.curdev name m := by
  rw [UInt64.lt_iff_toNat_lt, UInt64.toNat_zero, ← toNat_diff h]
  omega

theorem comparable_of_survives (h : Survives checked d) :
    Comparable checked d.predev d.curdev := by
  obtain ⟨rs, _, _, hrs, -, -, -, hexact⟩ := h
  have hready : ∀ name ∈ d.curdev.names, Ready checked d name := fun _ hname =>
    ready_of_dropReason hrs hname
  refine fun name hname => ⟨(hready name hname).1, (hready name hname).2, fun hgrown m => ?_⟩
  by_contra hlarge
  obtain ⟨rs', hrs', hmem⟩ := dropReason_spec hready
  obtain rfl := Option.some.inj (hrs.symm.trans hrs')
  -- the report has the count as an `isize`, which it does not fit in
  have hentry : ⟨name, m.key, asIsize (d.diff name m), m.reason⟩ ∈ rs :=
    (hmem _).mpr ⟨name, hname, m, mem_entry.mpr ⟨rfl, fun _ =>
      (diff_pos_iff (hgrown m)).mpr (by omega)⟩⟩
  obtain ⟨m', hr, -⟩ := ((hexact name hname (hready name hname).1 hgrown).1 _ rfl).mp hentry
  obtain ⟨-, hkey, hcount, -⟩ := DeviceDropStatus.mk.inj hr
  obtain rfl := Member.key_injective hkey
  have hnat := toNat_diff (hgrown m)
  have := (asIsize_eq_iff _).mp (hcount.trans hnat.symm)
  omega

theorem exists_mem_entry_iff (hgrown : ∀ m, 0 ≤ growth d.predev d.curdev name m)
    (hsmall : ∀ m, growth d.predev d.curdev name m < 9223372036854775808) {r : DeviceDropStatus} :
    (∃ m, r ∈ entry name m (d.diff name m)) ↔ d.due name r := by
  refine exists_congr fun m => ?_
  have hnat := toNat_diff (hgrown m)
  have := hsmall m
  rw [mem_entry, (asIsize_eq_iff _).mpr (by omega), hnat, diff_pos_iff (hgrown m)]

theorem exists_row (hname : name ∈ d.curdev.names)
    (hgrown : ∀ m, 0 ≤ growth d.predev d.curdev name m) (ms : List Member) :
    ∃ cs, (name, cs) ∈ d.stats.map (fun name => (name, ms.map (d.diff name))) ∧
      cs.map (fun c => (c.toNat : ℤ)) = ms.map (growth d.predev d.curdev name) := by
  refine ⟨_, mem_map_of_mem (mem_stats.mpr hname), ?_⟩
  rw [map_map]
  exact map_congr_left fun m _ => toNat_diff (hgrown m)

theorem survives_of_comparable (h : Comparable checked d.predev d.curdev) :
    Survives checked d := by
  have hready : ∀ name ∈ d.curdev.names, Ready checked d name := fun name hname =>
    ⟨(h name hname).1, (h name hname).2.1⟩
  obtain ⟨rs, hrs, hmem⟩ := dropReason_spec hready
  refine ⟨rs, _, _, hrs, rows_eq hready _, rows_eq hready _, ?_,
    fun name hname _ hgrown => ⟨fun r hdev => ?_, ?_⟩⟩
  · rw [fmt, rows_eq hready, rows_eq hready]
    rfl
  · rw [hmem, ← exists_mem_entry_iff hgrown ((h name hname).2.2 hgrown)]
    constructor
    · rintro ⟨name', -, m, hr⟩
      obtain rfl : name' = name := by
        rw [(mem_entry.mp hr).1] at hdev
        exact hdev
      exact ⟨m, hr⟩
    · exact fun ⟨m, hr⟩ => ⟨name, hname, m, hr⟩
  · exact forall_mem_cons.mpr
      ⟨exists_row hname hgrown _, forall_mem_singleton.mpr (exists_row hname hgrown _)⟩

theorem survives_iff_comparable : Survives checked d ↔ Comparable checked d.predev d.curdev :=
  ⟨comparable_of_survives, survives_of_comparable⟩

def states (d : DeltaDev) : List Sample → List DeltaDev
  | [] => [d]
  | s :: samples => d :: states (d.update s) samples

theorem forall_states_iff (samples : List Sample) : (∀ e ∈ d.states samples, Survives checked e) ↔
    Comparable checked d.predev d.curdev ∧ IsChain (Comparable checked) (d.curdev :: samples) := by
  induction samples generalizing d with
  | nil => simp [states, survives_iff_comparable]
  | cons s samples ih =>
    rw [states, forall_mem_cons, survives_iff_comparable, ih, isChain_cons_cons]
    rfl

theorem comparable_self (s : Sample) : Comparable checked s s := by
  intro name hname
  have hzero (m : Member) : growth s s name m = 0 := Int.sub_self _
  exact ⟨hname, fun _ m => (hzero m).ge, fun _ m => by rw [hzero]; decide⟩

theorem deltaDev_survives_iff (checked : Bool) (s : Sample) (samples : List Sample) :
    (∀ d ∈ (new s).states samples, Survives checked d) ↔
      IsChain (Comparable checked) (s :: samples) := by
  rw [forall_states_iff]
  exact and_iff_right (comparable_self s)

def plugged : Sample × Sample :=
  (⟨["lo"], by decide, fun _ _ => 0⟩, ⟨["lo", "eth0"], by decide, fun _ _ => 0⟩)

theorem deltaDev_plugged :
    ¬∀ d ∈ (new plugged.1).states [plugged.2], Survives false d := by
  intro h
  obtain ⟨rs, -, -, hrs, -⟩ := h ⟨plugged.1, plugged.2⟩ (mem_cons_of_mem _ (mem_singleton_self _))
  have hready : Ready false _ "eth0" := ready_of_dropReason hrs (by decide)
  exact absurd hready.1 (by decide)

end DeltaDev

end Sysak.Rtrace
