/-
# Which rows describe one probe
-/

import Sysak.Tcpping.HandleEvent

namespace Sysak.Tcpping

open List

structure Inv (P : Probes) (o i : ℕ) (s : State) : Prop where
  packNr : s.packNr = P.packNr
  size : s.table.size = P.packNr
  outId : s.table.outId = o
  inId : s.table.inId = i
  user : ∀ k < P.packNr, s.table.time k 0 = P.start k
  sendmsg : ∀ k, s.table.time k 1 = if k < o then P.sendmsg k else 0
  xmit : ∀ k, s.table.time k 2 = if k < o then P.xmit k else 0
  exiting : s.exiting = true ↔ i = P.packNr

def Probes.row (P : Probes) (o i : ℕ) (r : Reply) : List UInt64 :=
  [P.start i, if i < o then P.sendmsg i else 0, if i < o then P.xmit i else 0] ++ r.times

namespace Inv

open State

variable {P : Probes} {s : State} {o i : ℕ} (junk : ℕ)

theorem out (h : Inv P o i s) (ho : o < P.packNr) :
    ∃ s', s.handleEvent junk (P.trace (.out o)) = some s' ∧ Inv P (o + 1) i s' ∧
      s'.reports = s.reports := by
  refine ⟨_, handleEvent_out junk o (by rw [h.outId, h.size]; exact ho), ?_, exitOnLast_reports _⟩
  constructor
  · rw [exitOnLast_packNr, h.packNr]
  · rw [exitOnLast_table, h.size]
  · rw [exitOnLast_table, h.outId]
  · rw [exitOnLast_table, h.inId]
  · intro k hk
    simp [h.user k hk]
  · intro k
    simp only [exitOnLast_table, h.outId, h.sendmsg]
    grind
  · intro k
    simp only [exitOnLast_table, h.outId, h.xmit]
    grind
  · rw [exitOnLast_exiting, h.exiting, h.inId, h.packNr, or_self]

theorem reply (h : Inv P o i s) (hi : i < P.packNr) (r : Reply) :
    ∃ s', s.handleEvent junk (P.trace (.reply r)) = some s' ∧ Inv P o (i + 1) s' ∧
      s'.reports = s.reports ++ [⟨i, P.row o i r⟩] := by
  have hin : s.table.inId < s.table.size := by rwa [h.inId, h.size]
  obtain ⟨s', hs', htable, hpack, hreports, hexit⟩ := finishEvent_one (s := s.received r) hin
  refine ⟨s', (handleEvent_reply junk r hin).trans hs', ?_, ?_⟩
  · constructor
    · exact hpack.trans h.packNr
    · rw [htable]
      exact h.size
    · rw [htable]
      exact h.outId
    · rw [htable]
      exact congrArg (· + 1) h.inId
    · intro k hk
      rw [htable]
      simp [received, h.user k hk]
    · intro k
      rw [htable]
      simp [received, h.sendmsg]
    · intro k
      rw [htable]
      simp [received, h.xmit]
    · rw [hexit]
      show s.exiting = true ∨ s.table.inId + 1 = s.packNr ↔ i + 1 = P.packNr
      rw [h.exiting, h.inId, h.packNr]
      omega
  · rw [hreports]
    show s.reports ++ [(s.received r).report s.table.inId] = _
    rw [h.inId]
    simp [report, ptMax, range_succ, received, Probes.row, Reply.times, h.inId, h.user i hi,
      h.sendmsg, h.xmit]

theorem reply_none (h : Inv P o P.packNr s) (r : Reply) :
    s.handleEvent junk (P.trace (.reply r)) = none :=
  handleEvent_reply_of_le junk r (by rw [h.inId, h.size])

end Inv

def Probes.dumped (P : Probes) : ℕ → ℕ → List Ev → List Report
  | _, _, [] => []
  | o, i, .out _ :: es => P.dumped (o + 1) i es
  | o, i, .reply r :: es => ⟨i, P.row o i r⟩ :: P.dumped o (i + 1) es

def Probes.Sends (P : Probes) (o : ℕ) (l : List ℕ) : Prop := l <+: range' o (P.packNr - o)

namespace Probes

variable {P : Probes} {o : ℕ}

theorem Sends.cons {p : ℕ} {l : List ℕ} (h : P.Sends o (p :: l)) :
    p = o ∧ o < P.packNr ∧ P.Sends (o + 1) l := by
  rw [Sends] at h
  cases hn : P.packNr - o with
  | zero =>
    rw [hn] at h
    exact absurd (prefix_nil.mp h) (cons_ne_nil p l)
  | succ n =>
    rw [hn, range'_succ, cons_prefix_cons] at h
    refine ⟨h.1, by omega, ?_⟩
    rw [Sends, show P.packNr - (o + 1) = n by omega]
    exact h.2

theorem Sends.append {l l' : List ℕ} (h : P.Sends o (l ++ l')) : P.Sends (o + l.length) l' := by
  induction l generalizing o with
  | nil => exact h
  | cons p l ih =>
    obtain ⟨-, -, h⟩ := Sends.cons h
    rw [length_cons, Nat.add_comm l.length, ← Nat.add_assoc]
    exact ih h

end Probes

namespace Inv

open State

variable {P : Probes} {s : State} {o i : ℕ} (junk : ℕ)

theorem handleAll {es : List Ev} (h : Inv P o i s) (hout : P.Sends o (outs es))
    (hin : i + (replies es).length ≤ P.packNr) :
    ∃ s', s.handleAll junk (es.map P.trace) = some s' ∧
      Inv P (o + (outs es).length) (i + (replies es).length) s' ∧
      s'.reports = s.reports ++ P.dumped o i es := by
  induction es generalizing o i s with
  | nil => exact ⟨s, rfl, h, (append_nil _).symm⟩
  | cons e es ih =>
    cases e with
    | out p =>
      obtain ⟨rfl, ho, hout⟩ := Probes.Sends.cons hout
      obtain ⟨s₁, hs₁, h₁, hreports₁⟩ := h.out junk ho
      obtain ⟨s', hs', h', hreports⟩ := ih h₁ hout hin
      refine ⟨s', ?_, ?_, ?_⟩
      · rw [map_cons, handleAll_cons, hs₁]
        exact hs'
      · rw [outs_out, length_cons, Nat.add_comm (outs es).length, ← Nat.add_assoc]
        exact h'
      · rw [hreports, hreports₁, Probes.dumped]
    | reply r =>
      rw [replies_reply, length_cons, Nat.add_comm (replies es).length,
        ← Nat.add_assoc] at hin ⊢
      obtain ⟨s₁, hs₁, h₁, hreports₁⟩ := h.reply junk (by omega) r
      obtain ⟨s', hs', h', hreports⟩ := ih h₁ hout hin
      refine ⟨s', ?_, h', ?_⟩
      · rw [map_cons, handleAll_cons, hs₁]
        exact hs'
      · rw [hreports, hreports₁, Probes.dumped, append_assoc, singleton_append]

theorem handleAll_none {es : List Ev} (h : Inv P o i s) (hi : i ≤ P.packNr)
    (hout : P.Sends o (outs es)) (hin : P.packNr < i + (replies es).length) :
    s.handleAll junk (es.map P.trace) = none := by
  induction es generalizing o i s with
  | nil => exact absurd hin (Nat.not_lt.mpr hi)
  | cons e es ih =>
    rw [map_cons, handleAll_cons]
    cases e with
    | out p =>
      obtain ⟨rfl, ho, hout⟩ := Probes.Sends.cons hout
      obtain ⟨s₁, hs₁, h₁, -⟩ := h.out junk ho
      rw [hs₁]
      exact ih h₁ hi hout hin
    | reply r =>
      rw [replies_reply, length_cons] at hin
      rcases Nat.lt_or_eq_of_le hi with hlt | rfl
      · obtain ⟨s₁, hs₁, h₁, -⟩ := h.reply junk hlt r
        rw [hs₁]
        exact ih h₁ hlt hout (by omega)
      · rw [h.reply_none junk r]
        rfl

end Inv

def handled (packNr : ℕ) : ℕ → List (List Ev) → List Ev
  | _, [] => []
  | i, es :: polls =>
    es ++ if packNr ≤ i + (replies es).length then []
      else handled packNr (i + (replies es).length) polls

theorem handled_initial (packNr : ℕ) (polls : List (List Ev)) :
    ∀ i, handled packNr i polls <+: polls.flatten := by
  induction polls with
  | nil => exact fun _ => prefix_rfl
  | cons es polls ih =>
    intro i
    rw [handled, flatten_cons]
    split_ifs
    · rw [append_nil]
      exact prefix_append ..
    · exact prefix_append_right_inj es |>.mpr (ih _)

namespace Inv

open State

variable {P : Probes} {s : State} {o i : ℕ} (junk : ℕ)

theorem poll {polls : List (List Ev)} (h : Inv P o i s) (hi : i < P.packNr)
    (hout : P.Sends o (outs polls.flatten)) :
    s.poll junk (polls.map (List.map P.trace)) =
      s.handleAll junk ((handled P.packNr i polls).map P.trace) := by
  induction polls generalizing o i s with
  | nil => rfl
  | cons es polls ih =>
    rw [flatten_cons, outs_append] at hout
    have hout₁ : P.Sends o (outs es) := (prefix_append _ _).trans hout
    rw [map_cons, State.poll, handled, map_append, handleAll_append]
    by_cases hin : i + (replies es).length ≤ P.packNr
    · obtain ⟨s', hs', h', -⟩ := h.handleAll junk hout₁ hin
      rw [hs', Option.bind_some, Option.bind_some]
      by_cases hlast : P.packNr ≤ i + (replies es).length
      · rw [if_pos hlast, if_pos (h'.exiting.mpr (by omega))]
        rfl
      · rw [if_neg hlast, if_neg fun hexit => hlast (h'.exiting.mp hexit).ge]
        exact ih h' (by omega) hout.append
    · rw [h.handleAll_none junk hi.le hout₁ (by omega)]
      rfl

end Inv

def Probes.started (P : Probes) (k : ℕ) : TraceTime where
  time r c := if c = 0 ∧ r < k then P.start r else 0
  size := if k = 0 then 0 else P.packNr
  timeId := k
  outId := 0
  inId := 0

theorem Probes.recordStartTime_started (P : Probes) {k : ℕ} (hk : k < P.packNr) :
    (P.started k).recordStartTime P.packNr (P.start k) = some (P.started (k + 1)) := by
  -- with the first probe the table is allocated
  have halloc : (if (P.started k).size = 0 then
      { P.started k with time := fun _ _ => 0, size := P.packNr } else P.started k) =
      { P.started k with size := P.packNr } := by
    have hpos := P.pos
    by_cases hk0 : k = 0
    · simp [started, hk0]
    · simp [started, hk0, hpos.ne']
  have htime : (fun r c => if r = k ∧ c = 0 then P.start k else (P.started k).time r c) =
      (P.started (k + 1)).time := by
    funext r c
    simp only [started]
    grind
  rw [TraceTime.recordStartTime, halloc, TraceTime.write, if_pos ⟨hk, by decide⟩]
  have hstarted : (⟨fun r c => if r = k ∧ c = 0 then P.start k else (P.started k).time r c,
      P.packNr, k + 1, 0, 0⟩ : TraceTime) = P.started (k + 1) := by
    rw [htime]
    rfl
  exact congrArg some hstarted

theorem Probes.foldlM_recordStartTime (P : Probes) {k : ℕ} (hk : k ≤ P.packNr) :
    ((range k).map P.start).foldlM (TraceTime.recordStartTime P.packNr) .empty =
      some (P.started k) := by
  induction k with
  | zero => simp [TraceTime.empty, started]
  | succ k ih =>
    rw [range_succ, map_append, foldlM_append, ih (by omega)]
    exact (bind_pure _).trans (P.recordStartTime_started hk)

theorem State.initial_reports (file : Bool) (packNr : ℕ) (t : TraceTime) :
    (State.initial file packNr t).reports = [] := by
  cases file <;> rfl

theorem Probes.exists_table (P : Probes) (file : Bool) :
    ∃ t, P.table = some t ∧ Inv P 0 0 (State.initial file P.packNr t) := by
  have hpos := P.pos
  refine ⟨_, P.foldlM_recordStartTime le_rfl, rfl, ?_, rfl, rfl, ?_, ?_, ?_, ?_⟩
  · simp [State.initial, started, hpos.ne']
  · intro k hk
    simp [State.initial, started, hk]
  · simp [State.initial, started]
  · simp [State.initial, started]
  · simp [State.initial, hpos.ne]

def OneProbe (P : Probes) (rs : List Reply) (rep : Report) : Prop :=
  ∃ r ∈ rs, rep.row = [P.start r.probe, P.sendmsg r.probe, P.xmit r.probe] ++ r.times

instance (P : Probes) (rs : List Reply) (rep : Report) : Decidable (OneProbe P rs rep) :=
  inferInstanceAs (Decidable (∃ r ∈ rs, _))

def InStep (es : List Ev) : Prop :=
  ∀ es₁ r es₂, es = es₁ ++ .reply r :: es₂ →
    r.probe = (replies es₁).length ∧ r.probe < (outs es₁).length

structure Delivered (P : Probes) where
  polls : List (List Ev)
  order : outs polls.flatten <+: range P.packNr
  probe_lt : ∀ r ∈ replies polls.flatten, r.probe < P.packNr
  times_inj : ∀ r ∈ replies polls.flatten, ∀ r' ∈ replies polls.flatten,
    r.times = r'.times → r.probe = r'.probe

def InStepFrom (o i : ℕ) (es : List Ev) : Prop :=
  ∀ es₁ r es₂, es = es₁ ++ .reply r :: es₂ →
    r.probe = i + (replies es₁).length ∧ r.probe < o + (outs es₁).length

theorem inStepFrom_zero {es : List Ev} : InStepFrom 0 0 es ↔ InStep es := by
  simp only [InStepFrom, InStep, Nat.zero_add]

section InStepFrom

variable {o i : ℕ} {es : List Ev}

theorem inStepFrom_out {p : ℕ} : InStepFrom o i (.out p :: es) ↔ InStepFrom (o + 1) i es := by
  constructor
  · rintro h es₁ r es₂ rfl
    have := h (.out p :: es₁) r es₂ rfl
    rw [outs_out, length_cons] at this
    exact ⟨this.1, by omega⟩
  · intro h es₁ r es₂ heq
    cases es₁ with
    | nil => cases heq
    | cons e es₁ =>
      obtain ⟨rfl, rfl⟩ := List.cons.inj heq
      have := h es₁ r es₂ rfl
      rw [outs_out, length_cons]
      exact ⟨this.1, by omega⟩

theorem inStepFrom_reply {r : Reply} :
    InStepFrom o i (.reply r :: es) ↔ (r.probe = i ∧ i < o) ∧ InStepFrom o (i + 1) es := by
  constructor
  · intro h
    have hfirst : r.probe = i ∧ r.probe < o := h [] r es rfl
    refine ⟨⟨hfirst.1, hfirst.1 ▸ hfirst.2⟩, ?_⟩
    rintro es₁ r' es₂ rfl
    have := h (.reply r :: es₁) r' es₂ rfl
    rw [replies_reply, length_cons] at this
    exact ⟨by omega, this.2⟩
  · rintro ⟨⟨hprobe, hlt⟩, h⟩ es₁ r' es₂ heq
    cases es₁ with
    | nil =>
      obtain ⟨hr, rfl⟩ := List.cons.inj heq
      cases hr
      exact ⟨hprobe, hprobe ▸ hlt⟩
    | cons e es₁ =>
      obtain ⟨rfl, rfl⟩ := List.cons.inj heq
      have := h es₁ r' es₂ rfl
      rw [replies_reply, length_cons]
      exact ⟨by omega, this.2⟩

theorem InStepFrom.length_le {n : ℕ} (h : InStepFrom o i es) (hi : i ≤ n)
    (hlt : ∀ r ∈ replies es, r.probe < n) : i + (replies es).length ≤ n := by
  induction es generalizing o i with
  | nil => exact hi
  | cons e es ih =>
    cases e with
    | out p => exact ih (inStepFrom_out.mp h) hi hlt
    | reply r =>
      obtain ⟨⟨hprobe, -⟩, h⟩ := inStepFrom_reply.mp h
      obtain ⟨hr, hlt⟩ := forall_mem_cons.mp hlt
      have := ih h (by omega) hlt
      rw [replies_reply, length_cons]
      omega

variable {P : Probes} {rs : List Reply}

theorem oneProbe_row_iff (hlt : ∀ r ∈ rs, r.probe < P.packNr)
    (hinj : ∀ r ∈ rs, ∀ r' ∈ rs, r.times = r'.times → r.probe = r'.probe) {r : Reply} (hr : r ∈ rs)
    (hi : i < P.packNr) : OneProbe P rs ⟨i, P.row o i r⟩ ↔ r.probe = i ∧ i < o := by
  constructor
  · rintro ⟨r', hr', heq⟩
    simp only [Probes.row, cons_append, nil_append, List.cons.injEq] at heq
    obtain ⟨hstart, hsend, -, htimes⟩ := heq
    have hprobe := P.start_inj i hi r'.probe (hlt r' hr') hstart
    refine ⟨(hinj r hr r' hr' htimes).trans hprobe.symm, ?_⟩
    -- without the OUT event there would be no time
    by_contra hout
    rw [if_neg hout] at hsend
    exact P.sendmsg_ne _ hsend.symm
  · rintro ⟨rfl, hout⟩
    exact ⟨r, hr, by simp [Probes.row, hout]⟩

theorem dumped_oneProbe_iff (hlt : ∀ r ∈ rs, r.probe < P.packNr)
    (hinj : ∀ r ∈ rs, ∀ r' ∈ rs, r.times = r'.times → r.probe = r'.probe)
    (hsub : ∀ r ∈ replies es, r ∈ rs) (hlen : i + (replies es).length ≤ P.packNr) :
    (∀ rep ∈ P.dumped o i es, OneProbe P rs rep) ↔ InStepFrom o i es := by
  induction es generalizing o i with
  | nil => simp [Probes.dumped, InStepFrom]
  | cons e es ih =>
    cases e with
    | out p =>
      rw [Probes.dumped, inStepFrom_out]
      exact ih hsub hlen
    | reply r =>
      rw [replies_reply] at hsub hlen
      rw [length_cons] at hlen
      obtain ⟨hr, hsub⟩ := forall_mem_cons.mp hsub
      rw [Probes.dumped, forall_mem_cons, inStepFrom_reply,
        oneProbe_row_iff hlt hinj hr (by omega), ih hsub (by omega)]

end InStepFrom

theorem rows_iff (junk : ℕ) (file : Bool) (P : Probes) (d : Delivered P) :
    (∃ t s, P.table = some t ∧
        (State.initial file P.packNr t).poll junk (d.polls.map (List.map P.trace)) = some s ∧
        ∀ rep ∈ s.reports, OneProbe P (replies d.polls.flatten) rep) ↔
      InStep (handled P.packNr 0 d.polls) := by
  obtain ⟨t, ht, hinv⟩ := P.exists_table file
  have hinitial := handled_initial P.packNr d.polls 0
  have hsends : P.Sends 0 (outs d.polls.flatten) := by
    rw [Probes.Sends, Nat.sub_zero, ← range_eq_range']
    exact d.order
  have hsends' : P.Sends 0 (outs (handled P.packNr 0 d.polls)) :=
    (hinitial.filterMap _).trans hsends
  have hsub : ∀ r ∈ replies (handled P.packNr 0 d.polls), r ∈ replies d.polls.flatten :=
    (hinitial.filterMap _).subset
  have hdumped := dumped_oneProbe_iff (o := 0) (i := 0) d.probe_lt d.times_inj hsub
  rw [← inStepFrom_zero]
  constructor
  · rintro ⟨t', s, ht', hs, hrows⟩
    obtain rfl := Option.some.inj (ht.symm.trans ht')
    rw [hinv.poll junk P.pos hsends] at hs
    have hlen : 0 + (replies (handled P.packNr 0 d.polls)).length ≤ P.packNr := by
      by_contra hmore
      rw [hinv.handleAll_none junk (Nat.zero_le _) hsends' (by omega)] at hs
      cases hs
    obtain ⟨s', hs', -, hreports⟩ := hinv.handleAll junk hsends' hlen
    obtain rfl := Option.some.inj (hs.symm.trans hs')
    rw [hreports, State.initial_reports, nil_append] at hrows
    exact (hdumped hlen).mp hrows
  · intro hstep
    have hlen := hstep.length_le (Nat.zero_le _) fun r hr => d.probe_lt r (hsub r hr)
    obtain ⟨s, hs, -, hreports⟩ := hinv.handleAll junk hsends' hlen
    refine ⟨t, s, ht, (hinv.poll junk P.pos hsends).trans hs, ?_⟩
    rw [hreports, State.initial_reports, nil_append]
    exact (hdumped hlen).mpr hstep

def twoProbes : Probes where
  packNr := 2
  pos := by decide
  start p := if p = 0 then 1000000 else 2000000
  sendmsg p := if p = 0 then 1001000 else 2001000
  xmit p := if p = 0 then 1002000 else 2002000
  start_inj := by decide
  sendmsg_ne p := by split_ifs <;> decide
  xmit_ne p := by split_ifs <;> decide

def firstReply : Reply := ⟨0, 1003000, 1004000, 1005000, by decide, by decide, by decide⟩

def secondReply : Reply := ⟨1, 2003000, 2004000, 2005000, by decide, by decide, by decide⟩

def replyLost : Delivered twoProbes where
  polls := [[.out 0, .out 1, .reply secondReply]]
  order := by decide
  probe_lt := by decide
  times_inj := by decide

def replyTwice : Delivered twoProbes where
  polls := [[.out 0, .out 1, .reply firstReply, .reply secondReply, .reply secondReply]]
  order := by decide
  probe_lt := by decide
  times_inj := by decide

def dumpedRows (d : Delivered twoProbes) : Option (List Report) :=
  twoProbes.table.bind fun t =>
    ((State.initial true 2 t).poll 0 (d.polls.map (List.map twoProbes.trace))).map State.reports

theorem rows_shifted :
    (∃ rep, dumpedRows replyLost = some [rep] ∧
        rep = ⟨0, [1000000, 1001000, 1002000, 2003000, 2004000, 2005000]⟩ ∧
        ¬ OneProbe twoProbes (replies replyLost.polls.flatten) rep) ∧
      dumpedRows replyTwice = none :=
  ⟨⟨_, rfl, rfl, by decide⟩, rfl⟩

end Sysak.Tcpping
