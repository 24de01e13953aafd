/-
# When a diagnosis is started
-/

import Mathlib.Data.PNat.Basic
import Sysak.IoMon.ExceptCheck

namespace Sysak.IoMon

open List

structure DiagRecord (A : Type*) where
  statWindow : ℕ
  trigger : Bool
  lastReport : ℕ
  reportInterval : ℕ
  reportCnt : ℕ
  lastDiag : ℕ
  triggerInterval : ℕ
  diagArgs : List A

namespace DiagRecord

variable {A : Type*}

def new [Zero A] (window reportInterval triggerInterval : ℕ) : DiagRecord A :=
  ⟨window, false, 0, reportInterval, 0, 0, triggerInterval, replicate 8 0⟩

def report (d : DiagRecord A) (nrSample : ℕ) : DiagRecord A :=
  let d :=
    if d.lastReport = 0 ∨ d.statWindow < nrSample - d.lastReport then
      { d with lastReport := nrSample, reportCnt := 1 }
    else { d with reportCnt := d.reportCnt + 1 }
  if d.reportInterval < d.reportCnt then
    if d.lastDiag = 0 ∨ d.triggerInterval < nrSample - d.lastDiag then
      { d with trigger := true, reportCnt := 0, lastDiag := nrSample }
    else { d with lastReport := nrSample, reportCnt := 0 }
  else d

def setUpDiagnose (d : DiagRecord A) (nrSample : ℕ) (argv : List A) : DiagRecord A :=
  let d :=
    if d.reportInterval ≠ 0 then d.report nrSample
    else if d.triggerInterval ≠ 0 then
      if d.lastDiag = 0 ∨ d.triggerInterval ≤ nrSample - d.lastDiag then
        { d with lastDiag := nrSample, trigger := true }
      else d
    else { d with trigger := true }
  { d with diagArgs := argv ++ d.diagArgs.drop argv.length }

def isException (d : DiagRecord A) : Bool :=
  d.reportInterval = 0 || d.reportInterval ≤ d.reportCnt + 1

structure Effect (d : DiagRecord A) (n : ℕ) (called : Bool) (d' : DiagRecord A) : Prop where
  const : d'.statWindow = d.statWindow ∧ d'.reportInterval = d.reportInterval ∧
    d'.triggerInterval = d.triggerInterval
  count : d'.lastReport = d.lastReport ∧ d'.reportCnt ≤ d.reportCnt + called.toNat ∨
    d'.lastReport = n ∧ d'.reportCnt ≤ called.toNat
  on : d'.trigger = true → called = true ∧
    (d.triggerInterval ≠ 0 → d'.lastDiag = n ∧
      (d.lastDiag = 0 ∨ d.triggerInterval ≤ n - d.lastDiag)) ∧
    (d.reportInterval ≠ 0 → d.lastReport ≠ 0 ∧ n ≤ d.lastReport + d.statWindow ∧
      d.reportInterval ≤ d.reportCnt)
  off : d'.trigger = false → d'.lastDiag = d.lastDiag ∧
    (called = true → d.reportInterval = 0 → d.triggerInterval ≠ 0 ∧ d.lastDiag ≠ 0)

theorem effect_setUpDiagnose {d : DiagRecord A} (hoff : d.trigger = false) (n : ℕ) (argv : List A) :
    Effect d n true (d.setUpDiagnose n argv) := by
  refine ⟨?_, ?_, fun h => ?_, fun h => ?_⟩
  · simp only [setUpDiagnose, report]
    split_ifs <;> exact ⟨rfl, rfl, rfl⟩
  · simp only [setUpDiagnose, report]
    split_ifs <;> simp
  · simp only [setUpDiagnose, report] at h ⊢
    split_ifs at h ⊢ <;> simp_all
    omega
  · simp only [setUpDiagnose, report] at h ⊢
    split_ifs at h ⊢ <;> simp_all

end DiagRecord

structure Checked (A : Type*) where
  value : ℚ
  busy : Bool
  argv : Option (List A)

structure Watch (A : Type*) where
  item : ExceptChkItem
  diag : DiagRecord A
  triggered : List ℕ

namespace Watch

variable {A : Type*}

def sample (w : Watch A) (x : Checked A) : Watch A :=
  let item := if x.busy then disableThreshComp w.item else w.item
  let nrSample := item.baseThresh.nrSample
  let diag := x.argv.elim w.diag (w.diag.setUpDiagnose nrSample)
  { item := updateDynThresh diag.statWindow item x.value
    diag := { diag with trigger := false }
    triggered := if diag.trigger then w.triggered ++ [nrSample] else w.triggered }

def run [Zero A] (window reportInterval triggerInterval : ℕ) (xs : List (Checked A)) : Watch A :=
  xs.foldl sample ⟨.new, .new window reportInterval triggerInterval, []⟩

def reports (xs : List (Checked A)) (a : ℕ) : ℕ := (xs.drop a).countP (·.argv.isSome)

structure RateLimited (w : Watch A) (xs : List (Checked A)) : Prop where
  apart : ∀ m ∈ w.triggered, ∀ n ∈ w.triggered, m < n → m + w.diag.triggerInterval ≤ n
  reported : w.diag.reportInterval ≠ 0 → ∀ n ∈ w.triggered, ∃ a, n ≤ a + w.diag.statWindow ∧
    w.diag.reportInterval < reports (xs.take (n + 1)) a

def Called (xs : List (Checked A)) (n : ℕ) : Prop := ∃ x, xs[n]? = some x ∧ x.argv.isSome

def FirstAlone (r T : ℕ) (xs : List (Checked A)) : Prop :=
  r = 0 → Called xs 0 → ∀ n, Called xs n → n = 0 ∨ T ≤ n

variable {w : Watch A} {xs : List (Checked A)} {W r T n : ℕ}

structure After (W r T : ℕ) (xs : List (Checked A)) (w : Watch A) : Prop where
  nrSample : w.item.baseThresh.nrSample = xs.length
  const : w.diag.statWindow = W ∧ w.diag.reportInterval = r ∧ w.diag.triggerInterval = T
  off : w.diag.trigger = false
  apart : FirstAlone r T xs → ∀ m ∈ w.triggered, ∀ n ∈ w.triggered, m < n → m + T ≤ n
  called : ∀ n ∈ w.triggered, Called xs n
  le : T ≠ 0 → ∀ n ∈ w.triggered, n ≤ w.diag.lastDiag
  lastReport : w.diag.lastReport ≤ xs.length
  reportCnt : w.diag.reportCnt ≤ reports xs w.diag.lastReport
  reported : r ≠ 0 → ∀ n ∈ w.triggered, n ≠ 0 ∧ ∃ a, n ≤ a + W ∧ r < reports (xs.take (n + 1)) a
  zero : r = 0 → Called xs 0 → 0 ∈ w.triggered
  mem : r = 0 → T ≠ 0 → w.diag.lastDiag ≠ 0 → w.diag.lastDiag ∈ w.triggered
  first : r = 0 → T ≠ 0 → ∀ n, Called xs n → n ≠ 0 → ∃ m ∈ w.triggered, m ≠ 0 ∧ m ≤ n

theorem called_lt (h : Called xs n) : n < xs.length := by
  obtain ⟨x, hx, -⟩ := h
  exact (List.getElem?_eq_some_iff.mp hx).1

theorem called_concat {x : Checked A} :
    Called (xs ++ [x]) n ↔ Called xs n ∨ n = xs.length ∧ x.argv.isSome := by
  rcases Nat.lt_trichotomy n xs.length with hlt | rfl | hgt
  · simp [Called, getElem?_append_left hlt, hlt.ne]
  · simp [Called]
  · simp [Called, hgt.ne', getElem?_eq_none hgt.le, getElem?_append_right hgt.le,
      getElem?_eq_none (l := [x]) (i := n - xs.length) (by simp; omega)]

theorem reports_concat (x : Checked A) {a : ℕ} (ha : a ≤ xs.length) :
    reports (xs ++ [x]) a = reports xs a + x.argv.isSome.toNat := by
  rw [reports, drop_append_of_le_length ha, countP_append, countP_singleton, reports]
  cases x.argv <;> rfl

theorem nrSample_sample (w : Watch A) (x : Checked A) :
    (w.sample x).item.baseThresh.nrSample = w.item.baseThresh.nrSample + 1 := by
  have hbusy : (if x.busy then disableThreshComp w.item else w.item).baseThresh =
      w.item.baseThresh := by
    split_ifs
    · exact (disableThreshComp_base w.item).1
    · rfl
  rw [sample, (updateDynThresh_base _ _ _).1, calcBaseThresh, hbusy]
  dsimp only
  split_ifs <;> rfl

theorem sample_effect (w : Watch A) (x : Checked A) (hoff : w.diag.trigger = false)
    (hn : w.item.baseThresh.nrSample = n) : ∃ d, DiagRecord.Effect w.diag n x.argv.isSome d ∧
      (w.sample x).diag = { d with trigger := false } ∧
      (w.sample x).triggered = w.triggered ++ if d.trigger then [n] else [] := by
  have hbusy : (if x.busy then disableThreshComp w.item else w.item).baseThresh.nrSample = n := by
    rw [← hn]
    split_ifs
    · rw [(disableThreshComp_base w.item).1]
    · rfl
  refine ⟨x.argv.elim w.diag (w.diag.setUpDiagnose n), ?_, ?_, ?_⟩
  · cases x.argv with
    | none => exact ⟨⟨rfl, rfl, rfl⟩, .inl ⟨rfl, le_rfl⟩, by simp [hoff], by simp⟩
    | some argv => exact DiagRecord.effect_setUpDiagnose hoff n argv
  · rw [sample, hbusy]
  · simp only [sample, hbusy]
    split_ifs <;> simp

theorem After.add_le_length (h : After W r T xs w)
    (hspace : T ≠ 0 → w.diag.lastDiag = 0 ∨ T ≤ xs.length - w.diag.lastDiag)
    (hfirst : r = 0 → Called xs 0 → xs.length = 0 ∨ T ≤ xs.length) {m : ℕ}
    (hm : m ∈ w.triggered) : m + T ≤ xs.length := by
  have hlt := called_lt (h.called m hm)
  by_cases hT : T = 0
  · omega
  · have hle := h.le hT m hm
    obtain hnever | hlong := hspace hT
    · -- the only trigger that is not remembered is that of the first sample
      obtain rfl : m = 0 := by omega
      have hr : r = 0 := by
        by_contra hr
        exact (h.reported hr 0 hm).1 rfl
      have := hfirst hr (h.called 0 hm)
      omega
    · omega

theorem After.sample (h : After W r T xs w) (x : Checked A) :
    After W r T (xs ++ [x]) (w.sample x) := by
  obtain ⟨d, heff, hdiag, htrig⟩ := sample_effect w x h.off h.nrSample
  obtain ⟨hW, hr, hT⟩ := h.const
  obtain ⟨hW', hr', hT'⟩ := heff.const
  have hlen : (xs ++ [x]).length = xs.length + 1 := length_append
  have hnr : (w.sample x).item.baseThresh.nrSample = (xs ++ [x]).length := by
    rw [nrSample_sample, h.nrSample, hlen]
  have hbefore (hfirst : FirstAlone r T (xs ++ [x])) : FirstAlone r T xs := fun h0 hz n hn =>
    hfirst h0 (called_concat.mpr (.inl hz)) n (called_concat.mpr (.inl hn))
  have hlt : ∀ n ∈ w.triggered, n < xs.length := fun n hn => called_lt (h.called n hn)
  have hcount : d.lastReport ≤ xs.length ∧ d.reportCnt ≤ reports (xs ++ [x]) d.lastReport := by
    have hlast := h.lastReport
    have hcnt := h.reportCnt
    obtain ⟨heq, hle⟩ | ⟨heq, hle⟩ := heff.count
    · rw [heq, reports_concat x hlast]
      exact ⟨hlast, by omega⟩
    · rw [heq, reports_concat x le_rfl]
      exact ⟨le_rfl, by omega⟩
  have hreported (hne : r ≠ 0) : ∀ n ∈ w.triggered, n ≠ 0 ∧ ∃ a, n ≤ a + W ∧
      r < reports ((xs ++ [x]).take (n + 1)) a := by
    intro n hn
    rw [take_append_of_le_length (hlt n hn)]
    exact h.reported hne n hn
  by_cases hon : d.trigger = true
  · -- the trigger is set
    obtain ⟨hx, hspace, hreports⟩ := heff.on hon
    rw [if_pos hon] at htrig
    rw [hT] at hspace
    rw [hr, hW] at hreports
    refine ⟨hnr, ?_, ?_, ?_, ?_, ?_, ?_, ?_, ?_, ?_, ?_, ?_⟩
    all_goals simp only [hdiag, htrig, called_concat, hx, and_true, mem_append, mem_singleton]
    · exact ⟨hW'.trans hW, hr'.trans hr, hT'.trans hT⟩
    · rintro hfirst m (hm | rfl) n (hn | rfl) hmn
      · exact h.apart (hbefore hfirst) m hm n hn hmn
      · refine h.add_le_length (fun hne => (hspace hne).2) (fun h0 hz => ?_) hm
        exact hfirst h0 (called_concat.mpr (.inl hz)) _ (called_concat.mpr (.inr ⟨rfl, hx⟩))
      · exact absurd hmn (hlt n hn).asymm
      · exact absurd hmn (Nat.lt_irrefl _)
    · exact fun n => Or.imp_left (h.called n)
    · rintro hne n (hn | rfl)
      · exact (hlt n hn).le.trans (hspace hne).1.ge
      · exact (hspace hne).1.ge
    · exact hcount.1.trans (hlen ▸ Nat.le_succ _)
    · exact hcount.2
    · rintro hne n (hn | rfl)
      · exact hreported hne n hn
      · obtain ⟨hpos, hwin, hle⟩ := hreports hne
        refine ⟨fun h0 => hpos (Nat.le_zero.mp (h0 ▸ h.lastReport)), w.diag.lastReport, hwin, ?_⟩
        rw [take_of_length_le hlen.le, reports_concat x h.lastReport, hx]
        exact Nat.lt_succ_of_le (hle.trans h.reportCnt)
    · exact fun h0 => Or.imp (h.zero h0) id
    · exact fun _ hne _ => .inr (hspace hne).1
    · rintro h0 hT0 n (hn | rfl) hne
      · obtain ⟨m, hm, hle⟩ := h.first h0 hT0 n hn hne
        exact ⟨m, .inl hm, hle⟩
      · exact ⟨_, .inr rfl, hne, le_rfl⟩
  · -- a call that does not set it comes after a diagnosis, or is counted
    obtain ⟨heq, hdiagnosed⟩ := heff.off (Bool.eq_false_iff.mpr hon)
    rw [if_neg hon, append_nil] at htrig
    rw [hr, hT] at hdiagnosed
    refine ⟨hnr, ?_, ?_, ?_, ?_, ?_, ?_, ?_, ?_, ?_, ?_, ?_⟩
    all_goals simp only [hdiag, htrig, called_concat, heq]
    · exact ⟨hW'.trans hW, hr'.trans hr, hT'.trans hT⟩
    · exact fun hfirst => h.apart (hbefore hfirst)
    · exact fun n hn => .inl (h.called n hn)
    · exact h.le
    · exact hcount.1.trans (hlen ▸ Nat.le_succ _)
    · exact hcount.2
    · exact hreported
    · rintro h0 (hz | ⟨hz, hx⟩)
      · exact h.zero h0 hz
      · obtain ⟨hT0, hlast⟩ := hdiagnosed hx h0
        exact absurd (hlt _ (h.mem h0 hT0 hlast)) (hz ▸ Nat.not_lt_zero _)
    · exact h.mem
    · rintro h0 hT0 n (hn | ⟨rfl, hx⟩) hne
      · exact h.first h0 hT0 n hn hne
      · have hlast := (hdiagnosed hx h0).2
        have hmem := h.mem h0 hT0 hlast
        exact ⟨_, hmem, hlast, (hlt _ hmem).le⟩

variable [Zero A]

theorem after_run (W r T : ℕ) (xs : List (Checked A)) : After W r T xs (run W r T xs) := by
  induction xs using reverseRecOn with
  | nil =>
    refine ⟨rfl, ⟨rfl, rfl, rfl⟩, rfl, ?_, ?_, ?_, le_rfl, le_rfl, ?_, ?_, ?_, ?_⟩ <;>
      simp [run, Called, DiagRecord.new]
  | append_singleton xs x ih =>
    rw [run, foldl_append, foldl_cons, foldl_nil, ← run]
    exact ih.sample x

end Watch

inductive Kind where
  | iowait | ioburst | iolat | iohang
  deriving DecidableEq

def Kind.esi : Kind → Kind
  | .ioburst => .iolat
  | .iolat => .ioburst
  | t => t

structure Es where
  cur : ℕ
  max : ℚ

structure Stats (D : Type*) where
  es : Option D → Kind → Es
  sw : Kind → Bool

inductive StatEvent (D : Type*) where
  | detected (d : Option D) (t : Kind) (counted : Bool)
  | report

namespace Stats

variable {D : Type*} [DecidableEq D]

def start : Stats D := ⟨fun _ _ => ⟨0, 0⟩, fun _ => true⟩

def checkDiagSwitchChange (s : Stats D) (t : Kind) (newSW : Bool) : Stats D where
  es d k := if newSW ≠ s.sw t ∧ newSW ∧ k = t.esi then { s.es d k with max := 0 } else s.es d k
  sw := Function.update s.sw t newSW

def count (s : Stats D) (d : Option D) (t : Kind) : Stats D :=
  { s with es := fun d' k => if d' = d ∧ k = t then { s.es d k with cur := (s.es d k).cur + 1 }
                             else s.es d' k }

def detect (s : Stats D) (d : Option D) (t : Kind) (counted newSW rDiagValid : Bool) :
    Stats D × Bool :=
  let s := (if counted then s.count d t else s).checkDiagSwitchChange t newSW
  (s, newSW && (decide ((s.es d t).max < (s.es d t).cur) || !rDiagValid))

def rate (cycle : ℕ+) : Option D → ℕ → ℚ
  | none, cur => cur
  | some _, cur => cur / (1000 / cycle)

def reportDataToRemote (cycle : ℕ+) (s : Stats D) : Stats D :=
  { s with es := fun d k =>
      let cur := rate cycle d (s.es d k).cur
      ⟨0, max (if cur ≠ 0 then (s.es d k).max else 0) cur⟩ }

def step (cycle : ℕ+) (s : Stats D) : StatEvent D → Stats D
  | .detected d t counted => (s.detect d t counted true true).1
  | .report => s.reportDataToRemote cycle

def run (cycle : ℕ+) (evs : List (StatEvent D)) : Stats D := evs.foldl (step cycle) start

def intervals (d : Option D) (t : Kind) (evs : List (StatEvent D)) : List ℕ :=
  evs.foldl (fun ns ev => match ev with
    | .report => 0 :: ns
    | .detected d' k counted => if d' = d ∧ k = t ∧ counted then ns.modifyHead (· + 1) else ns) [0]

def worst (ns : List ℕ) : ℕ := (ns.takeWhile (· ≠ 0)).foldr max 0

def RepeatsWhenWorse (cycle : ℕ+) (d : Option D) (t : Kind) (evs : List (StatEvent D)) : Prop :=
  ∀ evs₁ evs₂, evs = evs₁ ++ .detected d t true :: evs₂ →
    ∀ n ns, intervals d t (evs₁ ++ [.detected d t true]) = n :: ns →
      (((run cycle evs₁).detect d t true true true).2 = true ↔ worst ns < n)

variable {cycle : ℕ+} {d : Option D} {t : Kind}

omit [DecidableEq D] in
theorem rate_eq_zero_iff (cycle : ℕ+) (d : Option D) {n : ℕ} : rate cycle d n = 0 ↔ n = 0 := by
  cases d <;> simp [rate]

omit [DecidableEq D] in
theorem rate_mono (cycle : ℕ+) (d : Option D) : Monotone (rate cycle d) := by
  intro m n h
  cases d with
  | none => exact Nat.cast_le.mpr h
  | some d =>
    exact div_le_div_of_nonneg_right (Nat.cast_le.mpr h) (div_nonneg (by decide) (by simp))

theorem worst_cons (n : ℕ) (ns : List ℕ) :
    worst (n :: ns) = if n ≠ 0 then max n (worst ns) else 0 := by
  by_cases hn : n = 0 <;> simp [worst, hn]

theorem detect_on (s : Stats D) (hsw : ∀ k, s.sw k = true) (d' : Option D) (k : Kind)
    (counted : Bool) : (s.detect d' k counted true true).1.sw = s.sw ∧
      (s.detect d' k counted true true).1.es d t = if d' = d ∧ k = t ∧ counted then
        { s.es d t with cur := (s.es d t).cur + 1 } else s.es d t := by
  have hupdate : Function.update s.sw k true = s.sw := by
    rw [← hsw k, Function.update_eq_self]
  cases counted
  · simp [detect, checkDiagSwitchChange, hsw, hupdate]
  · simp only [detect, checkDiagSwitchChange, count, hsw, hupdate, if_true, true_and, ne_eq,
      not_true, false_and, if_false, and_true]
    split_ifs with h h' h'
    · obtain ⟨rfl, rfl⟩ := h
      rfl
    · exact absurd ⟨h.1.symm, h.2.symm⟩ h'
    · exact absurd ⟨h'.1.symm, h'.2.symm⟩ h
    · rfl

theorem run_spec (cycle : ℕ+) (d : Option D) (t : Kind) (evs : List (StatEvent D)) :
    (∀ k, (run cycle evs).sw k = true) ∧ ∃ n ns, intervals d t evs = n :: ns ∧
      (run cycle evs).es d t = ⟨n, rate cycle d (worst ns)⟩ := by
  have hzero : rate cycle d 0 = 0 := (rate_eq_zero_iff cycle d).mpr rfl
  induction evs using reverseRecOn with
  | nil => exact ⟨fun _ => rfl, 0, [], rfl, by rw [worst, takeWhile_nil, foldr_nil, hzero]; rfl⟩
  | append_singleton evs ev ih =>
    obtain ⟨hsw, n, ns, hint, hes⟩ := ih
    rw [run, foldl_append, foldl_cons, foldl_nil, ← run, intervals, foldl_append, foldl_cons,
      foldl_nil, ← intervals, hint]
    cases ev with
    | report =>
      refine ⟨hsw, 0, n :: ns, rfl, ?_⟩
      simp only [step, reportDataToRemote, hes, worst_cons, Es.mk.injEq, true_and, ne_eq,
        rate_eq_zero_iff]
      by_cases hn : n = 0
      · simp [hn, hzero]
      · rw [if_pos hn, if_pos hn, (rate_mono cycle d).map_max, max_comm]
    | detected d' k counted =>
      obtain ⟨hsw', hes'⟩ := detect_on (d := d) (t := t) (run cycle evs) hsw d' k counted
      rw [step, hsw', hes', hes]
      refine ⟨hsw, ?_⟩
      dsimp only
      split_ifs
      · exact ⟨n + 1, ns, rfl, rfl⟩
      · exact ⟨n, ns, rfl, rfl⟩

theorem detect_iff {evs : List (StatEvent D)} {n : ℕ} {ns : List ℕ}
    (hint : intervals d t (evs ++ [.detected d t true]) = n :: ns) :
    ((run cycle evs).detect d t true true true).2 = true ↔ rate cycle d (worst ns) < n := by
  obtain ⟨-, n', ns', hint', hes⟩ := run_spec cycle d t (evs ++ [.detected d t true])
  obtain ⟨rfl, rfl⟩ := List.cons.inj (hint.symm.trans hint')
  rw [run, foldl_append, foldl_cons, foldl_nil, ← run, step] at hes
  rw [detect, if_pos rfl] at hes ⊢
  dsimp only at hes ⊢
  rw [hes]
  simp

theorem repeatsWhenWorse_iff (cycle : ℕ+) (d : Option D) (t : Kind) (evs : List (StatEvent D)) :
    RepeatsWhenWorse cycle d t evs ↔ ∀ evs₁ evs₂, evs = evs₁ ++ .detected d t true :: evs₂ →
      ∀ n ns, intervals d t (evs₁ ++ [.detected d t true]) = n :: ns →
        (rate cycle d (worst ns) < n ↔ worst ns < n) :=
  forall_congr' fun _ => forall_congr' fun _ => imp_congr_right fun _ => forall_congr' fun _ =>
    forall_congr' fun _ => imp_congr_right fun hint => by rw [detect_iff hint]

theorem not_repeatsWhenWorse_slow : ¬RepeatsWhenWorse 2000 (some "sda") .ioburst
    [.detected (some "sda") .ioburst true, .report, .detected (some "sda") .ioburst true,
      .detected (some "sda") .ioburst true] := by
  intro h
  have hcall := h [.detected (some "sda") .ioburst true, .report,
    .detected (some "sda") .ioburst true] [] rfl 2 [1] (by decide +kernel)
  rw [detect_iff (by decide +kernel : _ = 2 :: [1])] at hcall
  exact absurd (hcall.mpr (by decide)) (by decide +kernel)

end Stats

end Sysak.IoMon
