/-
# Running a sub-tool
-/

import Sysak.Lib.Shell

namespace Sysak.Cli

open Lib Lib.Shell List Option

structure Install where
  componentsPath : Bytes
  kernVersion : Bytes
  tool : Bytes
  found : Bool
  runDepend : Bytes
  python : Bool
  python2 : Bool
  python3 : Bool
  plain : ∀ c ∈ componentsPath ++ (kernVersion ++ tool), isPlain c = true

def snprintf (n : ℕ) (s : Bytes) : Bytes := s.take (n - 1)

def argText (arg : Bytes) : Bytes := 32 :: 34 :: (arg ++ [34])

def argsText (args : List Bytes) : Bytes := args.flatMap argText

def catArgs : Bytes → List Bytes → Option Bytes
  | name, [] => some name
  | name, arg :: args =>
    let name := name ++ snprintf 512 (argText arg)
    if name.length < 576 then catArgs name args else none

namespace Install

def toolsPath (e : Install) : Bytes := snprintf 512 (e.componentsPath ++ bytes "/tools/")

def workPath (e : Install) : Bytes :=
  snprintf 512 (bytes "export SYSAK_WORK_PATH=" ++ e.componentsPath)

def toolFile (e : Install) : Bytes :=
  if e.found then e.toolsPath ++ e.tool else e.toolsPath ++ (e.kernVersion ++ e.tool)

def addPythonDepend (e : Install) : Option Bytes :=
  if e.runDepend = bytes "all" then
    if e.python then some (bytes "python")
    else if e.python2 then some (bytes "python2")
    else if e.python3 then some (bytes "python3")
    else none
  else if e.runDepend = bytes "python3" then some (bytes "python3")
  else if e.runDepend = bytes "python2" then some (bytes "python2")
  else none

def toolsExec (e : Install) (subcmd : Bytes) : Option Bytes :=
  if e.runDepend ≠ [] then
    some (match e.addPythonDepend with
      | some p => snprintf 512 (p ++ 32 :: subcmd)
      | none => [])
  else if subcmd.length < 512 then some subcmd
  else none

def exectue (e : Install) (args : List Bytes) : Option Bytes :=
  (catArgs (snprintf 576 e.toolFile) args).bind fun subcmd =>
    (e.toolsExec subcmd).map fun exec => snprintf 576 (e.workPath ++ 59 :: exec)

def front (e : Install) : Option (List Bytes) :=
  if e.runDepend = [] then some [] else e.addPythonDepend.map fun p => [p]

def lead (e : Install) : List Token :=
  [.word (bytes "export"), .word (e.workPath.drop 7), .separator] ++ (e.front.getD []).map .word

def PassesThrough (e : Install) (args : List Bytes) : Prop :=
  ∃ cmd, e.exectue args = some cmd ∧
    Shell.lex .plain none cmd = some (e.lead ++ (e.toolFile :: args).map .word)

def body (e : Install) (args : List Bytes) : Bytes :=
  (e.front.getD []).flatMap (· ++ [32]) ++ (e.toolFile ++ argsText args)

end Install

theorem argsText_cons (arg : Bytes) (args : List Bytes) :
    argsText (arg :: args) = 32 :: 34 :: (arg ++ 34 :: argsText args) := by
  simp [argsText, argText]

theorem head?_argsText (args : List Bytes) (k : ℕ) :
    ∀ c ∈ ((argsText args).take k).head?, c = 32 := by
  intro c hc
  cases args with
  | nil => simp [argsText] at hc
  | cons arg args =>
    rw [argsText_cons] at hc
    cases k with
    | zero => simp at hc
    | succ k => simpa using hc.symm

variable {args : List Bytes}

theorem lex_argsText (hargs : ∀ a ∈ args, Clean a) (w : Bytes) :
    Shell.lex .plain (some w) (argsText args) = some ((w :: args).map .word) := by
  induction args generalizing w with
  | nil => rfl
  | cons arg args ih =>
    obtain ⟨harg, hargs⟩ := forall_mem_cons.mp hargs
    have hquote : Shell.lex .plain none (34 :: (arg ++ 34 :: argsText args)) =
        some ((arg :: args).map .word) := by
      rw [Shell.lex, if_neg (by decide), if_neg (by decide), if_pos rfl, push, getD_none,
        append_nil, lex_double_of_clean harg, nil_append, ih hargs]
    rw [argsText_cons, Shell.lex, if_pos (Or.inl rfl), hquote]
    rfl

theorem clean_of_lex_argsText (hargs : ∀ a ∈ args, 34 ∉ a) : ∀ {w : Bytes}
    {k : ℕ}, Shell.lex .plain (some w) ((argsText args).take k) = some ((w :: args).map .word) →
      (∀ a ∈ args, Clean a) ∧ (argsText args).length ≤ k := by
  induction args with
  | nil => exact fun _ => ⟨fun a ha => absurd ha not_mem_nil, Nat.zero_le _⟩
  | cons arg args ih =>
    intro w k h
    obtain ⟨harg, hargs⟩ := forall_mem_cons.mp hargs
    rw [argsText_cons] at h ⊢
    rcases k with _ | _ | k
    · exact absurd h (by simp [Shell.lex, emit])
    · exact absurd h (by simp [Shell.lex, emit])
    · rw [take_succ_cons, take_succ_cons, Shell.lex, if_pos (Or.inl rfl), Shell.lex,
        if_neg (by decide), if_neg (by decide), if_pos rfl] at h
      obtain ⟨ts, hts, heq⟩ := map_eq_some_iff.mp h
      obtain ⟨-, rfl⟩ := List.cons.inj heq
      by_cases hk : k ≤ arg.length
      · rw [take_append_of_le_length hk,
          (lex_double_eq_none (fun hm => harg (mem_of_mem_take hm)) _).1] at hts
        exact absurd hts (by simp)
      · obtain ⟨k', rfl⟩ := Nat.exists_eq_add_of_lt (Nat.not_le.mp hk)
        rw [Nat.add_assoc, take_length_add_append, take_succ_cons] at hts
        have hclean : Clean arg := clean_of_lex_double harg (head?_argsText args k') hts
        rw [push, getD_none, append_nil, lex_double_of_clean hclean,
          nil_append] at hts
        obtain ⟨hrest, hlen⟩ := ih hargs hts
        refine ⟨forall_mem_cons.mpr ⟨hclean, hrest⟩, ?_⟩
        simp only [length_cons, length_append]
        omega

def PlainWord (p : Bytes) : Prop := p ≠ [] ∧ ∀ c ∈ p, isPlain c = true

theorem plainWord_of_all {p : Bytes} (hne : p ≠ []) (hall : p.all isPlain = true) : PlainWord p :=
  ⟨hne, List.all_eq_true.mp hall⟩

theorem lex_words {ps : List Bytes} (hps : ∀ p ∈ ps, PlainWord p) (s : Bytes) :
    Shell.lex .plain none (ps.flatMap (· ++ [32]) ++ s) =
      (Shell.lex .plain none s).map (ps.map Token.word ++ ·) := by
  induction ps with
  | nil => simp
  | cons p ps ih =>
    obtain ⟨⟨hne, hp⟩, hps⟩ := forall_mem_cons.mp hps
    rw [flatMap_cons, append_assoc, append_assoc, lex_plain_none hne hp,
      singleton_append, Shell.lex, if_pos (Or.inl rfl), ih hps, Option.map_map]
    rfl

variable (e : Install)

namespace Install

theorem addPythonDepend_plain {e : Install} {p : Bytes} (hp : e.addPythonDepend = some p) :
    PlainWord p := by
  have hpython : PlainWord (bytes "python") := plainWord_of_all (by decide) (by decide)
  have hpython2 : PlainWord (bytes "python2") := plainWord_of_all (by decide) (by decide)
  have hpython3 : PlainWord (bytes "python3") := plainWord_of_all (by decide) (by decide)
  rw [addPythonDepend] at hp
  split_ifs at hp
  · exact some.inj hp ▸ hpython
  · exact some.inj hp ▸ hpython2
  · exact some.inj hp ▸ hpython3
  · exact some.inj hp ▸ hpython3
  · exact some.inj hp ▸ hpython2

theorem front_plain : ∀ p ∈ e.front.getD [], PlainWord p := by
  intro p hp
  rw [front] at hp
  split_ifs at hp
  · exact absurd hp not_mem_nil
  · cases h : e.addPythonDepend with
    | none =>
      rw [h] at hp
      exact absurd hp not_mem_nil
    | some q =>
      rw [h] at hp
      obtain rfl : p = q := by simpa using hp
      exact addPythonDepend_plain h

theorem toolFile_plain : PlainWord e.toolFile := by
  have htools : ∀ c ∈ e.toolsPath, isPlain c = true := by
    intro c hc
    rcases mem_append.mp (mem_of_mem_take hc) with hc | hc
    · exact e.plain c (mem_append_left _ hc)
    · exact (plainWord_of_all (p := bytes "/tools/") (by decide) (by decide)).2 c hc
  have hne : e.toolsPath ≠ [] := by
    have hlen : 0 < e.toolsPath.length := by
      simp [toolsPath, snprintf, bytes]
    exact ne_nil_of_length_pos hlen
  have hplain := forall_mem_append.mp (forall_mem_append.mp e.plain).2
  rw [toolFile]
  split_ifs
  · exact ⟨by simp [hne], forall_mem_append.mpr ⟨htools, hplain.2⟩⟩
  · exact ⟨by simp [hne], forall_mem_append.mpr ⟨htools, forall_mem_append.mpr hplain⟩⟩

theorem workPath_eq : e.workPath = bytes "export" ++ 32 :: e.workPath.drop 7 ∧
    PlainWord (e.workPath.drop 7) := by
  have htext : bytes "export SYSAK_WORK_PATH=" ++ e.componentsPath =
      (bytes "export" ++ [32]) ++ (bytes "SYSAK_WORK_PATH=" ++ e.componentsPath) := by
    rw [← append_assoc]
    rfl
  have hwork : e.workPath = (bytes "export" ++ [32]) ++
      (bytes "SYSAK_WORK_PATH=" ++ e.componentsPath).take 504 := by
    rw [workPath, snprintf, htext, take_append]
    rfl
  have hdrop : e.workPath.drop 7 = (bytes "SYSAK_WORK_PATH=" ++ e.componentsPath).take 504 := by
    rw [hwork]
    exact drop_left' (by decide)
  rw [hdrop]
  refine ⟨by rw [hwork]; simp, ?_, fun c hc => ?_⟩
  · exact ne_nil_of_length_pos (by simp [bytes])
  · rcases mem_append.mp (mem_of_mem_take hc) with hc | hc
    · exact (plainWord_of_all (p := bytes "SYSAK_WORK_PATH=") (by decide) (by decide)).2 c hc
    · exact e.plain c (mem_append_left _ hc)

theorem lex_workPath (s : Bytes) : Shell.lex .plain none (e.workPath ++ 59 :: s) =
    (Shell.lex .plain none s).map
      ([.word (bytes "export"), .word (e.workPath.drop 7), .separator] ++ ·) := by
  obtain ⟨hwork, hne, hassign⟩ := e.workPath_eq
  have hexport : PlainWord (bytes "export") := plainWord_of_all (by decide) (by decide)
  rw [hwork, append_assoc, lex_plain_none hexport.1 hexport.2, cons_append, Shell.lex,
    if_pos (Or.inl rfl), lex_plain_none hne hassign, Shell.lex, if_neg (by decide),
    if_pos (by decide),
    Option.map_map]
  rfl

theorem lex_lead (s : Bytes) :
    Shell.lex .plain none (e.workPath ++ 59 :: ((e.front.getD []).flatMap (· ++ [32]) ++
      (e.toolFile ++ s))) = (Shell.lex .plain (some e.toolFile) s).map (e.lead ++ ·) := by
  rw [e.lex_workPath, lex_words e.front_plain,
    lex_plain_none e.toolFile_plain.1 e.toolFile_plain.2, Option.map_map]
  refine congrArg (fun f => Option.map f _) (funext fun ts => ?_)
  rw [lead, append_assoc]
  rfl

end Install

theorem take_append_take (a b : Bytes) (n : ℕ) : (a ++ b.take n).take n = (a ++ b).take n := by
  rw [take_append, take_append, take_take, Nat.min_eq_left (Nat.sub_le n _)]

theorem take_take_append {a : Bytes} (b : Bytes) {m n : ℕ} (h : n ≤ m) :
    (a.take m ++ b).take n = (a ++ b).take n := by
  by_cases hlen : a.length ≤ m
  · rw [take_of_length_le hlen]
  · rw [take_append_of_le_length (by rw [length_take]; omega), take_take,
      Nat.min_eq_left h, take_append_of_le_length (by omega)]

theorem catArgs_take : ∀ {name subcmd : Bytes},
    catArgs name args = some subcmd → subcmd.take 511 = (name ++ argsText args).take 511 := by
  induction args with
  | nil =>
    intro name subcmd h
    obtain rfl := some.inj h
    rw [argsText, flatMap_nil, append_nil]
  | cons arg args ih =>
    intro name subcmd h
    rw [catArgs] at h
    split_ifs at h
    have hcut := take_take_append (a := argText arg) (argsText args) (le_refl 511)
    rw [ih h, snprintf, append_assoc, ← take_append_take, hcut, take_append_take]
    rfl

theorem catArgs_eq_some : ∀ {name : Bytes},
    (name ++ argsText args).length < 512 → catArgs name args = some (name ++ argsText args) := by
  induction args with
  | nil =>
    intro name _
    rw [argsText, flatMap_nil, append_nil]
    rfl
  | cons arg args ih =>
    intro name h
    have htext : argsText (arg :: args) = argText arg ++ argsText args := rfl
    rw [htext, ← append_assoc] at h ⊢
    have hlen := h
    rw [length_append, length_append] at hlen
    rw [catArgs, snprintf, take_of_length_le (by omega)]
    rw [if_pos (by rw [length_append]; omega), ih h]

namespace Install

theorem toolsExec_take {subcmd exec : Bytes} (hfront : e.front ≠ none)
    (hcat : catArgs (snprintf 576 e.toolFile) args = some subcmd)
    (hexec : e.toolsExec subcmd = some exec) : exec = (e.body args).take 511 := by
  have hsub : subcmd.take 511 = (e.toolFile ++ argsText args).take 511 := by
    rw [catArgs_take hcat, snprintf, take_take_append _ (by decide)]
  rw [toolsExec] at hexec
  rw [body, front]
  split_ifs at hexec with hdep hlen
  · rw [front, if_neg hdep] at hfront
    rw [if_neg hdep]
    cases hadd : e.addPythonDepend with
    | none => exact absurd (by rw [hadd]; rfl) hfront
    | some p =>
      rw [hadd] at hexec
      obtain rfl := some.inj hexec
      have htext : p ++ 32 :: subcmd = ([p].flatMap (· ++ [32])) ++ subcmd := by simp
      show (p ++ 32 :: subcmd).take 511 = _
      rw [htext, ← take_append_take, hsub, take_append_take]
      rfl
  · obtain rfl := some.inj hexec
    rw [if_pos (not_not.mp hdep), ← take_of_length_le (Nat.le_of_lt_succ hlen), hsub]
    rfl

def full (e : Install) (args : List Bytes) : Bytes := e.workPath ++ 59 :: e.body args

theorem exectue_take {cmd : Bytes} (hfront : e.front ≠ none) (h : e.exectue args = some cmd) :
    cmd = (e.full args).take (min 575 (e.workPath.length + 512)) := by
  obtain ⟨subcmd, hcat, h⟩ := bind_eq_some_iff.mp h
  obtain ⟨exec, hexec, rfl⟩ := map_eq_some_iff.mp h
  have hcut : e.workPath ++ 59 :: (e.body args).take 511 =
      (e.full args).take (e.workPath.length + 512) := by
    rw [full, take_length_add_append]
    rfl
  rw [e.toolsExec_take hfront hcat hexec, snprintf, hcut, take_take]

theorem exectue_eq_some (hfront : e.front ≠ none) (hbody : (e.body args).length < 512)
    (hfull : (e.full args).length < 576) : e.exectue args = some (e.full args) := by
  have hlen : (e.toolFile ++ argsText args).length < 512 := by
    rw [body, length_append] at hbody
    omega
  have htool : e.toolFile.length < 512 := by
    rw [length_append] at hlen
    omega
  have hname : snprintf 576 e.toolFile = e.toolFile := take_of_length_le (by omega)
  have hcat := catArgs_eq_some hlen
  rw [← hname] at hcat
  have hsome : ∃ exec, e.toolsExec (snprintf 576 e.toolFile ++ argsText args) = some exec := by
    rw [toolsExec]
    split_ifs with hdep hsub
    · exact ⟨_, rfl⟩
    · exact ⟨_, rfl⟩
    · rw [hname] at hsub
      exact absurd hlen hsub
  obtain ⟨exec, hexec⟩ := hsome
  have hbody' : exec = e.body args := by
    rw [e.toolsExec_take hfront hcat hexec, take_of_length_le (Nat.le_of_lt_succ hbody)]
  rw [exectue, hcat, bind_some, hexec, hbody']
  exact congrArg some (take_of_length_le (Nat.le_of_lt_succ hfull))

end Install

theorem words_append (ts ts' : List Token) : words (ts ++ ts') = words ts ++ words ts' := by
  induction ts with
  | nil => rfl
  | cons t ts ih => cases t <;> simp [words, ih]

theorem words_map_word (ws : List Bytes) : words (ws.map .word) = ws := by
  induction ws with
  | nil => rfl
  | cons w ws ih => rw [map_cons, words, ih]

theorem length_argsText (args : List Bytes) :
    (argsText args).length = args.flatten.length + 3 * args.length ∧
      (argsText args).count 34 = args.flatten.count 34 + 2 * args.length := by
  induction args with
  | nil => exact ⟨rfl, rfl⟩
  | cons arg args ih =>
    rw [argsText_cons]
    constructor
    · simp [ih.1]
      omega
    · simp [ih.2, count_append]
      omega

theorem length_blanks (ps : List Bytes) :
    (ps.flatMap (· ++ [32])).length = ps.flatten.length + ps.length ∧
      (ps.flatMap (· ++ [32])).count 34 = ps.flatten.count 34 := by
  induction ps with
  | nil => exact ⟨rfl, rfl⟩
  | cons p ps ih =>
    constructor
    · simp [ih.1]
      omega
    · simp [ih.2, count_append]

namespace Install

def allWords (e : Install) (args : List Bytes) : List Bytes :=
  [bytes "export", e.workPath.drop 7] ++ (e.front.getD [] ++ e.toolFile :: args)

theorem words_lead (args : List Bytes) :
    words (e.lead ++ (e.toolFile :: args).map .word) = e.allWords args := by
  rw [lead, words_append, words_append, words_map_word, words_map_word, append_assoc]
  rfl

theorem length_full (args : List Bytes) :
    (e.full args).length =
        (e.allWords args).flatten.length + 2 + (e.front.getD []).length + 3 * args.length ∧
      (e.full args).count 34 = (e.allWords args).flatten.count 34 + 2 * args.length := by
  obtain ⟨hwork, -⟩ := e.workPath_eq
  obtain ⟨hargs, hargs'⟩ := length_argsText args
  obtain ⟨hfront, hfront'⟩ := length_blanks (e.front.getD [])
  have hfull : e.full args = bytes "export" ++ 32 :: e.workPath.drop 7 ++
      59 :: ((e.front.getD []).flatMap (· ++ [32]) ++ (e.toolFile ++ argsText args)) := by
    rw [full, body]
    nth_rewrite 1 [hwork]
    rfl
  rw [hfull, allWords]
  constructor
  · simp only [length_append, length_cons, flatten_append, flatten_cons,
      flatten_nil, length_nil, hargs, hfront]
    omega
  · simp only [count_append, count_cons, flatten_append, flatten_cons,
      flatten_nil, count_nil, hargs', hfront']
    simp
    omega

theorem of_lex_take {k : ℕ}
    (h : Shell.lex .plain none ((e.full args).take k) =
      some (e.lead ++ (e.toolFile :: args).map .word)) :
    (∀ a ∈ args, 34 ∉ a) ∧ (e.full args).length ≤ k + (argsText args).length := by
  obtain ⟨o, hle, hq, -⟩ := lex_count h
  obtain ⟨hlen, hcount⟩ := e.length_full args
  rw [e.words_lead] at hle hq
  have hsplit := congrArg List.length (take_append_drop k (e.full args))
  have hsplit' := congrArg (List.count 34) (take_append_drop k (e.full args))
  rw [length_append] at hsplit
  rw [count_append] at hsplit'
  have hwords : (e.allWords args).length = 3 + (e.front.getD []).length + args.length := by
    simp [allWords]
    omega
  -- what is cut off can only be quotes
  have hcut : ((e.full args).drop k).count 34 ≤ ((e.full args).drop k).length :=
    count_le_length
  simp only [getD_none, count_nil, length_nil, Mode.pending] at hle hq
  have hzero := hq (by omega)
  obtain ⟨hargs, -⟩ := length_argsText args
  refine ⟨fun a ha hmem => ?_, ?_⟩
  · have hin : (34 : UInt8) ∈ (e.allWords args).flatten :=
      mem_flatten.mpr ⟨a, by simp [allWords, ha], hmem⟩
    exact absurd (count_pos_iff.mpr hin) (by omega)
  · rw [length_drop] at hsplit hcut
    omega

theorem front_ne_none {e : Install} (h : e.PassesThrough args) : e.front ≠ none := by
  intro hfront
  obtain ⟨cmd, hcmd, hlex⟩ := h
  obtain ⟨subcmd, -, hcmd⟩ := bind_eq_some_iff.mp hcmd
  obtain ⟨exec, hexec, rfl⟩ := map_eq_some_iff.mp hcmd
  have hdep : e.runDepend ≠ [] := by
    intro hdep
    rw [front, if_pos hdep] at hfront
    exact absurd hfront (by simp)
  have hadd : e.addPythonDepend = none := by
    rw [front, if_neg hdep] at hfront
    exact map_eq_none_iff.mp hfront
  rw [toolsExec, if_pos hdep, hadd] at hexec
  obtain rfl := some.inj hexec
  have hlen : e.workPath.length ≤ 511 := length_take_le _ _
  have hcmd : snprintf 576 (e.workPath ++ [59]) = e.workPath ++ [59] := by
    refine take_of_length_le ?_
    rw [length_append, length_singleton]
    omega
  rw [hcmd, e.lex_workPath, lead, hfront] at hlex
  have := congrArg List.length (some.inj hlex)
  simp [emit] at this

theorem passesThrough_iff (e : Install) (args : List Bytes) :
    e.PassesThrough args ↔ e.front ≠ none ∧ (∀ a ∈ args, Clean a) ∧
      (e.body args).length < 512 ∧ (e.full args).length < 576 := by
  constructor
  · intro h
    have hfront := front_ne_none h
    obtain ⟨cmd, hcmd, hlex⟩ := h
    rw [e.exectue_take hfront hcmd] at hlex
    obtain ⟨hquote, hlen⟩ := e.of_lex_take hlex
    let pre := e.workPath ++ 59 :: ((e.front.getD []).flatMap (· ++ [32]) ++ e.toolFile)
    have hfull : e.full args = pre ++ argsText args := by simp [pre, full, body]
    obtain ⟨k, hk⟩ : ∃ k, min 575 (e.workPath.length + 512) = pre.length + k := by
      refine Nat.exists_eq_add_of_le ?_
      rw [hfull, length_append] at hlen
      omega
    have hcut : (e.full args).take (pre.length + k) = e.workPath ++
        59 :: ((e.front.getD []).flatMap (· ++ [32]) ++
          (e.toolFile ++ (argsText args).take k)) := by
      rw [hfull, take_length_add_append]
      simp [pre]
    rw [hk, hcut, e.lex_lead] at hlex
    obtain ⟨ts, hts, heq⟩ := map_eq_some_iff.mp hlex
    rw [append_cancel_left heq] at hts
    obtain ⟨hclean, hargs⟩ := clean_of_lex_argsText hquote hts
    have hle : (e.full args).length ≤ min 575 (e.workPath.length + 512) := by
      rw [hk, hfull, length_append]
      omega
    refine ⟨hfront, hclean, ?_, by omega⟩
    rw [full, length_append, length_cons] at hle
    omega
  · rintro ⟨hfront, hclean, hbody, hfull⟩
    refine ⟨e.full args, e.exectue_eq_some hfront hbody hfull, ?_⟩
    rw [full, body, e.lex_lead, lex_argsText hclean]
    rfl

end Install

def surftrace : Install :=
  ⟨bytes "/usr/local/sysak/.sysak_components", bytes "5.10.0", bytes "surftrace", true, [], false,
    false, false, List.all_eq_true.mp (by decide)⟩

theorem exectue_unquoted :
    (surftrace.exectue [bytes "a\\"]).bind (Shell.lex .plain none) = none ∧
      (surftrace.exectue [bytes "$(id)"]).bind (Shell.lex .plain none) = none ∧
      (surftrace.exectue [bytes "a\\\\b"]).bind (Shell.lex .plain none) =
        some (surftrace.lead ++ [.word surftrace.toolFile, .word (bytes "a\\b")]) := by
  decide +kernel

end Sysak.Cli
