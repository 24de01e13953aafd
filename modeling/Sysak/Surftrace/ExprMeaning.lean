/-
# What the expressions of surftrace mean
-/

import Mathlib.Data.Bool.AllAny
import Mathlib.Data.List.Pairwise
import Mathlib.Data.List.TakeWhile
import Sysak.Surftrace.Expr

namespace Sysak.Surftrace

open Lib List Option

structure Machine where
  regs : Register → ℕ
  mem : ℕ → ℕ

inductive Place where
  | value (v : ℕ)
  | mem (a : ℕ)

def Place.word (m : Machine) : Place → ℕ
  | .value v => v
  | .mem a => m.mem a

inductive Fetch where
  | reg (r : Register)
  | deref (off : ℕ) (e : Fetch)

namespace Fetch

def text : Fetch → List Char
  | reg r => r.text
  | deref off e => fxprAddPoint off e.text

def word (m : Machine) : Fetch → ℕ
  | reg r => m.regs r
  | deref off e => m.mem (e.word m + off)

def place (m : Machine) : Fetch → Place
  | reg r => .value (m.regs r)
  | deref off e => .mem (e.word m + off)

theorem word_place (m : Machine) (f : Fetch) : (f.place m).word m = f.word m := by
  cases f <;> rfl

end Fetch

theorem noBracket_offset (off : ℕ) : ∀ c ∈ "+0x".toList ++ hex off, decide (c ≠ '(') = true := by
  have hmark : ∀ c ∈ "+0x".toList, decide (c ≠ '(') = true :=
    all_iff_forall_prop.mp (by decide)
  refine forall_mem_append.mpr ⟨hmark, fun c hc => decide_eq_true ?_⟩
  rintro rfl
  exact absurd ((hex_spec off).1 _ hc).1 (by decide)

theorem split_fxprAddPoint (off : ℕ) (s : List Char) :
    (fxprAddPoint off s).takeWhile (· ≠ '(') = "+0x".toList ++ hex off ∧
      (fxprAddPoint off s).dropWhile (· ≠ '(') = '(' :: (s ++ [')']) := by
  rw [fxprAddPoint, ← append_assoc]
  exact ⟨by rw [takeWhile_append_of_pos (noBracket_offset off)]; simp,
    by rw [dropWhile_append_of_pos (noBracket_offset off)]; simp⟩

theorem dropWhile_register (r : Register) : r.text.dropWhile (· ≠ '(') = [] := by
  rw [dropWhile_eq_nil_iff]
  intro c hc
  rw [decide_eq_true_eq]
  rintro rfl
  exact r.noBracket hc

theorem fxprAddMem_reg (off : ℕ) (r : Register) :
    fxprAddMem off (Fetch.reg r).text = .error .register := by
  rw [fxprAddMem, Fetch.text, dropWhile_register]

theorem fxprAddMem_deref (off last : ℕ) (e : Fetch) :
    fxprAddMem off (Fetch.deref last e).text = .ok (Fetch.deref (off + last) e).text := by
  obtain ⟨htake, hdrop⟩ := split_fxprAddPoint last e.text
  obtain ⟨hhex, hval⟩ := hex_spec last
  have hnum : int16 (("+0x".toList ++ hex last).drop 1) = some last := by
    rw [← hval]
    nth_rewrite 1 [hval]
    exact int16_prefixed (hex_ne_nil last) hhex
  rw [fxprAddMem, Fetch.text, hdrop]
  simp only [htake, hnum]
  rfl

theorem Fetch.text_reg_ne (r : Register) (off : ℕ) (e : Fetch) :
    (Fetch.reg r).text ≠ (Fetch.deref off e).text := by
  intro h
  have hdrop := congrArg (dropWhile (· ≠ '(')) h
  simp only [Fetch.text] at hdrop
  rw [dropWhile_register, (split_fxprAddPoint off e.text).2] at hdrop
  cases hdrop

theorem Fetch.text_injective : Function.Injective Fetch.text := by
  intro f
  induction f with
  | reg r =>
    intro g h
    cases g with
    | reg r' =>
      cases r
      cases r'
      exact congrArg Fetch.reg (by simpa [Fetch.text] using h)
    | deref off e => exact absurd h (text_reg_ne r off e)
  | deref off e ih =>
    intro g h
    cases g with
    | reg r' => exact absurd h.symm (text_reg_ne r' off e)
    | deref off' e' =>
      have htake := congrArg (takeWhile (· ≠ '(')) h
      have hdrop := congrArg (dropWhile (· ≠ '(')) h
      simp only [Fetch.text] at htake hdrop
      rw [(split_fxprAddPoint off e.text).1, (split_fxprAddPoint off' e'.text).1] at htake
      rw [(split_fxprAddPoint off e.text).2, (split_fxprAddPoint off' e'.text).2] at hdrop
      obtain rfl := hex_injective (append_cancel_left htake)
      rw [ih (append_cancel_right (List.cons.inj hdrop).2)]

def CType.isScalar : CType → Bool
  | .named _ scalar => scalar
  | .struct _ _ => false
  | .ptr _ => true

inductive CExpr where
  | obj (type : CType) (dims : List ℕ) (place : Place)
  | nested (S : CStruct) (path : List String) (base : ℕ)

def cEnter (db : Db) (m : Machine) : Mode → CExpr → Option (CStruct × List String × ℕ)
  | .arrow, .obj (.ptr (.struct _ tag)) [] p => (db.structs tag).map fun S => (S, [], p.word m)
  | .arrow, .obj (.struct _ tag) [_] (.mem a) => (db.structs tag).map fun S => (S, [], a)
  | .dot, .obj (.struct _ tag) [] (.mem a) => (db.structs tag).map fun S => (S, [], a)
  | .dot, .nested S path base => some (S, path, base)
  | _, _ => none

def cMember (S : CStruct) (base : ℕ) (path : List String) (index : Option ℕ) : Option CExpr :=
  match S.cells.find? (·.name = path), index with
  | some c, none => some (.obj c.type c.dims (.mem (base + c.offset)))
  | some c, some i =>
    match c.dims with
    | [] => none
    | d :: ds =>
      if i < d then
        some (.obj c.type ds (.mem (base + (c.offset + i * (ds.prod * c.elem)))))
      else
        none
  | none, none => if S.cells.any (path.isPrefixOf ·.name) then some (.nested S path base) else none
  | none, some _ => none

def cCast (m : Machine) (T : CType) : CExpr → Option CExpr
  | .obj t [] p =>
    if T.isScalar && t.isScalar then some (.obj T [] (.value (p.word m))) else none
  | .obj _ (_ :: _) (.mem a) => if T.isScalar then some (.obj T [] (.value a)) else none
  | _ => none

def cStep (db : Db) (m : Machine) (e : CExpr) (s : Step) : Option CExpr :=
  match cEnter db m s.mode e with
  | none => none
  | some (S, path, base) =>
    match cMember S base (path ++ [s.name]) s.index with
    | none => none
    | some e' =>
      match s.cast with
      | none => some e'
      | some T => cCast m T e'

def cSteps (db : Db) (m : Machine) : CExpr → List Step → Option CExpr
  | e, [] => some e
  | e, s :: ss =>
    match cStep db m e s with
    | none => none
    | some e' => cSteps db m e' ss

def cHead (m : Machine) (p : Path) : Option CExpr :=
  match p.cast with
  | none => some (.obj p.declared [] (.value (m.regs p.reg)))
  | some T => cCast m T (.obj p.declared [] (.value (m.regs p.reg)))

def cPath (db : Db) (m : Machine) (p : Path) : Option CExpr :=
  match cHead m p with
  | none => none
  | some e => cSteps db m e p.steps

def Agrees (m : Machine) (f : Fetch) (shown : Shown) : CExpr → Prop
  | .nested _ _ _ => False
  | .obj t _ p =>
    match shown with
    | .string =>
      if inText "char *".toList t.text then f.place m = .mem (p.word m) else f.place m = p
    | .number _ _ =>
      match p with
      | .value v => f.word m = v
      | .mem a => f.place m = .mem a

def Preserves (db : Db) (p : Path) (out : List Char × Shown) : Prop :=
  ∃ f : Fetch, out.1 = f.text ∧ ∀ m : Machine, ∃ e, cPath db m p = some e ∧ Agrees m f out.2 e

def St.ModeFits (st : St) (mode : Mode) : Prop :=
  match st.pos, mode with
  | .complete t, .arrow => ∃ q tag, t = .ptr (.struct q tag)
  | .complete _, .dot => ∀ r : Register, st.fxpr ≠ r.text
  | .inside _, mode => mode = .dot

def Step.left (s : Step) (c : Cell) : List ℕ := if s.index.isSome then c.dims.tail else c.dims

def MemberFits (s : Step) (c : Cell) : Prop :=
  (∀ i, s.index = some i → i < c.indexMax) ∧
    ∀ T, s.cast = some T → T.isScalar = true ∧ c.type.isScalar = true ∧ s.left c = []

def StepFits (db : Db) (left : List ℕ) (st : St) (s : Step) : Prop :=
  left = [] ∧ st.ModeFits s.mode ∧
    match look db st.pos s with
    | .ok (_, .cell c) => MemberFits s c
    | .ok (_, .nested) => s.cast = none
    | .error _ => True

def leftBehind (db : Db) (pos : Position) (s : Step) : List ℕ :=
  match look db pos s with
  | .ok (_, .cell c) => if s.cast.isSome then [] else s.left c
  | _ => []

def StepsFit (db : Db) : List ℕ → St → List Step → Prop
  | _, _, [] => True
  | left, st, s :: ss =>
    StepFits db left st s ∧
      ∀ st', cellStep db st s = .ok st' → StepsFit db (leftBehind db st.pos s) st' ss

def PathFits (db : Db) (p : Path) : Prop :=
  (∀ T, p.cast = some T → T.isScalar = true ∧ p.declared.isScalar = true) ∧
    StepsFit db [] p.start p.steps

theorem ok_of_bind {α β : Type*} {x : Except Refusal α} {f : α → Except Refusal β} {b : β}
    (h : x.bind f = .ok b) : ∃ a, x = .ok a ∧ f a = .ok b := by
  cases x with
  | error r => exact absurd h (by simp [Except.bind])
  | ok a => exact ⟨a, rfl, h⟩

variable {S : CStruct}

theorem CStruct.eq_of_isPrefix {c d : Cell} (hc : c ∈ S.cells) (hd : d ∈ S.cells)
    (h : c.name <+: d.name) : c = d := by
  by_contra hne
  have hsymm : Std.Symm fun c d : Cell => ¬ c.name <+: d.name ∧ ¬ d.name <+: c.name :=
    ⟨fun _ _ h => h.symm⟩
  exact (S.apart.forall hc hd hne).1 h

variable {c : Cell}

theorem CStruct.find?_eq (hc : c ∈ S.cells) : S.cells.find? (·.name = c.name) = some c := by
  cases hf : S.cells.find? (·.name = c.name) with
  | none => exact absurd (decide_eq_true rfl) (find?_eq_none.mp hf c hc)
  | some d =>
    have hname : d.name = c.name := by simpa using find?_some hf
    rw [S.eq_of_isPrefix (mem_of_find?_eq_some hf) hc (hname ▸ prefix_refl _)]

def Found.IsIn (mem : List String) (arr : Bool) (cells : List Cell) : Found → Prop
  | .cell c => c ∈ cells ∧ c.name = mem ∧ (arr = true → c.dims ≠ [])
  | .nested => arr = false ∧ ∃ c ∈ cells, mem <+: c.name ∧ c.name ≠ mem

variable {mem : List String} {found : Found}

theorem Found.IsIn.cons {arr : Bool} {cells : List Cell} (h : found.IsIn mem arr cells) (d : Cell) :
    found.IsIn mem arr (d :: cells) := by
  cases found with
  | cell c => exact ⟨mem_cons_of_mem _ h.1, h.2⟩
  | nested =>
    obtain ⟨harr, c, hc, hname⟩ := h
    exact ⟨harr, c, mem_cons_of_mem _ hc, hname⟩

theorem memINStruct_isIn {arr : Bool} {cells : List Cell}
    (h : memINStruct mem arr cells = some found) : found.IsIn mem arr cells := by
  induction cells with
  | nil => exact absurd h (by simp [memINStruct])
  | cons d cells ih =>
    rw [memINStruct] at h
    split_ifs at h with hskip hname hpre
    · exact (ih h).cons d
    · obtain rfl := some.inj h
      refine ⟨mem_cons_self, hname, ?_⟩
      intro harr hdims
      exact hskip (by simp [harr, hdims])
    · obtain rfl := some.inj h
      rw [Bool.and_eq_true, Bool.not_eq_true', isPrefixOf_iff_prefix] at hpre
      exact ⟨hpre.1, d, mem_cons_self, hpre.2, hname⟩
    · exact (ih h).cons d

def Cell.offsetAt (c : Cell) (index : Option ℕ) : ℕ :=
  c.offset + index.getD 0 * (c.dims.tail.prod * c.elem)

variable {index : Option ℕ}

theorem cMember_cell (h : memINStruct mem index.isSome S.cells = some (.cell c)) (base : ℕ) :
    cMember S base mem index =
      if ∀ i, index = some i → i < c.indexMax then
        some (.obj c.type (if index.isSome then c.dims.tail else c.dims)
          (.mem (base + c.offsetAt index)))
      else none := by
  obtain ⟨hmem, rfl, hdims⟩ := memINStruct_isIn h
  simp only [cMember, CStruct.find?_eq hmem]
  cases index with
  | none => simp [Cell.offsetAt]
  | some i =>
    obtain ⟨d, ds, hd⟩ := exists_cons_of_ne_nil (hdims rfl)
    simp [hd, Cell.offsetAt, Cell.indexMax]

theorem cMember_nested (h : memINStruct mem index.isSome S.cells = some .nested) (base : ℕ) :
    cMember S base mem index = some (.nested S mem base) := by
  obtain ⟨hindex, c, hc, hpre, hne⟩ := memINStruct_isIn h
  obtain rfl : index = none := by simpa using hindex
  have hnone : S.cells.find? (·.name = mem) = none := by
    rw [find?_eq_none]
    intro d hd hname
    obtain rfl : d.name = mem := of_decide_eq_true hname
    exact hne (congrArg Cell.name (S.eq_of_isPrefix hd hc hpre)).symm
  have hany : S.cells.any (mem.isPrefixOf ·.name) = true :=
    any_eq_true.mpr ⟨c, hc, isPrefixOf_iff_prefix.mpr hpre⟩
  simp only [cMember, hnone, hany, if_true]

theorem memberOffset_eq (h : memINStruct mem index.isSome S.cells = some (.cell c)) {off : ℕ}
    (hoff : memberOffset mem index S = .ok off) (hindex : ∀ i, index = some i → i < c.indexMax) :
    off = c.offsetAt index := by
  obtain ⟨hmem, rfl, hdims⟩ := memINStruct_isIn h
  rw [memberOffset, CStruct.find?_eq hmem] at hoff
  simp only at hoff
  split_ifs at hoff with hpos hmax
  · obtain ⟨i, rfl⟩ : ∃ i, index = some i := by
      cases index with
      | none => exact absurd hpos (by simp)
      | some i => exact ⟨i, rfl⟩
    obtain ⟨d, ds, hd⟩ := exists_cons_of_ne_nil (hdims rfl)
    have hlt : 0 < d := by
      have := hindex i rfl
      rw [Cell.indexMax, hd, headD_cons] at this
      omega
    rw [← Except.ok.inj hoff, Cell.offsetAt, Cell.size, Cell.indexMax, hd, prod_cons,
      headD_cons, Nat.mul_assoc, Nat.mul_div_cancel_left _ hlt]
    rfl
  · obtain rfl := Except.ok.inj hoff
    rw [Cell.offsetAt, Nat.eq_zero_of_not_pos hpos, Nat.zero_mul, Nat.add_zero]

def CExpr.left : CExpr → List ℕ
  | .obj _ dims _ => dims
  | .nested _ _ _ => []

def Near (m : Machine) (n : ℕ) (f : Fetch) (p : Place) : Prop :=
  f.word m = p.word m + n ∧ ∀ a, p = .mem a → f.place m = .mem (a + n)

def Site.Near (m : Machine) (n : ℕ) (site : Site) (f : Fetch) (base : ℕ) : Prop :=
  match site.origMode with
  | .arrow => f.word m = base + n
  | .dot => f.place m = .mem (base + n)

def Site.Known (db : Db) (site : Site) : Prop :=
  ∃ tag, site.origType.isStruct = some tag ∧ db.structs tag = some site.tStruct

def LastCell.Fits (t : CType) (p : Place) : LastCell → Prop
  | .cell c => c.type = t ∧ ∃ a, p = .mem a
  | .typed t' => t' = t
  | .nested => False

inductive Tracks (db : Db) (m : Machine) (n : ℕ) : St → CExpr → Prop
  | complete {f : Fetch} {t : CType} {left : List ℕ} {p : Place} {last : LastCell}
      (near : Near m n f p) (last_fits : last.Fits t p)
      (in_register : ∀ v, p = .value v → t.isScalar = false → ∃ r, f = .reg r) :
      Tracks db m n ⟨f.text, .complete t, last⟩ (.obj t left p)
  | inside {f : Fetch} {site : Site} {base : ℕ} (near : site.Near m n f base)
      (known : site.Known db) :
      Tracks db m n ⟨f.text, .inside site, .nested⟩ (.nested site.tStruct site.path base)

variable {fxpr : List Char}

section Step

variable {db : Db} {m : Machine} {n : ℕ} {st st' : St} {e e' : CExpr} {s : Step}

variable {mode : Mode} {site : Site}

theorem enter_complete {t : CType} (h : enter db (.complete t) mode = .ok site) :
    ∃ tag S, (mode = .arrow ↔ t.isPoint = true) ∧ t.isStruct = some tag ∧ db.structs tag = some S ∧
      site = ⟨[], t, mode, S⟩ := by
  rw [enter] at h
  split_ifs at h with hdot harrow
  cases htag : t.isStruct with
  | none =>
    rw [htag] at h
    exact absurd h (by simp)
  | some tag =>
    rw [htag] at h
    cases hS : db.structs tag with
    | none =>
      simp [Db.getVmStruct, hS] at h
    | some S =>
      simp only [Db.getVmStruct, hS, Bool.false_and, Bool.false_eq_true, if_false] at h
      refine ⟨tag, S, ?_, rfl, hS, (Except.ok.inj h).symm⟩
      cases mode <;> simp_all

theorem isPoint_cases (t : CType) {tag : String} (h : t.isStruct = some tag) :
    (t.isPoint = false ∧ ∃ q, t = .struct q tag) ∨ (t.isPoint = true ∧ ∃ t', t = .ptr t') := by
  cases t with
  | named name scalar => exact absurd h (by simp [CType.isStruct])
  | struct q tag' =>
    obtain rfl : tag' = tag := some.inj h
    exact .inl ⟨rfl, q, rfl⟩
  | ptr t' => exact .inr ⟨rfl, t', rfl⟩

theorem cEnter_of_fits (ht : Tracks db m n st e) (he : enter db st.pos mode = .ok site)
    (hleft : e.left = []) (hmode : st.ModeFits mode) :
    ∃ base f, cEnter db m mode e = some (site.tStruct, site.path, base) ∧ st.fxpr = f.text ∧
      site.Near m n f base ∧ site.Known db := by
  cases ht with
  | @complete f t left p last near last_fits in_register =>
    obtain rfl : left = [] := hleft
    obtain ⟨tag, S, hpoint, htag, hS, rfl⟩ := enter_complete he
    cases mode with
    | arrow =>
      obtain ⟨q, tag', rfl⟩ := hmode
      obtain rfl : tag' = tag := some.inj htag
      refine ⟨p.word m, f, ?_, rfl, near.1, tag', htag, hS⟩
      rw [cEnter, hS]
      rfl
    | dot =>
      obtain ⟨-, q, rfl⟩ | ⟨hp, -⟩ := isPoint_cases t htag
      · cases p with
        | value v =>
          obtain ⟨r, rfl⟩ := in_register v rfl rfl
          exact absurd rfl (hmode r)
        | mem a =>
          refine ⟨a, f, ?_, rfl, near.2 a rfl, tag, htag, hS⟩
          rw [cEnter, hS]
          rfl
      · exact absurd (hpoint.mpr hp) (by simp)
  | @inside f site' base near known =>
    obtain rfl : site' = site := Except.ok.inj he
    obtain rfl : mode = .dot := hmode
    exact ⟨base, f, rfl, rfl, near, known⟩

theorem fits_of_cEnter (ht : Tracks db m n st e) (he : enter db st.pos mode = .ok site)
    {x : CStruct × List String × ℕ} (hc : cEnter db m mode e = some x) :
    e.left = [] ∧ st.ModeFits mode := by
  cases ht with
  | @complete f t left p last near last_fits in_register =>
    obtain ⟨tag, S, hpoint, htag, hS, rfl⟩ := enter_complete he
    cases mode with
    | arrow =>
      obtain ⟨hp, -⟩ | ⟨-, t', rfl⟩ := isPoint_cases t htag
      · exact absurd (hpoint.mp rfl) (by simp [hp])
      · cases t' with
        | named name scalar => exact absurd htag (by simp [CType.isStruct])
        | ptr t'' => exact absurd hc (by simp [cEnter])
        | struct q tag' =>
          cases left with
          | nil => exact ⟨rfl, q, tag', rfl⟩
          | cons d left => exact absurd hc (by simp [cEnter])
    | dot =>
      obtain ⟨-, q, rfl⟩ | ⟨hp, -⟩ := isPoint_cases t htag
      · cases left with
        | cons d left => exact absurd hc (by simp [cEnter])
        | nil =>
          cases p with
          | value v => exact absurd hc (by simp [cEnter])
          | mem a =>
            refine ⟨rfl, fun r hr => ?_⟩
            obtain rfl : f = .reg r := Fetch.text_injective hr
            exact absurd (near.2 a rfl) (by simp [Fetch.place])
      · exact absurd (hpoint.mpr hp) (by simp)
  | inside near known =>
    cases mode with
    | dot => exact ⟨rfl, rfl⟩
    | arrow => exact absurd hc (by simp [cEnter])

theorem cellFxpr_near {f : Fetch} {base : ℕ}
    (hfound : memINStruct (site.path ++ [s.name]) s.index.isSome site.tStruct.cells =
      some (.cell c)) (hknown : site.Known db) (hnear : site.Near m n f base)
    (hindex : ∀ i, s.index = some i → i < c.indexMax) (h : cellFxpr db f.text s site c = .ok fxpr) :
    ∃ f' : Fetch, fxpr = f'.text ∧ f'.place m = .mem (base + c.offsetAt s.index + n) := by
  obtain ⟨tag, htag, hS⟩ := hknown
  obtain ⟨_, -, h⟩ := ok_of_bind h
  obtain ⟨off, hoff, hproc⟩ := ok_of_bind h
  have hmember : memberOffset (site.path ++ [s.name]) s.index site.tStruct = .ok off := by
    simp only [showMemberOffset, htag, bind_some, Db.getVmStruct, hS] at hoff
    by_cases hq : (site.origType.isQualified && !db.knowsQualified tag) = true
    · rw [if_pos hq] at hoff
      exact absurd hoff (by simp)
    · rw [if_neg hq] at hoff
      exact hoff
  obtain rfl := memberOffset_eq hfound hmember hindex
  rw [Site.Near] at hnear
  cases hmode : site.origMode with
  | arrow =>
    rw [hmode] at hproc hnear
    refine ⟨.deref (c.offsetAt s.index) f, (Except.ok.inj hproc).symm, ?_⟩
    simp only at hnear
    rw [Fetch.place, hnear]
    congr 1
    omega
  | dot =>
    rw [hmode] at hproc hnear
    cases f with
    | reg r =>
      rw [procFxpr, fxprAddMem_reg] at hproc
      exact absurd hproc (by simp)
    | deref last e =>
      rw [procFxpr, fxprAddMem_deref] at hproc
      refine ⟨.deref (c.offsetAt s.index + last) e, (Except.ok.inj hproc).symm, ?_⟩
      simp only [Fetch.place, Place.mem.injEq] at hnear ⊢
      omega

theorem near_of_place {f : Fetch} {a : ℕ} (hmem : ∀ a, m.mem (a + n) = m.mem a + n)
    (h : f.place m = .mem (a + n)) : Near m n f (.mem a) := by
  refine ⟨?_, ?_⟩
  · rw [← Fetch.word_place, h]
    exact hmem a
  · rintro a' ha
    obtain rfl := Place.mem.inj ha
    exact h

theorem look_ok {pos : Position} (h : look db pos s = .ok (site, found)) :
    enter db pos s.mode = .ok site ∧
      memINStruct (site.path ++ [s.name]) s.index.isSome site.tStruct.cells = some found := by
  rw [look] at h
  split at h
  · cases h
  · rename_i site' he
    split at h
    · cases h
    · rename_i found' hf
      obtain ⟨rfl, rfl⟩ := Prod.mk.inj (Except.ok.inj h)
      exact ⟨he, hf⟩

theorem cellStep_cases (h : cellStep db st s = .ok st') :
    (∃ site, look db st.pos s = .ok (site, .nested) ∧
      st' = ⟨st.fxpr, .inside { site with path := site.path ++ [s.name] },
        (s.cast.map LastCell.typed).getD .nested⟩) ∨
    (∃ site c fxpr, look db st.pos s = .ok (site, .cell c) ∧
      cellFxpr db st.fxpr s site c = .ok fxpr ∧
      st' = ⟨fxpr, .complete (s.cast.getD c.type),
        (s.cast.map LastCell.typed).getD (.cell c)⟩) := by
  rw [cellStep] at h
  split at h
  · cases h
  · rename_i site hl
    exact .inl ⟨site, hl, (Except.ok.inj h).symm⟩
  · rename_i site c hl
    split at h
    · cases h
    · rename_i fxpr hf
      exact .inr ⟨site, c, fxpr, hl, hf, (Except.ok.inj h).symm⟩

theorem cStep_of_fits (ht : Tracks db m n st e) (hfits : StepFits db e.left st s)
    (hstep : cellStep db st s = .ok st') (hmem : ∀ a, m.mem (a + n) = m.mem a + n) :
    ∃ e', cStep db m e s = some e' ∧ Tracks db m n st' e' ∧
      e'.left = leftBehind db st.pos s := by
  obtain ⟨hleft, hmode, hmember⟩ := hfits
  obtain ⟨site, hlook, rfl⟩ | ⟨site, c, fxpr, hlook, hfxpr, rfl⟩ := cellStep_cases hstep
  all_goals
    obtain ⟨henter, hfound⟩ := look_ok hlook
    obtain ⟨base, f, hc, htext, hnear, hknown⟩ := cEnter_of_fits ht henter hleft hmode
    simp only [hlook] at hmember
    simp only [leftBehind, hlook]
  · simp only [cStep, hc, cMember_nested hfound base, hmember, htext]
    exact ⟨_, rfl, .inside hnear hknown, rfl⟩
  · obtain ⟨hindex, hcast⟩ := hmember
    rw [htext] at hfxpr
    obtain ⟨f', rfl, hplace⟩ := cellFxpr_near hfound hknown hnear hindex hfxpr
    have hnear' := near_of_place hmem hplace
    simp only [cStep, hc, cMember_cell hfound base, if_pos hindex]
    cases hT : s.cast with
    | none =>
      refine ⟨_, rfl, .complete hnear' ⟨rfl, _, rfl⟩ ?_, rfl⟩
      exact fun v hv => absurd hv (by simp)
    | some T =>
      obtain ⟨hTs, hcs, hdims⟩ := hcast T hT
      rw [Step.left] at hdims
      simp only [hdims, cCast, hTs, hcs, Bool.and_self, if_true]
      refine ⟨_, rfl, .complete ⟨hnear'.1, ?_⟩ rfl ?_, rfl⟩
      · exact fun a ha => absurd ha (by simp)
      · exact fun v _ hs => absurd (hTs.symm.trans hs) (by simp)

theorem fits_of_cStep (ht : Tracks db m n st e) (hstep : cellStep db st s = .ok st')
    (hmem : ∀ a, m.mem a = a + 1) (hc : cStep db m e s = some e') :
    ∃ k, Tracks db m (n + k) st' e' ∧ e'.left = leftBehind db st.pos s ∧
      (StepFits db e.left st s ∨ 0 < k) := by
  have hmem' : ∀ a, m.mem (a + n) = m.mem a + n := by
    intro a
    rw [hmem, hmem]
    omega
  by_cases hfits : StepFits db e.left st s
  · obtain ⟨e'', hc', ht', hl'⟩ := cStep_of_fits ht hfits hstep hmem'
    obtain rfl := some.inj (hc.symm.trans hc')
    exact ⟨0, ht', hl', .inl hfits⟩
  -- C has looked into a structure, so the mode fits, and only the cast of an array is left
  obtain ⟨x, hx⟩ : ∃ x, cEnter db m s.mode e = some x := by
    refine ne_none_iff_exists'.mp fun hx => ?_
    simp [cStep, hx] at hc
  obtain ⟨site, hlook, rfl⟩ | ⟨site, c, fxpr, hlook, hfxpr, rfl⟩ := cellStep_cases hstep
  all_goals
    obtain ⟨henter, hfound⟩ := look_ok hlook
    obtain ⟨hleft, hmode⟩ := fits_of_cEnter ht henter hx
    obtain ⟨base, f, hx', htext, hnear, hknown⟩ := cEnter_of_fits ht henter hleft hmode
    simp only [StepFits, hleft, hmode, hlook, true_and] at hfits
  · obtain ⟨T, hT⟩ := ne_none_iff_exists'.mp hfits
    simp only [cStep, hx', cMember_nested hfound base, hT] at hc
    exact absurd hc (by simp [cCast])
  · simp only [cStep, hx', cMember_cell hfound base] at hc
    by_cases hindex : ∀ i, s.index = some i → i < c.indexMax
    · simp only [if_pos hindex] at hc
      obtain ⟨T, hT, hcast⟩ : ∃ T, s.cast = some T ∧
          ¬ (T.isScalar = true ∧ c.type.isScalar = true ∧ s.left c = []) := by
        by_contra hall
        exact hfits ⟨hindex, fun T hT => by_contra fun hn => hall ⟨T, hT, hn⟩⟩
      rw [hT] at hc
      rw [htext] at hfxpr
      obtain ⟨f', rfl, hplace⟩ := cellFxpr_near hfound hknown hnear hindex hfxpr
      rw [Step.left] at hcast
      cases hdims : (if s.index.isSome then c.dims.tail else c.dims) with
      | nil =>
        simp only [hdims, cCast, ite_none_right_eq_some, Bool.and_eq_true] at hc
        exact absurd ⟨hc.1.1, hc.1.2, hdims⟩ hcast
      | cons d ds =>
        simp only [hdims, cCast, ite_none_right_eq_some] at hc
        obtain ⟨hTs, he'⟩ := hc
        obtain rfl := some.inj he'
        have hword : f'.word m = base + c.offsetAt s.index + (n + 1) := by
          rw [← Fetch.word_place, hplace]
          exact hmem _
        refine ⟨1, ?_, by simp only [leftBehind, hlook, hT]; rfl, .inr Nat.one_pos⟩
        rw [hT]
        refine .complete ⟨hword, fun a ha => absurd ha (by simp)⟩ rfl ?_
        exact fun v _ hs => absurd (hTs.symm.trans hs) (by simp)
    · simp only [if_neg hindex] at hc
      exact absurd hc (by simp)

end Step

section Path

variable {db : Db} {m : Machine}

variable {ss : List Step}

theorem cellCheck_cons_ok {st st' : St} {s : Step} (h : cellCheck db st (s :: ss) = .ok st') :
    ∃ st₁, cellStep db st s = .ok st₁ ∧ cellCheck db st₁ ss = .ok st' := by
  rw [cellCheck] at h
  split at h
  · cases h
  · rename_i st₁ hstep
    exact ⟨st₁, hstep, h⟩

theorem cSteps_of_fit : ∀ {st st' : St} {e : CExpr}, Tracks db m 0 st e →
    StepsFit db e.left st ss → cellCheck db st ss = .ok st' →
    ∃ e', cSteps db m e ss = some e' ∧ Tracks db m 0 st' e' := by
  induction ss with
  | nil =>
    intro st st' e ht _ h
    obtain rfl := Except.ok.inj h
    exact ⟨e, rfl, ht⟩
  | cons s ss ih =>
    intro st st' e ht hfit h
    obtain ⟨st₁, hstep, h⟩ := cellCheck_cons_ok h
    obtain ⟨hfits, hrest⟩ := hfit
    obtain ⟨e₁, hc, ht₁, hleft⟩ := cStep_of_fits ht hfits hstep fun _ => rfl
    have hrest := hrest st₁ hstep
    rw [← hleft] at hrest
    obtain ⟨e', hcs, ht'⟩ := ih ht₁ hrest h
    exact ⟨e', by rw [cSteps, hc]; exact hcs, ht'⟩

theorem fit_of_cSteps (hmem : ∀ a, m.mem a = a + 1) :
    ∀ {n : ℕ} {st st' : St} {e e' : CExpr}, Tracks db m n st e → cellCheck db st ss = .ok st' →
      cSteps db m e ss = some e' →
      ∃ k, Tracks db m (n + k) st' e' ∧ (StepsFit db e.left st ss ∨ 0 < k) := by
  induction ss with
  | nil =>
    intro n st st' e e' ht h hc
    obtain rfl := Except.ok.inj h
    obtain rfl := some.inj hc
    exact ⟨0, ht, .inl trivial⟩
  | cons s ss ih =>
    intro n st st' e e' ht h hc
    obtain ⟨st₁, hstep, h⟩ := cellCheck_cons_ok h
    rw [cSteps] at hc
    split at hc
    · cases hc
    rename_i e₁ hc₁
    obtain ⟨k₁, ht₁, hleft, hfits⟩ := fits_of_cStep ht hstep hmem hc₁
    obtain ⟨k₂, ht₂, hrest⟩ := ih ht₁ h hc
    refine ⟨k₁ + k₂, by rw [← Nat.add_assoc]; exact ht₂, ?_⟩
    rcases hfits with hfits | hpos
    · rcases hrest with hrest | hpos
      · refine .inl ⟨hfits, fun st'' hst'' => ?_⟩
        obtain rfl := Except.ok.inj (hstep.symm.trans hst'')
        rw [← hleft]
        exact hrest
      · exact .inr (by omega)
    · exact .inr (by omega)

variable {format : Char} {out : List Char × Shown}

theorem numberSuffix_ok {size : Option ℕ} (h : numberSuffix format size fxpr = .ok out) :
    out.1 = fxpr ∧ out.2 ≠ .string := by
  cases size with
  | none => exact absurd h (by simp [numberSuffix])
  | some size =>
    rw [numberSuffix] at h
    split_ifs at h
    obtain rfl := Except.ok.inj h
    exact ⟨rfl, by simp⟩

theorem fxprAddSuffix_cases {last : LastCell} {t : CType} {p : Place} (hlast : last.Fits t p)
    (h : fxprAddSuffix db format fxpr last = .ok out) :
    (inText "char *".toList t.text = true ∧ out = (fxprAddPoint 0 fxpr, .string)) ∨
    (inText "char *".toList t.text = false ∧ out.1 = fxpr ∧
      (out.2 = .string → ∃ a, p = .mem a)) := by
  have hnumber : ∀ {size : Option ℕ}, inText "char *".toList t.text = false →
      numberSuffix format size fxpr = .ok out →
      inText "char *".toList t.text = false ∧ out.1 = fxpr ∧
        (out.2 = .string → ∃ a, p = .mem a) := by
    intro size hptr h
    obtain ⟨hfxpr, hshown⟩ := numberSuffix_ok h
    exact ⟨hptr, hfxpr, fun hs => absurd hs hshown⟩
  cases last with
  | nested => exact absurd hlast id
  | typed t' =>
    obtain rfl : t' = t := hlast
    rw [fxprAddSuffix] at h
    split_ifs at h with hptr hchar
    · exact .inl ⟨hptr, (Except.ok.inj h).symm⟩
    · exact .inr (hnumber (Bool.eq_false_iff.mpr hptr) h)
  | cell c =>
    obtain ⟨rfl, hplace⟩ := hlast
    rw [fxprAddSuffix] at h
    split_ifs at h with hptr hchar hdims
    · exact .inl ⟨hptr, (Except.ok.inj h).symm⟩
    · obtain rfl := Except.ok.inj h
      exact .inr ⟨Bool.eq_false_iff.mpr hptr, rfl, fun _ => hplace⟩
    · exact .inr (hnumber (Bool.eq_false_iff.mpr hptr) h)
    · exact .inr (hnumber (Bool.eq_false_iff.mpr hptr) h)

theorem agrees_iff_of_tracks {n : ℕ} {st : St} {e : CExpr} (ht : Tracks db m n st e)
    (h : fxprAddSuffix db format st.fxpr st.lastCell = .ok out) :
    ∃ f : Fetch, out.1 = f.text ∧ (Agrees m f out.2 e ↔ n = 0) := by
  cases ht with
  | inside near known => exact absurd h (by simp [fxprAddSuffix])
  | @complete f t left p last near last_fits in_register =>
    obtain ⟨hptr, rfl⟩ | ⟨hptr, hfxpr, hstring⟩ := fxprAddSuffix_cases last_fits h
    · refine ⟨.deref 0 f, rfl, ?_⟩
      simp only [Agrees, hptr, if_true, Fetch.place, near.1, Place.mem.injEq]
      omega
    · refine ⟨f, hfxpr, ?_⟩
      obtain ⟨fxpr, shown⟩ := out
      cases shown with
      | string =>
        obtain ⟨a, rfl⟩ := hstring rfl
        simp only [Agrees, hptr, Bool.false_eq_true, if_false, near.2 a rfl, Place.mem.injEq]
        omega
      | number format bits =>
        cases p with
        | value v =>
          simp only [Agrees, near.1, Place.word]
          omega
        | mem a =>
          simp only [Agrees, near.2 a rfl, Place.mem.injEq]
          omega

theorem tracks_of_cHead {p : Path} {e : CExpr} (h : cHead m p = some e) :
    Tracks db m 0 p.start e ∧ e.left = [] ∧
      ∀ T, p.cast = some T → T.isScalar = true ∧ p.declared.isScalar = true := by
  have hnear : Near m 0 (.reg p.reg) (.value (m.regs p.reg)) :=
    ⟨rfl, fun a ha => absurd ha (by simp)⟩
  have hstart : p.start = ⟨(Fetch.reg p.reg).text, .complete p.argt, .typed p.argt⟩ := rfl
  rw [cHead] at h
  cases hT : p.cast with
  | none =>
    rw [hT] at h
    obtain rfl := some.inj h
    refine ⟨?_, rfl, fun T hT => absurd hT (by simp)⟩
    rw [hstart, Path.argt, hT]
    exact .complete hnear rfl fun _ _ _ => ⟨_, rfl⟩
  | some T =>
    rw [hT] at h
    simp only [cCast, ite_none_right_eq_some, Bool.and_eq_true] at h
    obtain ⟨hscalar, he⟩ := h
    obtain rfl := some.inj he
    refine ⟨?_, rfl, fun T' hT' => some.inj hT' ▸ hscalar⟩
    rw [hstart, Path.argt, hT]
    exact .complete hnear rfl fun _ _ _ => ⟨_, rfl⟩

theorem cHead_of_fits {p : Path}
    (h : ∀ T, p.cast = some T → T.isScalar = true ∧ p.declared.isScalar = true) :
    ∃ e, cHead m p = some e := by
  cases hT : p.cast with
  | none => simp [cHead, hT]
  | some T =>
    obtain ⟨hTs, hds⟩ := h T hT
    simp [cHead, hT, cCast, hTs, hds]

end Path

theorem checkExpr_preserves_iff (db : Db) (p : Path) {out : List Char × Shown}
    (h : checkExpr db p = .ok out) : Preserves db p out ↔ PathFits db p := by
  obtain ⟨st, hcells, hsuffix⟩ : ∃ st, cellCheck db p.start p.steps = .ok st ∧
      fxprAddSuffix db p.format st.fxpr st.lastCell = .ok out := by
    rw [checkExpr] at h
    split at h
    · cases h
    · rename_i st hst
      exact ⟨st, hst, h⟩
  constructor
  · rintro ⟨f, hf, hall⟩
    obtain ⟨e, hc, hagrees⟩ := hall ⟨fun _ => 0, fun a => a + 1⟩
    rw [cPath] at hc
    split at hc
    · cases hc
    rename_i e₀ hhead
    obtain ⟨ht, hleft, hcast⟩ := @tracks_of_cHead db _ _ _ hhead
    obtain ⟨k, ht', hfit⟩ := fit_of_cSteps (fun _ => rfl) ht hcells hc
    obtain ⟨f', hf', hiff⟩ := agrees_iff_of_tracks ht' hsuffix
    obtain rfl := Fetch.text_injective (hf.symm.trans hf')
    have hk := hiff.mp hagrees
    rw [hleft] at hfit
    exact ⟨hcast, hfit.resolve_right (by omega)⟩
  · rintro ⟨hcast, hfit⟩
    have hagree : ∀ m : Machine, ∃ f : Fetch, out.1 = f.text ∧
        ∃ e, cPath db m p = some e ∧ Agrees m f out.2 e := by
      intro m
      obtain ⟨e₀, hhead⟩ := @cHead_of_fits m p hcast
      obtain ⟨ht, hleft, -⟩ := @tracks_of_cHead db _ _ _ hhead
      rw [← hleft] at hfit
      obtain ⟨e, hc, ht'⟩ := cSteps_of_fit ht hfit hcells
      obtain ⟨f, hf, hiff⟩ := agrees_iff_of_tracks ht' hsuffix
      refine ⟨f, hf, e, ?_, hiff.mpr rfl⟩
      rw [cPath, hhead]
      exact hc
    obtain ⟨f, hf, -⟩ := hagree ⟨fun _ => 0, fun _ => 0⟩
    refine ⟨f, hf, fun m => ?_⟩
    obtain ⟨f', hf', hm⟩ := hagree m
    obtain rfl := Fetch.text_injective (hf.symm.trans hf')
    exact hm

def sockStruct : CStruct where
  cells := [⟨["a", "b"], [], .named "int" true, 8, 4⟩,
    ⟨["p"], [], .ptr (.struct false "struct sock"), 16, 8⟩]
  apart := by decide

def sockDb : Db where
  structs tag := if tag = "struct sock" then some sockStruct else none
  knowsQualified _ := false
  typeSize _ := none

def sockPath (steps : List (Mode × String)) : Path where
  reg := ⟨"%di".toList, by decide⟩
  declared := .ptr (.struct false "struct sock")
  cast := none
  steps := steps.map fun s => ⟨s.1, s.2, none, none⟩
  format := 'u'

theorem checkExpr_preserves_nested :
    Preserves sockDb (sockPath [(.arrow, "p"), (.arrow, "a"), (.dot, "b")])
      ("+0x8(+0x10(%di))".toList, .number 'u' 32) := by
  have hmember : ∀ mode name c, MemberFits ⟨mode, name, none, none⟩ c :=
    fun _ _ _ => ⟨fun _ hi => absurd hi (by simp), fun _ hT => absurd hT (by simp)⟩
  refine (checkExpr_preserves_iff sockDb _ rfl).mpr ⟨fun T hT => absurd hT (by simp [sockPath]), ?_⟩
  refine ⟨⟨rfl, ⟨false, _, rfl⟩, hmember _ _ _⟩, fun st₁ h₁ => ?_⟩
  obtain rfl := Except.ok.inj h₁
  refine ⟨⟨rfl, ⟨false, _, rfl⟩, rfl⟩, fun st₂ h₂ => ?_⟩
  obtain rfl := Except.ok.inj h₂
  exact ⟨⟨rfl, rfl, hmember _ _ _⟩, fun _ _ => trivial⟩

theorem checkExpr_nested_arrow :
    checkExpr sockDb (sockPath [(.arrow, "a"), (.arrow, "b")]) =
      .ok ("+0x8(%di)".toList, .number 'u' 32) ∧
    (∀ m, cPath sockDb m (sockPath [(.arrow, "a"), (.arrow, "b")]) = none) ∧
    ¬ Preserves sockDb (sockPath [(.arrow, "a"), (.arrow, "b")])
      ("+0x8(%di)".toList, .number 'u' 32) := by
  have hnone : ∀ m, cPath sockDb m (sockPath [(.arrow, "a"), (.arrow, "b")]) = none :=
    fun _ => rfl
  refine ⟨rfl, hnone, ?_⟩
  rintro ⟨f, -, hall⟩
  obtain ⟨e, hc, -⟩ := hall ⟨fun _ => 0, fun _ => 0⟩
  rw [hnone] at hc
  exact absurd hc (by simp)

end Sysak.Surftrace
