/-
# The expressions of surftrace
-/

import Mathlib.Algebra.BigOperators.Group.List.Defs
import Sysak.Lib.Hex

namespace Sysak.Surftrace

open Lib

inductive CType where
  | named (name : String) (scalar : Bool)
  | struct (qualified : Bool) (tag : String)
  | ptr (target : CType)
deriving DecidableEq

def CType.text : CType → List Char
  | .named name _ => name.toList
  | .struct false tag => tag.toList
  | .struct true tag => "const ".toList ++ tag.toList
  | .ptr (.ptr t) => (CType.ptr t).text ++ ['*']
  | .ptr t => t.text ++ " *".toList

def CType.isPoint : CType → Bool
  | .ptr _ => true
  | _ => false

def CType.isStruct : CType → Option String
  | .named _ _ => none
  | .struct _ tag => some tag
  | .ptr t => t.isStruct

def CType.isQualified : CType → Bool
  | .named _ _ => false
  | .struct q _ => q
  | .ptr t => t.isQualified

structure Cell where
  name : List String
  dims : List ℕ
  type : CType
  offset : ℕ
  elem : ℕ

def Cell.size (c : Cell) : ℕ := c.dims.prod * c.elem

def Cell.indexMax (c : Cell) : ℕ := c.dims.headD 0

structure CStruct where
  cells : List Cell
  apart : cells.Pairwise fun c d => ¬ c.name <+: d.name ∧ ¬ d.name <+: c.name

structure Db where
  structs : String → Option CStruct
  knowsQualified : String → Bool
  typeSize : CType → Option ℕ

def Db.getVmStruct (db : Db) (qualified : Bool) (tag : String) : Option CStruct :=
  if qualified && !db.knowsQualified tag then none else db.structs tag

inductive Mode where
  | dot
  | arrow
deriving DecidableEq

structure Step where
  mode : Mode
  name : String
  index : Option ℕ
  cast : Option CType

structure Register where
  text : List Char
  noBracket : '(' ∉ text

structure Path where
  reg : Register
  declared : CType
  cast : Option CType
  steps : List Step
  format : Char

inductive Refusal where
  | isPoint
  | isType
  | notStruct
  | notInDatabase
  | notMember
  | isArray
  | overflow
  | badOffset
  | register
  | incomplete
  | noName
  | noType
  | canNotShow
deriving DecidableEq

inductive Found where
  | cell (c : Cell)
  | nested

def memINStruct (mem : List String) (arrMem : Bool) : List Cell → Option Found
  | [] => none
  | c :: cs =>
    if arrMem && c.dims.isEmpty then memINStruct mem arrMem cs
    else if c.name = mem then some (.cell c)
    else if !arrMem && mem.isPrefixOf c.name then some .nested
    else memINStruct mem arrMem cs

def cellCheckArray (index : Option ℕ) (c : Cell) : Except Refusal Unit :=
  if c.type.text = "char".toList then .ok ()
  else
    match c.dims, index with
    | [], _ => .ok ()
    | _ :: _, none => .error .isArray
    | d :: _, some i => if d ≤ i then .error .overflow else .ok ()

def memberOffset (mem : List String) (index : Option ℕ) (S : CStruct) : Except Refusal ℕ :=
  match S.cells.find? (·.name = mem) with
  | none => .error .notMember
  | some c =>
    let add := index.getD 0
    if 0 < add then
      if c.indexMax ≤ add then .error .overflow
      else .ok (c.offset + add * (c.size / c.indexMax))
    else
      .ok c.offset

def showMemberOffset (db : Db) (mem : List String) (index : Option ℕ) (structName : CType) :
    Except Refusal ℕ :=
  match structName.isStruct.bind (db.getVmStruct structName.isQualified) with
  | none => .error .notInDatabase
  | some S => memberOffset mem index S

def fxprAddPoint (off : ℕ) (fxpr : List Char) : List Char :=
  "+0x".toList ++ (hex off ++ '(' :: (fxpr ++ [')']))

def fxprAddMem (off : ℕ) (fxpr : List Char) : Except Refusal (List Char) :=
  match fxpr.dropWhile (· ≠ '(') with
  | [] => .error .register
  | _ :: cmd =>
    match int16 ((fxpr.takeWhile (· ≠ '(')).drop 1) with
    | none => .error .badOffset
    | some last => .ok ("+0x".toList ++ (hex (off + last) ++ '(' :: cmd))

def procFxpr (mode : Mode) (off : ℕ) (fxpr : List Char) : Except Refusal (List Char) :=
  match mode with
  | .dot => fxprAddMem off fxpr
  | .arrow => .ok (fxprAddPoint off fxpr)

structure Site where
  path : List String
  origType : CType
  origMode : Mode
  tStruct : CStruct

inductive Position where
  | complete (type : CType)
  | inside (site : Site)

inductive LastCell where
  | cell (c : Cell)
  | typed (type : CType)
  | nested

structure St where
  fxpr : List Char
  pos : Position
  lastCell : LastCell

def enter (db : Db) (pos : Position) (mode : Mode) : Except Refusal Site :=
  match pos with
  | .complete sType =>
    if mode = .dot ∧ sType.isPoint then .error .isPoint
    else if mode = .arrow ∧ !sType.isPoint then .error .isType
    else
      match sType.isStruct with
      | none => .error .notStruct
      | some tag =>
        match db.getVmStruct false tag with
        | none => .error .notInDatabase
        | some tStruct => .ok ⟨[], sType, mode, tStruct⟩
  | .inside site => .ok site

def look (db : Db) (pos : Position) (s : Step) : Except Refusal (Site × Found) :=
  match enter db pos s.mode with
  | .error r => .error r
  | .ok site =>
    match memINStruct (site.path ++ [s.name]) s.index.isSome site.tStruct.cells with
    | none => .error .notMember
    | some found => .ok (site, found)

def cellFxpr (db : Db) (fxpr : List Char) (s : Step) (site : Site) (c : Cell) :
    Except Refusal (List Char) := do
  cellCheckArray s.index c
  let off ← showMemberOffset db (site.path ++ [s.name]) s.index site.origType
  procFxpr site.origMode off fxpr

def cellStep (db : Db) (st : St) (s : Step) : Except Refusal St :=
  match look db st.pos s with
  | .error r => .error r
  | .ok (site, .nested) =>
    .ok ⟨st.fxpr, .inside { site with path := site.path ++ [s.name] },
      (s.cast.map LastCell.typed).getD .nested⟩
  | .ok (site, .cell c) =>
    match cellFxpr db st.fxpr s site c with
    | .error r => .error r
    | .ok fxpr => .ok ⟨fxpr, .complete (s.cast.getD c.type),
        (s.cast.map LastCell.typed).getD (.cell c)⟩

def cellCheck (db : Db) : St → List Step → Except Refusal St
  | st, [] => .ok st
  | st, s :: ss =>
    match cellStep db st s with
    | .error r => .error r
    | .ok st' => cellCheck db st' ss

inductive Shown where
  | string
  | number (format : Char) (bits : ℕ)

def inText (sub text : List Char) : Bool := text.tails.any sub.isPrefixOf

def numberSuffix (format : Char) (size : Option ℕ) (fxpr : List Char) :
    Except Refusal (List Char × Shown) :=
  match size with
  | none => .error .noType
  | some size =>
    if size = 1 ∨ size = 2 ∨ size = 4 ∨ size = 8 then .ok (fxpr, .number format (8 * size))
    else .error .canNotShow

def fxprAddSuffix (db : Db) (format : Char) (fxpr : List Char) :
    LastCell → Except Refusal (List Char × Shown)
  | .nested => .error .incomplete
  | .typed t =>
    if inText "char *".toList t.text then .ok (fxprAddPoint 0 fxpr, .string)
    else if t.text = "char".toList ∨ inText " char".toList t.text then .error .noName
    else numberSuffix format (db.typeSize t) fxpr
  | .cell c =>
    if inText "char *".toList c.type.text then .ok (fxprAddPoint 0 fxpr, .string)
    else if (c.type.text = "char".toList ∨ inText " char".toList c.type.text) ∧ c.dims ≠ [] then
      .ok (fxpr, .string)
    else if c.dims ≠ [] then numberSuffix format (db.typeSize c.type) fxpr
    else numberSuffix format (some c.size) fxpr

def Path.argt (p : Path) : CType := p.cast.getD p.declared

def Path.start (p : Path) : St := ⟨p.reg.text, .complete p.argt, .typed p.argt⟩

def checkExpr (db : Db) (p : Path) : Except Refusal (List Char × Shown) :=
  match cellCheck db p.start p.steps with
  | .error r => .error r
  | .ok st => fxprAddSuffix db p.format st.fxpr st.lastCell

end Sysak.Surftrace
