/-
# The C plugins
-/

import Sysak.Common.ProtoData
import Sysak.Lib.LittleEndian
import Sysak.Lib.LuaTable

namespace Sysak.Collector

open Lib

structure UnityLines where
  num : ℤ
  line : List UInt8
  str : UInt64 → List UInt8

def luaString (bs : List UInt8) : String := String.ofList (bs.map fun b => Char.ofNat b.toNat)

def ffiString (mem : List UInt8) (o : ℕ) : String := luaString ((mem.drop o).takeWhile (· != 0))

def word (mem : List UInt8) (o : ℕ) : UInt64 := UInt64.ofNat (leNat ((mem.drop o).take 8))

def unityLineSize : ℕ := 952

def loadSlots {α : Type*} (name : ℕ → String) (val : ℕ → α) :
    ℕ → ℕ → ℕ → List (String × α) → List (String × α)
  | 0, _, _, t => t
  | n + 1, i, c, t =>
    if 0 < (name i).length then
      loadSlots name val n (i + 1) (c + 1) (luaPut t (c + 1) (name i, val i))
    else
      t

def loadLabel (mem : List UInt8) (o : ℕ) (line : DataLine) : DataLine :=
  { line with
    ls := loadSlots (fun i => ffiString mem (o + 32 + 32 * i))
      (fun i => ffiString mem (o + 48 + 32 * i)) 4 0 line.ls.length line.ls }

def loadValue (mem : List UInt8) (o : ℕ) (line : DataLine) : DataLine :=
  { line with
    vs := loadSlots (fun i => ffiString mem (o + 160 + 24 * i))
      (fun i => word mem (o + 176 + 24 * i)) 32 0 line.vs.length line.vs }

def loadLog (str : UInt64 → List UInt8) (mem : List UInt8) (o : ℕ) (line : DataLine) : DataLine :=
  let name := ffiString mem (o + 928)
  if 0 < name.length then
    { line with log := line.log ++ [(name, luaString (str (word mem (o + 944))))] }
  else
    line

def UnityLines.luaLine (u : UnityLines) (i : ℕ) : DataLine :=
  let o := unityLineSize * i
  loadLog u.str u.line o (loadValue u.line o (loadLabel u.line o ⟨ffiString u.line o, [], [], []⟩))

def UnityLines.luaLines (u : UnityLines) : List DataLine :=
  (List.range u.num.toNat).map u.luaLine

def Cplugin.procLines (u : UnityLines) (lines : ProtoTable) : ProtoTable :=
  { lines with lines := luaPutFrom lines.lines lines.lines.length u.luaLines }

structure CCall where
  res : ℤ
  lines : UnityLines

def CCall.output (c : CCall) : List DataLine := if c.res = 0 then c.lines.luaLines else []

def Cplugin.proc : List CCall → ProtoTable → ProtoTable
  | [], lines => lines
  | c :: cs, lines => Cplugin.proc cs (if c.res = 0 then Cplugin.procLines c.lines lines else lines)

theorem Cplugin.proc_eq (cs : List CCall) : ∀ lines : ProtoTable,
    Cplugin.proc cs lines = { lines with lines := lines.lines ++ cs.flatMap CCall.output } := by
  induction cs with
  | nil =>
    intro lines
    simp [Cplugin.proc]
  | cons c cs ih =>
    intro lines
    rw [Cplugin.proc, ih]
    by_cases hres : c.res = 0
    · simp [hres, Cplugin.procLines, luaPutFrom_length, CCall.output]
    · simp [hres, CCall.output]

end Sysak.Collector
