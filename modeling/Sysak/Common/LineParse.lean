/-
# The line protocol
-/

import Sysak.Common.Pystring
import Sysak.Lib.LuaNumber
import Sysak.Lib.LuaTable

namespace Sysak.LineParse

open Lib Pystring List Option

structure Cjson where
  escape : UInt8 → Bytes
  decode : Bytes → Option Bytes
  escape_quote : escape 34 = [92, 34]
  escape_slash : escape 92 = [92, 92]
  escape_other : ∀ c, c ≠ 34 → c ≠ 92 →
    escape c ≠ [] ∧ 34 ∉ escape c ∧ (escape c).getLast? ≠ some 92
  decode_encode : ∀ v : Bytes, decode (34 :: (v.flatMap escape ++ [34])) = some v
  decode_more : ∀ v t : Bytes, decode (34 :: (v.flatMap escape ++ 34 :: 44 :: t)) = none

def Cjson.encode (J : Cjson) (v : Bytes) : Bytes := 34 :: (v.flatMap J.escape ++ [34])

inductive Value where
  | int (z : LuaNumber.LuaInt)
  | str (s : Bytes)

def labelCell (p : Bytes × Bytes) : Bytes := p.1 ++ 61 :: p.2

def Value.text (J : Cjson) : Value → Bytes
  | .int z => LuaNumber.tostring z.1
  | .str s => J.encode s

def valueCell (J : Cjson) (p : Bytes × Value) : Bytes := p.1 ++ 61 :: p.2.text J

def packHeads (title : Bytes) (ls : List (Bytes × Bytes)) : Bytes :=
  if 0 < ls.length then title ++ 44 :: join (bytes ",") (ls.map labelCell) else title

def packValues (J : Cjson) (vs : List (Bytes × Value)) : Bytes :=
  join (bytes ",") (vs.map (valueCell J))

def pack (J : Cjson) (title : Bytes) (ls : List (Bytes × Bytes)) (vs : List (Bytes × Value)) :
    Bytes :=
  packHeads title ls ++ 32 :: packValues J vs

def parseLabel (sls : Bytes) (ls : List (Bytes × Bytes)) : List (Bytes × Bytes) :=
  (split sls (bytes ",") none).foldl (fun ls cell =>
    let kv := split cell (bytes "=") (some 1)
    luaAssign ls (kv.headD []) kv[1]?) ls

def nextQuote : ℕ → UInt8 → Bytes → Option ℕ
  | _, _, [] => none
  | idx, p, c :: s => if c = 34 ∧ p ≠ 92 then some idx else nextQuote (idx + 1) c s

def getNextQuote : Bytes → Option ℕ
  | [] => none
  | c :: s => nextQuote 2 c s

structure Tables where
  vs : List (Bytes × ℤ)
  log : List (Bytes × Bytes)
deriving Repr, DecidableEq

def round (J : Cjson) (svs : Bytes) (t : Tables) : Option (Tables × Option Bytes) :=
  match split svs (bytes "=") (some 1) with
  | k :: vStr :: _ =>
    if vStr.head? = some 34 then
      (getNextQuote vStr).map fun idx =>
        ({ t with log := luaAssign t.log k (J.decode (vStr.take idx)) },
          if vStr[idx]? = some 44 then some (vStr.drop (idx + 1)) else none)
    else
      let vss := split vStr (bytes ",") (some 1)
      some ({ t with vs := luaAssign t.vs k (LuaNumber.tonumber (vss.headD [])) }, vss[1]?)
  | _ => none

def parseLoop (J : Cjson) : ℕ → Bytes → Tables → Option Tables
  | 0, _, _ => none
  | fuel + 1, svs, t =>
    (round J svs t).bind fun r =>
      match r.2 with
      | some rest => parseLoop J fuel rest r.1
      | none => some r.1

def parseValue (J : Cjson) (svs : Bytes) : Option Tables :=
  parseLoop J (svs.length + 1) svs ⟨[], []⟩

structure Parsed where
  title : Bytes
  ls : List (Bytes × Bytes)
  vs : List (Bytes × ℤ)
  log : List (Bytes × Bytes)
deriving Repr, DecidableEq

def parse (J : Cjson) (line : Bytes) : Option Parsed :=
  match split line (bytes " ") (some 1) with
  | heads :: svs :: _ =>
    let ths := split heads (bytes ",") (some 1)
    let ls := match ths[1]? with
      | some sls => parseLabel sls []
      | none => []
    (parseValue J svs).map fun t => ⟨ths.headD [], ls, t.vs, t.log⟩
  | _ => none

variable {J : Cjson} {svs rest : Bytes} {t t' : Tables}

theorem round_cases {next : Option Bytes} (h : round J svs t = some (t', next)) :
    ∃ k vStr, svs = k ++ 61 :: vStr ∧
      ((∃ idx, vStr.head? = some 34 ∧ getNextQuote vStr = some idx ∧
          t' = { t with log := luaAssign t.log k (J.decode (vStr.take idx)) } ∧
          ∀ rest, next = some rest → rest = vStr.drop (idx + 1)) ∨
        t'.log = t.log ∧ ∀ rest, next = some rest → ∃ v, vStr = v ++ 44 :: rest) := by
  rw [round] at h
  rcases split_byte_cases svs 61 with ⟨k, x, vStr, rfl, -, hx, hsplit⟩ | ⟨-, hsplit⟩
  · obtain rfl : x = 61 := beq_iff_eq.mp hx
    refine ⟨k, vStr, rfl, ?_⟩
    rw [show bytes "=" = [61] from rfl, hsplit] at h
    simp only at h
    split_ifs at h with hquote
    · obtain ⟨idx, hidx, heq⟩ := map_eq_some_iff.mp h
      obtain ⟨rfl, rfl⟩ := Prod.mk.inj heq
      refine .inl ⟨idx, hquote, hidx, rfl, fun rest hrest => ?_⟩
      split_ifs at hrest
      exact (some.inj hrest).symm
    · obtain ⟨rfl, rfl⟩ := Prod.mk.inj (some.inj h)
      refine .inr ⟨rfl, fun rest hrest => ?_⟩
      rcases split_byte_cases vStr 44 with ⟨v, y, rest', rfl, -, hy, hcut⟩ | ⟨-, hcut⟩
      · obtain rfl : y = 44 := beq_iff_eq.mp hy
        rw [show bytes "," = [44] from rfl, hcut] at hrest
        obtain rfl : rest' = rest := some.inj hrest
        exact ⟨v, rfl⟩
      · rw [show bytes "," = [44] from rfl, hcut] at hrest
        exact absurd hrest (by simp)
  · rw [show bytes "=" = [61] from rfl, hsplit] at h
    exact absurd h (by simp)

end Sysak.LineParse
