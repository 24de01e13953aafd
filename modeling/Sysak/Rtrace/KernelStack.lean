/-
# Kernel symbols of rtrace
-/

import Sysak.Lib.BinarySearch
import Sysak.Lib.Hex
import Sysak.Lib.Utf8

namespace Sysak.Rtrace

open Lib List Option

def isWhitespace (c : Char) : Bool :=
  let n := c.toNat
  (9 ≤ n && n ≤ 13) || n == 32 || n == 0x85 || n == 0xA0 || n == 0x1680 ||
    (0x2000 ≤ n && n ≤ 0x200A) || n == 0x2028 || n == 0x2029 || n == 0x202F || n == 0x205F ||
    n == 0x3000

def splitWhitespace (l : List Char) : List (List Char) :=
  (l.splitOnP isWhitespace).filter (· ≠ [])

def fromStrRadix16 (x : List Char) : Option ℕ :=
  (readHex (if x.head? = some '+' then x.tail else x)).filter (· < 18446744073709551616)

def symbolLine (l : List Char) : Option (List Char × List Char) :=
  match splitWhitespace l with
  | x :: _ :: y :: _ => some (x, y)
  | _ => none

def symbolLines (text : Bytes) : List (List Char × List Char) :=
  (text.splitOn 10).filterMap fun l => (decode l).bind symbolLine

def symbol (l : List Char × List Char) : Option (List Char × ℕ) :=
  (fromStrRadix16 l.1).map fun a => (l.2, a)

def tryFrom (text : Bytes) : Option (List (List Char × ℕ)) :=
  ((symbolLines text).mapM symbol).map fun syms => syms.mergeSort fun a b => a.2 ≤ b.2

def searchLoop (syms : List (List Char × ℕ)) (addr : ℕ) : ℕ → ℕ → ℕ → Option (ℕ × ℕ)
  | 0, start, stop => if start < stop then none else some (start, stop)
  | n + 1, start, stop =>
    if start < stop then
      let mid := start + (stop - start + 1) / 2
      syms[mid]?.bind fun sym =>
        if sym.2 ≤ addr then searchLoop syms addr n mid stop
        else searchLoop syms addr n start (mid - 1)
    else some (start, stop)

def addrToSym (syms : List (List Char × ℕ)) (addr : ℕ) : Option (List Char) :=
  if syms.length = 0 then none
  else
    (searchLoop syms addr syms.length 0 (syms.length - 1)).bind fun (start, stop) =>
      if start = stop then
        syms[start]?.map fun sym =>
          if sym.2 ≤ addr then sym.1 ++ '+' :: Nat.toDigits 10 (addr - sym.2)
          else "Not Found".toList
      else some "Not Found".toList

structure Covers (syms : List (List Char × ℕ)) (addr start stop : ℕ) : Prop where
  le : start ≤ stop
  lt : stop < syms.length
  first : start = 0 ∨ ∀ s, syms[start]? = some s → s.2 ≤ addr
  behind : ∀ {i s}, syms[i]? = some s → stop < i → addr < s.2

theorem searchLoop_spec {syms : List (List Char × ℕ)} {addr n start stop : ℕ}
    (hsort : syms.Pairwise fun a b => a.2 ≤ b.2) (h : Covers syms addr start stop)
    (hn : stop - start ≤ n) :
    ∃ m, searchLoop syms addr n start stop = some (m, m) ∧ Covers syms addr m m := by
  induction n generalizing start stop with
  | zero =>
    obtain rfl : start = stop := Nat.le_antisymm h.le (by omega)
    exact ⟨start, by rw [searchLoop, if_neg (lt_irrefl _)], h⟩
  | succ n ih =>
    unfold searchLoop
    by_cases hlt : start < stop
    · have hlen := h.lt
      obtain ⟨s, hs⟩ : ∃ s, syms[start + (stop - start + 1) / 2]? = some s :=
        ⟨_, getElem?_eq_getElem (by omega)⟩
      simp only [if_pos hlt, hs, bind_some]
      split_ifs with hle
      · refine ih ⟨by omega, h.lt, .inr fun t ht => ?_, h.behind⟩ (by omega)
        rwa [← some.inj (hs.symm.trans ht)]
      · refine ih ⟨by omega, by omega, h.first, fun ht hi => ?_⟩ (by omega)
        exact (Nat.lt_of_not_le hle).trans_le (le_of_getElem? hsort hs ht (by omega))
    · obtain rfl : start = stop := Nat.le_antisymm h.le (by omega)
      exact ⟨start, by rw [if_neg hlt], h⟩

end Sysak.Rtrace
