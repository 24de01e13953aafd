/-
# Reading a file with `fgets`
-/

import Sysak.Lib.LuaString

namespace Sysak.Lib

open List

def fgetsLoop (size : ℕ) : ℕ → Bytes → Bytes → List Bytes
  | _, acc, [] => if acc = [] then [] else [acc]
  | room, acc, c :: s =>
    if c = 10 ∨ room ≤ 1 then (acc ++ [c]) :: fgetsLoop size size [] s
    else fgetsLoop size (room - 1) (acc ++ [c]) s

def fgetsLines (n : ℕ) (file : Bytes) : List Bytes := fgetsLoop (n - 1) (n - 1) [] file

theorem fgetsLoop_line {size room : ℕ} (acc : Bytes) {line : Bytes} (hline : 10 ∉ line)
    (hroom : line.length < room) (s : Bytes) :
    fgetsLoop size room acc (line ++ 10 :: s) =
      (acc ++ line ++ [10]) :: fgetsLoop size size [] s := by
  induction line generalizing room acc with
  | nil =>
    rw [append_nil, nil_append, fgetsLoop, if_pos (Or.inl rfl)]
  | cons c line ih =>
    obtain ⟨hc, hline⟩ := not_or.mp (mt mem_cons.mpr hline)
    rw [length_cons] at hroom
    rw [cons_append, fgetsLoop, if_neg (by rintro (h | h); exacts [hc h.symm, by omega]),
      ih (acc ++ [c]) hline (by omega), append_assoc acc [c], singleton_append]

theorem fgetsLines_cons {n : ℕ} {line : Bytes} (hline : 10 ∉ line) (hn : line.length + 1 < n)
    (s : Bytes) : fgetsLines n (line ++ 10 :: s) = (line ++ [10]) :: fgetsLines n s :=
  fgetsLoop_line [] hline (by omega) s

end Sysak.Lib
