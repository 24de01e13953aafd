/-
# Filter values and displayed values
-/

import Sysak.Lib.Hex
import Sysak.Lib.LittleEndian

namespace Sysak.Surftrace.HeadTrans

open Lib List Option

abbrev Text := List Char

def int10 (s : Text) : Option ℕ :=
  if s = [] then none
  else s.foldlM (fun v c => if c.isDigit then some (10 * v + (c.toNat - 48)) else none) 0

def getValueFromStr (s : Text) : Option ℕ :=
  if s.take 2 = ['0', 'x'] ∨ s.take 2 = ['0', 'X'] then readHex (s.drop 2) else int10 s

def kernelReads (s : Text) : Option ℕ :=
  if s.take 2 = ['0', 'x'] then readHex (s.drop 2) else int10 s

def pack (n v : ℕ) : List UInt8 := (leBytes n v).reverse

def byteSwap (n v : ℕ) : Option ℕ := if v < 256 ^ n then some (leNat (pack n v)) else none

def inetNtoa (bs : List UInt8) : Text :=
  ['.'].intercalate (bs.map fun b => Nat.toDigits 10 b.toNat)

def inetAton (s : Text) : Option (List UInt8) :=
  if (s.splitOn '.').length = 4 then
    (s.splitOn '.').mapM fun d => (int10 d).bind fun n => if n < 256 then some (.ofNat n) else none
  else none

inductive Width
  | w16
  | w32
  | w64
deriving DecidableEq

inductive Kind
  | ip
  | B (w : Width)
  | b (w : Width)
deriving DecidableEq

def Width.name : Width → Text
  | .w16 => ['1', '6']
  | .w32 => ['3', '2']
  | .w64 => ['6', '4']

def Width.bytes : Width → ℕ
  | .w16 => 2
  | .w32 => 4
  | .w64 => 8

def Kind.name : Kind → Text
  | .ip => ['i', 'p']
  | .B w => 'B' :: w.name
  | .b w => 'b' :: w.name

def Kind.size : Kind → ℕ
  | .ip => 4
  | .B w | .b w => w.bytes

def kindOf (head : Text) : Option Kind :=
  [.ip, .B .w16, .B .w32, .B .w64, .b .w16, .b .w32, .b .w64].find? fun k =>
    k.name == head.takeWhile (· != '_')

def shownValue (value : Text) : Kind → Option Text
  | .ip => (getValueFromStr value).bind fun v => (byteSwap 4 v).map fun u => inetNtoa (pack 4 u)
  | .B w => (getValueFromStr value).bind fun v => (byteSwap w.bytes v).map hex
  | .b w => (getValueFromStr value).bind fun v => (byteSwap w.bytes v).map (Nat.toDigits 10)

def headTrans (head value : Text) : Option Text :=
  ((kindOf head).elim (some value) (shownValue value)).map (head ++ '=' :: ·)

def backValue (value : Text) : Kind → Option Text
  | .ip => (inetAton value).map fun bs => '0' :: 'x' :: hex (leNat bs)
  | .B w | .b w => (getValueFromStr value).bind fun v => (byteSwap w.bytes v).map hex

def invHeadTrans (head value : Text) : Option (Text × Text) :=
  ((kindOf head).elim (some value) (backValue value)).map (head, ·)

def Agrees (head value : Text) (v : ℕ) : Prop :=
  ∃ shown back, headTrans head value = some (head ++ '=' :: shown) ∧
    invHeadTrans head shown = some (head, back) ∧ kernelReads back = some v

def asDecimal (b n : ℕ) : Option ℕ :=
  if ∀ d ∈ Nat.digits b n, d < 10 then some (Nat.ofDigits 10 (Nat.digits b n)) else none

def Mirrored (n v : ℕ) : Prop :=
  ∃ w, asDecimal 16 (leNat (pack n v)) = some w ∧ asDecimal 16 (leNat (pack n w)) = some v

def AgreesOn (v : ℕ) : Kind → Prop
  | .ip => True
  | .B w => Mirrored w.bytes v
  | .b _ => v < 10

theorem int10_append {s : Text} (hs : s ≠ []) (c : Char) : int10 (s ++ [c]) = (int10 s).bind
    fun v => if c.isDigit then some (10 * v + (c.toNat - 48)) else none := by
  rw [int10, int10, if_neg hs, if_neg (by simp), foldlM_append]
  simp

section Digits

variable {b n : ℕ}

theorem asDecimal_eq (hb : 1 < b) (hn : 0 < n) : asDecimal b n =
    (asDecimal b (n / b)).bind fun v => if n % b < 10 then some (10 * v + n % b) else none := by
  simp only [asDecimal, Nat.digits_def' hb hn, forall_mem_cons, Nat.ofDigits_cons]
  by_cases hmod : n % b < 10
  · by_cases hrest : ∀ d ∈ Nat.digits b (n / b), d < 10
    · simp [hmod, if_pos hrest, add_comm]
    · simp [hmod, hrest]
  · simp only [hmod, false_and, if_false, bind_fun_none]

theorem asDecimal_of_lt (hb : 1 < b) (h : n < b) :
    asDecimal b n = if n < 10 then some n else none := by
  rcases Nat.eq_zero_or_pos n with rfl | hn
  · simp [asDecimal]
  · rw [asDecimal_eq hb hn, Nat.div_eq_of_lt h, Nat.mod_eq_of_lt h]
    simp [asDecimal]

theorem int10_toDigits (hb : 1 < b) (hb' : b ≤ 16) (n : ℕ) :
    int10 (Nat.toDigits b n) = asDecimal b n := by
  induction n using Nat.strongRecOn with
  | ind n ih =>
    rw [Nat.toDigits_eq_if hb]
    split_ifs with hlt
    · rw [asDecimal_of_lt hb hlt]
      by_cases h : n < 10
      · simp [int10, h, Nat.toNat_digitChar_sub_48_of_lt_ten]
      · simp [int10, h]
    · have hn : 0 < n := by omega
      rw [int10_append Nat.toDigits_ne_nil, ih _ (Nat.div_lt_self hn hb), asDecimal_eq hb hn]
      by_cases h : n % b < 10
      · simp [h, Nat.toNat_digitChar_sub_48_of_lt_ten]
      · simp [h]

theorem asDecimal_ten (n : ℕ) : asDecimal 10 n = some n := by
  rw [asDecimal, if_pos fun d hd => Nat.digits_lt_base (by decide) hd, Nat.ofDigits_digits]

theorem asDecimal_le {w : ℕ} (h : asDecimal 16 n = some w) : w ≤ n := by
  rw [asDecimal] at h
  split_ifs at h
  obtain rfl := some.inj h
  calc Nat.ofDigits 10 (Nat.digits 16 n) ≤ Nat.ofDigits 16 (Nat.digits 16 n) :=
        Nat.ofDigits_monotone _ (by decide)
    _ = n := Nat.ofDigits_digits 16 n

theorem asDecimal_self_iff : asDecimal 16 n = some n ↔ n < 10 := by
  constructor
  · intro h
    by_contra hn
    rw [asDecimal_eq (by decide) (by omega)] at h
    obtain ⟨q, hq, h⟩ := bind_eq_some_iff.mp h
    have hle := asDecimal_le hq
    split_ifs at h
    have hsum := some.inj h
    omega
  · intro h
    rw [asDecimal_of_lt (by decide) (by omega), if_pos h]

end Digits

section Swap

variable {n v : ℕ}

theorem leNat_pack_lt (n v : ℕ) : leNat (pack n v) < 256 ^ n := by
  have h := leNat_lt (pack n v)
  rwa [pack, length_reverse, length_leBytes] at h

theorem pack_leNat_pack (n v : ℕ) : pack n (leNat (pack n v)) = leBytes n v := by
  have h := leBytes_leNat (pack n v)
  rw [pack, length_reverse, length_leBytes] at h
  rw [pack, pack, h, reverse_reverse]

theorem byteSwap_of_lt (h : v < 256 ^ n) : byteSwap n v = some (leNat (pack n v)) := if_pos h

theorem leNat_pack_leNat_pack (h : v < 256 ^ n) : leNat (pack n (leNat (pack n v))) = v := by
  rw [pack_leNat_pack, leNat_leBytes_of_lt h]

end Swap

theorem take_two_ne {s : Text} {c : Char} (hc : c ∉ s) : s.take 2 ≠ ['0', c] := fun h =>
  hc (mem_of_mem_take (h ▸ mem_cons_of_mem _ mem_cons_self))

theorem not_mem_toDigits {b : ℕ} (hb : 1 < b) (hb' : b ≤ 16) {c : Char} (hc : hexDigit c = none)
    (n : ℕ) : c ∉ Nat.toDigits b n := by
  have hchar : ∀ d < 16, c ≠ Nat.digitChar d := by
    rintro d hd rfl
    rw [(hexDigit_digitChar hd).1] at hc
    cases hc
  induction n using Nat.strongRecOn with
  | ind n ih =>
    rw [Nat.toDigits_eq_if hb]
    split_ifs with hlt
    · exact fun h => hchar n (by omega) (mem_singleton.mp h)
    · rw [mem_append, mem_singleton, not_or]
      exact ⟨ih _ (Nat.div_lt_self (by omega) hb),
        hchar _ ((Nat.mod_lt n (by omega)).trans_le hb')⟩

theorem getValueFromStr_toDigits {b : ℕ} (hb : 1 < b) (hb' : b ≤ 16) (n : ℕ) :
    getValueFromStr (Nat.toDigits b n) = asDecimal b n := by
  rw [getValueFromStr, if_neg, int10_toDigits hb hb']
  exact not_or.mpr ⟨take_two_ne (not_mem_toDigits hb hb' rfl n),
    take_two_ne (not_mem_toDigits hb hb' rfl n)⟩

theorem kernelReads_hex (n : ℕ) : kernelReads (hex n) = asDecimal 16 n := by
  have hx : 'x' ∉ hex n := not_mem_toDigits (by decide) le_rfl rfl n
  rw [kernelReads, if_neg (take_two_ne hx), hex, int10_toDigits (by decide) le_rfl]

theorem kernelReads_marked (n : ℕ) : kernelReads ('0' :: 'x' :: hex n) = some n := by
  have h : kernelReads ('0' :: 'x' :: hex n) = readHex (hex n) := rfl
  rw [h, readHex_eq (hex_ne_nil n) (hex_spec n).1, (hex_spec n).2]

theorem mapM_int10 (bs : List UInt8) :
    ((bs.map fun b => Nat.toDigits 10 b.toNat).mapM fun d => (int10 d).bind fun n =>
      if n < 256 then some (UInt8.ofNat n) else none) = some bs := by
  induction bs with
  | nil => rfl
  | cons b bs ih =>
    rw [map_cons, mapM_cons, ih, int10_toDigits (by decide) (by decide), asDecimal_ten]
    simp [b.toNat_lt]

theorem inetAton_inetNtoa {bs : List UInt8} (h : bs.length = 4) :
    inetAton (inetNtoa bs) = some bs := by
  have hdot : ∀ l ∈ bs.map fun b => Nat.toDigits 10 b.toNat, '.' ∉ l := by
    intro l hl
    obtain ⟨b, -, rfl⟩ := mem_map.mp hl
    exact not_mem_toDigits (by decide) (by decide) rfl _
  have hne : (bs.map fun b => Nat.toDigits 10 b.toNat) ≠ [] := by
    rintro hnil
    simp [map_eq_nil_iff.mp hnil] at h
  rw [inetAton, inetNtoa, splitOn_intercalate '.' hdot hne, if_pos (by rwa [length_map]),
    mapM_int10]

theorem kindOf_name (k : Kind) (name : Text) : kindOf (k.name ++ '_' :: name) = some k := by
  rcases k with _ | w | w
  · rfl
  · cases w <;> rfl
  · cases w <;> rfl

theorem agrees_iff_values {k : Kind} {name value : Text} {v : ℕ} :
    Agrees (k.name ++ '_' :: name) value v ↔ ∃ shown, shownValue value k = some shown ∧
      ∃ back, backValue shown k = some back ∧ kernelReads back = some v := by
  simp only [Agrees, headTrans, invHeadTrans, kindOf_name, elim_some]
  simp

theorem exists_back_iff {shown : Text} {n v : ℕ} :
    (∃ back, ((getValueFromStr shown).bind fun u => (byteSwap n u).map hex) = some back ∧
      kernelReads back = some v) ↔
    ∃ u, getValueFromStr shown = some u ∧ u < 256 ^ n ∧
      asDecimal 16 (leNat (pack n u)) = some v := by
  constructor
  · rintro ⟨back, hback, hread⟩
    obtain ⟨u, hu, hback⟩ := bind_eq_some_iff.mp hback
    obtain ⟨x, hx, rfl⟩ := map_eq_some_iff.mp hback
    rw [byteSwap] at hx
    split_ifs at hx with hlt
    obtain rfl := some.inj hx
    exact ⟨u, hu, hlt, kernelReads_hex _ ▸ hread⟩
  · rintro ⟨u, hu, hlt, hread⟩
    refine ⟨hex (leNat (pack n u)), ?_, (kernelReads_hex _).trans hread⟩
    rw [hu, bind_some, byteSwap_of_lt hlt, map_some]

end Sysak.Surftrace.HeadTrans
