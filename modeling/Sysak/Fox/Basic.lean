/-
# The day file of the time series store: header, manager, header reads

`source/tools/monitor/unity/tsdb/native/foxTSDB.c` keeps one file a day, a run of records, each a
`struct fox_head` of 24 bytes followed by the payload:

| field | type | bytes |
| --- | --- | --- |
| `prev` | `unsigned int` | 0–3 |
| `next` | `unsigned int` | 4–7 |
| `t_us` | `unsigned long` | 8–15 |
| `magic` | `unsigned short` | 16–17 |
| `flag` | `unsigned short` | 18–19 |
| padding | | 20–23 |

The padding holds whatever was on the stack (`FoxHead.pad`).  Offsets and sizes are natural numbers;
an `int` that receives an `lseek` result wraps at 32 bits (`lseekInt`).
-/

import Sysak.Lib.LittleEndian

namespace Sysak.Fox

open Lib List

abbrev Bytes := List UInt8

abbrev FName := List Char

abbrev Fs := FName → Option Bytes

def ENOENT : ℤ := 2
def EACCES : ℤ := 13
def EINVAL : ℤ := 22
def ERANGE : ℤ := 34

structure FoxHead where
  prev : UInt32
  next : UInt32
  tUs : UInt64
  magic : UInt16
  flag : UInt16
  pad : UInt32
  deriving DecidableEq, Repr

def foxMagic : UInt16 := 0xf030

def headSize : ℕ := 24

theorem headSize_pos : (0 : ℤ) < (headSize : ℤ) := by decide

theorem headSize_not_neg : ¬ (headSize : ℤ) < 0 := by decide

def FoxHead.encode (h : FoxHead) : Bytes :=
  leBytes 4 h.prev.toNat ++ (leBytes 4 h.next.toNat ++ (leBytes 8 h.tUs.toNat ++
    (leBytes 2 h.magic.toNat ++ (leBytes 2 h.flag.toNat ++ leBytes 4 h.pad.toNat))))

def FoxHead.decode (bs : Bytes) : FoxHead where
  prev := .ofNat (leNat (bs.take 4))
  next := .ofNat (leNat ((bs.drop 4).take 4))
  tUs := .ofNat (leNat ((bs.drop 8).take 8))
  magic := .ofNat (leNat ((bs.drop 16).take 2))
  flag := .ofNat (leNat ((bs.drop 18).take 2))
  pad := .ofNat (leNat ((bs.drop 20).take 4))

@[simp] theorem FoxHead.length_encode (h : FoxHead) : h.encode.length = headSize := by
  simp [FoxHead.encode, headSize]

theorem take_drop_leBytes_append (n x k m : ℕ) (rest : Bytes) :
    ((leBytes n x ++ rest).drop (n + k)).take m = (rest.drop k).take m := by
  rw [drop_append, length_leBytes, drop_eq_nil_of_le (by simp), nil_append,
    Nat.add_sub_cancel_left]

theorem FoxHead.decode_encode (h : FoxHead) : FoxHead.decode h.encode = h := by
  have hfst (n x : ℕ) (rest : Bytes) : (leBytes n x ++ rest).take n = leBytes n x :=
    take_left' (length_leBytes n x)
  have hnext := leNat_leBytes_of_lt (n := 4) (x := h.next.toNat) h.next.toNat_lt
  have hprev := leNat_leBytes_of_lt (n := 4) (x := h.prev.toNat) h.prev.toNat_lt
  have htUs := leNat_leBytes_of_lt (n := 8) (x := h.tUs.toNat) h.tUs.toNat_lt
  have hmagic := leNat_leBytes_of_lt (n := 2) (x := h.magic.toNat) h.magic.toNat_lt
  have hflag := leNat_leBytes_of_lt (n := 2) (x := h.flag.toNat) h.flag.toNat_lt
  have hpad := leNat_leBytes_of_lt (n := 4) (x := h.pad.toNat) h.pad.toNat_lt
  unfold FoxHead.decode FoxHead.encode
  rw [hfst, take_drop_leBytes_append 4 _ 0, take_drop_leBytes_append 4 _ 4,
    take_drop_leBytes_append 4 _ 12, take_drop_leBytes_append 4 _ 14,
    take_drop_leBytes_append 4 _ 16, take_drop_leBytes_append 4 _ 0,
    take_drop_leBytes_append 4 _ 8, take_drop_leBytes_append 4 _ 10,
    take_drop_leBytes_append 4 _ 12, take_drop_leBytes_append 8 _ 0,
    take_drop_leBytes_append 8 _ 2, take_drop_leBytes_append 8 _ 4,
    take_drop_leBytes_append 2 _ 0, take_drop_leBytes_append 2 _ 2,
    take_drop_leBytes_append 2 _ 0]
  simp only [drop_zero, hfst, take_of_length_le (Nat.le_of_eq (length_leBytes _ _)),
    hprev, hnext, htUs, hmagic, hflag, hpad, UInt32.ofNat_toNat, UInt64.ofNat_toNat,
    UInt16.ofNat_toNat]

def foxReadHead (file : Bytes) (off : ℕ) (head : FoxHead) : ℤ × FoxHead :=
  let buf := (file.drop off).take headSize
  if buf.length = headSize then
    if (FoxHead.decode buf).magic = foxMagic then
      (headSize, FoxHead.decode buf)
    else
      (-EINVAL, FoxHead.decode buf)
  else if buf.length = 0 then
    (0, head)
  else
    (-EACCES, head)

theorem foxReadHead_encode {file rest : Bytes} {off : ℕ} {h : FoxHead}
    (hfile : file.drop off = h.encode ++ rest) (hm : h.magic = foxMagic) (head : FoxHead) :
    foxReadHead file off head = ((headSize : ℤ), h) := by
  have hbuf : (file.drop off).take headSize = h.encode := by
    rw [hfile, ← h.length_encode, take_left]
  simp [foxReadHead, hbuf, FoxHead.decode_encode, hm]

theorem foxReadHead_eof {file : Bytes} {off : ℕ} (h : file.length ≤ off) (head : FoxHead) :
    foxReadHead file off head = (0, head) := by
  simp [foxReadHead, drop_eq_nil_of_le h, headSize]

theorem foxReadHead_short {file : Bytes} {off : ℕ} (h₁ : off < file.length)
    (h₂ : file.length < off + headSize) (head : FoxHead) :
    foxReadHead file off head = (-EACCES, head) := by
  have hlen : ((file.drop off).take headSize).length = file.length - off := by
    rw [length_take, length_drop]
    omega
  simp only [foxReadHead, hlen]
  rw [if_neg (by omega), if_neg (by omega)]

def toInt (z : ℤ) : ℤ := (z + 2 ^ 31) % 2 ^ 32 - 2 ^ 31

theorem toInt_of_lt {z : ℤ} (h₀ : 0 ≤ z) (h₁ : z < 2 ^ 31) : toInt z = z := by
  rw [toInt, Int.emod_eq_of_lt (by omega) (by omega)]
  omega

def lseekInt (off : ℕ) : ℤ := toInt off

theorem lseekInt_nonneg {off : ℕ} (h : off < 2 ^ 31) : ¬ lseekInt off < 0 := by
  rw [lseekInt, toInt_of_lt (by omega) (by omega)]
  omega

theorem lseekInt_neg {off : ℕ} (h₁ : 2 ^ 31 ≤ off) (h₂ : off < 2 ^ 32) : lseekInt off < 0 := by
  rw [lseekInt, toInt]
  omega

structure FoxDate where
  year : ℤ
  mon : ℤ
  mday : ℤ
  hour : ℤ
  min : ℤ
  sec : ℤ
  deriving DecidableEq, Repr

structure FoxManager where
  now : UInt64
  pos : ℕ
  lastPos : ℕ
  fsize : ℕ
  fd : Option FName
  newDay : ℤ
  year : ℤ
  mon : ℤ
  mday : ℤ
  deriving DecidableEq, Repr

def FoxManager.zero : FoxManager := ⟨0, 0, 0, 0, none, 0, 0, 0, 0⟩

def checkFoxdate (d₁ d₂ : FoxDate) : Bool :=
  d₁.year == d₂.year && d₁.mon == d₂.mon && d₁.mday == d₂.mday

def checkPmanDate (man : FoxManager) (d : FoxDate) : Bool :=
  man.year == d.year && man.mon == d.mon && man.mday == d.mday

end Sysak.Fox
