/-
# The writer
-/

import Sysak.Fox.Date

namespace Sysak.Fox

structure SetupIO where
  opened : Bool
  lock : Bool
  unlock : Bool
  deriving DecidableEq, Repr

def SetupIO.ok : SetupIO := ⟨true, true, true⟩

structure WriteIO where
  lock : Bool
  head : Option ℕ
  data : Option ℕ
  unlock : Bool
  pad : UInt32
  deriving DecidableEq, Repr

def WriteIO.ok (n : ℕ) (pad : UInt32) : WriteIO := ⟨true, some headSize, some n, true, pad⟩

def write (outcome : Option ℕ) (buf : Bytes) : ℤ × Bytes :=
  match outcome with
  | none => (-1, [])
  | some k => ((buf.take k).length, buf.take k)

def foxCheckHeadLoop (file : Bytes) : ℕ → ℕ → FoxHead → FoxManager → Option (ℤ × FoxManager)
  | 0, _, _, _ => none
  | fuel + 1, off, head, man =>
    let (ret, head') := foxReadHead file off head
    if 0 < ret then
      foxCheckHeadLoop file fuel head'.next.toNat head' man
    else if ret = 0 then
      some (ret, { man with lastPos := head'.prev.toNat, pos := off })
    else
      some (ret, man)

def foxCheckHead (file : Bytes) (man : FoxManager) : Option (ℤ × FoxManager) :=
  foxCheckHeadLoop file (file.length + 2) 0 ⟨0, 0, 0, 0, 0, 0⟩ man

def foxCheck (io : SetupIO) (file : Bytes) (man : FoxManager) : Option (ℤ × FoxManager) :=
  if !io.lock then
    some (-1, man)
  else
    (foxCheckHead file man).map fun (ret, man') => (if !io.unlock then -1 else ret, man')

def openCreate (fs : Fs) (name : FName) : Fs :=
  Function.update fs name (some ((fs name).getD []))

def foxSetupWrite (io : SetupIO) (fs : Fs) (man : FoxManager) (d : FoxDate) (now : UInt64) :
    Option (ℤ × FoxManager × Fs) :=
  let fname := packFname d
  if !io.opened then
    some (-ENOENT, { man with fd := none }, fs)
  else
    (foxCheck io ((fs fname).getD []) { man with fd := some fname }).map fun (ret, man') =>
      if ret < 0 then
        (ret, { man' with fd := none }, openCreate fs fname)
      else
        (ret, { man' with year := d.year, mon := d.mon, mday := d.mday, now := now },
          openCreate fs fname)

def foxWriteHead (man : FoxManager) (us : UInt64) (len : ℕ) (pad : UInt32) : FoxHead where
  prev := .ofNat man.lastPos
  next := .ofNat (man.pos + headSize + len)
  tUs := us
  magic := foxMagic
  flag := 0
  pad := pad

def foxWriteData (io : WriteIO) (man : FoxManager) (us : UInt64) (data : Bytes) :
    ℤ × FoxManager × Bytes :=
  let head := foxWriteHead man us data.length io.pad
  if !io.lock then
    (-EACCES, man, [])
  else
    let (ret, w₁) := write io.head head.encode
    if ret < 0 then
      (if !io.unlock then -EACCES else 0, man, w₁)
    else
      let (ret, w₂) := write io.data data
      if ret < 0 then
        (if !io.unlock then -EACCES else 0, man, w₁ ++ w₂)
      else if !io.unlock then
        (-EACCES, man, w₁ ++ w₂)
      else
        (0, { man with now := us, lastPos := man.pos, pos := head.next.toNat }, w₁ ++ w₂)

def appendFd (fs : Fs) (fd : Option FName) (bs : Bytes) : Fs :=
  match fd with
  | none => fs
  | some name => Function.update fs name (some ((fs name).getD [] ++ bs))

def foxWriteDay (sio : SetupIO) (fs : Fs) (man : FoxManager) (d : FoxDate) (us : UInt64) :
    Option (ℤ × FoxManager × Fs) :=
  if !checkPmanDate man d then
    (foxSetupWrite sio fs man d us).map fun (res, man', fs') =>
      if res < 0 then (res, man', fs') else (res, { man' with newDay := 1 }, fs')
  else
    some (0, { man with newDay := 0 }, fs)

def foxWrite (sio : SetupIO) (io : WriteIO) (fs : Fs) (man : FoxManager) (d : FoxDate)
    (us : UInt64) (data : Bytes) : Option (ℤ × FoxManager × Fs) :=
  (foxWriteDay sio fs man d us).map fun (res, man', fs') =>
    if res < 0 then
      (res, man', fs')
    else if man'.now ≤ us then
      let (res, man'', bs) := foxWriteData io man' us data
      (res, man'', appendFd fs' man'.fd bs)
    else
      (res, man', fs')

end Sysak.Fox
