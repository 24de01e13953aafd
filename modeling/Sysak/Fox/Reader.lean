/-
# The reader
-/

import Sysak.Fox.Date

namespace Sysak.Fox

structure Junk where
  head : FoxHead
  heap : ℕ → UInt8

def foxCursorLeftLoop (file : Bytes) (now : UInt64) :
    ℕ → ℕ → UInt64 → FoxHead → FoxManager → Option (ℤ × FoxManager)
  | 0, _, _, _, _ => none
  | fuel + 1, pos, lastTUs, head, man =>
    if lseekInt pos < 0 then
      some (-EACCES, man)
    else
      let (ret, head') := foxReadHead file pos head
      if ret < 0 then
        some (ret, man)
      else if head'.tUs < now then
        some (0, { man with pos := head'.next.toNat, now := lastTUs, lastPos := pos })
      else if head'.prev.toNat = 0 then
        -- begin of file
        some (0, { man with pos := 0, now := head'.tUs, lastPos := 0 })
      else
        foxCursorLeftLoop file now fuel head'.prev.toNat head'.tUs head' man

def FoxManager.leftStart (man : FoxManager) : ℕ :=
  if man.pos = man.fsize then man.lastPos else man.pos

def foxCursorLeft (junk : Junk) (file : Bytes) (man : FoxManager) (now : UInt64) :
    Option (ℤ × FoxManager) :=
  foxCursorLeftLoop file now (file.length + 2) man.leftStart man.now junk.head man

def foxCursorRightLoop (gmtoff : ℤ) (file : Bytes) (now : UInt64) :
    ℕ → ℕ → ℕ → FoxHead → FoxManager → Option (ℤ × FoxManager)
  | 0, _, _, _, _ => none
  | fuel + 1, lastPos, pos, head, man =>
    if pos = man.fsize then
      some (0, { man with lastPos := lastPos, pos := pos, now := foxReadDayMax gmtoff man })
    else if man.fsize < pos then
      some (-ERANGE, man)
    else if lseekInt pos < 0 then
      some (-EACCES, man)
    else
      let (ret, head') := foxReadHead file pos head
      if ret < 0 then
        some (ret, man)
      else if now ≤ head'.tUs then
        some (0, { man with pos := pos, now := head'.tUs, lastPos := lastPos })
      else
        foxCursorRightLoop gmtoff file now fuel pos head'.next.toNat head' man

def foxCursorRight (gmtoff : ℤ) (junk : Junk) (file : Bytes) (man : FoxManager) (now : UInt64) :
    Option (ℤ × FoxManager) :=
  foxCursorRightLoop gmtoff file now (file.length + 2) man.lastPos man.pos junk.head man

def foxCursor (gmtoff : ℤ) (junk : Junk) (file : Bytes) (man : FoxManager) (now : UInt64) :
    Option (ℤ × FoxManager) :=
  if now < man.now then
    foxCursorLeft junk file man now
  else if man.now < now then
    foxCursorRight gmtoff junk file man now
  else
    some (0, man)

def foxCurMove (gmtoff : ℤ) (junk : Junk) (file : Bytes) (man : FoxManager) (now : UInt64) :
    Option (ℤ × FoxManager) :=
  foxCursor gmtoff junk file man now

def foxCurNext (gmtoff : ℤ) (junk : Junk) (file : Bytes) (man : FoxManager) (head : FoxHead) :
    ℤ × FoxManager :=
  let pos := head.next.toNat
  let man := { man with pos := pos }
  if pos < man.fsize then
    if lseekInt pos < 0 then
      (lseekInt pos, man)
    else
      let (ret, head') := foxReadHead file pos junk.head
      if ret < 0 then (ret, man) else (ret, { man with now := head'.tUs })
  else
    (0, { man with now := foxReadDayMax gmtoff man })

def foxCurBack (gmtoff : ℤ) (junk : Junk) (file : Bytes) (man : FoxManager) : ℤ × FoxManager :=
  let pos := man.lastPos
  let man := { man with pos := pos }
  if 0 < pos then
    if lseekInt pos < 0 then
      (lseekInt pos, man)
    else
      let (ret, head') := foxReadHead file pos junk.head
      if ret < 0 then (ret, man) else (ret, { man with now := head'.tUs })
  else
    (0, { man with now := foxReadInitNow gmtoff man })

def foxSetupRead (gmtoff : ℤ) (junk : Junk) (fs : Fs) (man : FoxManager) (d : FoxDate)
    (now : UInt64) : Option (ℤ × FoxManager) :=
  match fs (packFname d) with
  | none => some (1, { man with fd := none })
  | some file =>
    let man := { man with fd := some (packFname d), year := d.year, mon := d.mon, mday := d.mday }
    let man := { man with
      now := foxReadInitNow gmtoff man, pos := 0, lastPos := 0, fsize := file.length }
    (foxCursor gmtoff junk file man now).map fun (ret, man') =>
      if ret < 0 then (ret, { man' with fd := none }) else (ret, man')

def fdSize (fs : Fs) (fd : Option FName) : ℕ :=
  match fd.bind fs with
  | none => 2 ^ 64 - 13
  | some file => file.length

def foxReadResize (gmtoff : ℤ) (junk : Junk) (fs : Fs) (man : FoxManager) :
    Option (ℤ × FoxManager) :=
  let fsize := fdSize fs man.fd
  if man.fsize < fsize then
    if man.pos = man.fsize then
      let (ret, man') := foxCurBack gmtoff junk ((man.fd.bind fs).getD []) man
      if ret < 0 then some (ret, man') else some (ret, { man' with fsize := fsize })
    else
      some (0, { man with fsize := fsize })
  else
    (foxSetupRead gmtoff junk fs man man.midnight (makeStamp gmtoff man.midnight)).map
      fun (ret, man') => if ret ≠ 0 then (-EACCES, man') else (ret, man')

structure ReadResult where
  ret : ℤ
  us : UInt64
  data : Bytes
  deriving DecidableEq, Repr

def foxReadStream (junk : Junk) (file : Bytes) (off size : ℕ) : Bytes :=
  let got := (file.drop off).take size
  got ++ (List.range (size - got.length)).map fun i => junk.heap (got.length + i)

def foxRead (gmtoff : ℤ) (junk : Junk) (file : Bytes) (man : FoxManager) (stop : UInt64) :
    ReadResult × FoxManager :=
  if man.now ≤ stop then
    if lseekInt man.pos < 0 then
      (⟨-EACCES, 0, []⟩, man)
    else
      let (ret, head) := foxReadHead file man.pos junk.head
      if ret < 0 then
        (⟨ret, 0, []⟩, man)
      else
        let size := toInt (head.next.toNat - man.pos - headSize)
        if size < 0 then
          (⟨0, 0, []⟩, man)
        else
          let p := foxReadStream junk file (man.pos + headSize) size.toNat
          let (ret, man') := foxCurNext gmtoff junk file man head
          if ret < 0 then (⟨ret, 0, []⟩, man') else (⟨size, head.tUs, p⟩, man')
  else
    (⟨0, 0, []⟩, man)

def loadData (gmtoff : ℤ) (junk : Junk) (file : Bytes) (stop : UInt64) :
    ℕ → FoxManager → Option (List (UInt64 × Bytes))
  | 0, _ => none
  | fuel + 1, man =>
    let (r, man') := foxRead gmtoff junk file man stop
    if r.ret < 0 then
      none
    else if 0 < r.ret then
      if man'.fsize = man'.pos then
        some [(r.us, r.data)]
      else
        (loadData gmtoff junk file stop fuel man').map ((r.us, r.data) :: ·)
    else
      some []

end Sysak.Fox
