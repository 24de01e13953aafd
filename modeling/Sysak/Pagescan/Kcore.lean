/-
# Reading kernel memory
-/

import Mathlib.Data.List.Basic
import Sysak.Lib.LittleEndian

namespace Sysak.Pagescan

open Lib List Option

structure Phdr where
  vaddr : UInt64
  offset : UInt64
  memsz : UInt64

namespace Phdr

def holds (lp : Phdr) (kvaddr : UInt64) : Bool :=
  lp.vaddr ≤ kvaddr && kvaddr < lp.vaddr + lp.memsz

def last (lp : Phdr) : ℕ := lp.vaddr.toNat + lp.memsz.toNat

def fileOffset (lp : Phdr) (kvaddr : UInt64) : UInt64 := kvaddr - lp.vaddr + lp.offset

end Phdr

structure Segments where
  load64 : List Phdr
  apart : load64.Pairwise fun a b => a.last ≤ b.vaddr.toNat ∨ b.last ≤ a.vaddr.toNat

abbrev Contents : Type := { bs : List UInt8 // bs.length < 9223372036854775808 }

def Contents.readAt (file : Contents) (offset : UInt64) (size : ℕ) : Option (List UInt8) :=
  if 9223372036854775808 ≤ offset.toNat then none
  else if ((file.1.drop offset.toNat).take size).length < size then none
  else some ((file.1.drop offset.toNat).take size)

def kcoreReadmem (pkd : Segments) (file : Contents) (kvaddr : UInt64) (size : ℕ) :
    Option (List UInt8) :=
  (pkd.load64.find? (·.holds kvaddr)).bind fun lp => file.readAt (lp.fileOffset kvaddr) size

def ReadOk (pkd : Segments) (file : Contents) (kvaddr : UInt64) (size : ℕ) : Prop :=
  ∀ bytes, kcoreReadmem pkd file kvaddr size = some bytes → ∃ lp ∈ pkd.load64,
    lp.vaddr.toNat ≤ kvaddr.toNat ∧ kvaddr.toNat + size ≤ lp.last ∧
      bytes = (file.1.drop (lp.offset.toNat + (kvaddr.toNat - lp.vaddr.toNat))).take size ∧
      bytes.length = size

variable {pkd : Segments} {file : Contents} {kvaddr : UInt64} {size : ℕ} {lp : Phdr}

theorem holds_iff : lp.holds kvaddr = true ↔
    lp.vaddr.toNat ≤ kvaddr.toNat ∧ kvaddr.toNat < lp.last ∧ lp.last < 18446744073709551616 := by
  rw [Phdr.holds, Bool.and_eq_true, decide_eq_true_eq, decide_eq_true_eq, UInt64.le_iff_toNat_le,
    UInt64.lt_iff_toNat_lt, UInt64.toNat_add, Phdr.last]
  have := lp.vaddr.toNat_lt
  have := lp.memsz.toNat_lt
  have := kvaddr.toNat_lt
  omega

theorem toNat_fileOffset (h : lp.holds kvaddr = true) : (lp.fileOffset kvaddr).toNat =
    (lp.offset.toNat + (kvaddr.toNat - lp.vaddr.toNat)) % 18446744073709551616 := by
  obtain ⟨hle, -, -⟩ := holds_iff.mp h
  rw [Phdr.fileOffset, UInt64.toNat_add,
    UInt64.toNat_sub_of_le _ _ (UInt64.le_iff_toNat_le.mpr hle), Nat.add_comm]

theorem Segments.eq_of_mem (pkd : Segments) {a b : Phdr} (ha : a ∈ pkd.load64)
    (hb : b ∈ pkd.load64) (n : ℕ) (hna : a.vaddr.toNat ≤ n ∧ n < a.last)
    (hnb : b.vaddr.toNat ≤ n ∧ n < b.last) : a = b := by
  by_contra hne
  obtain ⟨i, hi, rfl⟩ := mem_iff_getElem.mp ha
  obtain ⟨j, hj, rfl⟩ := mem_iff_getElem.mp hb
  have hapart := pairwise_iff_getElem.mp pkd.apart
  rcases Nat.lt_trichotomy i j with hij | rfl | hij
  · have := hapart i j hi hj hij
    omega
  · exact hne rfl
  · have := hapart j i hj hi hij
    omega

theorem find?_segments (hmem : lp ∈ pkd.load64) (h : lp.holds kvaddr = true) :
    pkd.load64.find? (·.holds kvaddr) = some lp := by
  have hsome : (pkd.load64.find? (·.holds kvaddr)).isSome := find?_isSome.mpr ⟨lp, hmem, h⟩
  obtain ⟨lp', hfind⟩ := isSome_iff_exists.mp hsome
  have h' := holds_iff.mp (find?_some (p := fun a : Phdr => a.holds kvaddr) hfind)
  have h := holds_iff.mp h
  rw [hfind, pkd.eq_of_mem (mem_of_find?_eq_some hfind) hmem kvaddr.toNat ⟨h'.1, h'.2.1⟩
    ⟨h.1, h.2.1⟩]

theorem readAt_eq_some_iff {offset : UInt64} {bytes : List UInt8} :
    file.readAt offset size = some bytes ↔
      (offset.toNat < 9223372036854775808 ∧ size ≤ file.1.length - offset.toNat) ∧
        bytes = (file.1.drop offset.toNat).take size := by
  rw [Contents.readAt, length_take, length_drop]
  split_ifs with hneg hshort
  · simp [hneg.not_gt]
  · simp; omega
  · simp only [some.injEq, eq_comm (a := bytes)]
    exact (and_iff_right (by omega)).symm

def Readable (file : Contents) (lp : Phdr) (kvaddr : UInt64) (size : ℕ) : Prop :=
  (lp.fileOffset kvaddr).toNat < 9223372036854775808 ∧
    size ≤ file.1.length - (lp.fileOffset kvaddr).toNat

theorem readOk_iff (pkd : Segments) (file : Contents) (kvaddr : UInt64) (size : ℕ) :
    ReadOk pkd file kvaddr size ↔ ∀ lp ∈ pkd.load64, lp.holds kvaddr = true →
      Readable file lp kvaddr size → kvaddr.toNat + size ≤ lp.last ∧
        (size ≠ 0 → lp.offset.toNat + (kvaddr.toNat - lp.vaddr.toNat) < 18446744073709551616) := by
  constructor
  · intro hok lp hmem hlp hread
    obtain ⟨hle, hlt, -⟩ := holds_iff.mp hlp
    rcases Nat.eq_zero_or_pos size with rfl | hpos
    · exact ⟨by omega, fun h => absurd rfl h⟩
    · have hrun : kcoreReadmem pkd file kvaddr size =
          some ((file.1.drop (lp.fileOffset kvaddr).toNat).take size) := by
        rw [kcoreReadmem, find?_segments hmem hlp]
        exact readAt_eq_some_iff.mpr ⟨hread, rfl⟩
      obtain ⟨lp', hmem', hle', hin, hbytes, hlen⟩ := hok _ hrun
      obtain rfl := pkd.eq_of_mem hmem' hmem kvaddr.toNat ⟨hle', by omega⟩ ⟨hle, hlt⟩
      refine ⟨hin, fun _ => ?_⟩
      -- behind the end of the file there are no bytes
      rw [hbytes, length_take, length_drop] at hlen
      have := file.2
      omega
  · intro hall bytes hrun
    obtain ⟨lp, hfind, hat⟩ := bind_eq_some_iff.mp hrun
    obtain ⟨hread, rfl⟩ := readAt_eq_some_iff.mp hat
    have hmem := mem_of_find?_eq_some hfind
    have hlp := find?_some (p := fun a : Phdr => a.holds kvaddr) hfind
    obtain ⟨hin, hwrap⟩ := hall lp hmem hlp hread
    obtain ⟨hle, -, -⟩ := holds_iff.mp hlp
    refine ⟨lp, hmem, hle, hin, ?_, ?_⟩
    · rcases Nat.eq_zero_or_pos size with rfl | hpos
      · simp
      · rw [toNat_fileOffset hlp, Nat.mod_eq_of_lt (hwrap hpos.ne')]
    · rw [length_take, length_drop]
      exact Nat.min_eq_left hread.2

def maxHeader : ℕ := 32768

def headerField (eheader : List UInt8) (pos n : ℕ) : ℕ := leNat ((eheader.drop pos).take n)

def ePhnum (eheader : List UInt8) : ℕ := headerField eheader 56 2

def pType (eheader : List UInt8) : ℕ := headerField eheader 64 4

def notesEnd (eheader : List UInt8) : ℕ :=
  (headerField eheader 72 8 + headerField eheader 96 8) % 18446744073709551616

def headerSize (eheader : List UInt8) : ℕ :=
  let notesSize := if pType eheader = 4 then notesEnd eheader else 0
  let loadSize := if pType eheader = 1 then 64 + 56 + 56 * ePhnum eheader else 0
  if max notesSize loadSize = 0 then maxHeader else max notesSize loadSize

def elfInitReads (file : List UInt8) (malloc : ℕ → Bool) : List (ℕ × ℕ) :=
  if file.length < maxHeader then []
  else
    let eheader := file.take maxHeader
    [(56, 2), (64, 4)] ++ (if pType eheader = 4 then [(72, 8), (96, 8)] else []) ++
      if malloc (headerSize eheader) then [(0, headerSize eheader)] else []

def InitOk (file : List UInt8) (malloc : ℕ → Bool) : Prop :=
  ∀ r ∈ elfInitReads file malloc, r.1 + r.2 ≤ maxHeader

def HeaderFits (eheader : List UInt8) : Prop :=
  (pType eheader = 4 → notesEnd eheader ≤ maxHeader) ∧ (pType eheader = 1 → ePhnum eheader ≤ 583)

theorem headerSize_le_iff (eheader : List UInt8) :
    headerSize eheader ≤ maxHeader ↔ HeaderFits eheader := by
  simp only [headerSize, HeaderFits, maxHeader]
  split_ifs <;> omega

theorem initOk_iff (file : List UInt8) (malloc : ℕ → Bool) : InitOk file malloc ↔
    (maxHeader ≤ file.length → malloc (headerSize (file.take maxHeader)) = true →
      HeaderFits (file.take maxHeader)) := by
  rw [← headerSize_le_iff, InitOk, elfInitReads]
  split_ifs with hshort
  · simp [hshort.not_ge]
  · rw [imp_iff_right (not_lt.mp hshort)]
    generalize file.take maxHeader = eheader
    dsimp only
    split_ifs with hnote hmem hmem <;> simp [hmem, maxHeader]

theorem kcore_iff (pkd : Segments) (file : Contents) (malloc : ℕ → Bool) (kvaddr : UInt64)
    (size : ℕ) : ReadOk pkd file kvaddr size ∧ InitOk file.1 malloc ↔
      (∀ lp ∈ pkd.load64, lp.holds kvaddr = true → Readable file lp kvaddr size →
        kvaddr.toNat + size ≤ lp.last ∧ (size ≠ 0 →
          lp.offset.toNat + (kvaddr.toNat - lp.vaddr.toNat) < 18446744073709551616)) ∧
      (maxHeader ≤ file.1.length → malloc (headerSize (file.1.take maxHeader)) = true →
        HeaderFits (file.1.take maxHeader)) :=
  and_congr (readOk_iff pkd file kvaddr size) (initOk_iff file.1 malloc)

theorem not_readOk_end : ¬(ReadOk ⟨[⟨0xffff888000001000, 0, 4096⟩], by simp⟩
      ⟨replicate 8192 0, by decide +kernel⟩ 0xffff888000001fff 2 ∧
    InitOk (replicate 8192 0) fun _ => true) := by
  rintro ⟨h, -⟩
  obtain ⟨lp, hlp, -, hin, -⟩ := h [0, 0] (by decide +kernel)
  rw [mem_singleton.mp hlp] at hin
  exact absurd hin (by decide)

end Sysak.Pagescan
