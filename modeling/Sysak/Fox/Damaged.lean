/-
# Walks over a damaged file
-/

import Sysak.Fox.Reader
import Sysak.Fox.Writer
import Sysak.Lib.Walk

namespace Sysak.Fox

open Lib List

def followLinks (file : Bytes) (stop : ℕ → Prop) [DecidablePred stop] (link : FoxHead → Option ℕ)
    (s : ℕ × FoxHead) : (ℕ × FoxHead) ⊕ Unit :=
  if stop s.1 then
    .inr ()
  else
    let (ret, head) := foxReadHead file s.1 s.2
    if ret < 0 then
      .inr ()
    else
      match link head with
      | some off => .inl (off, head)
      | none => .inr ()

theorem foxReadHead_cases (file : Bytes) (off : ℕ) :
    (file.length ≤ off ∧ ∀ head, foxReadHead file off head = (0, head)) ∨
    off < file.length ∧ ((∃ h, ∀ head, foxReadHead file off head = ((headSize : ℤ), h)) ∨
      ∀ head, (foxReadHead file off head).1 < 0) := by
  rcases Nat.lt_or_ge off file.length with hlt | hge
  · right
    refine ⟨hlt, ?_⟩
    rcases Nat.lt_or_ge file.length (off + headSize) with hshort | hfull
    · right
      intro head
      rw [foxReadHead_short hlt hshort]
      exact (by decide : -EACCES < 0)
    · have hlen : ((file.drop off).take headSize).length = headSize := by
        rw [length_take, length_drop]
        omega
      by_cases hmagic : (FoxHead.decode ((file.drop off).take headSize)).magic = foxMagic
      · left
        exact ⟨_, fun head => by rw [foxReadHead, if_pos hlen, if_pos hmagic]⟩
      · right
        intro head
        rw [foxReadHead, if_pos hlen, if_neg hmagic]
        exact (by decide : -EINVAL < 0)
  · left
    exact ⟨hge, fun head => foxReadHead_eof hge head⟩

section FollowLinks

variable {file : Bytes} {stop : ℕ → Prop} [DecidablePred stop] {link : FoxHead → Option ℕ}
  {s s' : ℕ × FoxHead} {start : ℕ} {head : FoxHead}

theorem followLinks_inl (h : followLinks file stop link s = .inl s') :
    ¬ stop s.1 ∧ link s'.2 = some s'.1 ∧
      ((file.length ≤ s.1 ∧ s'.2 = s.2) ∨
        s.1 < file.length ∧ ∀ head, followLinks file stop link (s.1, head) = .inl s') := by
  rw [followLinks] at h
  split_ifs at h with hstop
  refine ⟨hstop, ?_⟩
  rcases foxReadHead_cases file s.1 with ⟨heof, hread⟩ | ⟨hlt, ⟨h', hread⟩ | hread⟩
  · simp only [hread, lt_self_iff_false, if_false] at h
    split at h
    · rename_i off hlink
      cases h
      exact ⟨hlink, .inl ⟨heof, rfl⟩⟩
    · cases h
  · simp only [hread, headSize_not_neg, if_false] at h
    split at h
    · rename_i off hlink
      cases h
      refine ⟨hlink, .inr ⟨hlt, fun head => ?_⟩⟩
      rw [followLinks, if_neg hstop, hread]
      simp only [headSize_not_neg, if_false, hlink]
    · cases h
  · simp only [hread s.2, if_true] at h
    cases h

theorem followLinks_stuck (hstop : ¬ stop s.1) (hlink : link s.2 = some s.1)
    (heof : file.length ≤ s.1) : followLinks file stop link s = .inl s := by
  rw [followLinks, if_neg hstop, foxReadHead_eof heof]
  simp only [lt_self_iff_false, if_false, hlink]

theorem followLinks_not_stops {i j : ℕ} {a b : ℕ × FoxHead} (hij : i < j)
    (ha : Walk.after (followLinks file stop link) i (start, head) = some a)
    (hb : Walk.after (followLinks file stop link) j (start, head) = some b) (heq : a.1 = b.1) :
    ¬ Walk.Stops (followLinks file stop link) (start, head) := by
  obtain ⟨c, hc⟩ := Walk.exists_after_of_le hb (Nat.succ_le_of_lt hij)
  obtain ⟨a', ha', hstep⟩ := Walk.exists_of_after_succ hc
  obtain rfl : a = a' := Option.some.inj (ha.symm.trans ha')
  obtain ⟨hstop, -, ⟨heof, -⟩ | ⟨-, hsame⟩⟩ := followLinks_inl hstep
  · -- the second visit is with the header whose link led there
    obtain ⟨j, rfl⟩ := Nat.exists_eq_succ_of_ne_zero (Nat.ne_zero_of_lt hij)
    obtain ⟨d, -, hd⟩ := Walk.exists_of_after_succ hb
    obtain ⟨-, hlink, -⟩ := followLinks_inl hd
    rw [heq] at hstop heof
    exact Walk.not_stops_of_eq hb
      (Walk.after_succ_of_inl hb (followLinks_stuck hstop hlink heof)) (Nat.lt_succ_self _)
  · -- both visits read the same header and go on in the same way
    rw [heq] at hsame
    exact Walk.not_stops_of_eq hc (Walk.after_succ_of_inl hb (hsame b.2)) (Nat.succ_lt_succ hij)

theorem followLinks_offset_mem
    (h : Walk.NoRepeat (followLinks file stop link) Prod.fst (start, head)) (i : ℕ)
    (a b : ℕ × FoxHead) (ha : Walk.after (followLinks file stop link) i (start, head) = some a)
    (hstep : followLinks file stop link a = .inl b) :
    a.1 ∈ insert start (Finset.range file.length) := by
  rw [Finset.mem_insert, Finset.mem_range]
  obtain ⟨hstop, -, ⟨heof, -⟩ | ⟨hlt, -⟩⟩ := followLinks_inl hstep
  · left
    rcases Nat.eq_zero_or_pos i with rfl | hi
    · cases ha
      rfl
    · obtain ⟨i, rfl⟩ := Nat.exists_eq_succ_of_ne_zero hi.ne'
      obtain ⟨d, -, hd⟩ := Walk.exists_of_after_succ ha
      obtain ⟨-, hlink, -⟩ := followLinks_inl hd
      have hstay := Walk.after_succ_of_inl ha (followLinks_stuck hstop hlink heof)
      exact absurd (h _ _ _ _ ha hstay rfl) (Nat.succ_ne_self _).symm
  · exact .inr hlt

theorem followLinks_stops_iff : Walk.Stops (followLinks file stop link) (start, head) ↔
    Walk.NoRepeat (followLinks file stop link) Prod.fst (start, head) :=
  Walk.stops_iff_noRepeat (insert start (Finset.range file.length)) followLinks_offset_mem
    fun _ _ _ _ hij ha hb heq => followLinks_not_stops hij ha hb heq

end FollowLinks

def recoveryLinks (file : Bytes) : ℕ × FoxHead → (ℕ × FoxHead) ⊕ Unit :=
  followLinks file (file.length ≤ ·) fun head => some head.next.toNat

def leftLinks (file : Bytes) (now : UInt64) : ℕ × FoxHead → (ℕ × FoxHead) ⊕ Unit :=
  followLinks file (lseekInt · < 0) fun head =>
    if head.tUs < now ∨ head.prev.toNat = 0 then none else some head.prev.toNat

def rightLinks (file : Bytes) (fsize : ℕ) (now : UInt64) : ℕ × FoxHead → (ℕ × FoxHead) ⊕ Unit :=
  followLinks file (fun pos => fsize ≤ pos ∨ lseekInt pos < 0) fun head =>
    if now ≤ head.tUs then none else some head.next.toNat

theorem foxCheckHeadLoop_eq_none_iff (file : Bytes) (man : FoxManager) (fuel : ℕ) :
    ∀ (off : ℕ) (head : FoxHead), foxCheckHeadLoop file fuel off head man = none ↔
      Walk.run (recoveryLinks file) fuel (off, head) = none := by
  induction fuel with
  | zero => exact fun _ _ => iff_of_true rfl rfl
  | succ fuel ih =>
    intro off head
    rw [foxCheckHeadLoop, Walk.run, recoveryLinks, followLinks]
    rcases foxReadHead_cases file off with ⟨heof, hread⟩ | ⟨hlt, ⟨h', hread⟩ | hread⟩
    · simp [hread, heof]
    · simp only [hread, headSize_pos, headSize_not_neg, if_true, if_false, Nat.not_le.mpr hlt]
      exact ih _ _
    · have hneg := hread head
      simp only [hneg, Nat.not_le.mpr hlt, if_false, if_true, (Int.lt_asymm hneg),
        hneg.ne]
      simp

theorem foxCursorLeftLoop_eq_none_iff (file : Bytes) (now : UInt64) (man : FoxManager) (fuel : ℕ) :
    ∀ (pos : ℕ) (lastTUs : UInt64) (head : FoxHead),
      foxCursorLeftLoop file now fuel pos lastTUs head man = none ↔
        Walk.run (leftLinks file now) fuel (pos, head) = none := by
  induction fuel with
  | zero => exact fun _ _ _ => iff_of_true rfl rfl
  | succ fuel ih =>
    intro pos lastTUs head
    rw [foxCursorLeftLoop, Walk.run, leftLinks, followLinks]
    by_cases hseek : lseekInt pos < 0
    · simp [hseek]
    · by_cases hret : (foxReadHead file pos head).1 < 0
      · simp [hseek, hret]
      · by_cases hold : (foxReadHead file pos head).2.tUs < now
        · simp [hseek, hret, hold]
        · by_cases hfirst : (foxReadHead file pos head).2.prev.toNat = 0
          · simp [hseek, hret, hold, hfirst]
          · simp only [hseek, hret, hold, hfirst, if_false, or_self]
            exact ih _ _ _

theorem foxCursorRightLoop_eq_none_iff (gmtoff : ℤ) (file : Bytes) (now : UInt64)
    (man : FoxManager) (fuel : ℕ) : ∀ (lastPos pos : ℕ) (head : FoxHead),
      foxCursorRightLoop gmtoff file now fuel lastPos pos head man = none ↔
        Walk.run (rightLinks file man.fsize now) fuel (pos, head) = none := by
  induction fuel with
  | zero => exact fun _ _ _ => iff_of_true rfl rfl
  | succ fuel ih =>
    intro lastPos pos head
    rw [foxCursorRightLoop, Walk.run, rightLinks, followLinks]
    rcases Nat.lt_trichotomy pos man.fsize with hlt | heq | hgt
    · by_cases hseek : lseekInt pos < 0
      · simp [hlt.ne, Nat.not_lt.mpr hlt.le, hseek]
      · by_cases hret : (foxReadHead file pos head).1 < 0
        · simp [hlt.ne, Nat.not_lt.mpr hlt.le, Nat.not_le.mpr hlt, hseek, hret]
        · by_cases hnew : now ≤ (foxReadHead file pos head).2.tUs
          · simp [hlt.ne, Nat.not_lt.mpr hlt.le, Nat.not_le.mpr hlt, hseek, hret, hnew]
          · simp only [hlt.ne, Nat.not_lt.mpr hlt.le, Nat.not_le.mpr hlt, hseek, hret, hnew,
              if_false, or_self]
            exact ih _ _ _
    · simp [heq]
    · simp [hgt.ne', hgt, hgt.le]

section Loops

variable {loop : ℕ → Option (ℤ × FoxManager)} {file : Bytes} {stop : ℕ → Prop}
  [DecidablePred stop] {link : FoxHead → Option ℕ} {start : ℕ} {head : FoxHead}

theorem exists_some_iff_stops (h : ∀ fuel, loop fuel = none ↔
      Walk.run (followLinks file stop link) fuel (start, head) = none) :
    (∃ fuel r, loop fuel = some r) ↔ Walk.Stops (followLinks file stop link) (start, head) := by
  refine exists_congr fun fuel => ?_
  rw [← Option.ne_none_iff_exists', ← Option.ne_none_iff_exists', ne_eq, h fuel]

end Loops

theorem walks_stop_iff (gmtoff : ℤ) (junk : Junk) (file : Bytes) (man : FoxManager)
    (now : UInt64) :
    ((∃ fuel r, foxCheckHeadLoop file fuel 0 ⟨0, 0, 0, 0, 0, 0⟩ man = some r) ↔
      Walk.NoRepeat (recoveryLinks file) Prod.fst (0, ⟨0, 0, 0, 0, 0, 0⟩)) ∧
    ((∃ fuel r, foxCursorLeftLoop file now fuel man.leftStart man.now junk.head man = some r) ↔
      Walk.NoRepeat (leftLinks file now) Prod.fst (man.leftStart, junk.head)) ∧
    ((∃ fuel r, foxCursorRightLoop gmtoff file now fuel man.lastPos man.pos junk.head man =
        some r) ↔
      Walk.NoRepeat (rightLinks file man.fsize now) Prod.fst (man.pos, junk.head)) := by
  refine ⟨?_, ?_, ?_⟩
  · exact (exists_some_iff_stops fun fuel => foxCheckHeadLoop_eq_none_iff file man fuel _ _).trans
      followLinks_stops_iff
  · exact (exists_some_iff_stops fun fuel =>
      foxCursorLeftLoop_eq_none_iff file now man fuel _ _ _).trans followLinks_stops_iff
  · exact (exists_some_iff_stops fun fuel =>
      foxCursorRightLoop_eq_none_iff gmtoff file now man fuel _ _ _).trans followLinks_stops_iff

def loopHead : FoxHead := ⟨100, 0, 5, foxMagic, 0, 0⟩

def loopMan : FoxManager := ⟨3, 0, 0, 24, none, 0, 0, 0, 0⟩

theorem walks_of_loopHead :
    (¬ ∃ fuel r, foxCheckHeadLoop loopHead.encode fuel 0 ⟨0, 0, 0, 0, 0, 0⟩ loopMan = some r) ∧
    (¬ ∃ fuel r, foxCursorLeftLoop loopHead.encode 1 fuel loopMan.leftStart loopMan.now loopHead
      loopMan = some r) ∧
    ¬ ∃ fuel r, foxCursorRightLoop 0 loopHead.encode 9 fuel loopMan.lastPos loopMan.pos loopHead
      loopMan = some r := by
  have hcheck := exists_some_iff_stops fun fuel =>
    foxCheckHeadLoop_eq_none_iff loopHead.encode loopMan fuel 0 ⟨0, 0, 0, 0, 0, 0⟩
  have hleft := exists_some_iff_stops fun fuel =>
    foxCursorLeftLoop_eq_none_iff loopHead.encode 1 loopMan fuel loopMan.leftStart loopMan.now
      loopHead
  have hright := exists_some_iff_stops fun fuel =>
    foxCursorRightLoop_eq_none_iff 0 loopHead.encode 9 loopMan fuel loopMan.lastPos loopMan.pos
      loopHead
  rw [hcheck, hleft, hright]
  refine ⟨?_, ?_, ?_⟩
  · exact followLinks_not_stops (j := 1) Nat.zero_lt_one rfl (b := (0, loopHead)) (by decide) rfl
  · exact followLinks_not_stops (i := 1) (j := 2) (Nat.lt_succ_self 1) (a := (100, loopHead))
      (by decide) (b := (100, loopHead)) (by decide) rfl
  · exact followLinks_not_stops (j := 1) Nat.zero_lt_one rfl (b := (0, loopHead)) (by decide) rfl

end Sysak.Fox
