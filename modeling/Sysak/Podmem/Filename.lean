/-
# The path of a cached file
-/

import Mathlib.Data.List.GetD
import Sysak.Lib.CString
import Sysak.Lib.LuaString

namespace Sysak.Podmem

open List Sysak.Lib Option

structure Kernel where
  parent : ℕ → ℕ
  name : ℕ → Bytes
  mntParent : ℕ → ℕ
  mntMountpoint : ℕ → ℕ

structure Buffer where
  text : Bytes
  buflen : ℤ

def Buffer.prepend (b : Buffer) (str : Bytes) (off : ℕ) : Buffer :=
  let buflen := b.buflen - (str.length + off)
  if buflen < 0 then { b with buflen } else ⟨replicate off 47 ++ str ++ b.text, buflen⟩

def cleared (name : Bytes) : Bytes := replicate 128 0 ++ name.drop 128

def readName (name str : Bytes) : Bytes :=
  str.take 4096 ++ (cleared name).drop (str.take 4096).length

namespace Kernel

def getFilenameLoop (k : Kernel) : ℕ → ℕ → Bytes → Buffer → Option Buffer
  | 0, _, _, _ => none
  | fuel + 1, dentry, name, b =>
    if dentry = 0 ∨ k.parent dentry = dentry ∨ k.name dentry = [] then some b
    else
      let name := readName name (k.name dentry)
      k.getFilenameLoop fuel (k.parent dentry) name (b.prepend (stringAt name) 1)

def getFilename (k : Kernel) (fuel dentry : ℕ) : Option Bytes :=
  (k.getFilenameLoop fuel dentry (replicate 4096 0) ⟨[], 4095⟩).map fun b => b.text.take 1024

def mountLoop (k : Kernel) : ℕ → ℕ → ℕ → Buffer → Option Buffer
  | 0, _, _, _ => none
  | fuel + 1, dentry, mount, b => (k.getFilename fuel dentry).bind fun filename =>
    if filename = [] ∨ filename = [47] then some b
    else
      let b := b.prepend filename 0
      if k.mntParent mount = mount ∨ k.mntMountpoint mount = dentry then some b
      else k.mountLoop fuel (k.mntMountpoint mount) (k.mntParent mount) b

def storedName (k : Kernel) (junk : UInt8) (fuel dentry mount : ℕ) : Option (Option Bytes) :=
  (k.mountLoop fuel dentry mount ⟨[], 4095⟩).map fun b =>
    if 4092 ≤ b.buflen then none
    else some (b.text.take 254 ++ replicate (254 - b.text.length) 0 ++ [junk, 48])

end Kernel

structure IsName (n : Bytes) : Prop where
  pos : 0 < n.length
  le : n.length ≤ 255
  nul_free : 0 ∉ n
  slash_free : 47 ∉ n

def Kernel.Chain (k : Kernel) : ℕ → List Bytes → Prop
  | dentry, [] => dentry ≠ 0 ∧ k.parent dentry = dentry
  | dentry, n :: ns => dentry ≠ 0 ∧ k.parent dentry ≠ dentry ∧ k.name dentry = n ∧ IsName n ∧
      k.Chain (k.parent dentry) ns

def path (ns : List Bytes) : Bytes := 47 :: [47].intercalate ns.reverse

abbrev Hop : Type := ℕ × List Bytes

def Kernel.Hops (k : Kernel) : ℕ → Hop → List Hop → Prop
  | mount, f, [] => k.Chain f.1 f.2 ∧ (k.mntParent mount = mount ∨
      k.mntMountpoint mount = f.1 ∨ k.Chain (k.mntMountpoint mount) [])
  | mount, f, h :: hs => k.Chain f.1 f.2 ∧ k.mntParent mount ≠ mount ∧
      k.mntMountpoint mount = h.1 ∧ h.1 ≠ f.1 ∧ h.2 ≠ [] ∧ k.Hops (k.mntParent mount) h hs

def fullPath : Hop → List Hop → Bytes
  | f, [] => path f.2
  | f, h :: hs => fullPath h hs ++ path f.2

structure Placed (k : Kernel) where
  mount : ℕ
  file : Hop
  mounts : List Hop
  hops : k.Hops mount file mounts
  short : (fullPath file mounts).length < 1024

def Yields {ρ : Type*} (f : ℕ → Option ρ) (r : ρ) : Prop := ∃ N, ∀ fuel ≥ N, f fuel = some r

structure Placed.Named {k : Kernel} (p : Placed k) (junk : UInt8) : Prop where
  filename : ∀ h ∈ p.file :: p.mounts, Yields (k.getFilename · h.1) (path h.2)
  stored : ∀ st, Yields (k.storedName junk · p.file.1 p.mount) (some st) →
    0 ∈ st ∧ stringAt st <+: fullPath p.file p.mounts

def Fresh (ns : List Bytes) : Prop :=
  ns.Pairwise fun below n => n.length < 128 ∨ below.length ≤ n.length

theorem Yields.eq {ρ : Type*} {f : ℕ → Option ρ} {r r' : ρ} (h : Yields f r) (h' : Yields f r') :
    r = r' := by
  obtain ⟨N, hN⟩ := h
  obtain ⟨N', hN'⟩ := h'
  have heq := (hN (max N N') (le_max_left _ _)).symm.trans (hN' _ (le_max_right _ _))
  exact some.inj heq

theorem Yields.map {ρ τ : Type*} {f : ℕ → Option ρ} {r : ρ} (h : Yields f r) (g : ρ → τ) :
    Yields (fun fuel => (f fuel).map g) (g r) := by
  obtain ⟨N, hN⟩ := h
  exact ⟨N, fun fuel hfuel => by simp [hN fuel hfuel]⟩

def Used (name : Bytes) (m : ℕ) : Prop := ∀ i, 128 ≤ i → (name.getD i 0 = 0 ↔ m ≤ i)

def left (name : Bytes) (l : ℕ) : Bytes := stringAt ((cleared name).drop l)

variable {name n : Bytes} {m : ℕ} {k : Kernel}

variable {dentry : ℕ} {ns : List Bytes}

theorem getD_cleared (name : Bytes) (i : ℕ) :
    (cleared name).getD i 0 = if i < 128 then 0 else name.getD i 0 := by
  have hlen : (replicate 128 (0 : UInt8)).length = 128 := length_replicate
  by_cases hi : i < 128
  · rw [cleared, getD_append _ _ _ _ (by omega), getD_replicate _ hi, if_pos hi]
  · rw [cleared, getD_append_right _ _ _ _ (by omega), hlen, getD_eq_getElem?_getD, getElem?_drop,
      Nat.add_sub_cancel' (by omega), ← getD_eq_getElem?_getD, if_neg hi]

theorem readName_of_isName (hn : IsName n) :
    readName name n = n ++ (cleared name).drop n.length := by
  have hle := hn.le
  rw [readName, take_of_length_le (by omega)]

theorem stringAt_readName (hn : IsName n) :
    stringAt (readName name n) = n ++ left name n.length := by
  rw [readName_of_isName hn, left, stringAt, stringAt, takeWhile_append_of_pos]
  intro b hb
  rw [bne_iff_ne]
  rintro rfl
  exact hn.nul_free hb

theorem Used.readName (h : Used name m) (hn : IsName n) :
    Used (readName name n) (max m n.length) := by
  intro i hi
  rw [readName_of_isName hn, max_le_iff]
  by_cases hin : i < n.length
  · have hne : n[i] ≠ 0 := fun h0 => hn.nul_free (h0 ▸ getElem_mem hin)
    simp [getD_eq_getElem?_getD, getElem?_append, hin, hne]
  · have hget : (n ++ (cleared name).drop n.length).getD i 0 = (cleared name).getD i 0 := by
      simp [getD_eq_getElem?_getD, getElem?_append, hin, getElem?_drop,
        Nat.add_sub_cancel' (Nat.le_of_not_lt hin)]
    rw [hget, getD_cleared, if_neg (by omega), h i hi]
    omega

theorem left_eq_nil_iff (h : Used name m) (l : ℕ) : left name l = [] ↔ l < 128 ∨ m ≤ l := by
  have hhead : left name l = [] ↔ (cleared name).getD l 0 = 0 := by
    rw [left, stringAt_eq_nil_iff, getD_eq_getElem?_getD, getElem?_drop, getD_eq_getElem?_getD,
      Nat.add_zero]
  rw [hhead, getD_cleared]
  by_cases hl : l < 128
  · simp [hl]
  · rw [if_neg hl, h l (by omega)]
    omega

theorem length_left_le (h : Used name m) (hm : m ≤ 255) (l : ℕ) :
    (left name l).length ≤ l := by
  by_cases hl : l < 128
  · simp [(left_eq_nil_iff h l).mpr (.inl hl)]
  · refine length_stringAt_le ?_
    rw [getD_eq_getElem?_getD, getElem?_drop, ← getD_eq_getElem?_getD, getD_cleared,
      if_neg (by omega), h (l + l) (by omega)]
    omega

def texts : Bytes → List Bytes → List Bytes
  | _, [] => []
  | name, n :: ns => stringAt (readName name n) :: texts (readName name n) ns

def joined (ts : List Bytes) : Bytes := ts.reverse.flatMap (47 :: ·)

@[simp]
theorem joined_cons (t : Bytes) (ts : List Bytes) : joined (t :: ts) = joined ts ++ 47 :: t := by
  simp [joined]

theorem path_eq_joined (hne : ns ≠ []) : path ns = joined ns := by
  have hjoin (l : List Bytes) (hl : l ≠ []) : 47 :: [47].intercalate l = l.flatMap (47 :: ·) := by
    induction l with
    | nil => exact absurd rfl hl
    | cons a l ih =>
      cases l with
      | nil => simp
      | cons b l =>
        rw [intercalate_cons_cons, flatMap_cons, ← ih (cons_ne_nil b l)]
        simp
  exact hjoin _ (by simpa using hne)

theorem texts_eq_iff (h : Used name m) (hns : ∀ n ∈ ns, IsName n) :
    texts name ns = ns ↔ Fresh ns ∧ ∀ n ∈ ns, n.length < 128 ∨ m ≤ n.length := by
  induction ns generalizing name m with
  | nil => simp [texts, Fresh]
  | cons n ns ih =>
    rw [forall_mem_cons] at hns
    have htail := ih (h.readName hns.1) hns.2
    rw [texts, cons.injEq, htail, stringAt_readName hns.1, append_right_eq_self, left_eq_nil_iff h,
      Fresh, Fresh, pairwise_cons, forall_mem_cons]
    simp only [max_le_iff, or_and_left, forall_and]
    tauto

theorem length_joined_texts_le (h : Used name m) (hm : m ≤ 255) (hns : ∀ n ∈ ns, IsName n) :
    (joined (texts name ns)).length ≤ 2 * (joined ns).length := by
  induction ns generalizing name m with
  | nil => simp [texts, joined]
  | cons n ns ih =>
    rw [forall_mem_cons] at hns
    have htail := ih (h.readName hns.1) (max_le hm hns.1.le) hns.2
    have hleft := length_left_le h hm n.length
    simp only [texts, joined_cons, stringAt_readName hns.1, length_append, length_cons]
    omega

theorem texts_eq_of_length_le (hns : ∀ n ∈ ns, IsName n) :
    (joined ns).length ≤ (joined (texts name ns)).length ∧
      ((joined (texts name ns)).length ≤ (joined ns).length → texts name ns = ns) := by
  induction ns generalizing name with
  | nil => simp [texts]
  | cons n ns ih =>
    rw [forall_mem_cons] at hns
    obtain ⟨hle, heq⟩ := @ih (readName name n) hns.2
    simp only [texts, joined_cons, stringAt_readName hns.1, length_append, length_cons]
    refine ⟨by omega, fun h => ?_⟩
    rw [heq (by omega), length_eq_zero_iff.mp (show (left name n.length).length = 0 by omega),
      append_nil]

theorem Kernel.Chain.isName (h : k.Chain dentry ns) : ∀ n ∈ ns, IsName n := by
  induction ns generalizing dentry with
  | nil => simp
  | cons n ns ih =>
    obtain ⟨-, -, -, hn, hrest⟩ := h
    exact forall_mem_cons.mpr ⟨hn, ih hrest⟩

theorem Buffer.prepend_of_le {b : Buffer} {str : Bytes} {off : ℕ}
    (h : (str.length + off : ℤ) ≤ b.buflen) :
    b.prepend str off = ⟨replicate off 47 ++ str ++ b.text, b.buflen - (str.length + off)⟩ := by
  rw [prepend, if_neg (by omega)]

theorem Kernel.Chain.getFilenameLoop_eq {fuel dentry : ℕ} {ns : List Bytes} {b : Buffer}
    (h : k.Chain dentry ns) (hfuel : ns.length < fuel)
    (hfit : ((joined (texts name ns)).length : ℤ) ≤ b.buflen) :
    ∃ buflen, k.getFilenameLoop fuel dentry name b =
      some ⟨joined (texts name ns) ++ b.text, buflen⟩ := by
  induction ns generalizing fuel dentry name b with
  | nil =>
    obtain ⟨fuel, rfl⟩ := Nat.exists_eq_succ_of_ne_zero (by omega : fuel ≠ 0)
    obtain ⟨-, hroot⟩ := h
    exact ⟨b.buflen, by simp [getFilenameLoop, hroot, texts, joined]⟩
  | cons n ns ih =>
    obtain ⟨fuel, rfl⟩ := Nat.exists_eq_succ_of_ne_zero (by omega : fuel ≠ 0)
    obtain ⟨hdentry, hparent, hname, hn, hrest⟩ := h
    have hne : k.name dentry ≠ [] := fun h0 => by
      have hpos := hn.pos
      rw [← hname, h0] at hpos
      exact absurd hpos (lt_irrefl 0)
    simp only [texts, joined_cons, length_append, length_cons] at hfit
    push_cast at hfit
    obtain ⟨buflen, hloop⟩ := @ih (readName name n) fuel _
      (b.prepend (stringAt (readName name n)) 1) hrest (Nat.lt_of_succ_lt_succ hfuel) (by
        rw [Buffer.prepend_of_le (by push_cast; omega)]
        push_cast
        omega)
    refine ⟨buflen, ?_⟩
    rw [getFilenameLoop, if_neg (by simp [hdentry, hparent, hne]), hname]
    refine hloop.trans ?_
    rw [Buffer.prepend_of_le (by push_cast; omega)]
    simp [texts]

theorem used_zero : Used (replicate 4096 0) 0 := by
  intro i _
  simp only [getD_eq_getElem?_getD, getElem?_replicate]
  split <;> simp

theorem Kernel.Chain.yields (h : k.Chain dentry ns) (hshort : (joined ns).length < 1024) :
    Yields (k.getFilename · dentry) ((joined (texts (replicate 4096 0) ns)).take 1024) := by
  have hle := length_joined_texts_le used_zero (by omega) h.isName
  refine ⟨ns.length + 1, fun fuel hfuel => ?_⟩
  have hfit : ((joined (texts (replicate 4096 0) ns)).length : ℤ) ≤
      (⟨[], 4095⟩ : Buffer).buflen := by
    show _ ≤ (4095 : ℤ)
    omega
  obtain ⟨buflen, hloop⟩ := h.getFilenameLoop_eq hfuel hfit
  show Option.map _ (k.getFilenameLoop _ _ _ _) = _
  rw [hloop, map_some, append_nil]

theorem Kernel.Chain.yields_nil (h : k.Chain dentry []) : Yields (k.getFilename · dentry) [] :=
  h.yields (by simp [joined])

theorem Kernel.Chain.yields_path_iff (h : k.Chain dentry ns) (hshort : (path ns).length < 1024) :
    Yields (k.getFilename · dentry) (path ns) ↔ ns ≠ [] ∧ Fresh ns := by
  by_cases hne : ns = []
  · subst hne
    have hnil := h.yields_nil
    simp only [ne_eq, not_true_eq_false, false_and, iff_false]
    exact fun hpath => by simpa [path] using hpath.eq hnil
  rw [path_eq_joined hne] at hshort ⊢
  have hyields := h.yields hshort
  have hfresh := texts_eq_iff used_zero h.isName
  simp only [Nat.zero_le, or_true, implies_true, and_true] at hfresh
  rw [← hfresh]
  constructor
  · intro hpath
    refine ⟨hne, (texts_eq_of_length_le h.isName).2 ?_⟩
    have hlen := congrArg length (hpath.eq hyields)
    rw [length_take] at hlen
    omega
  · rintro ⟨-, htexts⟩
    rwa [htexts, take_of_length_le hshort.le] at hyields

theorem length_path_le_fullPath {f h : Hop} {hs : List Hop} (hh : h ∈ f :: hs) :
    (path h.2).length ≤ (fullPath f hs).length := by
  induction hs generalizing f with
  | nil =>
    rw [mem_singleton] at hh
    rw [hh, fullPath]
  | cons g hs ih =>
    rw [fullPath, length_append]
    obtain rfl | hh := mem_cons.mp hh
    · omega
    · have := ih hh
      omega

theorem Kernel.Hops.chain {mount : ℕ} {f h : Hop} {hs : List Hop} (hhops : k.Hops mount f hs)
    (hh : h ∈ f :: hs) : k.Chain h.1 h.2 ∧ (h = f ∨ h.2 ≠ []) := by
  induction hs generalizing mount f with
  | nil =>
    obtain rfl := mem_singleton.mp hh
    exact ⟨hhops.1, .inl rfl⟩
  | cons g hs ih =>
    obtain ⟨hf, -, -, -, hg, hrest⟩ := hhops
    obtain rfl | hh := mem_cons.mp hh
    · exact ⟨hf, .inl rfl⟩
    · obtain ⟨hchain, rfl | hne⟩ := ih hrest hh
      · exact ⟨hchain, .inr hg⟩
      · exact ⟨hchain, .inr hne⟩

theorem Kernel.Chain.one_lt_length_path (h : k.Chain dentry ns) (hne : ns ≠ []) :
    1 < (path ns).length := by
  rw [path_eq_joined hne]
  obtain ⟨n, ns, rfl⟩ := exists_cons_of_ne_nil hne
  have hpos := (h.isName n mem_cons_self).pos
  rw [joined_cons, length_append, length_cons]
  omega

theorem Kernel.Chain.mountLoop_succ {f : Hop} {b : Buffer} (hchain : k.Chain f.1 f.2)
    (hf : f.2 ≠ []) (hpath : Yields (k.getFilename · f.1) (path f.2))
    (hfit : ((path f.2).length : ℤ) ≤ b.buflen) (mount : ℕ) :
    let b' : Buffer := ⟨path f.2 ++ b.text, b.buflen - (path f.2).length⟩
    ∃ N, ∀ fuel ≥ N, k.mountLoop (fuel + 1) f.1 mount b =
      if k.mntParent mount = mount ∨ k.mntMountpoint mount = f.1 then some b'
      else k.mountLoop fuel (k.mntMountpoint mount) (k.mntParent mount) b' := by
  intro b'
  obtain ⟨N, hN⟩ := hpath
  have hlen := hchain.one_lt_length_path hf
  have hb : b.prepend (path f.2) 0 = b' := by
    rw [Buffer.prepend_of_le (by simpa using hfit)]
    simp [b']
  refine ⟨N, fun fuel hfuel => ?_⟩
  have hname : k.getFilename fuel f.1 = some (path f.2) := hN fuel hfuel
  rw [mountLoop, hname, bind_some, if_neg, hb]
  rintro (h0 | h0) <;> simp [h0] at hlen

theorem Yields.of_succ {ρ : Type*} {f g : ℕ → Option ρ} {r : ρ} (hg : Yields g r)
    (hfg : ∃ N, ∀ fuel ≥ N, f (fuel + 1) = g fuel) : Yields f r := by
  obtain ⟨N, hN⟩ := hfg
  obtain ⟨N', hN'⟩ := hg
  refine ⟨N + N' + 1, fun fuel hfuel => ?_⟩
  obtain ⟨fuel, rfl⟩ := Nat.exists_eq_succ_of_ne_zero (by omega : fuel ≠ 0)
  rw [Nat.succ_eq_add_one, hN fuel (by omega), hN' fuel (by omega)]

theorem Kernel.Chain.mountLoop_nil (h : k.Chain dentry []) (mount : ℕ) (b : Buffer) :
    Yields (k.mountLoop · dentry mount b) b := by
  obtain ⟨N, hN⟩ := h.yields_nil
  have hname : ∀ fuel ≥ N, k.getFilename fuel dentry = some [] := hN
  exact Yields.of_succ (g := fun _ => some b) ⟨0, fun _ _ => rfl⟩
    ⟨N, fun fuel hfuel => by simp [mountLoop, hname fuel hfuel]⟩

theorem Kernel.Hops.mountLoop_yields {mount : ℕ} {f : Hop} {hs : List Hop} {b : Buffer}
    (hhops : k.Hops mount f hs) (hf : f.2 ≠ [])
    (hpaths : ∀ h ∈ f :: hs, Yields (k.getFilename · h.1) (path h.2))
    (hfit : ((fullPath f hs).length : ℤ) ≤ b.buflen) :
    Yields (k.mountLoop · f.1 mount b)
      ⟨fullPath f hs ++ b.text, b.buflen - (fullPath f hs).length⟩ := by
  induction hs generalizing mount f b with
  | nil =>
    obtain ⟨hchain, hend⟩ := hhops
    obtain ⟨N, hN⟩ := hchain.mountLoop_succ hf (hpaths f mem_cons_self) hfit mount
    by_cases hstop : k.mntParent mount = mount ∨ k.mntMountpoint mount = f.1
    · exact Yields.of_succ (g := fun _ => some _) ⟨0, fun _ _ => rfl⟩
        ⟨N, fun fuel hfuel => by rw [hN fuel hfuel, if_pos hstop, fullPath]⟩
    · have hroot : k.Chain (k.mntMountpoint mount) [] := by tauto
      exact (hroot.mountLoop_nil (k.mntParent mount) _).of_succ
        ⟨N, fun fuel hfuel => by rw [hN fuel hfuel, if_neg hstop, fullPath]⟩
  | cons h hs ih =>
    obtain ⟨hchain, hparent, hpoint, hne, hh, hrest⟩ := hhops
    simp only [fullPath, length_append, Nat.cast_add] at hfit ⊢
    obtain ⟨N, hN⟩ := hchain.mountLoop_succ hf (hpaths f mem_cons_self)
      (b := b) (by omega) mount
    have hih := ih (b := ⟨path f.2 ++ b.text, b.buflen - (path f.2).length⟩) hrest hh
      (fun g hg => hpaths g (mem_cons_of_mem f hg)) (by show _ ≤ b.buflen - _; omega)
    rw [append_assoc, add_comm, ← sub_sub]
    refine hih.of_succ ⟨N, fun fuel hfuel => ?_⟩
    rw [hN fuel hfuel, hpoint, if_neg (by tauto)]

theorem zero_notMem_fullPath {f : Hop} {hs : List Hop} (hnul : ∀ h ∈ f :: hs, 0 ∉ path h.2) :
    0 ∉ fullPath f hs := by
  induction hs generalizing f with
  | nil => exact hnul f mem_cons_self
  | cons h hs ih =>
    rw [fullPath, mem_append, not_or]
    exact ⟨ih fun g hg => hnul g (mem_cons_of_mem f hg), hnul f mem_cons_self⟩

theorem Kernel.Chain.zero_notMem_path (h : k.Chain dentry ns) (hne : ns ≠ []) : 0 ∉ path ns := by
  rw [path_eq_joined hne, joined, mem_flatMap]
  rintro ⟨n, hn, h0⟩
  exact (h.isName n (mem_reverse.mp hn)).nul_free (by simpa using h0)

theorem record_iff {t : Bytes} {junk : UInt8} (ht : 0 ∉ t) :
    (0 ∈ t.take 254 ++ replicate (254 - t.length) 0 ++ [junk, 48] ∧
        stringAt (t.take 254 ++ replicate (254 - t.length) 0 ++ [junk, 48]) <+: t) ↔
      t.length < 254 ∨ junk = 0 := by
  have hstring := stringAt_strncpy_eq_iff ⟨t, ht⟩ 254 [junk, 48]
  rw [stringAt_cons_eq_nil_iff] at hstring
  constructor
  · rintro ⟨h0, -⟩
    by_contra hcon
    have hlen : 254 - t.length = 0 := by omega
    rw [hlen, replicate_zero, append_nil, mem_append] at h0
    obtain h0 | h0 := h0
    · exact ht (mem_of_mem_take h0)
    · simp only [mem_cons, not_mem_nil, or_false] at h0
      exact hcon (.inr (h0.resolve_right (by decide)).symm)
  · intro h
    refine ⟨?_, ?_⟩
    · obtain h | rfl := h
      · simp [show 254 - t.length ≠ 0 by omega]
      · simp
    · exact IsPrefix.trans (hstring.mpr h ▸ prefix_rfl) ( take_prefix 254 t)

theorem Placed.stored_iff (p : Placed k) (junk : UInt8) (hfile : p.file.2 ≠ [])
    (hpaths : ∀ h ∈ p.file :: p.mounts, Yields (k.getFilename · h.1) (path h.2)) :
    (∀ st, Yields (k.storedName junk · p.file.1 p.mount) (some st) →
        0 ∈ st ∧ stringAt st <+: fullPath p.file p.mounts) ↔
      (fullPath p.file p.mounts).length < 254 ∨ junk = 0 := by
  have hshort := p.short
  have hnul := zero_notMem_fullPath fun h hh =>
    have hchain := p.hops.chain hh
    hchain.1.zero_notMem_path (hchain.2.elim (fun heq => heq ▸ hfile) id)
  have hstored := (p.hops.mountLoop_yields (b := ⟨[], 4095⟩) hfile hpaths
    (by show _ ≤ (4095 : ℤ); omega)).map fun b => if 4092 ≤ b.buflen then none
      else some (b.text.take 254 ++ replicate (254 - b.text.length) 0 ++ [junk, 48])
  rw [append_nil] at hstored
  by_cases hthree : 4092 ≤ (4095 : ℤ) - (fullPath p.file p.mounts).length
  · -- three bytes at most: no record is made
    rw [if_pos hthree] at hstored
    exact ⟨fun _ => .inl (by omega), fun _ st hst => nomatch hst.eq hstored⟩
  · rw [if_neg hthree] at hstored
    rw [← record_iff hnul]
    refine ⟨fun h => h _ hstored, fun h st hst => ?_⟩
    rwa [some.inj (hst.eq hstored)]

theorem named_iff (k : Kernel) (p : Placed k) (junk : UInt8) :
    p.Named junk ↔ p.file.2 ≠ [] ∧ (∀ h ∈ p.file :: p.mounts, Fresh h.2) ∧
      ((fullPath p.file p.mounts).length < 254 ∨ junk = 0) := by
  have hpath : ∀ h ∈ p.file :: p.mounts,
      (Yields (k.getFilename · h.1) (path h.2) ↔ h.2 ≠ [] ∧ Fresh h.2) := fun h hh =>
    (p.hops.chain hh).1.yields_path_iff ((length_path_le_fullPath hh).trans_lt p.short)
  constructor
  · rintro ⟨hpaths, hstored⟩
    have hfile := ((hpath _ mem_cons_self).mp (hpaths _ mem_cons_self)).1
    exact ⟨hfile, fun h hh => ((hpath h hh).mp (hpaths h hh)).2,
      (p.stored_iff junk hfile hpaths).mp hstored⟩
  · rintro ⟨hfile, hfresh, hroom⟩
    have hpaths : ∀ h ∈ p.file :: p.mounts, Yields (k.getFilename · h.1) (path h.2) := fun h hh =>
      (hpath h hh).mpr ⟨(p.hops.chain hh).2.elim (fun heq => heq ▸ hfile) id, hfresh h hh⟩
    exact ⟨hpaths, (p.stored_iff junk hfile hpaths).mpr hroom⟩

def longBelowShort : Kernel where
  parent d := if d = 3 then 2 else 1
  name d := if d = 3 then replicate 200 97 else replicate 150 98
  mntParent m := m
  mntMountpoint m := m

theorem chain_longBelowShort :
    longBelowShort.Chain 3 [replicate 200 97, replicate 150 98] := by
  have hname (n : ℕ) (b : UInt8) (hn : 0 < n ∧ n ≤ 255) (hb : b ≠ 0 ∧ b ≠ 47) :
      IsName (replicate n b) :=
    ⟨by simpa using hn.1, by simpa using hn.2, fun h => hb.1 (mem_replicate.mp h).2.symm,
      fun h => hb.2 (mem_replicate.mp h).2.symm⟩
  exact ⟨by decide, by decide, rfl, hname 200 97 (by decide) (by decide), by decide, by decide, rfl,
    hname 150 98 (by decide) (by decide), by decide, rfl⟩

theorem not_named_longBelowShort : ¬(⟨7, ⟨3, [replicate 200 97, replicate 150 98]⟩, [],
    ⟨chain_longBelowShort, .inl rfl⟩, by decide +kernel⟩ : Placed longBelowShort).Named 0 := by
  rintro ⟨hpaths, -⟩
  obtain ⟨-, hfresh⟩ := (chain_longBelowShort.yields_path_iff (by decide +kernel)).mp
    (hpaths _ mem_cons_self)
  rw [Fresh, pairwise_cons] at hfresh
  have := hfresh.1 (replicate 150 98) mem_cons_self
  simp only [length_replicate] at this
  omega

end Sysak.Podmem
