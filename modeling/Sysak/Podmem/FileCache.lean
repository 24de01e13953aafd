/-
# The pages of each cached file
-/

import Sysak.Lib.LuaString

namespace Sysak.Podmem

open List Sysak.Lib Option

structure Memory where
  mapping : ℕ → ℕ
  isKvaddr : ℕ → Bool
  nrpages : ℕ → ℕ
  host : ℕ → ℕ
  ino : ℕ → ℕ
  size : ℕ → ℕ
  del : ℕ → Bool
  filename : ℕ → Option Bytes

structure FileInfo where
  filename : Bytes
  inode : ℕ
  cached : ℕ
  cgcached : ℕ
  size : ℕ
  active : ℕ
  dirty : ℕ
  inactive : ℕ
  cinode : ℕ
  shmem : Bool
  del : Bool
deriving DecidableEq

abbrev Files : Type := ℕ → Option FileInfo

structure Sample where
  pfn : ℕ
  cinode : ℕ
  active : Bool
  shmem : Bool
  dirty : Bool
deriving DecidableEq

namespace Memory

variable (mem : Memory)

def file (p : Sample) : Option ℕ :=
  let map := mem.mapping p.pfn
  if mem.isKvaddr map = false ∨ mem.nrpages map * 4 < 100 then none else some (mem.host map)

def entry (inode : ℕ) (p : Sample) : Option FileInfo → Option FileInfo
  | some info => some { info with
      active := info.active + p.active.toNat
      inactive := info.inactive + (!p.active).toNat
      dirty := info.dirty + p.dirty.toNat
      cgcached := info.cgcached + if info.cinode = p.cinode then 1 else 0 }
  | none => (mem.filename inode).map fun filename => {
      filename
      inode := mem.ino inode
      cached := mem.nrpages (mem.mapping p.pfn) * 4
      cgcached := 1
      size := mem.size inode / 1024
      active := p.active.toNat
      dirty := p.dirty.toNat
      inactive := (!p.active).toNat
      cinode := p.cinode
      shmem := p.shmem
      del := mem.del inode }

def getDentry (files : Files) (p : Sample) : Files :=
  match mem.file p with
  | none => files
  | some inode => Function.update files (mem.ino inode) (mem.entry inode p (files (mem.ino inode)))

def count (ps : List Sample) : Files := ps.foldl mem.getDentry fun _ => none

end Memory

structure Options where
  rate : ℕ
  fullscan : Bool
  inodes : List ℕ

structure Proc where
  maxPfn : ℕ
  kpageflags : List ℕ
  kpagecgroup : ℕ → ℕ

def Proc.scanned (proc : Proc) (opt : Options) : List ℕ :=
  let scanRate := if opt.rate = 0 then 4 else opt.rate
  ((range proc.maxPfn).map fun i => scanRate * (i + 1)).takeWhile fun pfn =>
    pfn ≤ proc.maxPfn ∧ pfn < proc.kpageflags.length

def Proc.sample (proc : Proc) (opt : Options) (pfn : ℕ) : Option Sample :=
  let flags := proc.kpageflags.getD pfn 0
  let cinode := proc.kpagecgroup pfn
  -- NOPAGE, BUDDY, IDLE, SLAB, RESERVED and ANON
  if flags = 0 ∨ [20, 10, 25, 7, 32, 12].any flags.testBit then none
  else if opt.fullscan ∨ cinode ∈ opt.inodes then
    some ⟨pfn, cinode, flags.testBit 6, flags.testBit 14, flags.testBit 4⟩
  else none

def Proc.pages (proc : Proc) (opt : Options) : List Sample :=
  (proc.scanned opt).filterMap (proc.sample opt)

def scanPageflags (mem : Memory) (proc : Proc) (opt : Options) : Files :=
  mem.count (proc.pages opt)

def Memory.OwnPages (mem : Memory) (ps : List Sample) : Prop :=
  ∀ pre p post f info, ps = pre ++ p :: post → mem.file p = some f →
    mem.count pre (mem.ino f) = none → mem.count (pre ++ [p]) (mem.ino f) ≠ none →
    mem.count ps (mem.ino f) = some info →
      info.active + info.inactive = ps.countP (mem.file · = some f) ∧
      info.cgcached = ps.countP (fun q => mem.file q = some f ∧ q.cinode = info.cinode) ∧
      ∀ q ∈ post, ∀ g, mem.file q = some g → mem.ino g = mem.ino f → g = f

namespace Memory

variable {mem : Memory} {i f : ℕ} {info : FileInfo} {p : Sample} {pre ps post : List Sample}

def step (mem : Memory) (i : ℕ) (e : Option FileInfo) (p : Sample) : Option FileInfo :=
  match mem.file p with
  | some f => if mem.ino f = i then mem.entry f p e else e
  | none => e

theorem count_apply (ps : List Sample) (i : ℕ) : mem.count ps i = ps.foldl (mem.step i) none := by
  have hfold (files : Files) :
      ps.foldl mem.getDentry files i = ps.foldl (mem.step i) (files i) := by
    induction ps generalizing files with
    | nil => rfl
    | cons p ps ih =>
      rw [foldl_cons, foldl_cons, ih]
      congr 1
      unfold getDentry step
      cases mem.file p with
      | none => rfl
      | some f =>
        by_cases hi : mem.ino f = i
        · subst hi
          simp
        · simp [hi, Function.update_of_ne (Ne.symm hi)]
  exact hfold _

def number (mem : Memory) (p : Sample) : Option ℕ := (mem.file p).map mem.ino

theorem step_of_number_ne (h : mem.number p ≠ some i) (e : Option FileInfo) :
    mem.step i e p = e := by
  cases hf : mem.file p with
  | none => simp [step, hf]
  | some f =>
    have hi : mem.ino f ≠ i := fun heq => h (by simp [number, hf, heq])
    simp [step, hf, hi]

theorem step_of_file (hf : mem.file p = some f) (e : Option FileInfo) :
    mem.step (mem.ino f) e p = mem.entry f p e := by
  simp [step, hf]

theorem foldl_step_some (ps : List Sample) (info : FileInfo) :
    ∃ info', ps.foldl (mem.step i) (some info) = some info' ∧ info'.cinode = info.cinode ∧
      info'.active + info'.inactive =
        info.active + info.inactive + ps.countP (mem.number · = some i) ∧
      info'.cgcached = info.cgcached +
        ps.countP fun q => mem.number q = some i ∧ q.cinode = info.cinode := by
  induction ps generalizing info with
  | nil => exact ⟨info, rfl, rfl, rfl, rfl⟩
  | cons p ps ih =>
    rw [foldl_cons]
    by_cases hp : mem.number p = some i
    · obtain ⟨f, hf, rfl⟩ := map_eq_some_iff.mp hp
      rw [step_of_file hf, entry]
      obtain ⟨info', hfold, hcinode, hcount, hcg⟩ := ih _
      refine ⟨info', hfold, hcinode, hcount.trans ?_, hcg.trans ?_⟩
      · cases p.active <;> simp [hp] <;> omega
      · simp [countP_cons, hp, eq_comm (a := info.cinode)]
        omega
    · rw [step_of_number_ne hp]
      simpa [countP_cons, hp] using ih info

theorem foldl_step_ne_none {e : Option FileInfo} (he : e ≠ none) (ps : List Sample) :
    ps.foldl (mem.step i) e ≠ none := by
  obtain ⟨info, rfl⟩ := ne_none_iff_exists'.mp he
  obtain ⟨info', hfold, -⟩ := @foldl_step_some mem i ps info
  simp [hfold]

theorem entry_ne_none (hname : mem.filename f ≠ none) (e : Option FileInfo) :
    mem.entry f p e ≠ none := by
  cases e <;> simp [entry, hname]

theorem count_ne_none (hp : p ∈ ps) (hf : mem.file p = some f) (hname : mem.filename f ≠ none) :
    mem.count ps (mem.ino f) ≠ none := by
  obtain ⟨pre, post, rfl⟩ := append_of_mem hp
  rw [count_apply, foldl_append, foldl_cons, step_of_file hf]
  exact foldl_step_ne_none (entry_ne_none hname _) post

theorem exists_created (h : mem.count ps i ≠ none) : ∃ pre p post, ps = pre ++ p :: post ∧
    mem.count pre i = none ∧ mem.count (pre ++ [p]) i ≠ none := by
  induction ps using reverseRecOn with
  | nil => exact absurd rfl h
  | append_singleton ps p ih =>
    by_cases hps : mem.count ps i = none
    · exact ⟨ps, p, [], rfl, hps, h⟩
    · obtain ⟨pre, q, post, rfl, hpre, hq⟩ := ih hps
      exact ⟨pre, q, post ++ [p], by simp, hpre, hq⟩

theorem file_of_created (hpre : mem.count pre i = none) (hp : mem.count (pre ++ [p]) i ≠ none) :
    ∃ f, mem.file p = some f ∧ mem.ino f = i ∧ mem.filename f ≠ none := by
  rw [count_apply] at hpre hp
  rw [foldl_append, hpre, foldl_cons, foldl_nil] at hp
  by_cases hnum : mem.number p = some i
  · obtain ⟨f, hf, rfl⟩ := map_eq_some_iff.mp hnum
    refine ⟨f, hf, rfl, fun hname => hp ?_⟩
    rw [step_of_file hf, entry, hname, map_none]
  · exact absurd (step_of_number_ne hnum none) hp

theorem count_of_created (hf : mem.file p = some f) (hpre : mem.count pre (mem.ino f) = none)
    (hname : mem.filename f ≠ none) (post : List Sample) :
    ∃ info, mem.count (pre ++ p :: post) (mem.ino f) = some info ∧ info.cinode = p.cinode ∧
      info.active + info.inactive = 1 + post.countP (mem.number · = some (mem.ino f)) ∧
      info.cgcached =
        1 + post.countP fun q => mem.number q = some (mem.ino f) ∧ q.cinode = p.cinode := by
  obtain ⟨filename, hfn⟩ := ne_none_iff_exists'.mp hname
  rw [count_apply] at hpre ⊢
  rw [foldl_append, hpre, foldl_cons, step_of_file hf, entry, hfn, map_some]
  obtain ⟨info, hfold, hcinode, hcount, hcg⟩ := foldl_step_some post _
  refine ⟨info, hfold, hcinode, hcount.trans ?_, hcg⟩
  cases p.active <;> rfl

theorem countP_number_eq (hf : mem.file p = some f) (hpre : mem.count pre (mem.ino f) = none)
    (hname : mem.filename f ≠ none)
    (hpost : ∀ q ∈ post, ∀ g, mem.file q = some g → mem.ino g = mem.ino f → g = f)
    (P : Sample → Prop) [DecidablePred P] (hp : P p) :
    1 + post.countP (fun q => mem.number q = some (mem.ino f) ∧ P q) =
      (pre ++ p :: post).countP fun q => mem.file q = some f ∧ P q := by
  have hzero : pre.countP (fun q => decide (mem.file q = some f ∧ P q)) = 0 := by
    refine countP_eq_zero.mpr fun q hq hqf => ?_
    exact count_ne_none hq (of_decide_eq_true hqf).1 hname hpre
  have hsame : post.countP (fun q => decide (mem.number q = some (mem.ino f) ∧ P q)) =
      post.countP fun q => decide (mem.file q = some f ∧ P q) := by
    refine countP_congr fun q hq => ?_
    simp only [decide_eq_true_eq, and_congr_left_iff]
    refine fun _ => ⟨fun hnum => ?_, fun hqf => by simp [number, hqf]⟩
    obtain ⟨g, hg, hgf⟩ := map_eq_some_iff.mp hnum
    rw [hg, hpost q hq g hg hgf]
  rw [countP_append, hzero, countP_cons, hsame, if_pos (by simp [hf, hp])]
  omega

theorem ownPages_iff (mem : Memory) (proc : Proc) (opt : Options) :
    mem.OwnPages (proc.pages opt) ↔
      ∀ pre p post f, proc.pages opt = pre ++ p :: post → mem.file p = some f →
        mem.filename f ≠ none → ∀ q ∈ post, ∀ g, mem.file q = some g → mem.ino g = mem.ino f →
          g = f := by
  generalize proc.pages opt = ps
  constructor
  · rintro h pre p post f rfl hf hname q hq g hg hgf
    obtain ⟨pre₀, p₀, mid, hsplit, hpre₀, hp₀⟩ :=
      exists_created (count_ne_none (mem_concat_self : p ∈ pre ++ [p]) hf hname)
    obtain ⟨f₀, hf₀, hff₀, hname₀⟩ := file_of_created hpre₀ hp₀
    have hps : pre ++ p :: post = pre₀ ++ p₀ :: (mid ++ post) := by
      rw [← singleton_append, ← append_assoc, hsplit]
      simp
    rw [← hff₀] at hpre₀ hp₀
    obtain ⟨info, hinfo, -⟩ := count_of_created hf₀ hpre₀ hname₀ (mid ++ post)
    obtain ⟨-, -, hpost⟩ := h pre₀ p₀ (mid ++ post) f₀ info hps hf₀ hpre₀ hp₀ (hps ▸ hinfo)
    have hg₀ : g = f₀ := hpost q (mem_append_right mid hq) g hg (hgf.trans hff₀.symm)
    -- `p` is not in front of the page that made the entry
    have hp : p ∈ pre₀ ++ p₀ :: mid := hsplit ▸ mem_concat_self
    obtain hp | hp := mem_append.mp hp
    · exact absurd (hff₀ ▸ hpre₀) (count_ne_none hp hf hname)
    · obtain rfl | hp := mem_cons.mp hp
      · rw [hg₀, some.inj (hf₀.symm.trans hf)]
      · rw [hg₀, hpost p (mem_append_left post hp) f hf hff₀.symm]
  · rintro h pre p post f info rfl hf hpre hp hinfo
    obtain ⟨f', hf', -, hname⟩ := file_of_created hpre hp
    obtain rfl : f' = f := some.inj (hf'.symm.trans hf)
    obtain ⟨info', hinfo', hcinode, hcount, hcg⟩ := count_of_created hf hpre hname post
    obtain rfl : info' = info := some.inj (hinfo'.symm.trans hinfo)
    have hpost := h pre p post f' rfl hf hname
    refine ⟨?_, ?_, hpost⟩
    · rw [hcount]
      simpa using countP_number_eq hf hpre hname hpost (fun _ => True) trivial
    · rw [hcg, hcinode]
      exact countP_number_eq hf hpre hname hpost (·.cinode = p.cinode) rfl

theorem not_ownPages_two : ¬Memory.OwnPages
    ⟨id, fun _ => true, fun _ => 25, id, fun _ => 5, fun _ => 4096, fun _ => false,
      fun _ => some (bytes "/a/b")⟩
    (Proc.pages ⟨8, replicate 16 8, fun _ => 3⟩ ⟨0, true, []⟩) := by
  intro h
  obtain ⟨-, -, hpost⟩ := h [] ⟨4, 3, false, false, false⟩ [⟨8, 3, false, false, false⟩] 4
    ⟨bytes "/a/b", 5, 100, 2, 4, 0, 0, 2, 3, false, false⟩ (by decide) (by decide) rfl
    (by decide) (by decide)
  exact absurd (hpost _ mem_cons_self 8 (by decide) rfl) (by decide)

end Memory

end Sysak.Podmem
