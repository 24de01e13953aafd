/-
# The columns of a container over HTTP
-/

import Sysak.Lib.CString
import Sysak.Mservice.CgInfo
import Sysak.Mservice.Collect

namespace Sysak.Mservice

open Lib List Option

variable {D : Type*}

inductive Request where
  | root | cgroup | cgroupAll | rootRaw | cgroupRaw | cgroupAllRaw
deriving Repr, DecidableEq

namespace Request

def ofCgroup : Request → Bool
  | .root | .rootRaw => false
  | _ => true

def single : Request → Bool
  | .cgroup | .cgroupRaw => true
  | _ => false

def raw : Request → Bool
  | .rootRaw | .cgroupRaw | .cgroupAllRaw => true
  | _ => false

end Request

def reqStr (stack buf : Bytes) : Bytes :=
  match scanText (bytes "GET /") buf with
  | .ok s => (sscanfString 255 s).2.getD stack
  | .error _ => stack

def getRequest (stack buf : Bytes) : Option (Request × Bytes) :=
  let s := reqStr stack buf
  if s = bytes "metrics" ∨ s = bytes "metrics/" then some (.root, [])
  else if s = bytes "metrics/cgroups" ∨ s = bytes "metrics/cgroups/" then some (.cgroupAll, [])
  else if s.take 15 = (bytes "metrics/cgroups/").take 15 then some (.cgroup, s.drop 15)
  else if s = bytes "metrics/raw" ∨ s = bytes "metrics/raw/" then some (.rootRaw, [])
  else if s = bytes "metrics/raw/cgroups" ∨ s = bytes "metrics/raw/cgroups/" then
    some (.cgroupAllRaw, [])
  else if s.take 19 = (bytes "metrics/raw/cgroups/").take 19 then some (.cgroupRaw, s.drop 19)
  else none

structure WebModule (D : Type*) extends Module D where
  name : Bytes
  optLine : Bytes
  lable : Bytes
  columns : List (Bytes × Bool)

namespace WebModule

def label (w : WebModule D) (item : Bytes) : Bytes :=
  snprintf 32 (123 :: (w.lable ++ [61, 34] ++ item ++ [34, 125]))

def line (w : WebModule D) (hdr label val : Bytes) : Bytes :=
  snprintf 64 (w.optLine.drop 2 ++ [95]) ++ hdr.dropWhile (· = 32) ++ label ++ 32 :: (val ++ [10])

def columnLines (w : WebModule D) (label : Bytes) (val : ℕ → Bytes) : Bytes :=
  (range w.nCol).flatMap fun k =>
    match w.columns[k]? with
    | some (hdr, true) => w.line hdr label (val k)
    | _ => []

end WebModule

def padded (v : UInt64) : Bytes := replicate (6 - (dec v.toNat).length) 32 ++ dec v.toNat

def rowLines (fmt : D → Bytes) (req : Request) (w : WebModule D) (j : ℕ) (label : Bytes) : Bytes :=
  w.columnLines label fun k =>
    if req.raw then padded (w.curArray (j * w.nCol + k)) else fmt (w.stArray (j * w.nCol + k))

def itemLines (fmt : D → Bytes) (req : Request) (sub : Bytes) (w : WebModule D) :
    ℕ → ℕ → Option Bytes → Option Bytes
  | _, 0, _ => some []
  | _, _ + 1, none => none
  | j, k + 1, some precord =>
    match precord.dropWhile (· != itemSpstart) with
    | [] => (itemLines fmt req sub w (j + 1) k (some precord)).map (rowLines fmt req w j [] ++ ·)
    | _ :: psub =>
      let name := precord.takeWhile (· != itemSpstart)
      let rest := itemLines fmt req sub w (j + 1) k
        (match psub.dropWhile (· != itemSplit) with
          | [] => none
          | _ :: precord => some precord)
      if req.single && name != sub then rest
      else rest.map (rowLines fmt req w j (w.label name) ++ ·)

def moduleLines (fmt : D → Bytes) (req : Request) (sub : Bytes) (w : WebModule D) : Option Bytes :=
  if req.ofCgroup && w.name != bytes "mod_cgroup" then some []
  else if w.enable && !w.record.isEmpty then itemLines fmt req sub w 0 w.nItem (some w.record)
  else some []

def outputLines (fmt : D → Bytes) (req : Request) (sub : Bytes) :
    List (WebModule D) → Option Bytes
  | [] => some []
  | w :: mods =>
    (moduleLines fmt req sub w).bind fun l => (outputLines fmt req sub mods).map (l ++ ·)

def errorMsg : Bytes := bytes "HTTP/1.1 404 Not Found\r\n"

def answer (line : Bytes) : Bytes :=
  if line = [] then errorMsg
  else
    bytes "HTTP/1.1 200 OK\r\nContent-Length: " ++ dec (line.length + 1) ++ bytes " \r\n\r\n" ++
      (line ++ [10])

def collectRecord (read : WebModule D → Bytes) (mods : List (WebModule D)) : List (WebModule D) :=
  mods.map fun w => if w.enable then { w with record := read w } else w

def collect (conf : Conf D) (read : WebModule D → Bytes) (mods : List (WebModule D)) :
    Option (List (WebModule D)) :=
  let mods := collectRecord read mods
  (collectRecordStat conf true (mods.map (·.toModule))).map fun r =>
    zipWith (fun w m => { w with toModule := m }) mods r.2

structure Visit (D : Type*) where
  twice : Bool
  first : WebModule D → Bytes
  interval : UInt64
  second : WebModule D → Bytes

def handleMetric (conf : Conf D) (v : Visit D) (mods : List (WebModule D)) :
    Option (List (WebModule D)) :=
  if v.twice then
    (collect conf v.first mods).bind (collect { conf with printInterval := 1 } v.second)
  else
    collect { conf with printInterval := v.interval } v.second mods

def handleRequest (fmt : D → Bytes) (conf : Conf D) (v : Visit D) (stack buf : Bytes)
    (mods : List (WebModule D)) : Option (List (WebModule D) × Bytes) :=
  match getRequest stack buf with
  | none => some (mods, errorMsg)
  | some (req, sub) =>
    (handleMetric conf v mods).bind fun mods =>
      (outputLines fmt req sub mods).map fun line => (mods, answer line)

variable {req : Request} {items : List Item}

theorem itemLines_items (fmt : D → Bytes) (hreq : req.single = true) (sub : Bytes) (w : WebModule D)
    {k : ℕ} (hk : k ≤ items.length) (j : ℕ) :
    itemLines fmt req sub w j k (some (itemsText items)) =
      some (((items.take k).zipIdx j).flatMap fun x =>
        if x.1.name.1 = sub then rowLines fmt req w x.2 (w.label x.1.name.1) else []) := by
  induction items generalizing j k with
  | nil =>
    obtain rfl : k = 0 := Nat.le_zero.mp hk
    rfl
  | cons it items ih =>
    cases k with
    | zero => rfl
    | succ k =>
      have htext : itemsText (it :: items) =
          it.name.1 ++ itemSpstart :: (it.body ++ itemSplit :: itemsText items) := by
        simp [itemsText, Item.text]
      have hrest := ih (Nat.le_of_succ_le_succ hk) (j + 1)
      rw [htext, itemLines]
      simp only [dropWhile_bne it.name.2.2.2, takeWhile_bne it.name.2.2.2,
        dropWhile_bne it.notMem_body.1, hreq, hrest, take_succ_cons, zipIdx_cons,
        flatMap_cons, Bool.true_and, bne_iff_ne]
      by_cases hname : it.name.1 = sub
      · simp [hname]
      · simp [hname]

theorem outputLines_filter (fmt : D → Bytes) (hreq : req.ofCgroup = true) (sub : Bytes)
    (mods : List (WebModule D)) :
    outputLines fmt req sub mods =
      outputLines fmt req sub (mods.filter fun w => w.name == bytes "mod_cgroup") := by
  induction mods with
  | nil => rfl
  | cons w mods ih =>
    by_cases hw : w.name = bytes "mod_cgroup"
    · rw [filter_cons_of_pos (by simpa using hw), outputLines, outputLines, ih]
    · rw [filter_cons_of_neg (by simpa using hw), outputLines, moduleLines,
        if_pos (by simpa [hreq] using hw), ih]
      simp

variable {conf : Conf D} {mods mods' : List (WebModule D)} {w : WebModule D}

theorem mem_collect {read : WebModule D → Bytes} (h : collect conf read mods = some mods')
    (hw : w ∈ mods') : ∃ m hdr hdr', collectModule conf hdr m = some (hdr', w.toModule) := by
  obtain ⟨r, hstat, rfl⟩ := map_eq_some_iff.mp h
  obtain ⟨i, hi, rfl⟩ := mem_iff_getElem.mp hw
  have hlt : i < r.2.length := by
    rw [length_zipWith] at hi
    omega
  obtain ⟨hlen, hget⟩ := forall₂_iff_get.mp (collectRecordStat_forall₂ hstat)
  obtain ⟨hdr, hdr', hm⟩ := hget i (hlen ▸ hlt) hlt
  rw [getElem_zipWith]
  exact ⟨_, hdr, hdr', hm⟩

variable {v : Visit D}

theorem mem_handleMetric (h : handleMetric conf v mods = some mods') (hw : w ∈ mods') :
    ∃ conf' m hdr hdr', collectModule conf' hdr m = some (hdr', w.toModule) := by
  rw [handleMetric] at h
  split_ifs at h
  · obtain ⟨mods₁, -, h⟩ := bind_eq_some_iff.mp h
    exact ⟨_, mem_collect h hw⟩
  · exact ⟨_, mem_collect h hw⟩

theorem nItem_le_of_handleMetric (h : handleMetric conf v mods = some mods') (hw : w ∈ mods')
    (hen : w.enable = true) (hne : items ≠ []) (hrec : w.record = itemsText items) :
    w.nItem ≤ items.length := by
  obtain ⟨conf', m, hdr, hdr', hcollect⟩ := mem_handleMetric h hw
  obtain ⟨hrec', hen', hn⟩ := collectModule_frame hcollect
  have hpos : 0 < items.length := length_pos_iff.mpr hne
  have hcount : getStrtokNum m.record itemSplit = items.length := by
    rw [← hrec', hrec, getStrtokNum_itemsText]
  rw [hcount] at hn
  rcases hn (hen'.symm.trans hen) (by omega) with hn | hn <;> omega

structure CgItem where
  id : Cgroup.ContainerId
  vals : List UInt64
  comma : Bool
  vals_ne_nil : vals ≠ []

namespace CgItem

variable (c : CgItem)

def name : Bytes := c.id.name.take 12

theorem length_name : c.name.length = 12 := by
  rw [name, length_take, c.id.length_name]
  rfl

theorem notMem_name {b : UInt8} (hb : Cgroup.isIdDigit b = false) : b ∉ c.name :=
  fun hmem => c.id.notMem_name hb (mem_of_mem_take hmem)

theorem name_ne_nil : c.name ≠ [] := by
  intro h
  have hlen := c.length_name
  rw [h] at hlen
  exact absurd hlen (by decide)

def item : Item where
  name := ⟨c.name, c.name_ne_nil, c.notMem_name (by decide), c.notMem_name (by decide)⟩
  vals := c.vals
  comma := c.comma
  vals_ne_nil := c.vals_ne_nil

end CgItem

def statLines (fmt : D → Bytes) (w : WebModule D) (c : CgItem) (i : ℕ) : Bytes :=
  w.columnLines (w.label c.name) fun k => fmt (w.stArray (i * w.nCol + k))

def rawLines (w : WebModule D) (c : CgItem) : Bytes :=
  w.columnLines (w.label c.name) fun k => padded (c.vals.getD k 0)

def getText (path rest : Bytes) : Bytes := bytes "GET /" ++ (path ++ (bytes " HTTP" ++ rest))

theorem reqStr_getText (stack rest : Bytes) {path : Bytes} (hne : path ≠ [])
    (hspace : ∀ b ∈ path, isSpace b = false) (hlen : path.length ≤ 255) :
    reqStr stack (getText path rest) = path := by
  have hscan : scanText (bytes "GET /") (getText path rest) =
      .ok (path ++ (bytes " HTTP" ++ rest)) := rfl
  have hword := sscanfString_word 255 hne hspace (s := bytes " HTTP" ++ rest)
    (fun b hb => by cases hb; rfl)
  rw [reqStr, hscan]
  simp only [hword, getD_some, take_of_length_le hlen]

theorem isSpace_of_isIdDigit {b : UInt8} (h : Cgroup.isIdDigit b = true) : isSpace b = false := by
  rcases Bool.or_eq_true_iff.mp h with hdigit | hletter
  · exact isSpace_of_isDigit hdigit
  · have hlo := UInt8.le_iff_toNat_le.mp
      (decide_eq_true_iff.mp (Bool.and_eq_true_iff.mp hletter).1)
    exact isSpace_of_lt (lt_of_lt_of_le (by decide) hlo)

section Name

variable (c : CgItem) (stack rest : Bytes)

theorem reqStr_path {path : Bytes} (hspace : (path.all fun b => !isSpace b) = true)
    (hlen : path.length ≤ 243) : reqStr stack (getText (path ++ c.name) rest) = path ++ c.name := by
  have hname : ∀ b ∈ c.name, isSpace b = false := by
    intro b hb
    exact isSpace_of_isIdDigit (c.id.isIdDigit_of_mem (mem_of_mem_take hb))
  have hpath : ∀ b ∈ path, isSpace b = false := by simpa using hspace
  refine reqStr_getText stack rest (by simp [c.name_ne_nil])
    (forall_mem_append.mpr ⟨hpath, hname⟩) ?_
  rw [length_append, c.length_name]
  omega

theorem append_name_ne {p q r : Bytes} (hq : q.length < p.length + 12)
    (hr : r.length < p.length + 12) : ¬ (p ++ c.name = q ∨ p ++ c.name = r) := by
  rintro (rfl | rfl)
  all_goals
    rw [length_append, c.length_name] at *
    omega

theorem getRequest_cgroup : getRequest stack (getText (bytes "metrics/cgroups/" ++ c.name) rest) =
    some (.cgroup, 47 :: c.name) := by
  have hs : reqStr stack (getText (bytes "metrics/cgroups/" ++ c.name) rest) = _ :=
    reqStr_path c stack rest (by decide) (by decide)
  rw [getRequest]
  simp only [hs]
  rw [if_neg (append_name_ne c (by decide) (by decide)),
    if_neg (append_name_ne c (by decide) (by decide)),
    if_pos (take_append_of_le_length (by decide))]
  rfl

theorem getRequest_cgroupRaw :
    getRequest stack (getText (bytes "metrics/raw/cgroups/" ++ c.name) rest) =
      some (.cgroupRaw, 47 :: c.name) := by
  have hs : reqStr stack (getText (bytes "metrics/raw/cgroups/" ++ c.name) rest) = _ :=
    reqStr_path c stack rest (by decide) (by decide)
  have hraw : (bytes "metrics/raw/cgroups/" ++ c.name).take 15 ≠
      (bytes "metrics/cgroups/").take 15 := by
    rw [take_append_of_le_length (by decide)]
    decide
  rw [getRequest]
  simp only [hs]
  rw [if_neg (append_name_ne c (by decide) (by decide)),
    if_neg (append_name_ne c (by decide) (by decide)), if_neg hraw,
    if_neg (append_name_ne c (by decide) (by decide)),
    if_neg (append_name_ne c (by decide) (by decide)),
    if_pos (take_append_of_le_length (by decide))]
  rfl

end Name

def WebModule.Hidden (w : WebModule D) : Prop :=
  ∀ k < w.nCol, ∀ hdr, w.columns[k]? ≠ some (hdr, true)

theorem WebModule.columnLines_eq_nil_iff (w : WebModule D) (label : Bytes) (val : ℕ → Bytes) :
    w.columnLines label val = [] ↔ w.Hidden := by
  rw [columnLines, flatMap_eq_nil_iff, Hidden]
  refine forall_congr' fun k => ?_
  rw [mem_range]
  refine forall_congr' fun _ => ?_
  cases hcol : w.columns[k]? with
  | none => simp
  | some col =>
    obtain ⟨hdr, visible⟩ := col
    cases visible <;> simp [line]

theorem answer_nil_eq_iff (line : Bytes) : answer [] = answer line ↔ line = [] := by
  constructor
  · intro h
    by_contra hne
    rw [answer, answer, if_pos rfl, if_neg hne, append_assoc, append_assoc] at h
    have h12 := congrArg (List.take 12) h
    rw [take_append_of_le_length (by decide)] at h12
    exact absurd h12 (by decide)
  · rintro rfl
    rfl

theorem handleRequest_of_name_ne (fmt : D → Bytes) (h : handleMetric conf v mods = some mods')
    (hcg : mods'.filter (·.name == bytes "mod_cgroup") = [w]) (hne : items ≠ [])
    (hrec : w.record = itemsText items) {stack buf : Bytes} {sub : Bytes}
    (hget : getRequest stack buf = some (req, sub)) (hreq : req.single = true ∧ req.ofCgroup = true)
    (hsub : ∀ it ∈ items, it.name.1 ≠ sub) :
    handleRequest fmt conf v stack buf mods = some (mods', answer []) := by
  have hw : w ∈ mods' := by
    have hmem : w ∈ mods'.filter (·.name == bytes "mod_cgroup") := by simp [hcg]
    exact mem_of_mem_filter hmem
  have hname : w.name = bytes "mod_cgroup" := by
    have hmem : w ∈ mods'.filter (·.name == bytes "mod_cgroup") := by simp [hcg]
    simpa using of_mem_filter hmem
  have hlines : moduleLines fmt req sub w = some [] := by
    rw [moduleLines, if_neg (by simp [hname])]
    split_ifs with hen
    · have hle := nItem_le_of_handleMetric h hw (Bool.and_eq_true_iff.mp hen).1 hne hrec
      rw [hrec, itemLines_items fmt hreq.1 sub w hle, some_inj, flatMap_eq_nil_iff]
      intro x hx
      have hmem : x.1 ∈ items := mem_of_mem_take (fst_mem_of_mem_zipIdx hx)
      rw [if_neg (hsub x.1 hmem)]
    · rfl
  rw [handleRequest, hget]
  simp only [h, bind_some]
  rw [outputLines_filter fmt hreq.2, hcg, outputLines, hlines]
  rfl

theorem served_iff (fmt : D → Bytes) {conf : Conf D} {v : Visit D} {mods mods' : List (WebModule D)}
    (h : handleMetric conf v mods = some mods') {w : WebModule D}
    (hcg : mods'.filter (·.name == bytes "mod_cgroup") = [w]) {cs : List CgItem}
    (hrec : w.record = itemsText (cs.map CgItem.item)) {c : CgItem} {i : ℕ} (hc : cs[i]? = some c)
    (stack rest : Bytes) :
    (handleRequest fmt conf v stack (getText (bytes "metrics/cgroups/" ++ c.name) rest) mods =
        some (mods', answer (statLines fmt w c i)) ∧
      handleRequest fmt conf v stack (getText (bytes "metrics/raw/cgroups/" ++ c.name) rest) mods =
        some (mods', answer (rawLines w c))) ↔ w.Hidden := by
  have hne : cs.map CgItem.item ≠ [] := by
    rintro hnil
    rw [map_eq_nil_iff.mp hnil] at hc
    exact nomatch hc
  have hsub : ∀ it ∈ cs.map CgItem.item, it.name.1 ≠ 47 :: c.name := by
    intro it hit heq
    obtain ⟨d, -, rfl⟩ := mem_map.mp hit
    refine d.notMem_name (b := 47) (by decide) ?_
    rw [show d.name = 47 :: c.name from heq]
    exact mem_cons_self
  rw [handleRequest_of_name_ne fmt h hcg hne hrec (getRequest_cgroup c stack rest) ⟨rfl, rfl⟩ hsub,
    handleRequest_of_name_ne fmt h hcg hne hrec (getRequest_cgroupRaw c stack rest) ⟨rfl, rfl⟩ hsub,
    some_inj, some_inj, Prod.mk.injEq, Prod.mk.injEq, eq_self_iff_true, true_and,
    true_and, answer_nil_eq_iff, answer_nil_eq_iff, statLines, rawLines,
    WebModule.columnLines_eq_nil_iff, WebModule.columnLines_eq_nil_iff, and_self_iff]

def itemA : CgItem := ⟨Cgroup.containerA, [7], false, cons_ne_nil _ _⟩

def webCg (visible : Bool) : WebModule UInt64 where
  record := []
  enable := true
  info := [⟨.null, .null⟩]
  nItem := 0
  preFlag := false
  stFlag := false
  cap := 0
  preArray := fun _ => 0
  curArray := fun _ => 0
  stArray := fun _ => 0
  setStRecord := none
  name := bytes "mod_cgroup"
  optLine := bytes "--cg"
  lable := bytes "cgroup"
  columns := [(bytes " load1", visible)]

def visitA : Visit UInt64 := ⟨false, fun _ => [], 1, fun _ => itemsText [itemA.item]⟩

def plainFmt (v : UInt64) : Bytes := dec v.toNat

theorem served_hidden : ∃ mods w, handleMetric plainConf visitA [webCg false] = some mods ∧
    mods.filter (·.name == bytes "mod_cgroup") = [w] ∧
    w.record = itemsText ([itemA].map CgItem.item) ∧
    handleRequest plainFmt plainConf visitA [] (getText (bytes "metrics/cgroups/" ++ itemA.name) [])
        [webCg false] = some (mods, answer (statLines plainFmt w itemA 0)) ∧
      handleRequest plainFmt plainConf visitA []
        (getText (bytes "metrics/raw/cgroups/" ++ itemA.name) []) [webCg false] =
          some (mods, answer (rawLines w itemA)) := by
  refine ⟨_, _, rfl, rfl, rfl, (@served_iff UInt64 plainFmt plainConf visitA [webCg false] _ rfl _
    rfl [itemA] rfl itemA 0 rfl [] []).mpr ?_⟩
  intro k hk hdr hcol
  obtain rfl : k = 0 := Nat.lt_one_iff.mp hk
  exact Bool.false_ne_true (congrArg Prod.snd (some.inj hcol))

theorem not_served :
    (handleMetric plainConf visitA [webCg true]).map
        (·.map fun w => (statLines plainFmt w itemA 0, rawLines w itemA)) =
      some [(bytes "cg_load1\x7bcgroup=\"aaaaaaaaaaaa\"\x7d 0\n",
        bytes "cg_load1\x7bcgroup=\"aaaaaaaaaaaa\"\x7d      7\n")] ∧
    (handleRequest plainFmt plainConf visitA []
        (bytes "GET /metrics/cgroups/aaaaaaaaaaaa HTTP/1.1\r\n") [webCg true]).map Prod.snd =
      some errorMsg ∧
    (handleRequest plainFmt plainConf visitA []
        (bytes "GET /metrics/raw/cgroups/aaaaaaaaaaaa HTTP/1.1\r\n") [webCg true]).map Prod.snd =
      some errorMsg := by
  decide +kernel

end Sysak.Mservice
