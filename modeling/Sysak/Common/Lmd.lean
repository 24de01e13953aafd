/-
# Quotes and lists in markdown
-/

import Mathlib.Data.List.TakeWhile
import Sysak.Common.Pystring
import Sysak.Lib.Nesting

namespace Sysak.Lmd

open Lib Pystring Nesting List

structure Tags where
  opens : Bytes
  closes : Bytes
  ne : closes ≠ opens

def countBlankTab (s : Bytes) : ℕ × ℕ := (s.count 32, s.count 9)

def level4BT (s : Bytes) : ℕ :=
  let (blank, tab) := countBlankTab s
  4 * tab + blank

def raiseLevel (tag : Bytes) (v : ℕ) : ℕ → List Bytes → ℕ → List Bytes × ℕ
  | 0, res, level => (res, level)
  | fuel + 1, res, level =>
    if 4 * level < v then raiseLevel tag v fuel (res ++ [tag]) (level + 1) else (res, level)

def lowerLevel (tag : Bytes) (v : ℕ) (res : List Bytes) : ℕ → List Bytes × ℕ
  | 0 => (res, 0)
  | level + 1 =>
    if v < 4 * (level + 1) then lowerLevel tag v (res ++ [tag]) level else (res, level + 1)

def moveLevel (tags : Tags) (v : ℕ) (res : List Bytes) (level : ℕ) : List Bytes × ℕ :=
  if 4 * level < v then raiseLevel tags.opens v v res level
  else if v < 4 * level then lowerLevel tags.closes v res level
  else (res, level)

def nestLoop (tags : Tags) (item : Bytes → Option (ℕ × Bytes)) :
    List Bytes → List Bytes → ℕ → Option (List Bytes × ℕ)
  | [], res, level => some (res, level)
  | line :: lines, res, level =>
    (item line).bind fun r =>
      let (res, level) := moveLevel tags r.1 res level
      nestLoop tags item lines (res ++ [r.2]) level

def closeLevels (tag : Bytes) (start : ℕ) (res : List Bytes) : ℕ → List Bytes
  | 0 => res
  | level + 1 => if start < level + 1 then closeLevels tag start (res ++ [tag]) level else res

def nestLines (tags : Tags) (start : ℕ) (item : Bytes → Option (ℕ × Bytes))
    (lines res : List Bytes) : Option (List Bytes) :=
  (nestLoop tags item lines res start).map fun r => closeLevels tags.closes start r.1 r.2

def wrapped (tags : Tags) (f : List Bytes → Option (List Bytes)) (res : List Bytes) :
    Option (List Bytes) :=
  (f (res ++ [tags.opens])).map fun res => res ++ [tags.closes]

def quoteTags : Tags := ⟨bytes "<blockquote>", bytes "</blockquote>", by decide⟩

def olTags : Tags := ⟨bytes "<ol>", bytes "</ol>", by decide⟩

def ulTags : Tags := ⟨bytes "<ul>", bytes "</ul>", by decide⟩

def quoteItem (line : Bytes) : Option (ℕ × Bytes) :=
  match split line (bytes " ") (some 1) with
  | levels :: body :: _ => some (4 * levels.length, bytes "<p>" ++ body ++ bytes "</p>")
  | _ => none

def quotes (lines res : List Bytes) : Option (List Bytes) :=
  nestLines quoteTags 1 quoteItem lines res

def pQuote (lines res : List Bytes) : Option (List Bytes) := wrapped quoteTags (quotes lines) res

section

variable (seg : Bytes → Bytes)

def olItem (line : Bytes) : Option (ℕ × Bytes) :=
  match split line (bytes ".") (some 1) with
  | levels :: body :: _ =>
    some (level4BT levels, bytes "<li>" ++ seg (body.drop 1) ++ bytes "</li>")
  | _ => none

def ol (lines res : List Bytes) : Option (List Bytes) := nestLines olTags 0 (olItem seg) lines res

def pOl (lines res : List Bytes) : Option (List Bytes) := wrapped olTags (ol seg lines) res

def splitUl (s : Bytes) : Option (Bytes × Bytes) :=
  if s.head? = some 32 then
    -- up to the byte behind the first one that is no white space
    let blanks := s.takeWhile isSpace
    if blanks.length < s.length then some (s.take (blanks.length + 2), s.drop (blanks.length + 2))
    else none
  else
    match split s (bytes " ") (some 1) with
    | levels :: body :: _ => some (levels, body)
    | _ => none

def ulItem (line : Bytes) : Option (ℕ × Bytes) :=
  (splitUl line).map fun r => (level4BT r.1, bytes "<li>" ++ seg r.2 ++ bytes "</li>")

def ul (lines res : List Bytes) : Option (List Bytes) := nestLines ulTags 0 (ulItem seg) lines res

def pUl (lines res : List Bytes) : Option (List Bytes) := wrapped ulTags (ul seg lines) res

end

variable (tag : Bytes) (level : ℕ)

def settle (level v : ℕ) : ℕ := if 4 * level < v then (v + 3) / 4 else v / 4

def levels : ℕ → List ℕ → List ℕ
  | _, [] => []
  | level, v :: vs => settle level v :: levels (settle level v) vs

@[simp]
theorem length_levels (vs : List ℕ) : (levels level vs).length = vs.length := by
  induction vs generalizing level with
  | nil => rfl
  | cons v vs ih => rw [levels, length_cons, ih, length_cons]

theorem settle_eq_iff {level v : ℕ} : settle level v = level ↔ v = 4 * level := by
  rw [settle]
  split_ifs <;> omega

theorem settle_of_dvd {v : ℕ} (h : 4 ∣ v) : settle level v = v / 4 := by
  obtain ⟨k, rfl⟩ := h
  rw [settle]
  split_ifs <;> omega

theorem settle_settle_iff (v w : ℕ) :
    settle level v = settle (settle level v) w ↔
      if v = w then 4 ∣ w else w = 4 * settle level v := by
  rw [eq_comm, settle_eq_iff]
  split_ifs with heq
  · subst heq
    rw [settle]
    split_ifs <;> omega
  · rfl

theorem levels_of_dvd {vs : List ℕ} (h : ∀ v ∈ vs, 4 ∣ v) : levels level vs = vs.map (· / 4) := by
  induction vs generalizing level with
  | nil => rfl
  | cons v vs ih =>
    obtain ⟨hv, hvs⟩ := forall_mem_cons.mp h
    rw [levels, settle_of_dvd level hv, ih _ hvs, map_cons]

def Tags.token (tags : Tags) (entry : Bytes) : Token :=
  if entry = tags.opens then .opens else if entry = tags.closes then .closes else .item

theorem Tags.token_opens (tags : Tags) : tags.token tags.opens = .opens := if_pos rfl

theorem Tags.token_closes (tags : Tags) : tags.token tags.closes = .closes := by
  rw [Tags.token, if_neg tags.ne, if_pos rfl]

theorem raiseLevel_eq {v fuel : ℕ} : ∀ {level : ℕ} (res : List Bytes),
    4 * level ≤ v + 3 → v ≤ fuel + 4 * level →
      raiseLevel tag v fuel res level =
        (res ++ replicate ((v + 3) / 4 - level) tag, (v + 3) / 4) := by
  induction fuel with
  | zero =>
    intro level res hle hfuel
    obtain rfl : (v + 3) / 4 = level := by omega
    rw [raiseLevel, Nat.sub_self, replicate_zero, append_nil]
  | succ fuel ih =>
    intro level res hle hfuel
    rw [raiseLevel]
    split_ifs with hlt
    · have hcount : (v + 3) / 4 - level = (v + 3) / 4 - (level + 1) + 1 := by omega
      rw [ih _ (by omega) (by omega), hcount, replicate_succ, append_assoc,
        singleton_append]
    · obtain rfl : (v + 3) / 4 = level := by omega
      rw [Nat.sub_self, replicate_zero, append_nil]

theorem lowerLevel_eq {v level : ℕ} (res : List Bytes) (hle : v / 4 ≤ level) :
    lowerLevel tag v res level = (res ++ replicate (level - v / 4) tag, v / 4) := by
  induction level generalizing res with
  | zero =>
    rw [lowerLevel, Nat.zero_sub, replicate_zero, append_nil, Nat.le_zero.mp hle]
  | succ level ih =>
    rw [lowerLevel]
    split_ifs with hlt
    · rw [ih _ (by omega), Nat.succ_sub (by omega), replicate_succ, append_assoc,
        singleton_append]
    · have hv : v / 4 = level + 1 := by omega
      rw [hv, Nat.sub_self, replicate_zero, append_nil]

theorem closeLevels_eq (start : ℕ) (res : List Bytes) (level : ℕ) :
    closeLevels tag start res level = res ++ replicate (level - start) tag := by
  induction level generalizing res with
  | zero => rw [closeLevels, Nat.zero_sub, replicate_zero, append_nil]
  | succ level ih =>
    rw [closeLevels]
    split_ifs with hlt
    · rw [ih, Nat.succ_sub (by omega), replicate_succ, append_assoc,
        singleton_append]
    · rw [Nat.sub_eq_zero_of_le (by omega), replicate_zero, append_nil]

theorem moveLevel_spec (tags : Tags) (v : ℕ) (res : List Bytes) (level : ℕ) :
    ∃ out, moveLevel tags v res level = (res ++ out, settle level v) ∧
      out.map tags.token = steps level (settle level v) := by
  rw [moveLevel, settle]
  split_ifs with hup hdown
  · refine ⟨_, raiseLevel_eq tags.opens res (by omega) (by omega), ?_⟩
    have hzero : level - (v + 3) / 4 = 0 := by omega
    rw [map_replicate, tags.token_opens, steps, hzero, replicate_zero, append_nil]
  · refine ⟨_, lowerLevel_eq tags.closes res (by omega), ?_⟩
    have hzero : v / 4 - level = 0 := by omega
    rw [map_replicate, tags.token_closes, steps, hzero, replicate_zero, nil_append]
  · obtain rfl : v / 4 = level := by omega
    exact ⟨[], by rw [append_nil], by rw [steps, Nat.sub_self]; rfl⟩

def Takes (tags : Tags) (item : Bytes → Option (ℕ × Bytes)) (line : Bytes) : Prop :=
  ∃ v entry, item line = some (v, entry) ∧ tags.token entry = .item

def quarters (item : Bytes → Option (ℕ × Bytes)) (line : Bytes) : ℕ :=
  ((item line).map Prod.fst).getD 0

section

variable {tags : Tags} {item : Bytes → Option (ℕ × Bytes)} {lines : List Bytes}

theorem nestLoop_spec (hlines : ∀ line ∈ lines, Takes tags item line) (res : List Bytes)
    (level : ℕ) :
    ∃ out, nestLoop tags item lines res level =
        some (res ++ out, lastLevel level (levels level (lines.map (quarters item)))) ∧
      out.map tags.token = path level (levels level (lines.map (quarters item))) := by
  induction lines generalizing res level with
  | nil => exact ⟨[], by rw [append_nil]; rfl, rfl⟩
  | cons line lines ih =>
    obtain ⟨⟨v, entry, hitem, hentry⟩, hlines⟩ := forall_mem_cons.mp hlines
    have hv : quarters item line = v := by rw [quarters, hitem]; rfl
    obtain ⟨tagsOut, hmove, htags⟩ := moveLevel_spec tags v res level
    obtain ⟨out, hloop, hout⟩ := ih hlines (res ++ tagsOut ++ [entry]) (settle level v)
    refine ⟨tagsOut ++ entry :: out, ?_, ?_⟩
    · rw [nestLoop, hitem, Option.bind_some, hmove, map_cons, levels, hv, lastLevel_cons]
      simpa using hloop
    · rw [map_append, map_cons, htags, hentry, hout, map_cons, levels, hv, path]

theorem wrapped_nestLines_spec (hlines : ∀ line ∈ lines, Takes tags item line) (start : ℕ)
    (res : List Bytes) :
    ∃ out, wrapped tags (nestLines tags start item lines) res = some (res ++ out) ∧
      out.map tags.token = block start (levels start (lines.map (quarters item))) := by
  obtain ⟨out, hloop, hout⟩ := nestLoop_spec hlines (res ++ [tags.opens]) start
  refine ⟨tags.opens :: (out ++ (replicate
    (lastLevel start (levels start (lines.map (quarters item))) - start) tags.closes ++
      [tags.closes])), ?_, ?_⟩
  · rw [wrapped, nestLines, hloop, Option.map_some, Option.map_some, closeLevels_eq]
    simp
  · rw [map_cons, map_append, map_append, map_replicate, map_singleton,
      hout, tags.token_opens, tags.token_closes, block]

end

inductive Kind where
  | quote
  | ol
  | ul
deriving DecidableEq

namespace Kind

def Line : Kind → Bytes → Prop
  | .quote, s => ∃ a w b, s = a ++ 62 :: w :: b ∧ isSpace w = true
  | .ol, s => ∃ a d w b, s = a ++ d :: 46 :: w :: b ∧ isDigit d = true ∧ isSpace w = true
  | .ul, s => ∃ a c w b, s = a ++ c :: w :: b ∧ (c = 45 ∨ c = 42 ∨ c = 43) ∧ isSpace w = true

def tags : Kind → Tags
  | .quote => quoteTags
  | .ol => olTags
  | .ul => ulTags

def start : Kind → ℕ
  | .quote => 1
  | .ol | .ul => 0

def item (seg : Bytes → Bytes) : Kind → Bytes → Option (ℕ × Bytes)
  | .quote => quoteItem
  | .ol => olItem seg
  | .ul => ulItem seg

def render (seg : Bytes → Bytes) : Kind → List Bytes → List Bytes → Option (List Bytes)
  | .quote => pQuote
  | .ol => pOl seg
  | .ul => pUl seg

theorem render_eq (seg : Bytes → Bytes) (kind : Kind) (lines res : List Bytes) :
    kind.render seg lines res =
      wrapped kind.tags (nestLines kind.tags kind.start (kind.item seg) lines) res := by
  cases kind <;> rfl

theorem start_le (kind : Kind) : kind.start ≤ 1 := by
  cases kind <;> decide

end Kind

structure Block where
  kind : Kind
  lines : List Bytes
  lines_ne : lines ≠ []
  lines_ok : ∀ line ∈ lines, kind.Line line

theorem Tags.token_item {tags : Tags} {entry : Bytes} (hopens : entry ≠ tags.opens)
    (hcloses : entry ≠ tags.closes) : tags.token entry = .item := by
  rw [Tags.token, if_neg hopens, if_neg hcloses]

theorem ne_of_take_two {s t : Bytes} (h : s.take 2 ≠ t.take 2) : s ≠ t :=
  fun heq => h (congrArg (List.take 2) heq)

theorem exists_split {s : Bytes} {c x : UInt8} (hx : x ∈ s) (hc : checkDelimiter c x = true) :
    ∃ a y b, s = a ++ y :: b ∧ (∀ z ∈ a, checkDelimiter c z = false) ∧ checkDelimiter c y = true ∧
      split s [c] (some 1) = [a, b] := by
  rcases split_byte_cases s c with h | ⟨hnot, -⟩
  · exact h
  · rw [hnot x hx] at hc
    cases hc

variable (seg : Bytes → Bytes)

theorem token_li {tags : Tags} (htags : tags = olTags ∨ tags = ulTags) (body : Bytes) :
    tags.token (bytes "<li>" ++ body ++ bytes "</li>") = .item := by
  have htake : (bytes "<li>" ++ body ++ bytes "</li>").take 2 = [60, 108] := rfl
  rcases htags with rfl | rfl <;>
    exact Tags.token_item (ne_of_take_two (by rw [htake]; decide))
      (ne_of_take_two (by rw [htake]; decide))

variable {line : Bytes}

theorem quoteItem_eq (h : Kind.quote.Line line) :
    ∃ levels y body, line = levels ++ y :: body ∧ (∀ c ∈ levels, isSpace c = false) ∧
      isSpace y = true ∧
      quoteItem line = some (4 * levels.length, bytes "<p>" ++ body ++ bytes "</p>") := by
  obtain ⟨a, w, b, rfl, hw⟩ := h
  obtain ⟨levels, y, body, heq, hlevels, hy, hsplit⟩ :=
    exists_split (c := 32) (x := w) (s := a ++ 62 :: w :: b) (by simp) hw
  refine ⟨levels, y, body, heq, hlevels, hy, ?_⟩
  rw [quoteItem, show bytes " " = [32] from rfl, hsplit]

theorem quote_takes (h : Kind.quote.Line line) : Takes quoteTags quoteItem line := by
  obtain ⟨levels, y, body, -, -, -, hitem⟩ := quoteItem_eq h
  refine ⟨_, _, hitem, ?_⟩
  have htake : (bytes "<p>" ++ body ++ bytes "</p>").take 2 = [60, 112] := rfl
  exact Tags.token_item (ne_of_take_two (by rw [htake]; decide))
    (ne_of_take_two (by rw [htake]; decide))

theorem ol_takes (h : Kind.ol.Line line) : Takes olTags (olItem seg) line := by
  obtain ⟨a, d, w, b, rfl, -, -⟩ := h
  obtain ⟨levels, y, body, -, -, -, hsplit⟩ :=
    exists_split (c := 46) (x := 46) (s := a ++ d :: 46 :: w :: b) (by simp) rfl
  refine ⟨level4BT levels, bytes "<li>" ++ seg (body.drop 1) ++ bytes "</li>", ?_,
    token_li (.inl rfl) _⟩
  rw [olItem, show bytes "." = [46] from rfl, hsplit]

theorem ul_takes (h : Kind.ul.Line line) : Takes ulTags (ulItem seg) line := by
  have hsplit : ∃ r, splitUl line = some r := by
    obtain ⟨a, c, w, b, rfl, hc, hw⟩ := h
    rw [splitUl]
    by_cases hhead : (a ++ c :: w :: b).head? = some 32
    · -- the marker is no white space
      have hlen : ((a ++ c :: w :: b).takeWhile isSpace).length < (a ++ c :: w :: b).length := by
        by_contra hall
        have hself := ( takeWhile_prefix isSpace (l := a ++ c :: w :: b)).eq_of_length_le
          (not_lt.mp hall)
        have hmem : c ∈ (a ++ c :: w :: b).takeWhile isSpace := by
          rw [hself]
          simp
        have hspace := mem_takeWhile_imp hmem
        rcases hc with rfl | rfl | rfl <;> cases hspace
      rw [if_pos hhead]
      simp only [if_pos hlen]
      exact ⟨_, rfl⟩
    · obtain ⟨levels, y, body, -, -, -, hsplit⟩ :=
        exists_split (c := 32) (x := w) (s := a ++ c :: w :: b) (by simp) hw
      rw [if_neg hhead, show bytes " " = [32] from rfl, hsplit]
      exact ⟨_, rfl⟩
  obtain ⟨r, hr⟩ := hsplit
  exact ⟨_, _, by rw [ulItem, hr]; rfl, token_li (.inr rfl) _⟩

theorem Block.takes (b : Block) :
    ∀ line ∈ b.lines, Takes b.kind.tags (b.kind.item seg) line := by
  intro line hline
  have hok := b.lines_ok line hline
  cases hkind : b.kind with
  | quote => exact quote_takes (hkind ▸ hok)
  | ol => exact ol_takes seg (hkind ▸ hok)
  | ul => exact ul_takes seg (hkind ▸ hok)

def Kind.quarters (kind : Kind) : Bytes → ℕ := Lmd.quarters (kind.item id)

theorem Kind.quarters_eq (kind : Kind) : Lmd.quarters (kind.item seg) = kind.quarters := by
  funext line
  cases kind with
  | quote => rfl
  | ol =>
    simp only [Kind.quarters, Lmd.quarters, Kind.item, olItem]
    split <;> rfl
  | ul =>
    simp only [Kind.quarters, Lmd.quarters, Kind.item, ulItem, Option.map_map]
    rfl

def indentation (line : Bytes) : Bytes := line.takeWhile fun c => c == 32 || c == 9

structure Block.Nested (b : Block) (out : List Bytes) : Prop where
  balanced : Balanced (out.map b.kind.tags.token)
  items : (itemDepths 0 (out.map b.kind.tags.token)).length = b.lines.length
  sameDepth : b.kind ≠ .quote →
    (b.lines.zip (itemDepths 0 (out.map b.kind.tags.token))).IsChain fun x y =>
      indentation x.1 = indentation y.1 → x.2 = y.2

def Kind.Keeps (kind : Kind) (x y : Bytes × ℕ) : Prop :=
  indentation x.1 = indentation y.1 →
    if kind.quarters x.1 = kind.quarters y.1 then 4 ∣ kind.quarters y.1
    else kind.quarters y.1 = 4 * x.2

def Block.Regular (b : Block) : Prop :=
  match b.kind with
  | .quote => ∀ line ∈ b.lines.getLast?, ∀ c ∈ line.head?, isSpace c = false
  | .ol | .ul => (b.lines.zip (levels 0 (b.lines.map b.kind.quarters))).IsChain b.kind.Keeps

theorem isChain_iff (kind : Kind) (c : ℤ) (lines : List Bytes) (level : ℕ) :
    ((lines.zip ((levels level (lines.map kind.quarters)).map fun n : ℕ => c + (n : ℤ))).IsChain
        fun x y => indentation x.1 = indentation y.1 → x.2 = y.2) ↔
      (lines.zip (levels level (lines.map kind.quarters))).IsChain kind.Keeps := by
  induction lines generalizing level with
  | nil => simp
  | cons x lines ih =>
    cases lines with
    | nil => simp [levels]
    | cons y lines =>
      have hrest := ih (settle level (kind.quarters x))
      simp only [map_cons, levels, zip_cons_cons, isChain_cons_cons] at hrest ⊢
      rw [hrest]
      refine and_congr_left fun _ => imp_congr_right fun _ => ?_
      show c + ((settle level (kind.quarters x) : ℕ) : ℤ) =
        c + ((settle (settle level (kind.quarters x)) (kind.quarters y) : ℕ) : ℤ) ↔ _
      rw [← settle_settle_iff, add_right_inj, Nat.cast_inj]

theorem quote_quarters (h : Kind.quote.Line line) :
    4 ∣ Kind.quote.quarters line ∧
      (1 ≤ Kind.quote.quarters line / 4 ↔ ∀ c ∈ line.head?, isSpace c = false) := by
  obtain ⟨levels, y, body, rfl, hlevels, hy, hitem⟩ := quoteItem_eq h
  have hquarters : Kind.quote.quarters (levels ++ y :: body) = 4 * levels.length := by
    rw [Kind.quarters, Lmd.quarters, Kind.item, hitem]
    rfl
  rw [hquarters]
  refine ⟨Nat.dvd_mul_right 4 _, ?_⟩
  cases levels with
  | nil => simp [hy]
  | cons c levels =>
    refine iff_of_true (by rw [length_cons]; omega) fun c' hc' => ?_
    cases hc'
    exact hlevels c mem_cons_self

theorem quote_lastLevel_iff {lines : List Bytes} (hok : ∀ line ∈ lines, Kind.quote.Line line) :
    1 ≤ lastLevel 1 (levels 1 (lines.map Kind.quote.quarters)) ↔
      ∀ line ∈ lines.getLast?, ∀ c ∈ line.head?, isSpace c = false := by
  have hdvd : ∀ v ∈ lines.map Kind.quote.quarters, 4 ∣ v := by
    intro v hv
    obtain ⟨line, hline, rfl⟩ := mem_map.mp hv
    exact (quote_quarters (hok line hline)).1
  rw [levels_of_dvd 1 hdvd, map_map, lastLevel, getLast?_map]
  cases hlast : lines.getLast? with
  | none => simp
  | some line =>
    have hline := hok line (mem_of_getLast? hlast)
    simpa using (quote_quarters hline).2

theorem Block.nested_iff (b : Block) {out : List Bytes} (htoken : out.map b.kind.tags.token =
      block b.kind.start (levels b.kind.start (b.lines.map b.kind.quarters))) :
    b.Nested out ↔ b.Regular := by
  have hbalanced := balanced_block_iff b.kind.start_le
    (levels b.kind.start (b.lines.map b.kind.quarters))
  have hdepths := itemDepths_block b.kind.start (levels b.kind.start (b.lines.map b.kind.quarters))
  rw [← htoken] at hbalanced hdepths
  have hitems : (itemDepths 0 (out.map b.kind.tags.token)).length = b.lines.length := by
    rw [hdepths, length_map, length_levels, length_map]
  have hsame := isChain_iff b.kind (1 - b.kind.start) b.lines b.kind.start
  rw [← hdepths] at hsame
  -- a quote is decided by its last line, a list by its items
  have hlist (hstart : b.kind.start = 0) (hne : b.kind ≠ .quote) : b.Nested out ↔
      (b.lines.zip (levels 0 (b.lines.map b.kind.quarters))).IsChain b.kind.Keeps := by
    rw [← hstart, ← hsame]
    refine ⟨fun h => h.sameDepth hne, fun h => ⟨hbalanced.mpr ?_, hitems, fun _ => h⟩⟩
    rw [hstart]
    exact Nat.zero_le _
  obtain ⟨kind, lines, hne, hok⟩ := b
  cases kind with
  | quote =>
    refine Iff.trans ?_ (quote_lastLevel_iff hok)
    exact ⟨fun h => hbalanced.mp h.balanced,
      fun h => ⟨hbalanced.mpr h, hitems, fun h => absurd rfl h⟩⟩
  | ol => exact hlist rfl Kind.noConfusion
  | ul => exact hlist rfl Kind.noConfusion

theorem block_nested_iff (seg : Bytes → Bytes) (b : Block) (res : List Bytes) :
    (∃ out, b.kind.render seg b.lines res = some (res ++ out) ∧ b.Nested out) ↔ b.Regular := by
  obtain ⟨out, hout, htoken⟩ := wrapped_nestLines_spec (b.takes seg) b.kind.start res
  rw [← Kind.render_eq] at hout
  rw [Kind.quarters_eq] at htoken
  rw [← b.nested_iff htoken]
  constructor
  · rintro ⟨out', hout', h⟩
    rw [hout] at hout'
    obtain rfl := append_cancel_left (Option.some.inj hout')
    exact h
  · exact fun h => ⟨out, hout, h⟩

def blankQuote : Block where
  kind := .quote
  lines := [bytes " > x"]
  lines_ne := cons_ne_nil _ _
  lines_ok := forall_mem_singleton.mpr ⟨bytes " ", 32, bytes "x", rfl, rfl⟩

def twoBelow : Block where
  kind := .ul
  lines := [bytes "- a", bytes "    - b", bytes "    - c"]
  lines_ne := cons_ne_nil _ _
  lines_ok := by
    simp only [forall_mem_cons, not_mem_nil, false_imp_iff, implies_true, and_true]
    exact ⟨⟨[], 45, 32, bytes "a", rfl, .inl rfl, rfl⟩,
      ⟨bytes "    ", 45, 32, bytes "b", rfl, .inl rfl, rfl⟩,
      ⟨bytes "    ", 45, 32, bytes "c", rfl, .inl rfl, rfl⟩⟩

theorem block_not_nested :
    (∃ out, pQuote blankQuote.lines [] = some out ∧
        out = [bytes "<blockquote>", bytes "</blockquote>", bytes "<p>> x</p>",
          bytes "</blockquote>"] ∧ ¬ blankQuote.Nested out) ∧
      ∃ out, pUl id twoBelow.lines [] = some out ∧
        out = [bytes "<ul>", bytes "<li>a</li>", bytes "<ul>", bytes "<ul>", bytes "<li>b</li>",
          bytes "</ul>", bytes "<li>c</li>", bytes "</ul>", bytes "</ul>"] ∧
        ¬ twoBelow.Nested out := by
  refine ⟨⟨_, by decide +kernel, rfl, fun h => ?_⟩, ⟨_, by decide +kernel, rfl, fun h => ?_⟩⟩
  · exact absurd h.balanced.total (by decide +kernel)
  · have hdepths : itemDepths 0 (List.map twoBelow.kind.tags.token [bytes "<ul>",
        bytes "<li>a</li>", bytes "<ul>", bytes "<ul>", bytes "<li>b</li>", bytes "</ul>",
        bytes "<li>c</li>", bytes "</ul>", bytes "</ul>"]) = [1, 3, 2] := by decide +kernel
    have hchain := h.sameDepth Kind.noConfusion
    rw [hdepths] at hchain
    have hpair := (isChain_cons_cons.mp (isChain_cons_cons.mp hchain).2).1
    exact absurd (hpair (by decide)) (by decide)

end Sysak.Lmd
