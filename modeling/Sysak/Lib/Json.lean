/-
# Reading JSON
-/

import Sysak.Lib.Decimal

namespace Sysak.Lib

open List Option

inductive Json where
  | null
  | bool (b : Bool)
  | int (z : ℤ)
  | float (text : Bytes)
  | str (s : Bytes)
  | arr (l : List Json)
  | obj (l : List (Bytes × Json))

namespace Json

def isWs (c : UInt8) : Bool := c == 32 || c == 9 || c == 10 || c == 13

def skipWs (s : Bytes) : Bytes := s.dropWhile isWs

def expect (c : UInt8) (s : Bytes) : Option Bytes := if s.head? = some c then some s.tail else none

inductive Piece where
  | byte (c : UInt8)
  | unit (u : ℕ)

def escaped (c : UInt8) : Option UInt8 :=
  [(34, 34), (92, 92), (47, 47), (98, 8), (102, 12), (110, 10), (114, 13), (116, 9)].lookup c

def hexByte (c : UInt8) : Option ℕ :=
  if isDigit c then some (c.toNat - 48)
  else if 97 ≤ c ∧ c ≤ 102 then some (c.toNat - 87)
  else if 65 ≤ c ∧ c ≤ 70 then some (c.toNat - 55)
  else none

inductive Mode where
  | plain
  | backslash
  | hex (left v : ℕ)

def scanPieces : Mode → Bytes → Option (List Piece × Bytes)
  | _, [] => none
  | .plain, c :: s =>
    if c = 34 then some ([], s)
    else if c = 92 then scanPieces .backslash s
    else if c < 32 then none
    else (scanPieces .plain s).map fun r => (.byte c :: r.1, r.2)
  | .backslash, c :: s =>
    if c = 117 then scanPieces (.hex 3 0) s
    else (escaped c).bind fun b => (scanPieces .plain s).map fun r => (.byte b :: r.1, r.2)
  | .hex 0 v, c :: s =>
    (hexByte c).bind fun d =>
      (scanPieces .plain s).map fun r => (.unit (16 * v + d) :: r.1, r.2)
  | .hex (k + 1) v, c :: s => (hexByte c).bind fun d => scanPieces (.hex k (16 * v + d)) s

def utf8Tail (u : ℕ) : UInt8 := UInt8.ofNat (128 + u % 64)

def utf8 (u : ℕ) : Bytes :=
  if u < 128 then [UInt8.ofNat u]
  else if u < 2048 then [UInt8.ofNat (192 + u / 64), utf8Tail u]
  else if u < 65536 then [UInt8.ofNat (224 + u / 4096), utf8Tail (u / 64), utf8Tail u]
  else [UInt8.ofNat (240 + u / 262144), utf8Tail (u / 4096), utf8Tail (u / 64), utf8Tail u]

def join : List Piece → Bytes
  | [] => []
  | .byte c :: ps => c :: join ps
  | .unit h :: .unit l :: ps =>
    if (55296 ≤ h ∧ h < 56320) ∧ (56320 ≤ l ∧ l < 57344) then
      utf8 (65536 + (h - 55296) * 1024 + (l - 56320)) ++ join ps
    else utf8 h ++ join (.unit l :: ps)
  | .unit u :: ps => utf8 u ++ join ps

def scanString (s : Bytes) : Option (Bytes × Bytes) :=
  (scanPieces .plain s).map fun r => (join r.1, r.2)

def scanDigits (s : Bytes) : Option (Bytes × Bytes) :=
  if s.takeWhile isDigit = [] then none else some (s.takeWhile isDigit, s.dropWhile isDigit)

def scanInt (s : Bytes) : Option (Bytes × Bytes) :=
  if s.head? = some 48 then some ([48], s.tail) else scanDigits s

def scanFrac (s : Bytes) : Bytes × Bytes :=
  match (expect 46 s).bind scanDigits with
  | some (ds, r) => (46 :: ds, r)
  | none => ([], s)

def scanSign (s : Bytes) : Bytes × Bytes :=
  match s with
  | c :: r => if c = 43 ∨ c = 45 then ([c], r) else ([], s)
  | [] => ([], [])

def scanExp (s : Bytes) : Bytes × Bytes :=
  match s with
  | c :: r =>
    if c = 69 ∨ c = 101 then
      match scanDigits (scanSign r).2 with
      | some (ds, r') => (c :: (scanSign r).1 ++ ds, r')
      | none => ([], s)
    else ([], s)
  | [] => ([], [])

def scanMinus (s : Bytes) : Bytes × Bytes := if s.head? = some 45 then ([45], s.tail) else ([], s)

def scanNumber (s : Bytes) : Option (Json × Bytes) :=
  let m := scanMinus s
  (scanInt m.2).map fun i =>
    let f := scanFrac i.2
    let e := scanExp f.2
    if f.1 = [] ∧ e.1 = [] then (.int (if m.1 = [] then decimal i.1 else -decimal i.1), i.2)
    else (.float (m.1 ++ i.1 ++ f.1 ++ e.1), e.2)

def words : List (Bytes × Json) :=
  [(bytes "null", .null), (bytes "true", .bool true), (bytes "false", .bool false),
    (bytes "NaN", .float (bytes "NaN")), (bytes "Infinity", .float (bytes "Infinity")),
    (bytes "-Infinity", .float (bytes "-Infinity"))]

def scanWord (s : Bytes) : Option (Json × Bytes) :=
  (words.find? fun w => w.1.isPrefixOf s).map fun w => (w.2, s.drop w.1.length)

def scanScalar (s : Bytes) : Option (Json × Bytes) := (scanNumber s).or (scanWord s)

mutual

def value : ℕ → Bytes → Option (Json × Bytes)
  | 0, _ => none
  | _ + 1, [] => none
  | n + 1, c :: s =>
    if c = 34 then (scanString s).map fun r => (.str r.1, r.2)
    else if c = 123 then
      match expect 125 (skipWs s) with
      | some r => some (.obj [], r)
      | none => (members n (skipWs s)).map fun r => (.obj r.1, r.2)
    else if c = 91 then
      match expect 93 (skipWs s) with
      | some r => some (.arr [], r)
      | none => (elements n (skipWs s)).map fun r => (.arr r.1, r.2)
    else scanScalar (c :: s)

def elements : ℕ → Bytes → Option (List Json × Bytes)
  | 0, _ => none
  | n + 1, s =>
    (value n s).bind fun v =>
      match expect 93 (skipWs v.2) with
      | some r => some ([v.1], r)
      | none =>
        (expect 44 (skipWs v.2)).bind fun r =>
          (elements n (skipWs r)).map fun l => (v.1 :: l.1, l.2)

def members : ℕ → Bytes → Option (List (Bytes × Json) × Bytes)
  | 0, _ => none
  | n + 1, s =>
    (expect 34 s).bind fun s =>
      (scanString s).bind fun k =>
        (expect 58 (skipWs k.2)).bind fun s =>
          (value n (skipWs s)).bind fun v =>
            match expect 125 (skipWs v.2) with
            | some r => some ([(k.1, v.1)], r)
            | none =>
              (expect 44 (skipWs v.2)).bind fun r =>
                (members n (skipWs r)).map fun l => ((k.1, v.1) :: l.1, l.2)

end

def parse (s : Bytes) : Option (Json × Bytes) := value (2 * s.length + 1) s

def parseElements (s : Bytes) : Option (List Json × Bytes) := elements (2 * s.length + 2) s

def parseMembers (s : Bytes) : Option (List (Bytes × Json) × Bytes) := members (2 * s.length + 2) s

def loads (s : Bytes) : Option Json :=
  (parse (skipWs s)).bind fun r => if skipWs r.2 = [] then some r.1 else none

theorem length_skipWs_le (s : Bytes) : (skipWs s).length ≤ s.length :=
  (dropWhile_suffix _).length_le

theorem of_map_fst {α β : Type} {f : α × Bytes → β} {o : Option (α × Bytes)} {b : β} {r : Bytes}
    (h : (o.map fun x => (f x, x.2)) = some (b, r)) : ∃ a, o = some (a, r) := by
  obtain ⟨⟨a, r'⟩, ha, heq⟩ := map_eq_some_iff.mp h
  cases heq
  exact ⟨a, ha⟩

variable {c : UInt8}

theorem length_of_expect {s r : Bytes} (h : expect c s = some r) : s.length = r.length + 1 := by
  unfold expect at h
  split_ifs at h with hc
  cases h
  cases s with
  | nil => cases hc
  | cons d s => rfl

theorem length_of_scanPieces (m : Mode) (s : Bytes) : ∀ {ps : List Piece} {r : Bytes},
    scanPieces m s = some (ps, r) → r.length < s.length := by
  fun_induction scanPieces m s with
  | case1 => exact fun h => by cases h
  | case2 s =>
    intro ps r h
    cases h
    exact Nat.lt_succ_self _
  | case3 s _ ih => exact fun h => Nat.lt_succ_of_lt (ih h)
  | case4 => exact fun h => by cases h
  | case5 c s _ _ _ ih =>
    intro ps r h
    obtain ⟨qs, hr⟩ := of_map_fst h
    exact Nat.lt_succ_of_lt (ih hr)
  | case6 s ih => exact fun h => Nat.lt_succ_of_lt (ih h)
  | case7 c s _ ih =>
    intro ps r h
    obtain ⟨b, -, h⟩ := bind_eq_some_iff.mp h
    obtain ⟨qs, hr⟩ := of_map_fst h
    exact Nat.lt_succ_of_lt (ih hr)
  | case8 v c s ih =>
    intro ps r h
    obtain ⟨d, -, h⟩ := bind_eq_some_iff.mp h
    obtain ⟨qs, hr⟩ := of_map_fst h
    exact Nat.lt_succ_of_lt (ih hr)
  | case9 k v c s ih =>
    intro ps r h
    obtain ⟨d, -, h⟩ := bind_eq_some_iff.mp h
    exact Nat.lt_succ_of_lt (ih d h)

theorem length_of_scanString {s t r : Bytes} (h : scanString s = some (t, r)) :
    r.length < s.length := by
  obtain ⟨ps, hr⟩ := of_map_fst h
  exact length_of_scanPieces .plain s hr

theorem length_of_scanDigits {s t r : Bytes} (h : scanDigits s = some (t, r)) :
    r.length < s.length := by
  unfold scanDigits at h
  split_ifs at h with hd
  cases h
  have hlen := congrArg List.length (takeWhile_append_dropWhile (p := isDigit) (l := s))
  have hpos := length_pos_iff.mpr hd
  rw [length_append] at hlen
  omega

theorem length_of_scanInt {s t r : Bytes} (h : scanInt s = some (t, r)) :
    r.length < s.length := by
  unfold scanInt at h
  split_ifs at h with hc
  · cases h
    cases s with
    | nil => cases hc
    | cons d s => exact Nat.lt_succ_self _
  · exact length_of_scanDigits h

theorem length_scanFrac_le (s : Bytes) : (scanFrac s).2.length ≤ s.length := by
  unfold scanFrac
  split
  · rename_i ds r h
    obtain ⟨t, ht, hr⟩ := bind_eq_some_iff.mp h
    have h₁ := length_of_expect ht
    have h₂ := length_of_scanDigits hr
    show r.length ≤ s.length
    omega
  · exact le_rfl

theorem length_scanSign_le (s : Bytes) : (scanSign s).2.length ≤ s.length := by
  unfold scanSign
  split
  · split_ifs
    · exact Nat.le_succ _
    · exact le_rfl
  · exact le_rfl

theorem length_scanExp_le (s : Bytes) : (scanExp s).2.length ≤ s.length := by
  unfold scanExp
  split
  · rename_i c r
    split_ifs
    · split
      · rename_i ds r' h
        have h₁ := length_of_scanDigits h
        have h₂ := length_scanSign_le r
        simp only [length_cons]
        omega
      · exact le_rfl
    · exact le_rfl
  · exact le_rfl

theorem length_scanMinus_le (s : Bytes) : (scanMinus s).2.length ≤ s.length := by
  unfold scanMinus
  split_ifs
  · exact (tail_suffix s).length_le
  · exact le_rfl

variable {v : Json}

theorem length_of_scanNumber {s r : Bytes} (h : scanNumber s = some (v, r)) :
    r.length < s.length := by
  obtain ⟨⟨t, r'⟩, hi, heq⟩ := map_eq_some_iff.mp h
  have h₁ := length_scanMinus_le s
  have h₂ := length_of_scanInt hi
  have h₃ := length_scanFrac_le r'
  have h₄ := length_scanExp_le (scanFrac r').2
  simp only at heq
  split at heq
  · cases heq
    omega
  · cases heq
    omega

theorem length_of_scanWord {s r : Bytes} (h : scanWord s = some (v, r)) : r.length < s.length := by
  obtain ⟨⟨w, v'⟩, hw, heq⟩ := map_eq_some_iff.mp h
  cases heq
  have hfound := find?_some hw
  have hpre : w <+: s := isPrefixOf_iff_prefix.mp hfound
  have hpos : 0 < w.length := by
    have hall : ∀ w ∈ words.map Prod.fst, 0 < w.length := by decide
    exact hall w (mem_map_of_mem (mem_of_find?_eq_some hw))
  have hle := hpre.length_le
  show (s.drop w.length).length < s.length
  rw [length_drop]
  omega

theorem length_of_scanScalar {s r : Bytes} (h : scanScalar s = some (v, r)) :
    r.length < s.length := by
  rcases or_eq_some_iff.mp h with h | ⟨-, h⟩
  · exact length_of_scanNumber h
  · exact length_of_scanWord h

def Shortens {α : Type} (f : Bytes → Option (α × Bytes)) : Prop :=
  ∀ ⦃s : Bytes⦄ ⦃x : α⦄ ⦃r : Bytes⦄, f s = some (x, r) → r.length < s.length

variable {n : ℕ}

theorem shortens_elements (hv : Shortens (value n)) (he : Shortens (elements n)) :
    Shortens (elements (n + 1)) := by
  intro s l r h
  obtain ⟨⟨v, r₁⟩, h₁, h⟩ := bind_eq_some_iff.mp h
  have hlen₁ := hv h₁
  have hws := length_skipWs_le r₁
  simp only at h
  split at h
  · rename_i r₂ h₂
    have hlen₂ := length_of_expect h₂
    cases h
    omega
  · obtain ⟨r₂, h₂, h⟩ := bind_eq_some_iff.mp h
    obtain ⟨l', h₃⟩ := of_map_fst h
    have hlen₂ := length_of_expect h₂
    have hws₂ := length_skipWs_le r₂
    have hlen₃ := he h₃
    omega

theorem shortens_members (hv : Shortens (value n)) (hm : Shortens (members n)) :
    Shortens (members (n + 1)) := by
  intro s l r h
  obtain ⟨s₁, h₁, h⟩ := bind_eq_some_iff.mp h
  obtain ⟨⟨k, s₂⟩, h₂, h⟩ := bind_eq_some_iff.mp h
  obtain ⟨s₃, h₃, h⟩ := bind_eq_some_iff.mp h
  obtain ⟨⟨v, s₄⟩, h₄, h⟩ := bind_eq_some_iff.mp h
  have hlen₁ := length_of_expect h₁
  have hlen₂ := length_of_scanString h₂
  have hlen₃ := length_of_expect h₃
  have hlen₄ := hv h₄
  have hws₂ := length_skipWs_le s₂
  have hws₃ := length_skipWs_le s₃
  have hws₄ := length_skipWs_le s₄
  simp only at h hlen₃
  split at h
  · rename_i r₅ h₅
    have hlen₅ := length_of_expect h₅
    cases h
    omega
  · obtain ⟨r₅, h₅, h⟩ := bind_eq_some_iff.mp h
    obtain ⟨l', h₆⟩ := of_map_fst h
    have hlen₅ := length_of_expect h₅
    have hws₅ := length_skipWs_le r₅
    have hlen₆ := hm h₆
    omega

theorem shortens_value_succ (he : Shortens (elements n)) (hm : Shortens (members n)) :
    Shortens (value (n + 1)) := by
  rintro (_ | ⟨c, s⟩) v r h
  · cases h
  have hws := length_skipWs_le s
  rw [value] at h
  rw [length_cons]
  split_ifs at h
  · obtain ⟨t, ht⟩ := of_map_fst h
    have hlen := length_of_scanString ht
    omega
  · split at h
    · rename_i r' hr
      have hlen := length_of_expect hr
      cases h
      omega
    · obtain ⟨l, hl⟩ := of_map_fst h
      have hlen := hm hl
      omega
  · split at h
    · rename_i r' hr
      have hlen := length_of_expect hr
      cases h
      omega
    · obtain ⟨l, hl⟩ := of_map_fst h
      have hlen := he hl
      omega
  · exact length_of_scanScalar h

theorem shortens (n : ℕ) :
    Shortens (value n) ∧ Shortens (elements n) ∧ Shortens (members n) := by
  induction n with
  | zero =>
    refine ⟨?_, ?_, ?_⟩ <;>
    · intro s x r h
      cases h
  | succ n ih =>
    obtain ⟨hv, he, hm⟩ := ih
    exact ⟨shortens_value_succ he hm, shortens_elements hv he, shortens_members hv hm⟩

variable {s : Bytes}

theorem elements_succ_eq (hv : value (n + 1) s = value n s)
    (he : ∀ r : Bytes, r.length < s.length → elements (n + 1) r = elements n r) :
    elements (n + 2) s = elements (n + 1) s := by
  rw [elements, elements, hv]
  refine Option.bind_congr fun v hvs => ?_
  have hlen := (shortens n).1 hvs
  have hws := length_skipWs_le v.2
  split
  · rfl
  · refine Option.bind_congr fun r hr => ?_
    have hlen₂ := length_of_expect hr
    have hws₂ := length_skipWs_le r
    rw [he _ (by omega)]

theorem members_succ_eq (hv : ∀ r : Bytes, r.length < s.length → value (n + 1) r = value n r)
    (hm : ∀ r : Bytes, r.length < s.length → members (n + 1) r = members n r) :
    members (n + 2) s = members (n + 1) s := by
  rw [members, members]
  refine Option.bind_congr fun s₁ h₁ => Option.bind_congr fun k h₂ =>
    Option.bind_congr fun s₃ h₃ => ?_
  have hlen₁ := length_of_expect h₁
  have hlen₂ := length_of_scanString h₂
  have hlen₃ := length_of_expect h₃
  have hws₂ := length_skipWs_le k.2
  have hws₃ := length_skipWs_le s₃
  rw [hv _ (by omega)]
  refine Option.bind_congr fun v h₄ => ?_
  have hlen₄ := (shortens n).1 h₄
  have hws₄ := length_skipWs_le v.2
  split
  · rfl
  · refine Option.bind_congr fun r h₅ => ?_
    have hlen₅ := length_of_expect h₅
    have hws₅ := length_skipWs_le r
    rw [hm _ (by omega)]

theorem value_succ_eq (he : ∀ r : Bytes, r.length < s.length → elements (n + 1) r = elements n r)
    (hm : ∀ r : Bytes, r.length < s.length → members (n + 1) r = members n r) :
    value (n + 2) s = value (n + 1) s := by
  cases s with
  | nil => rfl
  | cons c s =>
    have hws := Nat.lt_succ_of_le (length_skipWs_le s)
    rw [value, value, he _ hws, hm _ hws]

theorem value_stable (n : ℕ) :
    (∀ s : Bytes, 2 * s.length + 1 ≤ n → value (n + 1) s = value n s) ∧
      (∀ s : Bytes, 2 * s.length + 2 ≤ n → elements (n + 1) s = elements n s) ∧
      ∀ s : Bytes, 2 * s.length + 2 ≤ n → members (n + 1) s = members n s := by
  induction n with
  | zero =>
    refine ⟨?_, ?_, ?_⟩ <;>
    · intro s hs
      omega
  | succ n ih =>
    obtain ⟨hv, he, hm⟩ := ih
    refine ⟨fun s hs => ?_, fun s hs => ?_, fun s hs => ?_⟩
    · exact value_succ_eq (fun r hr => he r (by omega)) (fun r hr => hm r (by omega))
    · exact elements_succ_eq (hv s (by omega)) (fun r hr => he r (by omega))
    · exact members_succ_eq (fun r hr => hv r (by omega)) (fun r hr => hm r (by omega))

theorem value_eq_parse (h : 2 * s.length + 1 ≤ n) : value n s = parse s := by
  induction n, h using Nat.le_induction with
  | base => rfl
  | succ n hn ih => rw [(value_stable n).1 s hn, ih]

theorem elements_eq_parseElements (h : 2 * s.length + 2 ≤ n) : elements n s = parseElements s := by
  induction n, h using Nat.le_induction with
  | base => rfl
  | succ n hn ih => rw [(value_stable n).2.1 s hn, ih]

theorem members_eq_parseMembers (h : 2 * s.length + 2 ≤ n) : members n s = parseMembers s := by
  induction n, h using Nat.le_induction with
  | base => rfl
  | succ n hn ih => rw [(value_stable n).2.2 s hn, ih]

theorem expect_cons (c : UInt8) (s : Bytes) : expect c (c :: s) = some s := if_pos rfl

theorem expect_cons_of_ne {c d : UInt8} (h : d ≠ c) (s : Bytes) : expect c (d :: s) = none :=
  if_neg fun heq => h (some.inj heq)

theorem skipWs_cons (h : isWs c = false) (s : Bytes) : skipWs (c :: s) = c :: s :=
  dropWhile_cons_of_neg (by rw [h]; decide)

theorem parse_string (s : Bytes) :
    parse (34 :: s) = (scanString s).map fun r => (.str r.1, r.2) := rfl

theorem parse_scalar (h₁ : c ≠ 34) (h₂ : c ≠ 123) (h₃ : c ≠ 91) (s : Bytes) :
    parse (c :: s) = scanScalar (c :: s) := by
  rw [parse, value, if_neg h₁, if_neg h₂, if_neg h₃]

theorem parse_nil_array (r : Bytes) : parse (91 :: 93 :: r) = some (.arr [], r) := rfl

theorem parse_array (h : expect 93 (skipWs s) = none) :
    parse (91 :: s) = (parseElements (skipWs s)).map fun r => (.arr r.1, r.2) := by
  have hws := length_skipWs_le s
  rw [parse, value, if_neg (by decide), if_neg (by decide), if_pos rfl, h,
    elements_eq_parseElements (by rw [length_cons]; omega)]

theorem parse_object (h : expect 125 (skipWs s) = none) :
    parse (123 :: s) = (parseMembers (skipWs s)).map fun r => (.obj r.1, r.2) := by
  have hws := length_skipWs_le s
  rw [parse, value, if_neg (by decide), if_pos rfl, h,
    members_eq_parseMembers (by rw [length_cons]; omega)]

theorem parseElements_eq_none (h : parse s = none) : parseElements s = none := by
  rw [parseElements, elements, value_eq_parse le_rfl, h]
  rfl

theorem parseElements_last {s r : Bytes} (h : parse s = some (v, 93 :: r)) :
    parseElements s = some ([v], r) := by
  rw [parseElements, elements, value_eq_parse le_rfl, h]
  rfl

theorem parseElements_comma {s r : Bytes} (h : parse s = some (v, 44 :: r)) :
    parseElements s = (parseElements (skipWs r)).map fun l => (v :: l.1, l.2) := by
  have hlen := (shortens _).1 h
  have hws := length_skipWs_le r
  rw [length_cons] at hlen
  rw [parseElements, elements, value_eq_parse le_rfl, h]
  show ((elements _ (skipWs r)).map fun l => (v :: l.1, l.2)) = _
  rw [elements_eq_parseElements (by omega)]

theorem parse_eq_none (h : isWs c = true ∨ c = 93) (s : Bytes) : parse (c :: s) = none := by
  have hc : c = 32 ∨ c = 9 ∨ c = 10 ∨ c = 13 ∨ c = 93 := by
    rcases h with h | rfl
    · simp only [isWs, Bool.or_eq_true, beq_iff_eq] at h
      tauto
    · simp
  rcases hc with rfl | rfl | rfl | rfl | rfl <;> rfl

theorem skipWs_of_parse {s r : Bytes} (h : parse s = some (v, r)) : skipWs s = s := by
  cases s with
  | nil => rfl
  | cons c s =>
    cases hc : isWs c with
    | false => exact skipWs_cons hc s
    | true =>
      rw [parse_eq_none (.inl hc)] at h
      cases h

theorem expect_of_parse {s r : Bytes} (h : parse s = some (v, r)) : expect 93 s = none := by
  cases s with
  | nil => rfl
  | cons c s =>
    refine expect_cons_of_ne (fun hc => ?_) s
    rw [parse_eq_none (.inr hc)] at h
    cases h

def Plain (c : UInt8) : Prop := 32 ≤ c ∧ c ≠ 34 ∧ c ≠ 92

instance (c : UInt8) : Decidable (Plain c) := inferInstanceAs (Decidable (_ ∧ _))

variable {t : Bytes}

theorem plain_of_all (h : t.all (fun c => decide (Plain c)) = true) :
    ∀ c ∈ t, Plain c := fun c hc => of_decide_eq_true (all_eq_true.mp h c hc)

theorem scanPieces_plain (ht : ∀ c ∈ t, Plain c) (r : Bytes) :
    scanPieces .plain (t ++ 34 :: r) = some (t.map .byte, r) := by
  induction t with
  | nil => rfl
  | cons c t ih =>
    obtain ⟨h₁, h₂, h₃⟩ := ht c mem_cons_self
    rw [cons_append, scanPieces, if_neg h₂, if_neg h₃, if_neg (UInt8.not_lt.mpr h₁),
      ih fun c hc => ht c (mem_cons_of_mem _ hc)]
    rfl

theorem join_map_byte (t : Bytes) : join (t.map .byte) = t := by
  induction t with
  | nil => rfl
  | cons c t ih => rw [map_cons, join, ih]

theorem scanString_plain (ht : ∀ c ∈ t, Plain c) (r : Bytes) :
    scanString (t ++ 34 :: r) = some (t, r) := by
  rw [scanString, scanPieces_plain ht r, map_some, join_map_byte]

def Ends (r : Bytes) : Prop := ∀ c ∈ r.head?, isDigit c = false ∧ c ≠ 46 ∧ c ≠ 69 ∧ c ≠ 101

def Reads (v : Json) (t : Bytes) : Prop := ∀ r : Bytes, Ends r → parse (t ++ r) = some (v, r)

theorem ends_cons (h : c = 44 ∨ c = 93 ∨ c = 125) (r : Bytes) : Ends (c :: r) := by
  intro d hd
  cases hd
  rcases h with rfl | rfl | rfl <;> decide

def quoted (t : Bytes) : Bytes := 34 :: (t ++ [34])

theorem reads_quoted (ht : ∀ c ∈ t, Plain c) : Reads (.str t) (quoted t) := by
  intro r _
  rw [quoted, cons_append, append_assoc]
  show parse (34 :: (t ++ 34 :: r)) = _
  rw [parse_string, scanString_plain ht r]
  rfl

theorem Ends.noDigit {r : Bytes} (h : Ends r) : NoDigit r := fun c hc => (h c hc).1

theorem scanFrac_of_ends {r : Bytes} (h : Ends r) : scanFrac r = ([], r) := by
  cases r with
  | nil => rfl
  | cons c r => rw [scanFrac, expect_cons_of_ne (h c rfl).2.1]; rfl

theorem scanExp_of_ends {r : Bytes} (h : Ends r) : scanExp r = ([], r) := by
  cases r with
  | nil => rfl
  | cons c r =>
    obtain ⟨-, -, h₁, h₂⟩ := h c rfl
    exact if_neg (not_or.mpr ⟨h₁, h₂⟩)

theorem scanInt_dec (n : ℕ) {r : Bytes} (h : Ends r) : scanInt (dec n ++ r) = some (dec n, r) := by
  rcases Nat.eq_zero_or_pos n with rfl | hn
  · rfl
  · have hhead : (dec n ++ r).head? ≠ some 48 := by
      rw [head?_append_of_ne_nil _ (dec_ne_nil n)]
      exact head?_dec hn
    rw [scanInt, if_neg hhead, scanDigits, takeWhile_dec h.noDigit, dropWhile_dec h.noDigit,
      if_neg (dec_ne_nil n)]

theorem scanNumber_dec (n : ℕ) {r : Bytes} (h : Ends r) :
    scanNumber (dec n ++ r) = some (.int n, r) := by
  have hminus : scanMinus (dec n ++ r) = ([], dec n ++ r) := by
    refine if_neg fun heq => ?_
    rw [head?_append_of_ne_nil _ (dec_ne_nil n)] at heq
    have := isDigit_of_mem_dec (mem_of_mem_head? heq)
    exact absurd this (by decide)
  simp only [scanNumber, hminus, scanInt_dec n h, map_some, scanFrac_of_ends h,
    scanExp_of_ends h, and_self, if_true, decimal_dec]

theorem reads_dec (n : ℕ) : Reads (.int n) (dec n) := by
  intro r hr
  obtain ⟨c, t, hc⟩ := exists_cons_of_ne_nil (dec_ne_nil n)
  have hd : isDigit c = true := isDigit_of_mem_dec (hc ▸ mem_cons_self)
  have hne : ∀ d : UInt8, isDigit d = false → c ≠ d := by
    rintro d hfalse rfl
    rw [hd] at hfalse
    cases hfalse
  have hscalar := parse_scalar (hne 34 rfl) (hne 123 rfl) (hne 91 rfl) (t ++ r)
  rw [← cons_append, ← hc] at hscalar
  rw [hscalar, scanScalar, scanNumber_dec n hr]
  rfl

def withCommas (vs : List (Json × Bytes)) (s : Bytes) : Bytes :=
  vs.foldr (fun p s => p.2 ++ 44 :: s) s

theorem parse_withCommas {p : Json × Bytes} (hp : Reads p.1 p.2) (vs : List (Json × Bytes))
    (s : Bytes) : parse (withCommas (p :: vs) s) = some (p.1, 44 :: withCommas vs s) :=
  hp _ (ends_cons (.inl rfl) _)

variable {vs : List (Json × Bytes)}

theorem skipWs_withCommas (h : ∀ p ∈ vs, Reads p.1 p.2) (hs : skipWs s = s) :
    skipWs (withCommas vs s) = withCommas vs s := by
  cases vs with
  | nil => exact hs
  | cons p vs => exact skipWs_of_parse (parse_withCommas (h p mem_cons_self) vs s)

theorem parseElements_withCommas (h : ∀ p ∈ vs, Reads p.1 p.2) (hs : skipWs s = s) :
    parseElements (withCommas vs s) =
      (parseElements s).map fun l => (vs.map Prod.fst ++ l.1, l.2) := by
  induction vs with
  | nil => exact Option.map_id'.symm
  | cons p vs ih =>
    have hrest := fun q hq => h q (mem_cons_of_mem p hq)
    have hread := parse_withCommas (h p mem_cons_self) vs s
    rw [parseElements_comma hread, skipWs_withCommas hrest hs, ih hrest, Option.map_map]
    rfl

theorem parse_array_last (h : ∀ p ∈ vs, Reads p.1 p.2) (ht : Reads v t) (r : Bytes) :
    parse (91 :: withCommas vs (t ++ 93 :: r)) = some (.arr (vs.map Prod.fst ++ [v]), r) := by
  have hlast := ht _ (ends_cons (.inr (.inl rfl)) r)
  have hws := skipWs_withCommas h (skipWs_of_parse hlast)
  have hopen : expect 93 (withCommas vs (t ++ 93 :: r)) = none := by
    cases vs with
    | nil => exact expect_of_parse hlast
    | cons p vs => exact expect_of_parse (parse_withCommas (h p mem_cons_self) vs _)
  rw [parse_array (hws.symm ▸ hopen), hws, parseElements_withCommas h (skipWs_of_parse hlast),
    parseElements_last hlast]
  rfl

theorem parse_array_comma (h : ∀ p ∈ vs, Reads p.1 p.2) (hne : vs ≠ []) (r : Bytes) :
    parse (91 :: withCommas vs (93 :: r)) = none := by
  obtain ⟨p, vs, rfl⟩ := exists_cons_of_ne_nil hne
  have hread := parse_withCommas (h p mem_cons_self) vs (93 :: r)
  have hws := skipWs_of_parse hread
  rw [parse_array (hws.symm ▸ expect_of_parse hread), hws, parseElements_withCommas h rfl,
    parseElements_eq_none (parse_eq_none (.inr rfl) r)]
  rfl

def member (k t : Bytes) : Bytes := quoted k ++ 58 :: t

theorem length_member (k t : Bytes) : (member k t).length = k.length + t.length + 3 := by
  simp only [member, quoted, length_append, length_cons, length_nil]
  omega

def membersAfter (n : ℕ) (k : Bytes) (v : Json × Bytes) : Option (List (Bytes × Json) × Bytes) :=
  match expect 125 (skipWs v.2) with
  | some r => some ([(k, v.1)], r)
  | none =>
    (expect 44 (skipWs v.2)).bind fun r =>
      (members n (skipWs r)).map fun l => ((k, v.1) :: l.1, l.2)

variable {k : Bytes}

theorem parseMembers_member (hk : ∀ c ∈ k, Plain c) (hs : skipWs s = s) :
    parseMembers (member k s) =
      (parse s).bind (membersAfter (2 * (member k s).length + 1) k) := by
  have hlen := length_member k s
  have hstr : scanString (k ++ [34] ++ 58 :: s) = some (k, 58 :: s) := by
    rw [append_assoc]
    exact scanString_plain hk (58 :: s)
  rw [parseMembers, members, ← value_eq_parse (n := 2 * (member k s).length + 1) (by omega)]
  generalize 2 * (member k s).length + 1 = n
  rw [member, quoted, cons_append, expect_cons, bind_some, hstr, bind_some]
  show ((value n (skipWs s)).bind (membersAfter n k)) = _
  rw [hs]

theorem parseMembers_last (hk : ∀ c ∈ k, Plain c) {s r : Bytes} (h : parse s = some (v, 125 :: r)) :
    parseMembers (member k s) = some ([(k, v)], r) := by
  rw [parseMembers_member hk (skipWs_of_parse h), h]
  rfl

theorem parseMembers_comma (hk : ∀ c ∈ k, Plain c) {s r : Bytes} (h : parse s = some (v, 44 :: r)) :
    parseMembers (member k s) = (parseMembers (skipWs r)).map fun l => ((k, v) :: l.1, l.2) := by
  have hlen := (shortens _).1 h
  have hws := length_skipWs_le r
  have hmem := length_member k s
  rw [length_cons] at hlen
  rw [parseMembers_member hk (skipWs_of_parse h), h]
  show ((members _ (skipWs r)).map fun l => ((k, v) :: l.1, l.2)) = _
  rw [members_eq_parseMembers (by omega)]

theorem parseMembers_eq_none (hk : ∀ c ∈ k, Plain c) (hs : skipWs s = s) (h : parse s = none) :
    parseMembers (member k s) = none := by
  rw [parseMembers_member hk hs, h]
  rfl

def withMembers (ms : List (Bytes × Json × Bytes)) (s : Bytes) : Bytes :=
  ms.foldr (fun m s => member m.1 (m.2.2 ++ 44 :: s)) s

theorem member_append (k t r : Bytes) : member k t ++ r = member k (t ++ r) := by
  rw [member, member, append_assoc, cons_append]

theorem withMembers_append (ms : List (Bytes × Json × Bytes)) (s r : Bytes) :
    withMembers ms s ++ r = withMembers ms (s ++ r) := by
  induction ms with
  | nil => rfl
  | cons m ms ih =>
    show member m.1 (m.2.2 ++ 44 :: withMembers ms s) ++ r = _
    rw [member_append, append_assoc, cons_append, ih]
    rfl

variable {ms : List (Bytes × Json × Bytes)}

theorem parseMembers_withMembers (hk : ∀ m ∈ ms, ∀ c ∈ m.1, Plain c)
    (h : ∀ m ∈ ms, Reads m.2.1 m.2.2) (hs : skipWs s = s) :
    parseMembers (withMembers ms s) =
      (parseMembers s).map fun l => (ms.map (fun m => (m.1, m.2.1)) ++ l.1, l.2) := by
  induction ms with
  | nil => exact Option.map_id'.symm
  | cons m ms ih =>
    have hread := h m mem_cons_self _ (ends_cons (.inl rfl) (withMembers ms s))
    have hws : skipWs (withMembers ms s) = withMembers ms s := by
      cases ms with
      | nil => exact hs
      | cons m ms => rfl
    show parseMembers (member m.1 (m.2.2 ++ 44 :: withMembers ms s)) = _
    rw [parseMembers_comma (hk m mem_cons_self) hread, hws,
      ih (fun m hm => hk m (mem_cons_of_mem _ hm))
        (fun m hm => h m (mem_cons_of_mem _ hm)), Option.map_map]
    rfl

theorem parse_object_member {k t : Bytes} :
    parse (123 :: withMembers ms (member k t)) =
      (parseMembers (withMembers ms (member k t))).map fun r => (.obj r.1, r.2) := by
  have hhead : ∃ s, withMembers ms (member k t) = 34 :: s := by
    cases ms with
    | nil => exact ⟨_, rfl⟩
    | cons m ms => exact ⟨_, rfl⟩
  obtain ⟨s, hs⟩ := hhead
  rw [hs]
  exact parse_object rfl

theorem parse_object_last (hms : ∀ m ∈ ms, ∀ c ∈ m.1, Plain c) (h : ∀ m ∈ ms, Reads m.2.1 m.2.2)
    {k t r : Bytes} (hk : ∀ c ∈ k, Plain c) (ht : parse t = some (v, 125 :: r)) :
    parse (123 :: withMembers ms (member k t)) =
      some (.obj (ms.map (fun m => (m.1, m.2.1)) ++ [(k, v)]), r) := by
  rw [parse_object_member, parseMembers_withMembers hms h rfl, parseMembers_last hk ht]
  rfl

theorem parse_object_eq_none (hms : ∀ m ∈ ms, ∀ c ∈ m.1, Plain c) (h : ∀ m ∈ ms, Reads m.2.1 m.2.2)
    {k t : Bytes} (hk : ∀ c ∈ k, Plain c) (hws : skipWs t = t) (ht : parse t = none) :
    parse (123 :: withMembers ms (member k t)) = none := by
  rw [parse_object_member, parseMembers_withMembers hms h rfl, parseMembers_eq_none hk hws ht]
  rfl

theorem reads_object (hms : ∀ m ∈ ms, ∀ c ∈ m.1, Plain c) (h : ∀ m ∈ ms, Reads m.2.1 m.2.2)
    {k t : Bytes} (hk : ∀ c ∈ k, Plain c) (ht : Reads v t) :
    Reads (.obj (ms.map (fun m => (m.1, m.2.1)) ++ [(k, v)]))
      (123 :: withMembers ms (member k (t ++ [125]))) := by
  intro r _
  have hread := ht _ (ends_cons (.inr (.inr rfl)) r)
  rw [cons_append, withMembers_append, member_append, append_assoc, singleton_append]
  exact parse_object_last hms h hk hread

theorem loads_of_parse {s r : Bytes} (h : parse s = some (v, r)) (hr : skipWs r = []) :
    loads s = some v := by
  rw [loads, skipWs_of_parse h, h, bind_some, if_pos hr]

end Json
end Sysak.Lib
