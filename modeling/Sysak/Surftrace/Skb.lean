/-
# Packet headers in the expressions of surftrace
-/

import Sysak.Surftrace.Expr

namespace Sysak.Surftrace

open Lib List

inductive Header
  | ethhdr
  | iphdr
  | icmphdr
  | tcphdr
  | udphdr
deriving DecidableEq

def Header.tag : Header → String
  | .ethhdr => "struct ethhdr"
  | .iphdr => "struct iphdr"
  | .icmphdr => "struct icmphdr"
  | .tcphdr => "struct tcphdr"
  | .udphdr => "struct udphdr"

def Header.type (X : Header) : CType := .struct false X.tag

def Header.layer : Header → ℕ
  | .ethhdr => 2
  | .iphdr => 3
  | .icmphdr | .tcphdr | .udphdr => 4

def skbText (X : Header) (N : ℕ) : List Char :=
  '@' :: '(' :: (X.tag.toList ++ " *)l".toList ++ hex N)

def layerOf : List Char → ℕ
  | 'l' :: '2' :: _ => 2
  | 'l' :: '4' :: _ => 4
  | _ => 3

inductive SkbRefusal
  | atLayer (X : Header) (layer : ℕ)
  | noSize
  | member (r : Refusal)

structure SkbDb extends Db where
  size : Header → Option ℕ

def showTypeSize (db : SkbDb) (X : Header) : Except SkbRefusal ℕ :=
  (db.size X).elim (.error .noSize) .ok

def skbMember (db : Db) (mem : List String) (index : Option ℕ) (X : Header) (off : ℕ)
    (fxpr : List Char) : Except SkbRefusal (List Char) :=
  match showMemberOffset db mem index X.type with
  | .error r => .error (.member r)
  | .ok m => .ok (fxprAddPoint (off + m) fxpr)

def procSkb (db : SkbDb) (mem : List String) (index : Option ℕ) (X : Header) (layer : ℕ)
    (fxpr : List Char) : Except SkbRefusal (List Char) :=
  match showMemberOffset db.toDb ["data"] none (.struct false "struct sk_buff") with
  | .error r => .error (.member r)
  | .ok data => do
    let fxpr := fxprAddPoint data fxpr
    if X = .ethhdr then
      if layer ≠ 2 then .error (.atLayer X layer) else skbMember db.toDb mem index X 0 fxpr
    else
      let off ← if layer = 2 then showTypeSize db .ethhdr else .ok 0
      if X = .iphdr then
        if layer > 3 then .error (.atLayer X layer) else skbMember db.toDb mem index X off fxpr
      else
        let add ← if layer < 4 then showTypeSize db .iphdr else .ok 0
        skbMember db.toDb mem index X (off + add) fxpr

def procFxprSkb (db : SkbDb) (mem : List String) (index : Option ℕ) (X : Header) (N : ℕ)
    (fxpr : List Char) : Except SkbRefusal (List Char) :=
  procSkb db mem index X (layerOf (skbText X N)) fxpr

structure Headers extends SkbDb where
  data : ℕ
  eth : ℕ
  ip : ℕ
  data_eq : showMemberOffset toDb ["data"] none (.struct false "struct sk_buff") = .ok data
  eth_eq : size .ethhdr = some eth
  ip_eq : size .iphdr = some ip

def Headers.between (H : Headers) (N : ℕ) (X : Header) : ℕ :=
  (if N ≤ 2 ∧ 2 < X.layer then H.eth else 0) + if N ≤ 3 ∧ 3 < X.layer then H.ip else 0

def Emits (H : Headers) (mem : List String) (index : Option ℕ) (X : Header) (N m : ℕ)
    (fxpr : List Char) : Prop :=
  if X.layer < N then ∃ r, procFxprSkb H.toSkbDb mem index X N fxpr = .error r
  else procFxprSkb H.toSkbDb mem index X N fxpr =
    .ok (fxprAddPoint (H.between N X + m) (fxprAddPoint H.data fxpr))

theorem layerOf_skbText (X : Header) (N : ℕ) : layerOf (skbText X N) = 3 := rfl

theorem fxprAddPoint_inj {a b : ℕ} {s : List Char} :
    fxprAddPoint a s = fxprAddPoint b s ↔ a = b := by
  constructor
  · intro h
    exact hex_injective (append_cancel_right (append_cancel_left h))
  · rintro rfl
    rfl

theorem procFxprSkb_eq (H : Headers) {mem : List String} {index : Option ℕ} {X : Header} {m : ℕ}
    (hm : showMemberOffset H.toDb mem index X.type = .ok m) (N : ℕ) (fxpr : List Char) :
    procFxprSkb H.toSkbDb mem index X N fxpr = if X = .ethhdr then .error (.atLayer X 3) else
      .ok (fxprAddPoint (H.between 3 X + m) (fxprAddPoint H.data fxpr)) := by
  rw [procFxprSkb, layerOf_skbText, procSkb, H.data_eq]
  cases X <;>
    simp [skbMember, hm, showTypeSize, H.ip_eq, Headers.between, Header.layer, bind, Except.bind]

theorem emits_iff (H : Headers) {mem : List String} {index : Option ℕ} {X : Header} {m : ℕ}
    (hm : showMemberOffset H.toDb mem index X.type = .ok m) {N : ℕ} (h2 : 2 ≤ N) (h4 : N ≤ 4)
    (fxpr : List Char) : Emits H mem index X N m fxpr ↔
      N = 3 ∨ X = .ethhdr ∧ N ≠ 2 ∨ X ≠ .ethhdr ∧ N = 2 ∧ H.eth = 0 ∨
        X.layer = 4 ∧ N = 4 ∧ H.ip = 0 := by
  rw [Emits, procFxprSkb_eq H hm]
  have hN : N = 2 ∨ N = 3 ∨ N = 4 := by omega
  rcases hN with rfl | rfl | rfl <;> cases X <;>
    simp [Headers.between, Header.layer, fxprAddPoint_inj, eq_comm]

def oneMember (name : String) (offset : ℕ) : CStruct :=
  ⟨[⟨[name], [], .named "u16" true, offset, 2⟩], pairwise_singleton _ _⟩

def onePort : Headers where
  structs
    | "struct sk_buff" => some (oneMember "data" 208)
    | "struct iphdr" => some (oneMember "saddr" 12)
    | "struct tcphdr" => some (oneMember "source" 0)
    | _ => none
  knowsQualified _ := false
  typeSize _ := none
  size X := some (if X = .ethhdr then 14 else 20)
  data := 208
  eth := 14
  ip := 20
  data_eq := by decide +kernel
  eth_eq := rfl
  ip_eq := rfl

theorem emits_saddr : 2 ≤ 3 ∧ 3 ≤ 4 ∧ Emits onePort ["saddr"] none .iphdr 3 12 "%si".toList :=
  ⟨by decide, by decide,
    (emits_iff onePort (by decide +kernel) (by decide) (by decide) _).mpr (.inl rfl)⟩

theorem not_emits_source : ¬Emits onePort ["source"] none .tcphdr 4 0 "%si".toList := by
  rw [Emits, procFxprSkb_eq onePort (m := 0) (by decide +kernel), if_neg (by decide),
    if_neg (by decide), Except.ok.injEq, fxprAddPoint_inj]
  decide

end Sysak.Surftrace
