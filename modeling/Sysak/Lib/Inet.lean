/-
# Internet addresses as text
-/

import Sysak.Lib.Decimal

namespace Sysak.Lib

open List

def htons (p : UInt16) : UInt16 := UInt16.ofNat (p.toNat % 256 * 256 + p.toNat / 256)

def inetNtoa (a : UInt32) : Bytes :=
  dec (a.toNat % 256) ++ 46 :: (dec (a.toNat / 256 % 256) ++
    46 :: (dec (a.toNat / 65536 % 256) ++ 46 :: dec (a.toNat / 16777216)))

def endpoint (a : UInt32) (p : UInt16) : Bytes := inetNtoa a ++ 58 :: dec (htons p).toNat

theorem toNat_htons (p : UInt16) : (htons p).toNat = p.toNat % 256 * 256 + p.toNat / 256 := by
  have hp := p.toNat_lt
  have hsize : UInt16.size = 65536 := rfl
  exact UInt16.toNat_ofNat_of_lt' (by omega)

theorem htons_injective : Function.Injective htons := by
  intro p q h
  have hpq := congrArg UInt16.toNat h
  rw [toNat_htons, toNat_htons] at hpq
  have hp := p.toNat_lt
  have hq := q.toNat_lt
  exact UInt16.toNat_inj.mp (by omega)

theorem inetNtoa_injective : Function.Injective inetNtoa := by
  intro a b h
  obtain ⟨h₀, h⟩ := append_cons_inj (not_mem_dec rfl _) (not_mem_dec rfl _) h
  obtain ⟨h₁, h⟩ := append_cons_inj (not_mem_dec rfl _) (not_mem_dec rfl _) h
  obtain ⟨h₂, h₃⟩ := append_cons_inj (not_mem_dec rfl _) (not_mem_dec rfl _) h
  have e₀ := dec_injective h₀
  have e₁ := dec_injective h₁
  have e₂ := dec_injective h₂
  have e₃ := dec_injective h₃
  exact UInt32.toNat_inj.mp (by omega)

theorem mem_inetNtoa {a : UInt32} {c : UInt8} (hc : c ∈ inetNtoa a) :
    c = 46 ∨ isDigit c = true := by
  simp only [inetNtoa, mem_append, mem_cons] at hc
  rcases hc with hc | rfl | hc | rfl | hc | rfl | hc
  · exact Or.inr (isDigit_of_mem_dec hc)
  · exact Or.inl rfl
  · exact Or.inr (isDigit_of_mem_dec hc)
  · exact Or.inl rfl
  · exact Or.inr (isDigit_of_mem_dec hc)
  · exact Or.inl rfl
  · exact Or.inr (isDigit_of_mem_dec hc)

theorem not_mem_inetNtoa {c : UInt8} (hdot : c ≠ 46) (hdigit : isDigit c = false) (a : UInt32) :
    c ∉ inetNtoa a := fun hc => by
  rcases mem_inetNtoa hc with h | h
  · exact hdot h
  · exact Bool.false_ne_true (hdigit.symm.trans h)

theorem not_mem_endpoint {c : UInt8} (hdot : c ≠ 46) (hcolon : c ≠ 58) (hdigit : isDigit c = false)
    (a : UInt32) (p : UInt16) : c ∉ endpoint a p := fun hc => by
  rcases mem_append.mp hc with hc | hc
  · exact not_mem_inetNtoa hdot hdigit a hc
  · rcases mem_cons.mp hc with h | hc
    · exact hcolon h
    · exact not_mem_dec hdigit _ hc

theorem endpoint_inj {a b : UInt32} {p q : UInt16} :
    endpoint a p = endpoint b q ↔ a = b ∧ p = q := by
  have hcolon : ∀ a : UInt32, 58 ∉ inetNtoa a := not_mem_inetNtoa (by decide) rfl
  constructor
  · intro h
    obtain ⟨ha, hp⟩ := append_cons_inj (hcolon a) (hcolon b) h
    exact ⟨inetNtoa_injective ha, htons_injective (UInt16.toNat_inj.mp (dec_injective hp))⟩
  · rintro ⟨rfl, rfl⟩
    rfl

theorem length_inetNtoa (a : UInt32) :
    7 ≤ (inetNtoa a).length ∧ (inetNtoa a).length ≤ 15 := by
  have ha := a.toNat_lt
  have hbyte : ∀ n, n < 256 → 1 ≤ (dec n).length ∧ (dec n).length ≤ 3 := fun n hn =>
    ⟨length_dec_pos n, length_dec_le (by omega)⟩
  have h₀ := hbyte (a.toNat % 256) (by omega)
  have h₁ := hbyte (a.toNat / 256 % 256) (by omega)
  have h₂ := hbyte (a.toNat / 65536 % 256) (by omega)
  have h₃ := hbyte (a.toNat / 16777216) (by omega)
  simp only [inetNtoa, length_append, length_cons]
  omega

theorem length_dec_uint16 (p : UInt16) : (dec p.toNat).length ≤ 5 :=
  length_dec_le (p.toNat_lt.trans (by decide))

example : endpoint 0x0100007f 0x5000 = bytes "127.0.0.1:80" := by decide

end Sysak.Lib
