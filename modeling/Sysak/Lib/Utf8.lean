/-
# UTF-8
-/

import Sysak.Lib.LuaString

namespace Sysak.Lib

open List Option

def encode (s : List Char) : Bytes := s.flatMap String.utf8EncodeChar

def decode (b : Bytes) : Option (List Char) := b.toByteArray.utf8Decode?.map Array.toList

theorem utf8Encode_eq (s : List Char) : s.utf8Encode = (encode s).toByteArray := rfl

theorem encode_append (s t : List Char) : encode (s ++ t) = encode s ++ encode t :=
  flatMap_append

theorem decode_eq_some_iff {b : Bytes} {s : List Char} : decode b = some s ↔ b = encode s := by
  constructor
  · intro h
    obtain ⟨a, ha, rfl⟩ := map_eq_some_iff.mp h
    have hsome : b.toByteArray.utf8Decode?.isSome = true := isSome_of_eq_some ha
    have hget := ByteArray.utf8Encode_get_utf8Decode? (b := b.toByteArray) (h := hsome)
    rw [get_of_eq_some hsome ha, utf8Encode_eq] at hget
    exact (toByteArray_inj.mp hget).symm
  · rintro rfl
    rw [decode, ← utf8Encode_eq, utf8Decode?_utf8Encode]
    rfl

theorem decode_encode (s : List Char) : decode (encode s) = some s := decode_eq_some_iff.mpr rfl

theorem encode_injective : Function.Injective encode := by
  intro s t h
  exact some.inj ((decode_encode s).symm.trans (h ▸ decode_encode t))

theorem isPrefix_of_encode {s t : List Char} (h : encode s <+: encode t) : s <+: t := by
  obtain ⟨b, hb⟩ := h
  refine isPrefix_of_utf8Encode_append_eq_utf8Encode b.toByteArray ?_
  rw [utf8Encode_eq, utf8Encode_eq, ← hb, toByteArray_append]

theorem length_encode_ascii {s : List Char} (h : ∀ c ∈ s, c.val ≤ 127) :
    (encode s).length = s.length := by
  induction s with
  | nil => rfl
  | cons c s ih =>
    obtain ⟨hc, hs⟩ := forall_mem_cons.mp h
    have ih := ih hs
    rw [encode] at ih ⊢
    rw [flatMap_cons, length_append, String.length_utf8EncodeChar, ih,
      Char.utf8Size_eq_one_iff.mpr hc, length_cons, Nat.add_comm]

theorem take_encode_ascii {s : List Char} (h : ∀ c ∈ s, c.val ≤ 127) (t : List Char) {k : ℕ}
    (hk : k ≤ s.length) : (encode (s ++ t)).take k = encode (s.take k) := by
  have hlen : (encode (s.take k)).length = k := by
    rw [length_encode_ascii fun c hc => h c (mem_of_mem_take hc), length_take,
      Nat.min_eq_left hk]
  have hsplit : encode (s ++ t) = encode (s.take k) ++ encode (s.drop k ++ t) := by
    rw [← encode_append, ← append_assoc, take_append_drop]
  rw [hsplit, take_left' hlen]

end Sysak.Lib
