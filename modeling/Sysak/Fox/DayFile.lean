/-
# Well-formed day files
-/

import Mathlib.Tactic.IntervalCases
import Sysak.Lib.Layout
import Sysak.Fox.Basic

namespace Sysak.Fox

open Lib List

structure Entry where
  head : FoxHead
  data : Bytes
  deriving DecidableEq, Repr

def Entry.bytes (e : Entry) : Bytes := e.head.encode ++ e.data

def Entry.pair (e : Entry) : UInt64 × Bytes := (e.head.tUs, e.data)

@[simp] theorem Entry.length_bytes (e : Entry) : e.bytes.length = headSize + e.data.length := by
  simp [Entry.bytes]

theorem Entry.bytes_pos (e : Entry) : 0 < e.bytes.length := by
  simp [headSize]

def content (es : List Entry) : Bytes := es.flatMap Entry.bytes

def off (es : List Entry) (i : ℕ) : ℕ := offset Entry.bytes es i

@[simp] theorem content_nil : content [] = [] := rfl

theorem content_append (es es' : List Entry) : content (es ++ es') = content es ++ content es' :=
  flatMap_append

theorem content_singleton (e : Entry) : content [e] = e.bytes := by simp [content]

@[simp] theorem off_zero (es : List Entry) : off es 0 = 0 := offset_zero _ es

theorem off_length (es : List Entry) : off es es.length = (content es).length :=
  offset_length _ es

variable {es : List Entry}

theorem off_succ {i : ℕ} (h : i < es.length) :
    off es (i + 1) = off es i + headSize + es[i].data.length := by
  rw [off, offset_succ _ h, Entry.length_bytes, off, Nat.add_assoc]

theorem off_append (es' : List Entry) {i : ℕ} (h : i ≤ es.length) : off (es ++ es') i = off es i :=
  offset_append_left _ es' h

theorem off_append_singleton (es : List Entry) (e : Entry) :
    off (es ++ [e]) ((es ++ [e]).length - 1) = (content es).length := by
  rw [length_append, length_singleton, Nat.add_sub_cancel, off_append _ (Nat.le_refl _),
    off_length]

variable {i j : ℕ}

theorem off_mono (es : List Entry) (h : i ≤ j) : off es i ≤ off es j :=
  offset_mono _ es h

theorem off_lt (hij : i < j) (hj : j ≤ es.length) : off es i < off es j :=
  offset_lt Entry.bytes_pos hij hj

theorem off_lt_iff (hj : j ≤ es.length) : off es i < off es j ↔ i < j :=
  offset_lt_iff Entry.bytes_pos hj

theorem off_inj (hi : i ≤ es.length) (hj : j ≤ es.length) : off es i = off es j ↔ i = j :=
  offset_inj Entry.bytes_pos hi hj

theorem off_eq_zero {i : ℕ} (hi : i ≤ es.length) : off es i = 0 ↔ i = 0 := by
  simpa using off_inj hi (Nat.zero_le es.length)

theorem off_le_length (es : List Entry) (i : ℕ) : off es i ≤ (content es).length :=
  offset_le _ es i

theorem le_off {i : ℕ} (h : i ≤ es.length) : i ≤ off es i := by
  induction i with
  | zero => exact Nat.zero_le _
  | succ i ih =>
    have h₁ := ih (by omega)
    have h₂ : off es i < off es (i + 1) := off_lt (Nat.lt_succ_self i) h
    omega

theorem length_le_content (es : List Entry) : es.length ≤ (content es).length := by
  rw [← off_length]
  exact le_off (Nat.le_refl _)

theorem drop_off_of_lt {i : ℕ} (h : i < es.length) (rest : Bytes) :
    (content es ++ rest).drop (off es i) =
      es[i].head.encode ++ (es[i].data ++ (content (es.drop (i + 1)) ++ rest)) := by
  rw [content, off, drop_offset_of_lt _ h, Entry.bytes, append_assoc, content]

structure Framed (es : List Entry) : Prop where
  magic : ∀ i (h : i < es.length), es[i].head.magic = foxMagic
  next : ∀ i (h : i < es.length), es[i].head.next.toNat = off es (i + 1)

structure Linked (es : List Entry) : Prop extends Framed es where
  prev : ∀ i (h : i < es.length), es[i].head.prev.toNat = off es (i - 1)

def Sorted (es : List Entry) : Prop := es.Pairwise fun a b => a.head.tUs ≤ b.head.tUs

theorem framed_nil : Framed [] := ⟨fun _ h => absurd h (Nat.not_lt_zero _),
  fun _ h => absurd h (Nat.not_lt_zero _)⟩

theorem linked_nil : Linked [] := ⟨framed_nil, fun _ h => absurd h (Nat.not_lt_zero _)⟩

theorem Framed.off_lt (hf : Framed es) (i : ℕ) : off es i < 2 ^ 32 := by
  rcases Nat.eq_zero_or_pos es.length with h0 | hpos
  · rw [length_eq_zero_iff.mp h0]
    simp [off, offset]
  · have h₁ := hf.next (es.length - 1) (by omega)
    have h₂ := es[es.length - 1].head.next.toNat_lt
    rw [show es.length - 1 + 1 = es.length by omega, off_length] at h₁
    have h₃ := off_le_length es i
    omega

theorem Framed.of_append {es es' : List Entry} (hf : Framed (es ++ es')) : Framed es := by
  constructor
  · intro i h
    have := hf.magic i (by rw [length_append]; omega)
    rwa [getElem_append_left h] at this
  · intro i h
    have := hf.next i (by rw [length_append]; omega)
    rwa [getElem_append_left h, off_append _ h] at this

theorem Framed.take (hf : Framed es) (c : ℕ) : Framed (es.take c) :=
  Framed.of_append (take_append_drop c es ▸ hf)

theorem Framed.append (hf : Framed es) {e : Entry} (hm : e.head.magic = foxMagic)
    (hn : e.head.next.toNat = (content es).length + headSize + e.data.length) :
    Framed (es ++ [e]) := by
  have hlen : (es ++ [e]).length = es.length + 1 := by simp
  constructor
  · intro i h
    rcases Nat.lt_or_ge i es.length with hi | hi
    · rw [getElem_append_left hi]
      exact hf.magic i hi
    · simpa [getElem_append_right hi] using hm
  · intro i h
    rcases Nat.lt_or_ge i es.length with hi | hi
    · rw [getElem_append_left hi, off_append _ hi]
      exact hf.next i hi
    · obtain rfl : i = es.length := by omega
      rw [off_succ h, off_append _ (Nat.le_refl _), off_length]
      simpa using hn

theorem Linked.append (hl : Linked es) {e : Entry} (hm : e.head.magic = foxMagic)
    (hn : e.head.next.toNat = (content es).length + headSize + e.data.length)
    (hp : e.head.prev.toNat = off es (es.length - 1)) : Linked (es ++ [e]) := by
  refine ⟨hl.toFramed.append hm hn, fun i h => ?_⟩
  rcases Nat.lt_or_ge i es.length with hi | hi
  · rw [getElem_append_left hi, off_append _ (by omega)]
    exact hl.prev i hi
  · have hie : i = es.length := by
      have : (es ++ [e]).length = es.length + 1 := by simp
      omega
    subst hie
    rw [off_append _ (by omega)]
    simpa using hp

theorem Sorted.le (hs : Sorted es) (hij : i ≤ j) (hj : j < es.length) :
    es[i].head.tUs ≤ es[j].head.tUs := by
  rcases Nat.lt_or_eq_of_le hij with hlt | rfl
  · exact pairwise_iff_getElem.mp hs i j (by omega) hj hlt
  · exact UInt64.le_refl _

def Readable (file : Bytes) (es : List Entry) : Prop :=
  ∀ i (h : i < es.length) (head : FoxHead),
    foxReadHead file (off es i) head = ((headSize : ℤ), es[i].head)

theorem Framed.readable (hf : Framed es) (rest : Bytes) : Readable (content es ++ rest) es :=
  fun i h head => foxReadHead_encode (drop_off_of_lt h rest) (hf.magic i h) head

theorem Framed.readable_content (hf : Framed es) : Readable (content es) es := by
  simpa using hf.readable []

def samplePair (t₀ t₁ : UInt64) : List Entry :=
  [⟨⟨0, 25, t₀, foxMagic, 0, 0⟩, [7]⟩, ⟨⟨0, 50, t₁, foxMagic, 0, 0⟩, [8]⟩]

theorem linked_samplePair (t₀ t₁ : UInt64) : Linked (samplePair t₀ t₁) := by
  have hoff (i : ℕ) (h : i ≤ 2) : off (samplePair t₀ t₁) i = 25 * i := by
    interval_cases i <;> simp [off, Lib.offset, samplePair, headSize]
  refine ⟨⟨fun i h => ?_, fun i h => ?_⟩, fun i h => ?_⟩ <;>
    change i < 2 at h
  · interval_cases i <;> rfl
  · rw [hoff _ (by omega)]
    interval_cases i <;> rfl
  · rw [hoff _ (by omega)]
    interval_cases i <;> rfl

end Sysak.Fox
