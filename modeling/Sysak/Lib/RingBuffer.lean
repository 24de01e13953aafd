/-
# A ring with one slot free
-/

import Mathlib.Data.List.Basic
import Mathlib.Data.Nat.ModEq

namespace Sysak.Lib

open List

structure RingBuffer (α : Type*) where
  size : ℕ
  send : ℕ
  recv : ℕ
  msgs : List (Option α)
  deriving DecidableEq, Repr

namespace RingBuffer

variable {α : Type*}

def isfull (r : RingBuffer α) : Bool := (r.send + 1) % r.size == r.recv

def isempty (r : RingBuffer α) : Bool := r.send == r.recv

def push (r : RingBuffer α) (m : α) : RingBuffer α :=
  let send := (r.send + 1) % r.size
  { r with send := send, msgs := r.msgs.set send (some m) }

def pop (r : RingBuffer α) : Option α × RingBuffer α :=
  let recv := (r.recv + 1) % r.size
  (r.msgs[recv]?.join, { r with recv := recv, msgs := r.msgs.set recv none })

def contents (r : RingBuffer α) : List (Option α) :=
  (range ((r.send + r.size - r.recv) % r.size)).map fun j =>
    r.msgs[(r.recv + 1 + j) % r.size]?.join

structure Holds (r : RingBuffer α) (l : List α) : Prop where
  slots : r.msgs.length = r.size
  recv_lt : r.recv < r.size
  fits : l.length < r.size
  send_eq : r.send = (r.recv + l.length) % r.size
  stored : ∀ j (h : j < l.length), r.msgs[(r.recv + 1 + j) % r.size]? = some (some l[j])

theorem mod_inj {n a i j : ℕ} (hi : i < n) (hj : j < n) (h : (a + i) % n = (a + j) % n) : i = j :=
  Nat.ModEq.eq_of_lt_of_lt (Nat.ModEq.add_left_cancel' a h) hi hj

theorem holds_empty {n : ℕ} (hn : 0 < n) :
    Holds (⟨n, 0, 0, replicate n none⟩ : RingBuffer α) [] where
  slots := length_replicate
  recv_lt := hn
  fits := hn
  send_eq := (Nat.zero_mod n).symm
  stored := fun j h => absurd h (Nat.not_lt_zero j)

section Holds

variable {r : RingBuffer α} {l : List α}

theorem Holds.isempty_iff (h : r.Holds l) : r.isempty = true ↔ l = [] := by
  have hrecv := Nat.mod_eq_of_lt h.recv_lt
  rw [isempty, beq_iff_eq, h.send_eq]
  constructor
  · intro heq
    have hlen : l.length = 0 := mod_inj h.fits (Nat.zero_lt_of_lt h.fits) (heq.trans hrecv.symm)
    exact length_eq_zero_iff.mp hlen
  · rintro rfl
    exact hrecv

theorem Holds.isfull_iff (h : r.Holds l) : r.isfull = true ↔ l.length + 1 = r.size := by
  have hrecv := Nat.mod_eq_of_lt h.recv_lt
  rw [isfull, beq_iff_eq, h.send_eq, Nat.mod_add_mod, Nat.add_assoc]
  constructor
  · intro heq
    by_contra hne
    have hlt : l.length + 1 < r.size := by
      have := h.fits
      omega
    have hzero := mod_inj hlt (Nat.zero_lt_of_lt hlt) (heq.trans hrecv.symm)
    omega
  · intro heq
    rw [heq, Nat.add_mod_right, hrecv]

theorem Holds.push (h : r.Holds l) (hfull : r.isfull = false) (m : α) :
    (r.push m).Holds (l ++ [m]) := by
  have hroom : l.length + 1 < r.size := by
    have hne : l.length + 1 ≠ r.size := fun heq => by
      rw [h.isfull_iff.mpr heq] at hfull
      cases hfull
    have := h.fits
    omega
  have hsend : (r.send + 1) % r.size = (r.recv + 1 + l.length) % r.size := by
    rw [h.send_eq, Nat.mod_add_mod, Nat.add_right_comm]
  constructor
  · exact (length_set ..).trans h.slots
  · exact h.recv_lt
  · rw [length_append]
    exact hroom
  · show (r.send + 1) % r.size = _
    rw [hsend, length_append, Nat.add_right_comm]
    rfl
  · intro j hj
    show (r.msgs.set ((r.send + 1) % r.size) (some m))[(r.recv + 1 + j) % r.size]? = _
    rw [hsend]
    rw [length_append, length_singleton] at hj
    rcases Nat.lt_succ_iff_lt_or_eq.mp hj with hlt | rfl
    · -- the slot written is none of those in use
      have hne : (r.recv + 1 + l.length) % r.size ≠ (r.recv + 1 + j) % r.size := fun heq => by
        have := mod_inj (by omega) (by omega) heq
        omega
      rw [getElem?_set_ne hne, h.stored j hlt, getElem_append_left hlt]
    · have hslot : (r.recv + 1 + l.length) % r.size < r.msgs.length := by
        rw [h.slots]
        exact Nat.mod_lt _ (by omega)
      rw [getElem?_set_self hslot]
      simp

theorem Holds.pop {x : α} (h : r.Holds (x :: l)) : r.pop.1 = some x ∧ r.pop.2.Holds l := by
  have hfits := h.fits
  rw [length_cons] at hfits
  have hfirst := h.stored 0 (Nat.succ_pos _)
  rw [Nat.add_zero, getElem_cons_zero] at hfirst
  constructor
  · show r.msgs[(r.recv + 1) % r.size]?.join = some x
    rw [hfirst]
    rfl
  · constructor
    · exact (length_set ..).trans h.slots
    · exact Nat.mod_lt _ (by omega)
    · exact Nat.lt_of_succ_lt hfits
    · show r.send = ((r.recv + 1) % r.size + l.length) % r.size
      rw [h.send_eq, Nat.mod_add_mod, length_cons, Nat.add_right_comm, Nat.add_assoc]
    · intro j hj
      show (r.msgs.set ((r.recv + 1) % r.size) none)[((r.recv + 1) % r.size + 1 + j) % r.size]? = _
      have hslot : ((r.recv + 1) % r.size + 1 + j) % r.size =
          (r.recv + 1 + (j + 1)) % r.size := by
        rw [Nat.add_assoc, Nat.mod_add_mod, Nat.add_comm 1 j]
      have hne : (r.recv + 1 + 0) % r.size ≠ (r.recv + 1 + (j + 1)) % r.size := fun heq => by
        have := mod_inj (by omega) (by omega) heq
        omega
      rw [hslot, getElem?_set_ne hne, h.stored (j + 1) (Nat.succ_lt_succ hj)]
      rfl

theorem Holds.contents_eq (h : r.Holds l) : r.contents = l.map some := by
  have hrecv := h.recv_lt
  have hlen : (r.send + r.size - r.recv) % r.size = l.length := by
    have hfits := h.fits
    rw [h.send_eq]
    rcases Nat.lt_or_ge (r.recv + l.length) r.size with hlt | hge
    · rw [Nat.mod_eq_of_lt hlt,
        show r.recv + l.length + r.size - r.recv = l.length + r.size by omega,
        Nat.add_mod_right, Nat.mod_eq_of_lt hfits]
    · rw [Nat.mod_eq_sub_mod hge,
        Nat.mod_eq_of_lt (show r.recv + l.length - r.size < r.size by omega),
        show r.recv + l.length - r.size + r.size - r.recv = l.length by omega,
        Nat.mod_eq_of_lt hfits]
  rw [contents, hlen]
  apply ext_getElem
  · simp
  · intro j hj hj'
    rw [length_map] at hj'
    rw [getElem_map, getElem_range, h.stored j hj', getElem_map]
    rfl

end Holds

end RingBuffer
end Sysak.Lib
