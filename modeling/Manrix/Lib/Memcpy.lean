import Mathlib.Data.List.Basic
import Mathlib.Data.BitVec

/-!
# Bytes copied into a memory

A memory is a function on machine addresses.  A copy of at most as many bytes as there are addresses puts each byte at
its place and leaves the rest, also when it goes past the last address; copies one behind the other are one copy.
-/

namespace Manrix

open Function List

variable {w : Nat} {β : Type*}

/-- The memory after `bytes` has been copied to `dst`. -/
def memcpy (mem : BitVec w → β) (dst : BitVec w) (bytes : List β) : BitVec w → β :=
  fun a => bytes[(a - dst).toNat]?.getD (mem a)

theorem memcpy_nil (mem : BitVec w → β) (dst : BitVec w) : memcpy mem dst [] = mem := rfl

/-- A copy of `n` bytes writes them from `dst` on, and nothing else. -/
theorem memcpy_map_range (mem : BitVec w → β) (dst : BitVec w) (byte : Nat → β) (n : Nat) (a : BitVec w) :
    memcpy mem dst ((List.range n).map byte) a = if (a - dst).toNat < n then byte (a - dst).toNat else mem a := by
  rw [memcpy, getElem?_map]
  split
  · rename_i h
    rw [getElem?_range h]
    rfl
  · rename_i h
    rw [getElem?_eq_none (by rwa [length_range, ← Nat.not_lt])]
    rfl

theorem add_ofNat_sub_toNat (dst : BitVec w) {k : Nat} (hk : k < 2 ^ w) : (dst + BitVec.ofNat w k - dst).toNat = k := by
  rw [BitVec.add_comm, BitVec.add_sub_cancel, BitVec.toNat_ofNat, Nat.mod_eq_of_lt hk]

/-- The distance to an address from a place that is `k` further on. -/
theorem sub_add_ofNat_toNat (a dst : BitVec w) {k : Nat} (hk : k < 2 ^ w) : (a - (dst + BitVec.ofNat w k)).toNat =
      if k ≤ (a - dst).toNat then (a - dst).toNat - k else (a - dst).toNat + 2 ^ w - k := by
  have hlt := (a - dst).isLt
  rw [← BitVec.sub_sub, BitVec.toNat_sub, BitVec.toNat_ofNat, Nat.mod_eq_of_lt hk]
  split
  · rw [show 2 ^ w - k + (a - dst).toNat = (a - dst).toNat - k + 2 ^ w by omega, Nat.add_mod_right,
      Nat.mod_eq_of_lt (by omega)]
  · rw [Nat.mod_eq_of_lt (by omega)]
    omega

theorem memcpy_append (mem : BitVec w → β) (dst : BitVec w) (xs ys : List β) (h : xs.length + ys.length < 2 ^ w) :
    memcpy (memcpy mem dst xs) (dst + BitVec.ofNat w xs.length) ys = memcpy mem dst (xs ++ ys) := by
  funext a
  have hlt := (a - dst).isLt
  simp only [memcpy]
  rw [sub_add_ofNat_toNat a dst (by omega)]
  split
  · rename_i hle
    rw [getElem?_append_right hle, getElem?_eq_none hle]
    rfl
  · -- the address is before the second copy, which does not come round to it
    rename_i hle
    rw [getElem?_append_left (by omega), getElem?_eq_none (l := ys) (by omega)]
    rfl

theorem memcpy_singleton [DecidableEq (BitVec w)] (mem : BitVec w → β) (dst : BitVec w) (b : β) :
    memcpy mem dst [b] = update mem dst b := by
  funext a
  by_cases ha : a = dst
  · rw [ha, update_self, memcpy, BitVec.sub_self]
    rfl
  · have hne : (a - dst).toNat ≠ 0 := fun h => ha (sub_eq_zero.1 (BitVec.eq_of_toNat_eq h))
    rw [update_of_ne ha, memcpy, getElem?_eq_none (Nat.one_le_iff_ne_zero.2 hne)]
    rfl

/-- Copies of one length to one place that give the same memory are copies of the same bytes. -/
theorem memcpy_inj {mem : BitVec w → β} {dst : BitVec w} {xs ys : List β} (hlen : xs.length = ys.length)
    (hlt : xs.length ≤ 2 ^ w) (h : memcpy mem dst xs = memcpy mem dst ys) : xs = ys := by
  refine ext_getElem hlen fun k hx hy => ?_
  have hk := congrFun h (dst + BitVec.ofNat w k)
  simp only [memcpy, add_ofNat_sub_toNat dst (Nat.lt_of_lt_of_le hx hlt), getElem?_eq_getElem hx,
    getElem?_eq_getElem hy] at hk
  exact hk

end Manrix
