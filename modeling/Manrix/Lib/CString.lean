import Mathlib.Data.BitVec

/-!
# Terminated strings in a memory

`StringAt mem p l` says that from the address `p` on the memory holds the characters `l` and a zero behind them.
Addresses wrap around.  A string without a zero in it is shorter than the memory (`StringAt.length_lt`), so the offsets
in it are told apart by their addresses.
-/

namespace CString

open List

variable {n : Nat} {β : Type*} [Zero β]

def StringAt (mem : BitVec n → β) : BitVec n → List β → Prop
  | p, [] => mem p = 0
  | p, b :: l => mem p = b ∧ StringAt mem (p + 1) l

variable {mem : BitVec n → β} {p : BitVec n} {l l' : List β}

theorem StringAt.append_right (h : StringAt mem p (l ++ l')) : StringAt mem (p + BitVec.ofNat n l.length) l' := by
  induction l generalizing p with
  | nil => simpa using h
  | cons b l ih =>
    have := ih h.2
    rwa [length_cons, Nat.add_comm, BitVec.ofNat_add, ← add_assoc]

theorem StringAt.getElem {i : Nat} (h : StringAt mem p l) (hi : i < l.length) : mem (p + BitVec.ofNat n i) = l[i] := by
  rw [← take_append_drop i l, drop_eq_getElem_cons hi] at h
  have := h.append_right.1
  rwa [length_take_of_le hi.le] at this

theorem StringAt.length_lt (h : StringAt mem p l) (h0 : ∀ b ∈ l, b ≠ 0) : l.length < 2 ^ n := by
  by_contra hlt
  -- the terminating zero is a character of the string
  have hend : mem (p + BitVec.ofNat n l.length) = 0 := by
    rw [← append_nil l] at h
    exact h.append_right
  have hpos := Nat.two_pow_pos n
  have hi : l.length - 2 ^ n < l.length := by omega
  have hwrap : BitVec.ofNat n l.length = BitVec.ofNat n (l.length - 2 ^ n) := by
    apply BitVec.eq_of_toNat_eq
    rw [BitVec.toNat_ofNat, BitVec.toNat_ofNat, Nat.mod_eq_sub_mod (by omega)]
  rw [hwrap, h.getElem hi] at hend
  exact h0 _ (getElem_mem hi) hend

end CString
