import Mathlib.Logic.Function.Basic
import Mathlib.Data.List.Basic

/-!
# `memset` and `memmove` (`soft/libc/ansi/string/string.c`)

The loops of the library over a memory that is a function on addresses.  Whatever the order in which `memmove` copies,
every byte of the destination is the byte that was in the source before the call, also where the two overlap.

These are the loops in C.  `config.h` sets `USE_ARCH_STRING`, with which `string.h` takes the versions in assembly of
`asm/string.h` for its users; they are not modelled.
-/

namespace Manrix

open Function

variable {β : Type*}

/-- `while (count--) *xs++ = c` -/
def memset (mem : Nat → β) (xs : Nat) (c : β) : Nat → Nat → β
  | 0 => mem
  | count + 1 => memset (update mem xs c) (xs + 1) c count

/-- `while (count--) *tmp++ = *s++` -/
def memmoveUp (mem : Nat → β) (tmp s : Nat) : Nat → Nat → β
  | 0 => mem
  | count + 1 => memmoveUp (update mem tmp (mem s)) (tmp + 1) (s + 1) count

/-- `while (count--) *--tmp = *--s`, with the pointers behind the areas at `tmp` and `s`. -/
def memmoveDown (mem : Nat → β) (tmp s : Nat) : Nat → Nat → β
  | 0 => mem
  | count + 1 => memmoveDown (update mem (tmp + count) (mem (s + count))) tmp s count

def memmove (mem : Nat → β) (dest src count : Nat) : Nat → β :=
  if dest ≤ src then memmoveUp mem dest src count else memmoveDown mem dest src count

theorem memset_apply (mem : Nat → β) (xs : Nat) (c : β) (count a : Nat) :
    memset mem xs c count a = if xs ≤ a ∧ a < xs + count then c else mem a := by
  induction count generalizing mem xs with
  | zero => rw [memset, if_neg (by omega)]
  | succ count ih =>
    rw [memset, ih]
    by_cases ha : a = xs
    · rw [if_neg (by omega), if_pos (by omega), ha, update_self]
    · rw [update_of_ne ha]
      exact if_congr (by omega) rfl rfl

private theorem memmoveUp_apply (mem : Nat → β) {tmp s : Nat} (h : tmp ≤ s) (count a : Nat) :
    memmoveUp mem tmp s count a = if tmp ≤ a ∧ a < tmp + count then mem (s + (a - tmp)) else mem a := by
  induction count generalizing mem tmp s with
  | zero => rw [memmoveUp, if_neg (by omega)]
  | succ count ih =>
    rw [memmoveUp, ih _ (Nat.succ_le_succ h)]
    by_cases ha : a = tmp
    · rw [if_neg (by omega), if_pos (by omega), ha, update_self, Nat.sub_self, Nat.add_zero]
    · rw [update_of_ne ha]
      by_cases hb : tmp + 1 ≤ a ∧ a < tmp + 1 + count
      · rw [if_pos hb, if_pos (by omega), update_of_ne (by omega)]
        congr 1
        omega
      · rw [if_neg hb, if_neg (by omega)]

private theorem memmoveDown_apply (mem : Nat → β) {tmp s : Nat} (h : s < tmp) (count a : Nat) :
    memmoveDown mem tmp s count a = if tmp ≤ a ∧ a < tmp + count then mem (s + (a - tmp)) else mem a := by
  induction count generalizing mem with
  | zero => rw [memmoveDown, if_neg (by omega)]
  | succ count ih =>
    rw [memmoveDown, ih]
    by_cases ha : a = tmp + count
    · rw [if_neg (by omega), if_pos (by omega), ha, update_self, Nat.add_sub_cancel_left]
    · rw [update_of_ne ha]
      by_cases hb : tmp ≤ a ∧ a < tmp + count
      · rw [if_pos hb, if_pos (by omega), update_of_ne (by omega)]
      · rw [if_neg hb, if_neg (by omega)]

theorem memmove_apply (mem : Nat → β) (dest src count a : Nat) :
    memmove mem dest src count a = if dest ≤ a ∧ a < dest + count then mem (src + (a - dest)) else mem a := by
  unfold memmove
  split
  · rename_i h
    exact memmoveUp_apply mem h count a
  · rename_i h
    exact memmoveDown_apply mem (Nat.lt_of_not_le h) count a

end Manrix
