import Mathlib.Data.BitVec
import Mathlib.Data.Int.Init
import Mathlib.Logic.Function.Basic

/-!
# Bitmaps

An array of words of `n` bits is read as a set of integers: the integer `i` is the bit `i % n` of the word `i / n`.
Words and integers may be negative, so a set is the same as the memory around the array.  The lemmas say which integers
an update adds or takes away, and what the first clear bit of a word is.
-/

namespace Bitmap

open Function List

variable {n : Nat} {m : Int → BitVec n} {i j : Int} {x : BitVec n}

/-- The integer is in the set. -/
def has (m : Int → BitVec n) (i : Int) : Bool := (m (i / n)).getLsbD (i % n).toNat

def insert (m : Int → BitVec n) (i : Int) : Int → BitVec n :=
  update m (i / n) (m (i / n) ||| BitVec.twoPow n (i % n).toNat)

def erase (m : Int → BitVec n) (i : Int) : Int → BitVec n :=
  update m (i / n) (m (i / n) &&& ~~~ BitVec.twoPow n (i % n).toNat)

theorem emod_toNat_lt (hn : 0 < n) (i : Int) : (i % n).toNat < n := by
  have h1 := Int.emod_nonneg i (b := n) (by omega)
  have h2 := Int.emod_lt_of_pos i (b := n) (by omega)
  omega

/-- Two integers with the same word and the same bit are the same. -/
theorem eq_of_bit (hn : 0 < n) (hd : i / n = j / n) (hm : (i % n).toNat = (j % n).toNat) : i = j := by
  have h1 := Int.emod_nonneg i (b := n) (by omega)
  have h2 := Int.emod_nonneg j (b := n) (by omega)
  have hi := Int.mul_ediv_add_emod i n
  have hj := Int.mul_ediv_add_emod j n
  have hm' : i % n = j % n := by omega
  rw [← hi, ← hj, hd, hm']

/-- A word is written that has another bit of `i`, and the old bits besides. -/
theorem has_update (hn : 0 < n) {x : BitVec n} {b : Bool} (hi : x.getLsbD (i % n).toNat = b)
    (ho : ∀ k < n, k ≠ (i % n).toNat → x.getLsbD k = (m (i / n)).getLsbD k) :
    has (update m (i / n) x) j = if j = i then b else has m j := by
  unfold has
  by_cases hij : j = i
  · rw [if_pos hij, hij, update_self, hi]
  · rw [if_neg hij]
    by_cases hd : j / n = i / n
    · rw [hd, update_self]
      exact ho _ (emod_toNat_lt hn j) fun h => hij (eq_of_bit hn hd h)
    · rw [update_of_ne hd]

theorem has_insert (hn : 0 < n) : has (insert m i) j = (decide (j = i) || has m j) := by
  unfold insert
  rw [has_update hn (b := true)]
  · by_cases hij : j = i <;> simp [hij]
  · simp [emod_toNat_lt hn]
  · intro k hk hne
    simp [hne.symm]

theorem has_erase (hn : 0 < n) : has (erase m i) j = (decide (j ≠ i) && has m j) := by
  unfold erase
  rw [has_update hn (b := false)]
  · by_cases hij : j = i <;> simp [hij]
  · simp [emod_toNat_lt hn]
  · intro k hk hne
    simp [hne, hk]

/-- The words of other integers stay. -/
theorem insert_of_ne {w : Int} (h : w ≠ i / n) : insert m i w = m w := update_of_ne h ..

theorem erase_of_ne {w : Int} (h : w ≠ i / n) : erase m i w = m w := update_of_ne h ..

/-- The bit `k` of the word `w`. -/
theorem has_word {w : Int} {k : Nat} (hk : k < n) : has m (w * n + k) = (m w).getLsbD k := by
  have hd : (w * n + k) / n = w := by
    rw [Int.add_comm, Int.add_mul_ediv_right _ _ (by omega), Int.ediv_eq_zero_of_lt (by omega) (by omega)]
    omega
  have hm : (w * n + k) % n = k := by
    rw [Int.add_comm, Int.add_mul_emod_self_right, Int.emod_eq_of_lt (by omega) (by omega)]
  unfold has
  rw [hd, hm, Int.toNat_natCast]

def firstClear (x : BitVec n) : Option Nat := (List.range n).find? fun i => !x.getLsbD i

theorem firstClear_some {k : Nat} (h : firstClear x = some k) : k < n ∧ x.getLsbD k = false := by
  have hk := mem_of_find?_eq_some h
  have hx := find?_some h
  exact ⟨mem_range.1 hk, by simpa using hx⟩

/-- No bit below the first clear one is clear. -/
theorem firstClear_le {i : Nat} (hi : i < n) (hx : x.getLsbD i = false) : ∃ k ≤ i, firstClear x = some k := by
  cases hk : firstClear x with
  | none => exact absurd (find?_eq_none.1 hk i (mem_range.2 hi)) (by simp [hx])
  | some k =>
    refine ⟨k, Nat.not_lt.1 fun hlt => ?_, rfl⟩
    exact absurd ((find?_range_eq_some.1 hk).2.2 i hlt) (by simp [hx])

theorem firstClear_eq_none_iff : firstClear x = none ↔ x = BitVec.allOnes n := by
  unfold firstClear
  rw [find?_eq_none]
  constructor
  · intro h
    apply BitVec.eq_of_getLsbD_eq
    intro k hk
    simpa [hk] using h k (mem_range.2 hk)
  · rintro rfl k hk
    simp [mem_range.1 hk]

end Bitmap
