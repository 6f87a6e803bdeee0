import Mathlib.Order.CompletePartialOrder
import Mathlib.Order.Interval.Set.Disjoint

/-!
# Tables of records on a device with blocks

A table with `n` records of `r` bytes takes the blocks from `t` on, of `bs` bytes each.  The record `k` is found by two
divisions: it is in the block `t + k * r / bs`, at the offset `k * r % bs`.  If the size of a record divides that of a
block, a record lies in one block; different records of a table, and records of tables with no block in common, have no
byte in common.
-/

namespace Records

variable {bs r t t' n n' k k' : Nat}

/-- The first byte of a record. -/
def start (bs r t k : Nat) : Nat := (t + k * r / bs) * bs + k * r % bs

def bytes (bs r t k : Nat) : Set Nat := Set.Ico (start bs r t k) (start bs r t k + r)

/-- The blocks of a table. -/
def blocks (bs r t n : Nat) : Set Nat := Set.Ico t (t + n * r / bs)

/-- The bytes of a block. -/
def blockBytes (bs b : Nat) : Set Nat := Set.Ico (b * bs) ((b + 1) * bs)

theorem start_eq : start bs r t k = t * bs + k * r := by
  rw [start, Nat.add_mul, Nat.add_assoc, Nat.div_add_mod']

/-- A record does not go on behind its block. -/
theorem mod_add_le (hr : r ∣ bs) (hbs : 0 < bs) : k * r % bs + r ≤ bs := by
  obtain ⟨m, rfl⟩ := hr
  have hm : 0 < m := Nat.pos_of_mul_pos_left hbs
  rw [Nat.mul_comm k r, Nat.mul_mod_mul_left, ← Nat.mul_succ]
  exact Nat.mul_le_mul_left r (Nat.mod_lt k hm)

theorem bytes_subset (hr : r ∣ bs) (hbs : 0 < bs) : bytes bs r t k ⊆ blockBytes bs (t + k * r / bs) := by
  have := mod_add_le (k := k) hr hbs
  rw [bytes, blockBytes, start, Nat.add_mul _ 1, Nat.one_mul, Nat.add_assoc]
  exact Set.Ico_subset_Ico (Nat.le_add_right _ _) (Nat.add_le_add_left this _)

theorem block_mem (hbs : 0 < bs) (hr : 0 < r) (hn : bs ∣ n * r) (hk : k < n) : t + k * r / bs ∈ blocks bs r t n := by
  have hlt : k * r / bs < n * r / bs := by
    rw [Nat.div_lt_iff_lt_mul hbs, Nat.div_mul_cancel hn]
    exact Nat.mul_lt_mul_of_pos_right hk hr
  exact ⟨Nat.le_add_right _ _, Nat.add_lt_add_left hlt t⟩

theorem disjoint_blockBytes {b b' : Nat} (h : b ≠ b') : Disjoint (blockBytes bs b) (blockBytes bs b') := by
  rw [blockBytes, blockBytes, Set.Ico_disjoint_Ico]
  rcases Nat.lt_or_gt_of_ne h with hlt | hlt
  · exact (min_le_left _ _).trans ((Nat.mul_le_mul_right bs hlt).trans (le_max_right _ _))
  · exact (min_le_right _ _).trans ((Nat.mul_le_mul_right bs hlt).trans (le_max_left _ _))

theorem disjoint_bytes_of_ne (h : k ≠ k') : Disjoint (bytes bs r t k) (bytes bs r t k') := by
  rw [bytes, bytes, start_eq, start_eq, Set.Ico_disjoint_Ico]
  have hstep : ∀ {a b : Nat}, a < b → t * bs + a * r + r ≤ t * bs + b * r := by
    intro a b hab
    rw [Nat.add_assoc, ← Nat.succ_mul]
    exact Nat.add_le_add_left (Nat.mul_le_mul_right r hab) _
  rcases Nat.lt_or_gt_of_ne h with hlt | hlt
  · exact (min_le_left _ _).trans ((hstep hlt).trans (le_max_right _ _))
  · exact (min_le_right _ _).trans ((hstep hlt).trans (le_max_left _ _))

theorem disjoint_bytes_of_disjoint (hbs : 0 < bs) (hr : 0 < r) (hrb : r ∣ bs) (hn : bs ∣ n * r) (hn' : bs ∣ n' * r)
    (h : Disjoint (blocks bs r t n) (blocks bs r t' n')) (hk : k < n) (hk' : k' < n') :
    Disjoint (bytes bs r t k) (bytes bs r t' k') := by
  have hne : t + k * r / bs ≠ t' + k' * r / bs := by
    intro he
    have hb := block_mem hbs hr hn hk (t := t)
    have hb' := block_mem hbs hr hn' hk' (t := t')
    rw [← he] at hb'
    exact Set.disjoint_left.mp h hb hb'
  exact (disjoint_blockBytes hne).mono (bytes_subset hrb hbs) (bytes_subset hrb hbs)

end Records
