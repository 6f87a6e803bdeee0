import Manrix.Kernel.Id

/-!
# Histories of `alloc_id` and `dealloc_id`

The identifiers that have been allocated and not yet given back are recorded beside the bitmap, where no function reads
them.  `alloc_id` can only fill the words 0 to 128, so the word 129 stays zero, and the loop that looks for a clear bit
without a bound of its own stops there.
-/

namespace Manrix

open Bitmap Function Runs

/-- A bitmap with its hint, and the identifiers that are outstanding. -/
structure IdHistory where
  ids : IdBitmap
  outstanding : Int → Bool

inductive IdHistoryOp where
  | alloc
  | dealloc (id : Int)

/-- Only outstanding identifiers are given back. -/
def IdHistoryStep (s : IdHistory) (op : IdHistoryOp) (s' : IdHistory) : Prop :=
  match op with
  | .alloc => ∃ fuel c, allocId fuel s.ids = some c ∧ s'.ids = c.bitmap ∧
      s'.outstanding = if c.ret = -1 then s.outstanding else update s.outstanding c.ret true
  | .dealloc id => s.outstanding id = true ∧
      s' = ⟨(deallocId id s.ids).1, update s.outstanding id false⟩

/-- A page of zeros. -/
structure IdHistory.Initial (s : IdHistory) : Prop where
  zero : ∀ w, 0 ≤ w → w ≤ 1023 → s.ids.word w = 0
  hint : s.ids.hint = 0
  none : ∀ i, s.outstanding i = false

/-- The number of identifiers that `alloc_id` can give. -/
def maxIds : Int := 129 * 32

/-- The set bits of the page are the outstanding identifiers, all of them in the words 0 to 128. -/
structure IdHistory.Inv (s : IdHistory) : Prop where
  hint : 0 ≤ s.ids.hint ∧ s.ids.hint ≤ 128
  bits : ∀ i, 0 ≤ i → i < 1024 * 32 → has s.ids.word i = s.outstanding i
  range : ∀ i, s.outstanding i = true → 0 ≤ i ∧ i < maxIds

/-- What a call of `alloc_id` may do: it looks at the words up to 129 only, and it returns -1 and changes nothing if all
identifiers are outstanding; otherwise it sets the bit of one that is not. -/
structure IdAllocOk (s : IdHistory) (c : IdCall) : Prop where
  accessed : ∀ w ∈ c.accessed, 0 ≤ w ∧ w ≤ 129
  fails : c.ret = -1 ↔ ∀ i, 0 ≤ i → i < maxIds → s.outstanding i = true
  kept : c.ret = -1 → c.bitmap = s.ids
  fresh : c.ret ≠ -1 → 0 ≤ c.ret ∧ c.ret < maxIds ∧ s.outstanding c.ret = false ∧
    c.bitmap.word = insert s.ids.word c.ret ∧ ∀ i, has c.bitmap.word i = (decide (i = c.ret) || has s.ids.word i)

variable {s s' s₀ : IdHistory} {op : IdHistoryOp} {fuel : Nat} {c : IdCall}

private theorem has_of_full {word : Int → BitVec 32} {i : Int} (h : word (i / 32) = maxIntVal) : has word i = true := by
  have hw : word (i / (32 : Nat)) = BitVec.allOnes 32 := h
  have hb : (i % (32 : Nat)).toNat < 32 := emod_toNat_lt (by decide) i
  unfold has
  rw [hw, BitVec.getLsbD_allOnes, decide_eq_true hb]

theorem IdHistory.Initial.inv (h : s.Initial) : s.Inv where
  hint := by rw [h.hint]; omega
  bits i h0 h1 := by
    have hz : s.ids.word (i / (32 : Nat)) = 0 := h.zero _ (by omega) (by omega)
    unfold has
    rw [hz, h.none]
    simp
  range i hi := by rw [h.none] at hi; cases hi

theorem IdHistory.Inv.tail (hi : s.Inv) : s.ids.word 129 = 0 := by
  apply BitVec.eq_of_getLsbD_eq
  intro k hk
  have hbit := hi.bits (129 * 32 + k) (by omega) (by omega)
  rw [has_word_bit hk] at hbit
  rw [hbit]
  refine Eq.trans (Bool.eq_false_iff.2 fun ho => ?_) BitVec.getLsbD_zero.symm
  have := hi.range _ ho
  unfold maxIds at this
  omega

theorem IdHistory.Inv.allocOk (hi : s.Inv) (h : allocId fuel s.ids = some c) : IdAllocOk s c := by
  obtain ⟨hacc, ⟨hfull, hb, hret⟩ | ⟨-, h0, h1, hclear, hb⟩⟩ := allocId_cases hi.hint hi.tail h
  · refine ⟨hacc, iff_of_true hret fun i hi0 hi1 => ?_, fun _ => hb, fun hne => absurd hret hne⟩
    unfold maxIds at hi1
    rw [← hi.bits i hi0 (by omega)]
    exact has_of_full (hfull _ (.inr ⟨by omega, by omega⟩))
  · have hfree : s.outstanding c.ret = false := by rw [← hi.bits c.ret h0 (by omega), hclear]
    refine ⟨hacc, iff_of_false (by omega) fun hall => ?_, fun hret => by omega,
      fun _ => ⟨h0, h1, hfree, by rw [hb], ?_⟩⟩
    · rw [hall c.ret h0 h1] at hfree
      cases hfree
    · intro i
      rw [hb]
      exact has_insert (by decide)

/-- A step of a history keeps the bits and the identifiers together. -/
theorem IdHistory.Inv.step (hi : s.Inv) (h : IdHistoryStep s op s') : s'.Inv := by
  cases op with
  | alloc =>
    obtain ⟨fuel, c, hc, hids, hout⟩ := h
    obtain ⟨-, ⟨-, hb, hret⟩ | ⟨-, h0, h1, -, hb⟩⟩ := allocId_cases hi.hint hi.tail hc
    · rw [if_pos hret] at hout
      rw [hb] at hids
      exact ⟨hids ▸ hi.hint, fun i h0 h1 => by rw [hids, hout, hi.bits i h0 h1], fun i hi' => hi.range i (hout ▸ hi')⟩
    · rw [if_neg (by omega)] at hout
      rw [hb] at hids
      refine ⟨by rw [hids]; dsimp only; omega, fun i hi0 hi1 => ?_, fun i hi' => ?_⟩
      · rw [hids, hout, has_insert (by decide), update_apply, hi.bits i hi0 hi1]
        by_cases he : i = c.ret <;> simp [he]
      · rw [hout, update_apply] at hi'
        split at hi'
        · rename_i he
          exact he ▸ ⟨h0, h1⟩
        · exact hi.range i hi'
  | dealloc id =>
    obtain ⟨hid, rfl⟩ := h
    obtain ⟨h0, h1⟩ := hi.range id hid
    unfold maxIds at h1
    have htd : id.tdiv 32 = id / 32 := Int.tdiv_eq_ediv_of_nonneg h0
    rw [deallocId_eq]
    refine ⟨by dsimp only; omega, fun i hi0 hi1 => ?_, fun i hi' => ?_⟩
    · dsimp only
      rw [has_erase (by decide), update_apply, hi.bits i hi0 hi1]
      by_cases he : i = id <;> simp [he]
    · dsimp only at hi'
      rw [update_apply] at hi'
      split at hi'
      · cases hi'
      · exact hi.range i hi'

/-- In every state that a history leads to, the set bits are the outstanding identifiers, the hint is a word that can be
used, and `alloc_id` ends and does what it may do. -/
theorem id_history {tr : List (IdHistory × IdHistoryOp × IdHistory)} (h₀ : s₀.Initial)
    (hr : Run IdHistoryStep s₀ tr s) : s.Inv ∧ (∀ fuel, 129 < fuel → (allocId fuel s.ids).isSome) ∧
      ∀ fuel c, allocId fuel s.ids = some c → IdAllocOk s c := by
  have hi : s.Inv := hr.inv IdHistory.Inv h₀.inv fun _ _ _ hi h => hi.step h
  exact ⟨hi, fun _ hf => allocId_isSome hi.tail hf, fun _ _ hc => hi.allocOk hc⟩

/-- No identifier has been allocated. -/
def freshHistory : IdHistory := ⟨⟨fun _ => 0, 0⟩, fun _ => false⟩

private theorem freshHistory_initial : freshHistory.Initial := ⟨fun _ _ _ => rfl, rfl, fun _ => rfl⟩

/-- The history after an allocation with its record. -/
def IdHistory.allocated (s : IdHistory) (c : IdCall) : IdHistory :=
  ⟨c.bitmap, update s.outstanding c.ret true⟩

/-- The bit of the first identifier is set once, cleared, and found again. -/
theorem id_history_reuse : ∃ (tr : List (IdHistory × IdHistoryOp × IdHistory)) (s : IdHistory),
    Run IdHistoryStep freshHistory tr s ∧ tr.map (·.2.1) = [.alloc, .dealloc 0] ∧ s.Inv ∧
      ∃ c, allocId 130 s.ids = some c ∧ c.ret = 0 ∧ IdAllocOk s c := by
  have s1 : IdHistoryStep freshHistory .alloc (freshHistory.allocated ((allocId 1 freshHistory.ids).get rfl)) :=
    ⟨1, _, rfl, rfl, rfl⟩
  have s2 : IdHistoryStep (freshHistory.allocated ((allocId 1 freshHistory.ids).get rfl)) (.dealloc 0)
      ⟨(deallocId 0 (freshHistory.allocated ((allocId 1 freshHistory.ids).get rfl)).ids).1,
        update (freshHistory.allocated ((allocId 1 freshHistory.ids).get rfl)).outstanding 0 false⟩ :=
    ⟨rfl, rfl⟩
  have hr := (Run.nil.snoc s1).snoc s2
  obtain ⟨hinv, -, hok⟩ := id_history freshHistory_initial hr
  exact ⟨_, _, hr, rfl, hinv, _, rfl, rfl, hok 130 _ rfl⟩

end Manrix
