import Mathlib.Data.BitVec
import Mathlib.Data.Fintype.Card

/-!
# Reference counts

Holders refer to at most one object each.  `Counted` says that every object in use has a `w`-bit counter with the number
of its holders; an object that is made with the counter at 1 is pending until its first holder refers to it.  A counter
does not wrap around if there are no more than `2 ^ w` holders: `Counted.sub_one_eq_zero_iff`.
-/

namespace RefCount

open Function

variable {ε ω : Type*} [Fintype ε] [DecidableEq ε] [DecidableEq ω] {w : Nat}

/-- The number of holders that refer to `o`. -/
def refs (f : ε → Option ω) (o : ω) : Nat := (Finset.univ.filter fun e => f e = some o).card

section Refs

variable {f : ε → Option ω} {e : ε} {o : ω}

theorem refs_update_of_none (h : f e = none) (v : Option ω) (o : ω) :
    refs (update f e v) o = refs f o + if v = some o then 1 else 0 := by
  unfold refs
  by_cases hv : v = some o
  · have hset : (Finset.univ.filter fun a => update f e v a = some o) =
        insert e (Finset.univ.filter fun a => f a = some o) := by
      ext a
      by_cases ha : a = e
      · simp [ha, hv]
      · simp [ha]
    rw [hset, Finset.card_insert_of_notMem (by simp [h]), if_pos hv]
  · have hset : (Finset.univ.filter fun a => update f e v a = some o) =
        Finset.univ.filter fun a => f a = some o := by
      ext a
      by_cases ha : a = e
      · simp [ha, hv, h]
      · simp [ha]
    rw [hset, if_neg hv, Nat.add_zero]

/-- Taking the reference of a holder away. -/
theorem refs_eq_release (f : ε → Option ω) (e : ε) (o : ω) :
    refs f o = refs (update f e none) o + if f e = some o then 1 else 0 := by
  have h := refs_update_of_none (f := update f e none) (e := e) (by simp) (f e) o
  rwa [update_idem, update_eq_self] at h

omit [DecidableEq ε] in
theorem refs_eq_zero_iff : refs f o = 0 ↔ ∀ e, f e ≠ some o := by
  simp [refs, Finset.filter_eq_empty_iff]

omit [DecidableEq ε] in
theorem refs_le_card (f : ε → Option ω) (o : ω) : refs f o ≤ Fintype.card ε :=
  Finset.card_filter_le _ _

end Refs

/-- The counters of the objects in use are right. -/
structure Counted (f : ε → Option ω) (pending freed : ω → Bool) (count : ω → BitVec w) : Prop where
  count_eq : ∀ o, freed o = false → count o = BitVec.ofNat w (refs f o + if pending o then 1 else 0)
  of_freed : ∀ o, freed o = true → refs f o = 0 ∧ pending o = false
  of_pending : ∀ o, pending o = true → refs f o = 0

section Counted

variable {f : ε → Option ω} {pending freed : ω → Bool} {count : ω → BitVec w} {e : ε} {o : ω}

omit [DecidableEq ε] in
theorem Counted.not_freed (h : Counted f pending freed count) (he : f e = some o) : freed o = false := by
  cases ho : freed o with
  | false => rfl
  | true => exact absurd he (refs_eq_zero_iff.1 (h.of_freed o ho).1 e)

omit [DecidableEq ε] in
theorem Counted.create (h : Counted f pending freed count) (ho : freed o = true) :
    Counted f (update pending o true) (update freed o false) (update count o 1) := by
  have hrefs := (h.of_freed o ho).1
  refine ⟨fun o' h' => ?_, fun o' h' => ?_, fun o' h' => ?_⟩
  · by_cases ho' : o' = o
    · subst ho'
      simp [hrefs]
    · simp only [update_of_ne ho'] at h' ⊢
      exact h.count_eq o' h'
  · by_cases ho' : o' = o
    · simp [ho'] at h'
    · simp only [update_of_ne ho'] at h' ⊢
      exact h.of_freed o' h'
  · by_cases ho' : o' = o
    · rw [ho', hrefs]
    · rw [update_of_ne ho'] at h'
      exact h.of_pending o' h'

/-- The first holder of a pending object. -/
theorem Counted.install (h : Counted f pending freed count) (he : f e = none) (ho : pending o = true) :
    Counted (update f e (some o)) (update pending o false) freed count := by
  have hlive : freed o = false := by
    by_contra hf
    rw [(h.of_freed o (by simpa using hf)).2] at ho
    cases ho
  refine ⟨fun o' h' => ?_, fun o' h' => ?_, fun o' h' => ?_⟩
  · rw [refs_update_of_none he, h.count_eq o' h']
    by_cases ho' : o' = o
    · subst ho'
      simp [ho]
    · simp [ho', Ne.symm ho']
  · have hne : o' ≠ o := by
      rintro rfl
      rw [hlive] at h'
      cases h'
    rw [refs_update_of_none he, update_of_ne hne, if_neg (by simpa using hne.symm)]
    exact h.of_freed o' h'
  · have hne : o' ≠ o := by
      rintro rfl
      simp at h'
    rw [update_of_ne hne] at h'
    rw [refs_update_of_none he, if_neg (by simpa using hne.symm)]
    exact h.of_pending o' h'

/-- A new holder of an object that has one. -/
theorem Counted.share (h : Counted f pending freed count) (he : f e = none) {e' : ε} (he' : f e' = some o) :
    Counted (update f e (some o)) pending freed (update count o (count o + 1)) := by
  have hpos : refs f o ≠ 0 := fun h0 => refs_eq_zero_iff.1 h0 e' he'
  refine ⟨fun o' h' => ?_, fun o' h' => ?_, fun o' h' => ?_⟩
  · rw [refs_update_of_none he]
    by_cases ho' : o' = o
    · subst ho'
      rw [update_self, h.count_eq o' h', if_pos rfl, Nat.add_right_comm, BitVec.ofNat_add _ 1]
      rfl
    · have hne : some o ≠ some o' := by simpa using Ne.symm ho'
      rw [update_of_ne ho', h.count_eq o' h', if_neg hne, Nat.add_zero]
  · have hne : o' ≠ o := by
      rintro rfl
      exact hpos (h.of_freed o' h').1
    rw [refs_update_of_none he, if_neg (by simpa using hne.symm)]
    exact h.of_freed o' h'
  · have hne : o' ≠ o := by
      rintro rfl
      exact hpos (h.of_pending o' h')
    rw [refs_update_of_none he, if_neg (by simpa using hne.symm)]
    exact h.of_pending o' h'

/-- The decremented counter tells whether the holder was the last one. -/
theorem Counted.sub_one_eq_zero_iff (h : Counted f pending freed count) (hcard : Fintype.card ε ≤ 2 ^ w)
    (he : f e = some o) : count o - 1 = 0 ↔ ∀ e', update f e none e' ≠ some o := by
  have hrel := refs_eq_release f e o
  rw [if_pos he] at hrel
  have hlt : refs (update f e none) o < 2 ^ w := by
    have := refs_le_card f o
    omega
  have hnp : pending o = false := by
    cases hp : pending o with
    | false => rfl
    | true => rw [h.of_pending o hp] at hrel; omega
  have hcount : count o - 1 = BitVec.ofNat w (refs (update f e none) o) := by
    rw [h.count_eq o (h.not_freed he), hnp, hrel]
    simp [BitVec.ofNat_add]
  rw [hcount, ← refs_eq_zero_iff]
  constructor
  · intro h0
    have := congrArg BitVec.toNat h0
    rw [BitVec.toNat_ofNat, Nat.mod_eq_of_lt hlt] at this
    simpa using this
  · intro h0
    rw [h0]
    rfl

end Counted

end RefCount
