import Manrix.Lib.Runs
import Mathlib.Data.BitVec
import Mathlib.Data.Fintype.Card
import Mathlib.Algebra.Group.Nat.Defs

/-!
# `atomic_dec` on several processors

`atomic_dec` decrements with `lock decl` and then loads the counter again to return it, so other processors may
decrement in between.  `delete_object`, `exit_vm_map`, `page_dealloc` and `free_pages` free what the counter stands for
when they are returned zero.
-/

namespace Manrix

open Function Runs

/-- Where a processor is in `atomic_dec`. -/
inductive DecPhase where
  | idle
  /-- Between `lock decl` and `return a->value`. -/
  | stored
  | returned (value : BitVec 32)
  deriving DecidableEq

/-- `atomic_t`, with the processors that give up their references to what it counts. -/
structure Counter (π : Type*) where
  value : BitVec 32
  phase : π → DecPhase

variable {π : Type*} [DecidableEq π]

def Counter.decl (s : Counter π) (p : π) : Counter π :=
  ⟨s.value - 1, update s.phase p .stored⟩

def Counter.load (s : Counter π) (p : π) : Counter π :=
  ⟨s.value, update s.phase p (.returned s.value)⟩

inductive DecOp (π : Type*) where
  | decl (p : π)
  | load (p : π)

def DecStep (s : Counter π) (op : DecOp π) (s' : Counter π) : Prop :=
  match op with
  | .decl p => s.phase p = .idle ∧ s' = s.decl p
  | .load p => s.phase p = .stored ∧ s' = s.load p

/-- One reference for each processor. -/
def Counter.shared (π : Type*) [Fintype π] : Counter π :=
  ⟨BitVec.ofNat 32 (Fintype.card π), fun _ => .idle⟩

/-- All calls have returned, and just the calls of the processors in `S` have returned zero. -/
def Counter.Zeros (s : Counter π) (S : Finset π) : Prop :=
  (∀ p, ∃ v, s.phase p = .returned v) ∧ ∀ p, s.phase p = .returned 0 ↔ p ∈ S

variable {s s' : Counter π} {op : DecOp π} {p q : π} {tr : List (Counter π × DecOp π × Counter π)} {S : Finset π}

@[simp] theorem Counter.decl_phase_self : (s.decl p).phase p = .stored := update_self ..

theorem Counter.decl_phase_of_ne (h : q ≠ p) : (s.decl p).phase q = s.phase q := update_of_ne h ..

@[simp] theorem Counter.load_phase_self : (s.load p).phase p = .returned s.value := update_self ..

theorem Counter.load_phase_of_ne (h : q ≠ p) : (s.load p).phase q = s.phase q := update_of_ne h ..

private theorem exists_run_each {o : π → DecOp π} {d : BitVec 32} {a b : DecPhase} {I : BitVec 32 → Prop}
    (hstep : ∀ s p, I s.value → s.phase p = a → DecStep s (o p) ⟨s.value - d, update s.phase p b⟩)
    (hI : ∀ v, I v → I (v - d)) (hs : I s.value) (hS : ∀ p ∈ S, s.phase p = a) :
    ∃ tr s', Run DecStep s tr s' ∧ I s'.value ∧ s'.value = s.value - BitVec.ofNat 32 S.card * d ∧
      (∀ p ∉ S, s'.phase p = s.phase p) ∧ ∀ p ∈ S, s'.phase p = b := by
  induction S using Finset.induction_on with
  | empty => exact ⟨[], s, .nil, hs, by simp, fun _ _ => rfl, by simp⟩
  | insert p S hp ih =>
    obtain ⟨tr, s', hr, hi, hv, hout, hin⟩ := ih fun q hq => hS q (Finset.mem_insert_of_mem hq)
    have hph : s'.phase p = a := by rw [hout p hp, hS p (Finset.mem_insert_self p S)]
    refine ⟨tr ++ [(s', o p, _)], _, .snoc hr (hstep s' p hi hph), hI _ hi, ?_, ?_, ?_⟩
    · rw [Finset.card_insert_of_notMem hp, BitVec.ofNat_add, hv, add_mul, BitVec.one_mul, sub_add_eq_sub_sub]
    · intro q hq
      rw [Finset.mem_insert, not_or] at hq
      exact (update_of_ne hq.1 ..).trans (hout q hq.2)
    · intro q hq
      by_cases hqp : q = p
      · rw [hqp]
        exact update_self ..
      · exact (update_of_ne hqp ..).trans (hin q ((Finset.mem_insert.1 hq).resolve_left hqp))

private theorem exists_run_together {T : Finset π} (hT : ∀ p ∈ T, s.phase p = .idle) :
    ∃ tr s', Run DecStep s tr s' ∧ s'.value = s.value - BitVec.ofNat 32 T.card ∧
      (∀ p ∉ T, s'.phase p = s.phase p) ∧ ∀ p ∈ T, s'.phase p = .returned s'.value := by
  obtain ⟨tr, s', hr, -, hv, hout, hin⟩ := exists_run_each (o := .decl) (d := 1) (I := fun _ => True)
    (fun _ _ _ h => ⟨h, rfl⟩) (fun _ _ => trivial) trivial hT
  -- the loads all find what the decrements have left
  obtain ⟨tr', s'', hr', hv', -, hout', hin'⟩ := exists_run_each (o := .load) (d := 0) (I := fun v => v = s'.value)
    (b := .returned s'.value) (fun t p ht h => ⟨h, by rw [sub_zero, ← ht]; rfl⟩)
    (fun v h => by rw [sub_zero, h]) rfl hin
  refine ⟨tr ++ tr', s'', hr.append hr', by rw [hv', hv, mul_one], ?_, ?_⟩
  · intro p hp
    rw [hout' p hp, hout p hp]
  · intro p hp
    rw [hin' p hp, hv']

section

variable [Fintype π]

/-- First the processors outside of `S`, then those in `S`. -/
private theorem exists_run_zeros (hS : S.Nonempty) (hc : Fintype.card π < 2 ^ 32) :
    ∃ tr s, Run DecStep (.shared π) tr s ∧ s.Zeros S := by
  obtain ⟨tr₁, s₁, hr₁, hv₁, hout₁, hin₁⟩ := exists_run_together (s := .shared π) (T := Sᶜ) fun _ _ => rfl
  obtain ⟨tr₂, s₂, hr₂, hv₂, hout₂, hin₂⟩ := exists_run_together (s := s₁) (T := S) fun p hp =>
    hout₁ p fun h => Finset.mem_compl.1 h hp
  have hcard : S.card + Sᶜ.card = Fintype.card π := Finset.card_add_card_compl S
  have hleft : s₁.value = BitVec.ofNat 32 S.card := by
    rw [hv₁]
    show BitVec.ofNat 32 (Fintype.card π) - _ = _
    rw [← hcard, BitVec.ofNat_add]
    bv_omega
  have hne : BitVec.ofNat 32 S.card ≠ 0 := by
    have hpos := hS.card_pos
    intro h
    have := congrArg BitVec.toNat h
    rw [BitVec.toNat_ofNat, Nat.mod_eq_of_lt (by omega)] at this
    exact hpos.ne' this
  have hzero : s₂.value = 0 := by
    rw [hv₂, hleft]
    bv_omega
  refine ⟨tr₁ ++ tr₂, s₂, hr₁.append hr₂, ?_, ?_⟩
  · intro p
    by_cases hp : p ∈ S
    · exact ⟨_, hin₂ p hp⟩
    · exact ⟨_, (hout₂ p hp).trans (hin₁ p (Finset.mem_compl.2 hp))⟩
  · intro p
    by_cases hp : p ∈ S
    · simp [hp, hin₂, hzero]
    · rw [hout₂ p hp, hin₁ p (Finset.mem_compl.2 hp), hleft, DecPhase.returned.injEq]
      exact iff_of_false hne hp

/-- The counter is the number of processors that have not decremented it. -/
def Counter.Counts (s : Counter π) : Prop :=
  s.value = BitVec.ofNat 32 (Finset.univ.filter fun p => s.phase p = .idle).card

theorem Counter.Counts.decl (h : s.Counts) (hp : s.phase p = .idle) : (s.decl p).Counts := by
  have herase : (Finset.univ.filter fun q => (s.decl p).phase q = .idle) =
      (Finset.univ.filter fun q => s.phase q = .idle).erase p := by
    ext q
    rw [Finset.mem_filter, Finset.mem_erase, Finset.mem_filter]
    by_cases hq : q = p
    · simp [hq]
    · simp [hq, Counter.decl_phase_of_ne]
  have hmem : p ∈ Finset.univ.filter fun q => s.phase q = .idle := by simp [hp]
  have hcard := Finset.card_erase_add_one hmem
  unfold Counter.Counts at h ⊢
  rw [herase]
  show s.value - 1 = _
  rw [h, ← hcard, BitVec.ofNat_add]
  bv_omega

theorem Counter.Counts.load (h : s.Counts) (hp : s.phase p = .stored) : (s.load p).Counts := by
  unfold Counter.Counts at h ⊢
  refine h.trans ?_
  congr 2
  ext q
  rw [Finset.mem_filter, Finset.mem_filter]
  by_cases hq : q = p
  · simp [hq, hp]
  · simp [Counter.load_phase_of_ne hq]

theorem Counter.Counts.run (hr : Run DecStep (.shared π) tr s) : s.Counts := by
  refine hr.inv Counter.Counts ?_ ?_
  · unfold Counter.Counts Counter.shared
    simp
  · intro s op s' hi hst
    cases op with
    | decl p =>
      obtain ⟨hp, rfl⟩ := hst
      exact hi.decl hp
    | load p =>
      obtain ⟨hp, rfl⟩ := hst
      exact hi.load hp

/-- The load that comes last finds zero. -/
theorem Counter.Zeros.nonempty (hr : Run DecStep (.shared π) tr s) (hz : s.Zeros S) (p₀ : π) : S.Nonempty := by
  cases hr with
  | nil =>
    obtain ⟨v, hv⟩ := hz.1 p₀
    cases hv
  | @snoc tr s _ op hr hst =>
    cases op with
    | decl p =>
      obtain ⟨-, rfl⟩ := hst
      obtain ⟨v, hv⟩ := hz.1 p
      rw [Counter.decl_phase_self] at hv
      cases hv
    | load p =>
      obtain ⟨hp, rfl⟩ := hst
      have hnone : (Finset.univ.filter fun q => s.phase q = .idle) = ∅ := by
        rw [Finset.filter_eq_empty_iff]
        intro q _ hq
        obtain ⟨v, hv⟩ := hz.1 q
        by_cases hqp : q = p
        · rw [hqp, hp] at hq
          cases hq
        · rw [Counter.load_phase_of_ne hqp, hq] at hv
          cases hv
      have hval : s.value = 0 := by
        have h := Counter.Counts.run hr
        unfold Counter.Counts at h
        rw [h, hnone]
        rfl
      refine ⟨p, (hz.2 p).1 ?_⟩
      rw [Counter.load_phase_self, hval]

/-- When the last references are given up at the same time, any non-empty set of the processors can be returned zero by
`atomic_dec`, and in no interleaving is it empty.  So the object is always freed, but not always once. -/
theorem atomic_dec_zeros (hn : 0 < Fintype.card π) (hc : Fintype.card π < 2 ^ 32) :
    (∃ tr s, Run DecStep (.shared π) tr s ∧ s.Zeros S) ↔ S.Nonempty := by
  obtain ⟨p₀⟩ := Fintype.card_pos_iff.1 hn
  refine ⟨?_, fun hS => exists_run_zeros hS hc⟩
  rintro ⟨tr, s, hr, hz⟩
  exact hz.nonempty hr p₀

/-- Two processors: both may free the object. -/
theorem atomic_dec_zeros_two :
    Fintype.card Bool < 2 ^ 32 ∧ ∃ tr s, Run DecStep (.shared Bool) tr s ∧ s.Zeros Finset.univ :=
  ⟨by decide, (atomic_dec_zeros (by decide) (by decide)).2 Finset.univ_nonempty⟩

end

end Manrix
