import Manrix.Lib.Runs
import Mathlib.Data.BitVec
import Mathlib.Algebra.Group.Nat.Defs

/-!
# The spin lock of the multiprocessor kernel

Each instruction that touches the lock word is one step, so a run is any interleaving of the processors.  The lock word
is 1 minus the holder minus the attempts that have failed: `spin_lock` decrements it once and does not take the
decrement back, and neither does `spin_trylock` when it returns -1.  So the lock is exclusive, and it is never taken
again once an attempt has failed.
-/

namespace Manrix

open Function Runs

/-- Where a processor is in the code of the lock. -/
inductive SpinPhase where
  | out
  /-- At the label 1 of `spin_lock`. -/
  | spin
  /-- At the comparison of `spin_trylock`. -/
  | tried
  | holds
  deriving DecidableEq

/-- `spinlock_t`, with the places of the processors. -/
structure SpinState (π : Type*) where
  lock : BitVec 32
  phase : π → SpinPhase

/-- `lock decl` and `jge`: the new value, and whether the jump is taken, which it is when the sign flag equals the
overflow flag. -/
def declJge (lock : BitVec 32) : BitVec 32 × Bool :=
  (lock - 1, (lock - 1).msb == (lock == BitVec.intMin 32))

/-- `cmpl $0` and `jle`. -/
def cmplJle (lock : BitVec 32) : Bool :=
  lock.sle 0

variable {π : Type*} [DecidableEq π]

def SpinState.goto (s : SpinState π) (p : π) (phase : SpinPhase) : SpinState π :=
  { s with phase := update s.phase p phase }

/-- The first two instructions of `spin_lock` and of `spin_trylock`; `failed` is the place behind them. -/
def SpinState.attempt (s : SpinState π) (p : π) (failed : SpinPhase) : SpinState π :=
  { s with lock := (declJge s.lock).1 }.goto p (if (declJge s.lock).2 then .holds else failed)

/-- One round of the loop of `spin_lock`. -/
def SpinState.poll (s : SpinState π) (p : π) : SpinState π :=
  if cmplJle s.lock then s else s.goto p .holds

/-- The comparison of `spin_trylock`, which then returns -1, or goes on as if it had the lock. -/
def SpinState.check (s : SpinState π) (p : π) : SpinState π :=
  if cmplJle s.lock then s.goto p .out else s.goto p .holds

def SpinState.spinUnlock (s : SpinState π) (p : π) : SpinState π :=
  { s with lock := s.lock + 1 }.goto p .out

inductive SpinOp (π : Type*) where
  | lock (p : π)
  | poll (p : π)
  | trylock (p : π)
  | check (p : π)
  | unlock (p : π)

/-- A processor runs the next instruction of the function that it is in.  Only the holder calls `spin_unlock`. -/
def SpinStep (s : SpinState π) (op : SpinOp π) (s' : SpinState π) : Prop :=
  match op with
  | .lock p => s.phase p = .out ∧ s' = s.attempt p .spin
  | .poll p => s.phase p = .spin ∧ s' = s.poll p
  | .trylock p => s.phase p = .out ∧ s' = s.attempt p .tried
  | .check p => s.phase p = .tried ∧ s' = s.check p
  | .unlock p => s.phase p = .holds ∧ s' = s.spinUnlock p

/-- `SPIN_LOCK_UNLOCKED`. -/
structure SpinState.Unlocked (s : SpinState π) : Prop where
  lock : s.lock = 1
  out : ∀ p, s.phase p = .out

/-- The processor that makes an attempt to take the lock. -/
def SpinOp.attempts : SpinOp π → Option π
  | .lock p | .trylock p => some p
  | _ => none

/-- An attempt that does not find the lock free. -/
def SpinFails (x : SpinState π × SpinOp π × SpinState π) : Bool :=
  x.2.1.attempts.isSome && !(declJge x.1.lock).2

/-- `p` has the lock after the step and did not have it before. -/
def Acquires (p : π) (x : SpinState π × SpinOp π × SpinState π) : Prop :=
  x.1.phase p ≠ .holds ∧ x.2.2.phase p = .holds

/-- The lock word counts the holder and the failed attempts; there is at most one holder, and nobody waits if no attempt
has failed. -/
structure SpinState.Inv (s : SpinState π) (failed : Nat) : Prop where
  one : ∀ p q, s.phase p = .holds → s.phase q = .holds → p = q
  free : (∀ p, s.phase p ≠ .holds) → s.lock = 1 - BitVec.ofNat 32 failed
  held : ∀ p, s.phase p = .holds → s.lock = - BitVec.ofNat 32 failed
  waits : ∀ p, s.phase p ≠ .holds → s.phase p ≠ .out → 0 < failed

variable {s s' s₀ : SpinState π} {op : SpinOp π} {p q : π} {n : Nat} {phase : SpinPhase}
  {tr : List (SpinState π × SpinOp π × SpinState π)}

@[simp] theorem SpinState.goto_phase_self : (s.goto p phase).phase p = phase := update_self ..

theorem SpinState.goto_phase_of_ne (h : q ≠ p) : (s.goto p phase).phase q = s.phase q := update_of_ne h ..

private theorem declJge_snd (lock : BitVec 32) : (declJge lock).2 = decide (0 < lock.toInt) := by
  have hn := lock.isLt
  have h1 : (1 : BitVec 32).toNat = 1 := rfl
  have hmin : (lock == BitVec.intMin 32) = decide (lock.toNat = 2 ^ 31) := by
    rw [Bool.beq_eq_decide_eq, decide_eq_decide, ← BitVec.toNat_inj]
    simp
  unfold declJge
  rw [BitVec.msb_eq_decide, Bool.beq_eq_decide_eq, decide_eq_decide, hmin, decide_eq_decide,
    BitVec.toInt_eq_toNat_cond, BitVec.toNat_sub, h1]
  split <;> omega

private theorem cmplJle_eq (lock : BitVec 32) : cmplJle lock = decide (lock.toInt ≤ 0) := by
  unfold cmplJle
  rw [BitVec.sle_eq_decide]
  rfl

private theorem toInt_free (hn : n < 2 ^ 31) : (1 - BitVec.ofNat 32 n).toInt = 1 - (n : Int) := by
  have h1 : (1 : BitVec 32).toNat = 1 := rfl
  rw [BitVec.toInt_eq_toNat_cond, BitVec.toNat_sub, BitVec.toNat_ofNat, h1]
  split <;> omega

private theorem toInt_held (hn : n < 2 ^ 31) : (- BitVec.ofNat 32 n).toInt = - (n : Int) := by
  rw [BitVec.toInt_eq_toNat_cond, BitVec.toNat_neg, BitVec.toNat_ofNat]
  split <;> omega

omit [DecidableEq π] in
theorem SpinState.Inv.toInt (hi : s.Inv n) (hn : n < 2 ^ 31) :
    ((∀ q, s.phase q ≠ .holds) ∧ s.lock.toInt = 1 - n) ∨ (¬ (∀ q, s.phase q ≠ .holds) ∧ s.lock.toInt = - n) := by
  by_cases hf : ∀ q, s.phase q ≠ .holds
  · exact .inl ⟨hf, by rw [hi.free hf, toInt_free hn]⟩
  · obtain ⟨q, hq⟩ := not_forall.1 hf
    exact .inr ⟨hf, by rw [hi.held q (not_not.1 hq), toInt_held hn]⟩

omit [DecidableEq π] in
theorem SpinState.Inv.declJge_iff (hi : s.Inv n) (hn : n < 2 ^ 31) :
    (declJge s.lock).2 = true ↔ (∀ q, s.phase q ≠ .holds) ∧ n = 0 := by
  rw [declJge_snd, decide_eq_true_iff]
  rcases hi.toInt hn with ⟨hf, hw⟩ | ⟨hf, hw⟩
  · exact ⟨fun h => ⟨hf, by omega⟩, fun h => by omega⟩
  · exact ⟨fun h => by omega, fun h => absurd h.1 hf⟩

omit [DecidableEq π] in
theorem SpinState.Inv.cmplJle (hi : s.Inv n) (hn : n < 2 ^ 31) (hp : s.phase p ≠ .holds) (ho : s.phase p ≠ .out) :
    cmplJle s.lock = true := by
  have hpos := hi.waits p hp ho
  rw [cmplJle_eq, decide_eq_true_iff]
  rcases hi.toInt hn with ⟨-, hw⟩ | ⟨-, hw⟩ <;> omega

/-- Moving a processor that does not have the lock to a place where it does not have it either. -/
theorem SpinState.Inv.goto (hi : s.Inv n) (hp : s.phase p ≠ .holds) (hph : phase ≠ .holds)
    (hw : phase ≠ .out → 0 < n) : (s.goto p phase).Inv n := by
  have hh : ∀ q, (s.goto p phase).phase q = .holds ↔ s.phase q = .holds := by
    intro q
    by_cases hq : q = p
    · subst hq
      simp [hp, hph]
    · rw [goto_phase_of_ne hq]
  refine ⟨?_, ?_, ?_, ?_⟩
  · intro q r hq hr
    exact hi.one q r ((hh q).1 hq) ((hh r).1 hr)
  · intro hf
    exact hi.free fun q hq => hf q ((hh q).2 hq)
  · intro q hq
    exact hi.held q ((hh q).1 hq)
  · intro q hq ho
    by_cases hqp : q = p
    · subst hqp
      rw [goto_phase_self] at ho
      exact hw ho
    · rw [goto_phase_of_ne hqp] at hq ho
      exact hi.waits q hq ho

omit [DecidableEq π] in
theorem SpinState.Inv.decl (hi : s.Inv n) : SpinState.Inv { s with lock := (declJge s.lock).1 } (n + 1) := by
  have hdec : (declJge s.lock).1 = s.lock - 1 := rfl
  refine ⟨hi.one, ?_, ?_, fun _ _ _ => Nat.succ_pos n⟩
  · intro hf
    show (declJge s.lock).1 = _
    rw [hdec, hi.free hf]
    simp only [BitVec.ofNat_add]
    bv_omega
  · intro q hq
    show (declJge s.lock).1 = _
    rw [hdec, hi.held q hq]
    simp only [BitVec.ofNat_add]
    bv_omega

theorem SpinState.Inv.attempt (hi : s.Inv n) (hn : n < 2 ^ 31) (hp : s.phase p = .out) (hph : phase ≠ .holds) :
    (s.attempt p phase).Inv (n + if (declJge s.lock).2 then 0 else 1) := by
  unfold SpinState.attempt
  have hpn : s.phase p ≠ .holds := by rw [hp]; decide
  by_cases hj : (declJge s.lock).2 = true
  · obtain ⟨hf, rfl⟩ := (hi.declJge_iff hn).1 hj
    rw [if_pos hj, if_pos hj]
    have hword : (declJge s.lock).1 = - BitVec.ofNat 32 0 := by
      show s.lock - 1 = _
      rw [hi.free hf]
      rfl
    have hholds : ∀ q, (SpinState.goto { s with lock := (declJge s.lock).1 } p .holds).phase q = .holds → q = p := by
      intro q hq
      by_contra hqp
      rw [goto_phase_of_ne hqp] at hq
      exact hf q hq
    refine ⟨?_, ?_, ?_, ?_⟩
    · intro q r hq hr
      rw [hholds q hq, hholds r hr]
    · intro h
      exact absurd goto_phase_self (h p)
    · intro _ _
      exact hword
    · intro q hq hqo
      by_cases hqp : q = p
      · subst hqp
        exact absurd goto_phase_self hq
      · rw [goto_phase_of_ne hqp] at hq hqo
        exact hi.waits q hq hqo
  · rw [if_neg hj, if_neg hj]
    exact hi.decl.goto hpn hph fun _ => Nat.succ_pos n

theorem SpinState.Inv.poll (hi : s.Inv n) (hn : n < 2 ^ 31) (hp : s.phase p = .spin) : s.poll p = s := by
  unfold SpinState.poll
  rw [if_pos (hi.cmplJle hn (p := p) (by rw [hp]; decide) (by rw [hp]; decide))]

theorem SpinState.Inv.check (hi : s.Inv n) (hn : n < 2 ^ 31) (hp : s.phase p = .tried) : s.check p = s.goto p .out := by
  unfold SpinState.check
  rw [if_pos (hi.cmplJle hn (p := p) (by rw [hp]; decide) (by rw [hp]; decide))]

theorem SpinState.Inv.spinUnlock (hi : s.Inv n) (hp : s.phase p = .holds) : (s.spinUnlock p).Inv n := by
  have hnone : ∀ q, (s.spinUnlock p).phase q ≠ .holds := by
    intro q hq
    by_cases hqp : q = p
    · subst hqp
      have hout : (s.spinUnlock q).phase q = .out := goto_phase_self
      rw [hout] at hq
      cases hq
    · refine hqp (hi.one q p ?_ hp)
      rw [← hq]
      exact (goto_phase_of_ne hqp).symm
  refine ⟨fun q r hq _ => absurd hq (hnone q), ?_, fun q hq => absurd hq (hnone q), ?_⟩
  · intro _
    show s.lock + 1 = _
    rw [hi.held p hp]
    bv_omega
  · intro q _ hqo
    by_cases hqp : q = p
    · subst hqp
      exact absurd goto_phase_self hqo
    · have hph : (s.spinUnlock p).phase q = s.phase q := goto_phase_of_ne hqp
      rw [hph] at hqo
      refine hi.waits q (fun hq => hnone q ?_) hqo
      rw [hph, hq]

private theorem acquires_iff_of_phase (h : s'.phase = update s.phase p phase) :
    Acquires q (s, op, s') ↔ q = p ∧ s.phase p ≠ .holds ∧ phase = .holds := by
  unfold Acquires
  rw [h]
  by_cases hq : q = p
  · subst hq
    simp
  · simp [hq]

theorem SpinState.Inv.attempt_step (hi : s.Inv n) (hn : n < 2 ^ 31) (hop : op.attempts = some p)
    (hp : s.phase p = .out) (hph : phase ≠ .holds) (hs' : s' = s.attempt p phase) :
    s'.Inv (n + if SpinFails (s, op, s') then 1 else 0) ∧
      ∀ q, Acquires q (s, op, s') ↔ op.attempts = some q ∧ (declJge s.lock).2 = true := by
  subst hs'
  have hfails : SpinFails (s, op, s.attempt p phase) = !(declJge s.lock).2 := by
    unfold SpinFails
    rw [hop]
    rfl
  refine ⟨?_, ?_⟩
  · have h := hi.attempt hn hp hph
    rw [hfails]
    cases hj : (declJge s.lock).2 <;> rw [hj] at h <;> simpa using h
  · intro q
    rw [acquires_iff_of_phase (p := p) rfl, hop, Option.some_inj, hp]
    cases (declJge s.lock).2 <;> simp [hph, eq_comm]

/-- A step counts its failure, if it is one, and only a successful attempt acquires the lock. -/
theorem SpinState.Inv.step (hi : s.Inv n) (hn : n < 2 ^ 31) (hst : SpinStep s op s') :
    s'.Inv (n + if SpinFails (s, op, s') then 1 else 0) ∧
      ∀ p, Acquires p (s, op, s') ↔ op.attempts = some p ∧ (declJge s.lock).2 = true := by
  cases op with
  | lock p => exact hi.attempt_step hn rfl hst.1 (by decide) hst.2
  | trylock p => exact hi.attempt_step hn rfl hst.1 (by decide) hst.2
  | poll p =>
    obtain ⟨hp, rfl⟩ := hst
    rw [hi.poll hn hp]
    refine ⟨hi, fun q => ?_⟩
    simp [Acquires, SpinOp.attempts]
  | check p =>
    obtain ⟨hp, rfl⟩ := hst
    rw [hi.check hn hp]
    refine ⟨hi.goto (by rw [hp]; decide) (by decide) (fun h => absurd rfl h), fun q => ?_⟩
    rw [acquires_iff_of_phase (p := p) rfl]
    simp [SpinOp.attempts]
  | unlock p =>
    obtain ⟨hp, rfl⟩ := hst
    refine ⟨hi.spinUnlock hp, fun q => ?_⟩
    rw [acquires_iff_of_phase (p := p) rfl]
    simp [SpinOp.attempts]

/-- The number of attempts of a run that have failed. -/
def failures (tr : List (SpinState π × SpinOp π × SpinState π)) : Nat :=
  tr.countP SpinFails

omit [DecidableEq π] in
theorem SpinState.Unlocked.inv (h : s.Unlocked) : s.Inv 0 where
  one p q hp := by rw [h.out] at hp; cases hp
  free _ := by rw [h.lock]; rfl
  held p hp := by rw [h.out] at hp; cases hp
  waits p _ hp := absurd (h.out p) hp

theorem SpinState.Unlocked.run (h : s₀.Unlocked) (hr : Run SpinStep s₀ tr s) (hf : failures tr < 2 ^ 31) :
    s.Inv (failures tr) := by
  induction hr with
  | nil => exact h.inv
  | @snoc tr s s' op hr hst ih =>
    have hcount : failures (tr ++ [(s, op, s')]) = failures tr + if SpinFails (s, op, s') then 1 else 0 := by
      unfold failures
      rw [List.countP_append, List.countP_singleton]
    rw [hcount] at hf ⊢
    have hlt : failures tr < 2 ^ 31 := by omega
    exact ((ih hlt).step hlt hst).1

/-- For any number of processors and every interleaving of the instructions of `spin_lock`, `spin_trylock` and
`spin_unlock`, as long as fewer than 2^31 attempts fail: at most one processor has the lock, and a step acquires it
exactly if it is the first decrement of an attempt, nobody has the lock, and no attempt has failed before.  So a
processor that waits in `spin_lock` never gets out of its loop. -/
theorem spin_lock_exclusive (h : s₀.Unlocked) (hr : Run SpinStep s₀ tr s) (hf : failures tr < 2 ^ 31) :
    (∀ p q, s.phase p = .holds → s.phase q = .holds → p = q) ∧ ∀ tr₁ x tr₂, tr = tr₁ ++ x :: tr₂ → ∀ p,
        (Acquires p x ↔ x.2.1.attempts = some p ∧ (∀ q, x.1.phase q ≠ .holds) ∧ ∀ y ∈ tr₁, SpinFails y = false) := by
  refine ⟨(h.run hr hf).one, ?_⟩
  rintro tr₁ ⟨t, op, t'⟩ tr₂ rfl p
  obtain ⟨hr₁, hst⟩ := hr.split
  have hlt : failures tr₁ < 2 ^ 31 := by
    refine lt_of_le_of_lt ?_ hf
    unfold failures
    rw [List.countP_append]
    exact Nat.le_add_right _ _
  have hi := h.run hr₁ hlt
  have hzero : failures tr₁ = 0 ↔ ∀ y ∈ tr₁, SpinFails y = false := by
    unfold failures
    rw [List.countP_eq_zero]
    simp
  rw [(hi.step hlt hst).2 p, hi.declJge_iff hlt, hzero]

def twoProcessors : SpinState Bool :=
  ⟨1, fun _ => .out⟩

/-- The second one waits when the first one gives the lock back. -/
def contended : SpinState Bool :=
  ((twoProcessors.attempt true .spin).attempt false .spin).spinUnlock true

/-- After that nobody gets it. -/
theorem spin_lock_exclusive_contended :
    contended.lock = 0 ∧ ¬ Acquires true (contended, .trylock true, contended.attempt true .tried) := by
  have hu : twoProcessors.Unlocked := ⟨rfl, fun _ => rfl⟩
  have hr : Run SpinStep twoProcessors
      ([] ++ [(twoProcessors, .lock true, twoProcessors.attempt true .spin)] ++
        [(twoProcessors.attempt true .spin, .lock false, (twoProcessors.attempt true .spin).attempt false .spin)] ++
        [((twoProcessors.attempt true .spin).attempt false .spin, .unlock true, contended)] ++
        [(contended, .trylock true, contended.attempt true .tried)]) (contended.attempt true .tried) :=
    .snoc (.snoc (.snoc (.snoc .nil ⟨rfl, rfl⟩) ⟨rfl, rfl⟩) ⟨by decide, rfl⟩) ⟨by decide, rfl⟩
  refine ⟨by decide, fun ha => ?_⟩
  have h := ((spin_lock_exclusive hu hr (by decide)).2 _ _ [] rfl true).1 ha
  have hy := h.2.2 (twoProcessors.attempt true .spin, .lock false,
    (twoProcessors.attempt true .spin).attempt false .spin) (by simp)
  exact absurd hy (by decide)

end Manrix
