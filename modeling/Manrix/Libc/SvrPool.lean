import Manrix.Kernel.Scheduling
import Manrix.Kernel.Id

/-!
# The worker pool of a server (`soft/libc/kernel/svrpool.c`, `servers/fs-io/main.c`)

`msg_loop` takes the first clear bit of the bitmap, sets it, receives a message into the slot of that number and signals
the worker of the slot; a worker that has finished clears its own bit.  The bitmap has 32 bits for a pool of `nthread`
slots, so when all workers are busy the next slot is the one behind the pool; the alternative worker for that case is
called only when all 32 bits are set.
-/

namespace Manrix

open Bitmap Function List Runs

structure PoolStruct (μ : Type*) where
  flag : BitVec 32
  request : BitVec 32
  msg : μ

def poolBusy : BitVec 32 := 2

/-- The pool, with the memory behind it.  `msg_loop` waits for a message for the slot `bitpos`, and the workers in
`working` have been signalled and have not yet cleared their bits. -/
structure ThrPool (μ : Type*) where
  nthread : Nat
  pool : Nat → PoolStruct μ
  poolBitmap : BitVec 32
  bitpos : Option Nat
  working : Nat → Bool

variable {μ : Type*}

/-- `pool_init`; the pool is set to zero. -/
def poolInit (nthread : Nat) (zero : μ) : ThrPool μ := ⟨nthread, fun _ => ⟨0, 0, zero⟩, 0, none, fun _ => false⟩

/-- The head of the loop of `msg_loop`: a slot is chosen; otherwise the alternative worker is called. -/
def ThrPool.choose (s : ThrPool μ) : ThrPool μ :=
  match ffc s.poolBitmap with
  | none => s
  | some bitpos => { s with poolBitmap := setBit s.poolBitmap bitpos, bitpos := some bitpos }

/-- The rest of the loop of `msg_loop`: the message `msg`, with the word `w1`, has come for the slot `bitpos`. -/
def ThrPool.receive (s : ThrPool μ) (w1 : μ → BitVec 32) (bitpos : Nat) (msg : μ) : ThrPool μ :=
  { s with pool := update s.pool bitpos ⟨(s.pool bitpos).flag ||| poolBusy, w1 msg, msg⟩
           bitpos := none
           working := update s.working bitpos true }

/-- The end of the loop of `fs_worker`. -/
def ThrPool.finish (s : ThrPool μ) (off : Nat) : ThrPool μ :=
  { s with poolBitmap := clearBit s.poolBitmap off, working := update s.working off false }

inductive PoolOp (μ : Type*) where
  | choose
  | receive (msg : μ)
  | finish (off : Nat)

/-- The steps of `msg_loop` and of the workers, in any order. -/
inductive PoolStep (w1 : μ → BitVec 32) : ThrPool μ → PoolOp μ → ThrPool μ → Prop
  | choose {s : ThrPool μ} : s.bitpos = none → PoolStep w1 s .choose s.choose
  | receive {s : ThrPool μ} {bitpos : Nat} {msg : μ} : s.bitpos = some bitpos →
      PoolStep w1 s (.receive msg) (s.receive w1 bitpos msg)
  | finish {s : ThrPool μ} {off : Nat} : off < s.nthread → s.working off = true →
      PoolStep w1 s (.finish off) (s.finish off)

/-- The slot is one of the pool and its worker is not at work. -/
def ThrPool.Idle (s : ThrPool μ) (slot : Nat) : Prop := slot < s.nthread ∧ s.working slot = false

/-- A slot that is chosen, and one that gets a message, is one of an idle worker, and workers keep their messages. -/
def DispatchesToIdle : ThrPool μ × PoolOp μ × ThrPool μ → Prop
  | (s, op, s') => (op = .choose → ∀ slot ∈ ffc s.poolBitmap, s.Idle slot) ∧
      ((∃ msg, op = .receive msg) → ∀ slot ∈ s.bitpos, s.Idle slot) ∧
      ∀ off, s.working off = true → s'.pool off = s.pool off

/-- One of the bits of the pool is clear when a slot is chosen. -/
def SomeSlotClear : ThrPool μ × PoolOp μ × ThrPool μ → Prop
  | (s, .choose, _) => ∃ slot < s.nthread, s.poolBitmap.getLsbD slot = false
  | _ => True

/-- The bits behind the pool are clear, and those of the workers at work and of the slot that is chosen are set. -/
structure ThrPool.Inv (s : ThrPool μ) : Prop where
  size : s.nthread ≤ 31
  behind : ∀ i, s.nthread ≤ i → s.poolBitmap.getLsbD i = false
  working_set : ∀ i, s.working i = true → s.poolBitmap.getLsbD i = true
  chosen : ∀ i, s.bitpos = some i → i < s.nthread ∧ s.working i = false ∧ s.poolBitmap.getLsbD i = true

variable {w1 : μ → BitVec 32} {s s' : ThrPool μ} {op : PoolOp μ}

theorem ThrPool.Inv.idle_of_clear (h : s.Inv) {i : Nat} (hi : i < s.nthread) (hc : s.poolBitmap.getLsbD i = false) :
    s.Idle i := by
  refine ⟨hi, ?_⟩
  cases hw : s.working i with
  | false => rfl
  | true => rw [h.working_set i hw] at hc; cases hc

theorem ThrPool.Inv.ffc_idle_iff (h : s.Inv) :
    (∀ slot ∈ ffc s.poolBitmap, s.Idle slot) ↔ ∃ slot < s.nthread, s.poolBitmap.getLsbD slot = false := by
  have hsize := h.size
  constructor
  · intro hall
    obtain ⟨k, -, hk⟩ := firstClear_le (show s.nthread < 32 by omega) (h.behind _ le_rfl)
    exact ⟨k, (hall k hk).1, (firstClear_some hk).2⟩
  · rintro ⟨slot, hlt, hclear⟩ k hk
    obtain ⟨k', hle, hk'⟩ := firstClear_le (show slot < 32 by omega) hclear
    cases hk.symm.trans hk'
    exact h.idle_of_clear (by omega) (firstClear_some hk).2

private theorem setBit_getLsbD (x : BitVec 32) {b : Nat} (hb : b < 32) (i : Nat) :
    (setBit x b).getLsbD i = true ↔ x.getLsbD i = true ∨ i = b := by
  by_cases hi : i < 32
  · rw [getLsbD_setBit (by omega) hi, Int.ofNat_inj]
  · rw [BitVec.getLsbD_of_ge _ _ (by omega), BitVec.getLsbD_of_ge _ _ (by omega)]
    simp
    omega

private theorem clearBit_getLsbD (x : BitVec 32) {b : Nat} (hb : b < 32) (i : Nat) :
    (clearBit x b).getLsbD i = true ↔ x.getLsbD i = true ∧ i ≠ b := by
  by_cases hi : i < 32
  · rw [getLsbD_clearBit (by omega) hi, Ne, Ne, Int.ofNat_inj]
  · rw [BitVec.getLsbD_of_ge _ _ (by omega), BitVec.getLsbD_of_ge _ _ (by omega)]
    simp

theorem ThrPool.Inv.choose (h : s.Inv) {slot : Nat} (hslot : ffc s.poolBitmap = some slot) (hidle : s.Idle slot) :
    s.choose.Inv := by
  have hlt : slot < 32 := (firstClear_some hslot).1
  simp only [ThrPool.choose, hslot]
  refine ⟨h.size, fun i hi => ?_, fun i hi => ?_, fun i hi => ?_⟩
  · have hne : i ≠ slot := (hidle.1.trans_le hi).ne'
    rw [← Bool.not_eq_true, setBit_getLsbD _ hlt, h.behind i hi]
    simp [hne]
  · exact (setBit_getLsbD _ hlt i).2 (.inl (h.working_set i hi))
  · cases hi
    exact ⟨hidle.1, hidle.2, (setBit_getLsbD _ hlt slot).2 (.inr rfl)⟩

theorem ThrPool.Inv.receive (h : s.Inv) {slot : Nat} (hslot : s.bitpos = some slot) (w1 : μ → BitVec 32) (msg : μ) :
    (s.receive w1 slot msg).Inv := by
  obtain ⟨hlt, -, hset⟩ := h.chosen slot hslot
  refine ⟨h.size, h.behind, fun i hi => ?_, fun i hi => by cases hi⟩
  by_cases e : i = slot
  · rw [e]
    exact hset
  · exact h.working_set i ((update_of_ne e ..).symm.trans hi)

theorem ThrPool.Inv.finish (h : s.Inv) {off : Nat} (hoff : off < s.nthread) (hw : s.working off = true) :
    (s.finish off).Inv := by
  have hlt : off < 32 := by
    have := h.size
    omega
  refine ⟨h.size, fun i hi => ?_, fun i hi => ?_, fun i hi => ?_⟩
  · rw [← Bool.not_eq_true, ThrPool.finish, clearBit_getLsbD _ hlt, h.behind i hi]
    simp
  · have hne : i ≠ off := by
      rintro rfl
      exact absurd ((update_self ..).symm.trans hi) (by simp)
    exact (clearBit_getLsbD _ hlt i).2 ⟨h.working_set i ((update_of_ne hne ..).symm.trans hi), hne⟩
  · obtain ⟨hi', hidle, hset⟩ := h.chosen i hi
    have hne : i ≠ off := by
      rintro rfl
      rw [hw] at hidle
      cases hidle
    exact ⟨hi', (update_of_ne hne ..).trans hidle, (clearBit_getLsbD _ hlt i).2 ⟨hset, hne⟩⟩

theorem ThrPool.Inv.ffc_some (h : s.Inv) : ∃ slot, ffc s.poolBitmap = some slot := by
  have hsize := h.size
  obtain ⟨k, -, hk⟩ := firstClear_le (show s.nthread < 32 by omega) (h.behind _ le_rfl)
  exact ⟨k, hk⟩

theorem PoolStep.inv (h : s.Inv) (hg : SomeSlotClear (s, op, s')) (hs : PoolStep w1 s op s') : s'.Inv := by
  cases hs with
  | choose =>
    obtain ⟨slot, hslot⟩ := h.ffc_some
    exact h.choose hslot (h.ffc_idle_iff.2 hg slot hslot)
  | receive hslot => exact h.receive hslot w1 _
  | finish hoff hw => exact h.finish hoff hw

/-- A step is right exactly when a bit of the pool is clear for a slot that is chosen. -/
theorem PoolStep.dispatches_iff (h : s.Inv) (hs : PoolStep w1 s op s') :
    DispatchesToIdle (s, op, s') ↔ SomeSlotClear (s, op, s') := by
  cases hs with
  | choose =>
    have hpool : s.choose.pool = s.pool := by
      rw [ThrPool.choose]
      split <;> rfl
    simp only [DispatchesToIdle, SomeSlotClear, hpool, ← h.ffc_idle_iff]
    simp
  | @receive slot msg hslot =>
    obtain ⟨hlt, hidle, -⟩ := h.chosen slot hslot
    refine iff_of_true ⟨by simp, fun _ k hk => ?_, fun off hoff => ?_⟩ trivial
    · cases hslot.symm.trans hk
      exact ⟨hlt, hidle⟩
    · have hne : off ≠ slot := by
        rintro rfl
        rw [hidle] at hoff
        cases hoff
      exact update_of_ne hne ..
  | finish => exact iff_of_true ⟨by simp, by simp, fun _ _ => rfl⟩ trivial

private theorem poolInit_inv {n : Nat} (hn : n ≤ 31) (zero : μ) : (poolInit n zero).Inv :=
  ⟨hn, fun i _ => by simp [poolInit], (fun i hi => nomatch hi), (fun i hi => nomatch hi)⟩

/-- In every interleaving all messages go to idle workers exactly when, each time that a slot is chosen, one of the bits
of the pool is clear. -/
theorem pool_dispatch (n : Nat) (h31 : n ≤ 31) (zero : μ) (w1 : μ → BitVec 32)
    (tr : List (ThrPool μ × PoolOp μ × ThrPool μ)) (s : ThrPool μ) (hrun : Run (PoolStep w1) (poolInit n zero) tr s) :
    (∀ x ∈ tr, DispatchesToIdle x) ↔ ∀ x ∈ tr, SomeSlotClear x :=
  hrun.forall_iff ThrPool.Inv SomeSlotClear DispatchesToIdle (poolInit_inv h31 zero)
    (fun _ _ _ h hg hs => hs.inv h hg) fun _ _ _ h hs => hs.dispatches_iff h

/-- The pool of one worker that has got the message 7. -/
def oneWorking : ThrPool Nat := (poolInit 1 0).choose.receive (fun _ => 3) 0 7

private theorem oneWorking_run : ∃ tr, Run (PoolStep fun _ => 3) (poolInit 1 0) tr oneWorking ∧
    tr.map (·.2.1) = [.choose, .receive 7] ∧ ∀ x ∈ tr, SomeSlotClear x := by
  have hchoose : PoolStep (fun _ => 3) (poolInit 1 0) .choose (poolInit 1 0).choose := .choose rfl
  have hreceive : PoolStep (fun _ => 3) (poolInit 1 0).choose (.receive 7) oneWorking := .receive rfl
  refine ⟨_, (Run.nil.snoc hchoose).snoc hreceive, rfl, ?_⟩
  simp only [nil_append, cons_append, mem_cons, not_mem_nil, or_false]
  rintro x (rfl | rfl)
  · exact ⟨0, by decide, by decide⟩
  · trivial

/-- The worker finishes before the next slot is chosen. -/
theorem pool_dispatch_one : ∃ tr s, Run (PoolStep fun _ => 3) (poolInit 1 0) tr s ∧
    tr.map (·.2.1) = [.choose, .receive 7, .finish 0, .choose] ∧ ∀ x ∈ tr, DispatchesToIdle x := by
  obtain ⟨tr, hrun, hops, hclear⟩ := oneWorking_run
  have hfinish : PoolStep (fun _ => 3) oneWorking (.finish 0) (oneWorking.finish 0) := .finish (by decide) (by decide)
  have hchoose : PoolStep (fun _ => 3) (oneWorking.finish 0) .choose (oneWorking.finish 0).choose := .choose rfl
  have hrun := (hrun.snoc hfinish).snoc hchoose
  refine ⟨_, _, hrun, by rw [map_append, map_append, hops]; rfl,
    (pool_dispatch 1 (by decide) 0 _ _ _ hrun).2 fun x hx => ?_⟩
  simp only [mem_append, mem_singleton] at hx
  rcases hx with (hx | rfl) | rfl
  · exact hclear x hx
  · trivial
  · exact ⟨0, by decide, by decide⟩

/-- The next slot is chosen while the only worker is at work: it is the one behind the pool. -/
theorem slot_behind_pool : ∃ tr s, Run (PoolStep fun _ => 3) (poolInit 1 0) tr s ∧
    tr.map (·.2.1) = [.choose, .receive 7, .choose] ∧ s.nthread = 1 ∧ s.bitpos = some 1 := by
  obtain ⟨tr, hrun, hops, -⟩ := oneWorking_run
  have hchoose : PoolStep (fun _ => 3) oneWorking .choose oneWorking.choose := .choose rfl
  exact ⟨_, _, hrun.snoc hchoose, by rw [map_append, hops]; rfl, rfl, by decide⟩

end Manrix
