import Manrix.Kernel.Scheduling

/-!
# The priority of one thread

The fields of a thread from which its place in the run queue is computed, from `syscall_create_thread` on, over every
sequence of `sched_timer`, `syscall_sched_yield`, blocking and `wakeup`.  These fields evolve on their own (`Prio`):
what the functions of the kernel do to them depends on nothing else, and so do the indices with which `run` is accessed
and the bits of the bitmap are set.

The priority that the user asks for is not checked, and `bound` is not initialised.  At the end of a time slice `bound`
is at least `PRIO_OTHER_MIN`, so that the dynamic priority rises.
-/

namespace Manrix

open Links List Runs

/-- The smallest `int`. -/
def intMin : Int := -2 ^ 31

variable {τ : Type*} [DecidableEq τ]

/-- The fields of `struct thread_attr` that the scheduler reads. -/
structure ThreadAttr where
  schedPriority : Int
  policy : Int

/-- What `create_thread` writes to the fields of a thread; the others, `bound` among them, stay as the page had them. -/
def Thread.create (tid : Int) (attr : ThreadAttr) (page : Thread) : Thread :=
  { page with
    states := threadReady
    sigpending := 0
    timeSlice := slice
    tid := tid
    cpu := 0
    schedule := 0
    priorityStat := attr.schedPriority
    priorityDyn := attr.schedPriority
    schedpolicy := attr.policy }

/-- `create_thread` with attributes, on the page `thr` and with the identifier `tid` that it has allocated. -/
def createThread (k : Kernel τ) (thr : τ) (tid : Int) (attr : ThreadAttr) : Kernel τ :=
  let k := { k with runq := listInit k.runq (.obj thr) }
  let k := k.modThread thr (Thread.create tid attr)
  let k := { k with sndq := listInit (listInit k.sndq (.head thr)) (.obj thr) }
  { k with thash := Function.update k.thash (hashFn tid) (thr :: k.thash (hashFn tid)) }

/-- `syscall_create_thread`; `attr` is absent if the user passes a null pointer, and `page` if there is no memory. -/
def syscallCreateThread (k : Kernel τ) (attr : Option ThreadAttr) (page : Option τ) (tid : Int) : Kernel τ × Int :=
  match attr, page with
  | some attr, some thr => (enqueueThread (createThread k thr tid attr) thr, tid)
  | _, _ => (k, -1)

/-- `sched_timer` and `syscall_sched_yield` with the thread as the current one, a sleep in the state `states`, and
`wakeup`. -/
inductive OwnOp where
  | timer
  | yield
  | block (states : BitVec 32)
  | wakeup
  deriving DecidableEq

def OwnOp.exec (thr : τ) (k : Kernel τ) : OwnOp → Kernel τ
  | .timer => schedTimer (k.withCurrent thr)
  | .yield => syscallSchedYield (k.withCurrent thr)
  | .block states => makeBlocked states k thr
  | .wakeup => Manrix.wakeup k thr

def OwnStep (thr : τ) (k : Kernel τ) (op : OwnOp) (k' : Kernel τ) : Prop := k' = op.exec thr k

/-- The index with which `enqueue_thread` and `remove_thread` access `run` and the bitmap. -/
def Kernel.runIndex (k : Kernel τ) (thr : τ) : Int := prioq (k.thread thr).priorityDyn

/-- The indices with which `run` is accessed, in the order of the calls of `remove_thread` and `enqueue_thread`. -/
def OwnOp.accesses (thr : τ) (k : Kernel τ) : OwnOp → List Int
  | .timer =>
    if (k.thread thr).Expires then
      let k := k.modThread thr Thread.newSlice
      let k' := (removeThread k thr).modThread thr fun t => { t with priorityDyn := t.priorityStat + t.bound }
      [k.runIndex thr, k'.runIndex thr]
    else []
  | .yield => [k.runIndex thr, (removeThread k thr).runIndex thr]
  | .block states => [(k.modThread thr fun t => { t with states := states }).runIndex thr]
  | .wakeup =>
    let k := k.modThread thr fun t => { t with states := threadReady }
    [(k.modThread thr fun t => { t with priorityDyn := t.priorityStat }).runIndex thr]

/-- The fields of a thread that its place in the run queue depends on. -/
structure Prio where
  policy : Int
  stat : Int
  dyn : Int
  bound : Int
  timeSlice : Int

def Thread.prio (t : Thread) : Prio := ⟨t.schedpolicy, t.priorityStat, t.priorityDyn, t.bound, t.timeSlice⟩

/-- The thread is one that `sched_timer` handles. -/
def Prio.Sliced (p : Prio) : Prop := p.policy = schedOther ∧ p.stat < prioSysMin

instance (p : Prio) : Decidable p.Sliced := inferInstanceAs (Decidable (_ ∧ _))

def Prio.newBound (p : Prio) : Int := if p.bound - 1 < prioOtherMin then prioOtherMin else p.bound - 1

def Prio.tick (p : Prio) : Prio :=
  if p.Sliced then
    if p.timeSlice - 1 = 0 then
      { p with timeSlice := slice, bound := p.newBound, dyn := p.stat + p.newBound }
    else { p with timeSlice := p.timeSlice - 1 }
  else p

def OwnOp.next (p : Prio) : OwnOp → Prio
  | .timer => p.tick
  | .yield | .block _ => p
  | .wakeup => { p with dyn := p.stat }

def OwnOp.indices (p : Prio) : OwnOp → List Int
  | .timer => if p.Sliced ∧ p.timeSlice - 1 = 0 then [prioq p.dyn, prioq (p.stat + p.newBound)] else []
  | .yield => [prioq p.dyn, prioq p.dyn]
  | .block _ => [prioq p.dyn]
  | .wakeup => [prioq p.stat]

section Fields

variable {k k' : Kernel τ} {thr : τ} {op : OwnOp}

theorem Thread.expires_iff (t : Thread) : t.Expires ↔ t.prio.Sliced ∧ t.prio.timeSlice - 1 = 0 :=
  and_assoc.symm

private theorem schedTimer_prio (h : k.current = thr) :
    ((schedTimer k).thread thr).prio = (k.thread thr).prio.tick := by
  subst h
  unfold Prio.tick
  by_cases hs : (k.thread k.current).prio.Sliced
  · rw [if_pos hs]
    by_cases hz : (k.thread k.current).prio.timeSlice - 1 = 0
    · rw [if_pos hz, schedTimer_of_expires k ⟨hs.1, hs.2, hz⟩,
        enqueueThread_keep (g := Thread.prio) _ _ _ fun _ _ => rfl, modThread_thread_self, removeThread_thread,
        modThread_thread_self]
      rfl
    · have hpol : (k.thread k.current).schedpolicy = schedOther := hs.1
      have hsys : ¬ prioSysMin ≤ (k.thread k.current).priorityStat := not_le.2 hs.2
      have hrr : (k.thread k.current).schedpolicy ≠ schedRr := by rw [hpol]; decide
      have hz' : ¬ (k.thread k.current).timeSlice - 1 = 0 := hz
      rw [if_neg hz]
      simp only [schedTimer, if_neg hrr, if_neg (not_not.2 hpol), if_neg hsys, modThread_thread_self, if_neg hz']
      rfl
  · rw [if_neg hs]
    simp only [schedTimer]
    split
    · rfl
    · split
      · rfl
      · rename_i hpol
        have hsys : prioSysMin ≤ (k.thread k.current).priorityStat :=
          not_lt.1 fun hsys => hs ⟨not_not.1 hpol, hsys⟩
        rw [if_pos hsys]

theorem OwnStep.prio (h : OwnStep thr k op k') : (k'.thread thr).prio = op.next (k.thread thr).prio := by
  subst h
  cases op with
  | timer => exact schedTimer_prio (withCurrent_current k thr)
  | yield =>
    simp only [OwnOp.exec, syscallSchedYield, OwnOp.next]
    rw [modThread_thread_keep (g := Thread.prio) _ _ _ _ rfl,
      enqueueThread_keep (g := Thread.prio) _ _ _ fun _ _ => rfl,
      removeThread_thread, withCurrent_thread]
  | block states => exact makeBlocked_keep (g := Thread.prio) fun _ _ _ => rfl
  | wakeup =>
    simp only [OwnOp.exec, Manrix.wakeup, OwnOp.next]
    rw [enqueueThread_keep (g := Thread.prio) _ _ _ fun _ _ => rfl, modThread_thread_self, modThread_thread_self]
    rfl

theorem OwnOp.accesses_eq : op.accesses thr k = op.indices (k.thread thr).prio := by
  cases op with
  | timer =>
    simp only [OwnOp.accesses, OwnOp.indices, Thread.expires_iff, Kernel.runIndex, modThread_thread_self,
      removeThread_thread]
    rfl
  | yield => simp only [OwnOp.accesses, OwnOp.indices, Kernel.runIndex, removeThread_thread]; rfl
  | block states => simp only [OwnOp.accesses, OwnOp.indices, Kernel.runIndex, modThread_thread_self]; rfl
  | wakeup => simp only [OwnOp.accesses, OwnOp.indices, Kernel.runIndex, modThread_thread_self]; rfl

end Fields

private theorem prioq_mem_iff {p : Int} : (0 ≤ prioq p ∧ prioq p < maxq) ↔ -4 < p ∧ p < npriors := by
  unfold prioq maxq npriors
  rcases le_or_gt 0 p with h | h
  · rw [Int.tdiv_eq_ediv_of_nonneg h]
    omega
  · obtain ⟨n, rfl⟩ : ∃ n : Int, p = -n := ⟨-p, by omega⟩
    rw [Int.neg_tdiv, Int.tdiv_eq_ediv_of_nonneg (by omega)]
    omega

/-- The accesses are in the array, and where `bound` is decremented it stays an `int`. -/
def IndexOk (thr : τ) (x : Kernel τ × OwnOp × Kernel τ) : Prop :=
  (∀ i ∈ x.2.1.accesses thr x.1, 0 ≤ i ∧ i < maxq) ∧
  (x.2.1 = .timer → (x.1.thread thr).Expires → intMin ≤ (x.1.thread thr).bound - 1)

/-- The priority the user asks for is in the range, and so is the one at the end of the first time slice, whatever
`bound` was in the page. -/
def ThreadAttr.Ok (attr : ThreadAttr) (bound : Int) : Prop :=
  (-4 < attr.schedPriority ∧ attr.schedPriority < npriors) ∧
  (attr.policy = schedOther → attr.schedPriority < prioSysMin →
    intMin < bound ∧ attr.schedPriority + prioOtherMin < npriors ∧ attr.schedPriority + (bound - 1) < npriors)

instance (attr : ThreadAttr) (bound : Int) : Decidable (attr.Ok bound) := inferInstanceAs (Decidable ((_ ∧ _) ∧ _))

/-- Both priorities are in the range, and the dynamic one also at the end of the next time slice. -/
structure Prio.Ok (p : Prio) : Prop where
  stat : -4 < p.stat ∧ p.stat < npriors
  dyn : -4 < p.dyn ∧ p.dyn < npriors
  sliced : p.Sliced → intMin < p.bound ∧ p.stat + p.newBound < npriors

section Indices

variable {k k' : Kernel τ} {thr : τ} {op : OwnOp} {p : Prio} {tid : Int} {attr : ThreadAttr}

theorem Prio.newBound_lt_iff : p.stat + p.newBound < npriors ↔
    p.stat + prioOtherMin < npriors ∧ p.stat + (p.bound - 1) < npriors := by
  unfold Prio.newBound
  split <;> omega

theorem Prio.prioOtherMin_le_newBound : prioOtherMin ≤ p.newBound := by
  unfold Prio.newBound
  split <;> omega

theorem Prio.Ok.next (hp : p.Ok) : (op.next p).Ok := by
  cases op with
  | timer =>
    simp only [OwnOp.next, Prio.tick]
    split
    · rename_i hs
      obtain ⟨hb, hlt⟩ := hp.sliced hs
      have hstat := hp.stat
      have hmin := p.prioOtherMin_le_newBound
      split
      · refine ⟨hstat, ⟨?_, hlt⟩, fun _ => ⟨?_, ?_⟩⟩
        · simp only
          unfold prioOtherMin at hmin
          omega
        · simp only
          unfold prioOtherMin intMin at *
          omega
        · rw [Prio.newBound_lt_iff] at hlt ⊢
          have hself := hp.sliced hs
          simp only
          omega
      · exact ⟨hstat, hp.dyn, fun _ => ⟨hb, hlt⟩⟩
    · exact hp
  | yield => exact hp
  | block _ => exact hp
  | wakeup => exact ⟨hp.stat, hp.stat, hp.sliced⟩

theorem Prio.Ok.indices (hp : p.Ok) : ∀ i ∈ op.indices p, 0 ≤ i ∧ i < maxq := by
  have hdyn := prioq_mem_iff.2 hp.dyn
  have hstat := prioq_mem_iff.2 hp.stat
  cases op with
  | timer =>
    simp only [OwnOp.indices]
    split
    · rename_i he
      have hnew : 0 ≤ prioq (p.stat + p.newBound) ∧ prioq (p.stat + p.newBound) < maxq := by
        have hlt := (hp.sliced he.1).2
        have hmin := p.prioOtherMin_le_newBound
        have hs := hp.stat
        rw [prioq_mem_iff]
        unfold prioOtherMin at hmin
        omega
      simp [hdyn, hnew]
    · simp
  | yield => simp [OwnOp.indices, hdyn]
  | block _ => simp [OwnOp.indices, hdyn]
  | wakeup => simp [OwnOp.indices, hstat]

private theorem createThread_prio (k : Kernel τ) (thr : τ) (tid : Int) (attr : ThreadAttr) :
    ((createThread k thr tid attr).thread thr).prio =
    ⟨attr.policy, attr.schedPriority, attr.schedPriority, (k.thread thr).bound, slice⟩ := by
  simp [createThread, Kernel.modThread, Thread.create, Thread.prio]

private theorem syscallCreateThread_prio (k : Kernel τ) (thr : τ) (tid : Int) (attr : ThreadAttr) :
    ((syscallCreateThread k (some attr) (some thr) tid).1.thread thr).prio =
    ⟨attr.policy, attr.schedPriority, attr.schedPriority, (k.thread thr).bound, slice⟩ := by
  rw [← createThread_prio k thr tid attr]
  exact enqueueThread_keep (g := Thread.prio) _ _ _ fun _ _ => rfl

private theorem ticks_prio (hs : (k.thread thr).prio.Sliced) (n : Nat) (hn : (n : Int) < (k.thread thr).timeSlice) :
    ∃ tr s, Run (OwnStep thr) k tr s ∧
      (s.thread thr).prio = { (k.thread thr).prio with timeSlice := (k.thread thr).timeSlice - n } := by
  induction n with
  | zero => exact ⟨[], k, .nil, by simp [Thread.prio]⟩
  | succ n ih =>
    obtain ⟨tr, s, hr, hp⟩ := ih (by omega)
    have hstep : OwnStep thr s .timer (OwnOp.timer.exec thr s) := rfl
    refine ⟨_, _, hr.snoc hstep, ?_⟩
    rw [hstep.prio, hp]
    have hs' : Prio.Sliced { (k.thread thr).prio with timeSlice := (k.thread thr).timeSlice - n } := hs
    have hz : ¬ (k.thread thr).timeSlice - n - 1 = 0 := by omega
    simp only [OwnOp.next, Prio.tick, if_pos hs', if_neg hz, Prio.mk.injEq, true_and]
    omega

private theorem sliced_ok_of_runs (hs : (k.thread thr).prio.Sliced) (hslice : (k.thread thr).timeSlice = slice)
    (hall : ∀ tr s, Run (OwnStep thr) k tr s → ∀ x ∈ tr, IndexOk thr x) :
    intMin < (k.thread thr).prio.bound ∧ (k.thread thr).prio.stat + (k.thread thr).prio.newBound < npriors := by
  obtain ⟨tr, s, hr, hp⟩ := ticks_prio hs 39 (by rw [hslice]; decide)
  have hexp : (s.thread thr).prio.Sliced ∧ (s.thread thr).prio.timeSlice - 1 = 0 := by
    rw [hp]
    refine ⟨hs, ?_⟩
    simp only [hslice]
    decide
  have hstep : OwnStep thr s .timer (OwnOp.timer.exec thr s) := rfl
  obtain ⟨hidx, hint⟩ := hall _ _ (hr.snoc hstep) _ (mem_append_right _ (mem_singleton_self _))
  have hdec := hint rfl ((Thread.expires_iff _).2 hexp)
  have hnew : prioq ((s.thread thr).prio.stat + (s.thread thr).prio.newBound) ∈ OwnOp.timer.accesses thr s := by
    rw [OwnOp.accesses_eq, OwnOp.indices, if_pos hexp]
    simp
  have hlt := (prioq_mem_iff.1 (hidx _ hnew)).2
  rw [hp] at hlt
  refine ⟨?_, hlt⟩
  have hbound : (s.thread thr).bound = (k.thread thr).prio.bound := congrArg Prio.bound hp
  rw [← hbound]
  exact Int.lt_of_le_sub_one hdec

/-- Every access to `run` on behalf of a thread is in the array, from its creation on, exactly if the attributes the
user passed and the value of `bound` in the new page are in range. -/
theorem run_index_range_iff (k : Kernel τ) (thr : τ) (tid : Int) (attr : ThreadAttr) :
    ((0 ≤ (createThread k thr tid attr).runIndex thr ∧ (createThread k thr tid attr).runIndex thr < maxq) ∧
      ∀ tr s, Run (OwnStep thr) (syscallCreateThread k (some attr) (some thr) tid).1 tr s → ∀ x ∈ tr, IndexOk thr x) ↔
    attr.Ok (k.thread thr).bound := by
  have hpr := syscallCreateThread_prio k thr tid attr
  have hidx : (createThread k thr tid attr).runIndex thr = prioq attr.schedPriority :=
    congrArg (fun p : Prio => prioq p.dyn) (createThread_prio k thr tid attr)
  rw [hidx, prioq_mem_iff]
  constructor
  · rintro ⟨hprio, hall⟩
    refine ⟨hprio, fun hpol hsys => ?_⟩
    have hok := sliced_ok_of_runs (by rw [hpr]; exact ⟨hpol, hsys⟩) (congrArg Prio.timeSlice hpr) hall
    rw [Prio.newBound_lt_iff, hpr] at hok
    exact hok
  · rintro ⟨hprio, hsl⟩
    refine ⟨hprio, fun tr s hr => ?_⟩
    have h0 : ((syscallCreateThread k (some attr) (some thr) tid).1.thread thr).prio.Ok := by
      rw [hpr]
      exact ⟨hprio, hprio, fun hs => ⟨(hsl hs.1 hs.2).1, Prio.newBound_lt_iff.2 (hsl hs.1 hs.2).2⟩⟩
    refine hr.forall_of_guard (fun k => (k.thread thr).prio.Ok) (fun _ => True) (IndexOk thr) h0
      (fun s op s' hi _ hst => ⟨?_, ?_, fun _ he => ?_⟩) fun _ _ => trivial
    · rw [hst.prio]
      exact hi.next
    · intro i hm
      rw [OwnOp.accesses_eq] at hm
      exact hi.indices i hm
    · have := (hi.sliced ((Thread.expires_iff _).1 he).1).1
      show intMin ≤ (s.thread thr).prio.bound - 1
      omega

end Indices

/-- A thread created with the priority 1000 is put on the list 250 of 32, one with the priority -40 on the list -10. -/
theorem run_index_out_of_range :
    let k : Kernel Unit := .ofThreads [] (fun _ => .ready 0 0) ()
    (createThread k () 500 ⟨1000, schedOther⟩).runIndex () = 250 ∧
    (createThread k () 500 ⟨-40, schedOther⟩).runIndex () = -10 := by
  decide

/-- A time slice that ends does not raise the dynamic priority, which never exceeds the static one. -/
def NotPromoted (thr : τ) (x : Kernel τ × OwnOp × Kernel τ) : Prop :=
  (x.2.1 = .timer → (x.1.thread thr).Expires →
    (x.2.2.thread thr).priorityDyn ≤ (x.1.thread thr).priorityDyn) ∧
  (x.2.2.thread thr).priorityDyn ≤ (x.2.2.thread thr).priorityStat

/-- A thread of the policy `SCHED_OTHER` as `sched_set` leaves it. -/
structure Prio.Fresh (p : Prio) : Prop where
  policy : p.policy = schedOther
  stat : prioOtherMin ≤ p.stat ∧ p.stat < prioSysMin
  bound : p.bound = 0
  dyn : p.dyn ≤ p.stat

section Promotion

variable {k s : Kernel τ} {thr : τ} {op : OwnOp} {p : Prio}

theorem Prio.Fresh.sliced (hp : p.Fresh) : p.Sliced := ⟨hp.policy, hp.stat.2⟩

theorem Prio.Fresh.next (hp : p.Fresh) (hg : op = .timer → p.timeSlice ≠ 1) : (op.next p).Fresh := by
  cases op with
  | timer =>
    have hz : ¬ p.timeSlice - 1 = 0 := by
      have := hg rfl
      omega
    simp only [OwnOp.next, Prio.tick, if_pos hp.sliced, if_neg hz]
    exact ⟨hp.policy, hp.stat, hp.bound, hp.dyn⟩
  | yield => exact hp
  | block _ => exact hp
  | wakeup => exact ⟨hp.policy, hp.stat, hp.bound, le_refl _⟩

theorem Prio.Fresh.tick_dyn (hp : p.Fresh) (h1 : p.timeSlice = 1) :
    p.tick.dyn = p.stat + prioOtherMin ∧ p.tick.stat = p.stat := by
  have hz : p.timeSlice - 1 = 0 := by omega
  have hb : p.newBound = prioOtherMin := by
    rw [Prio.newBound, hp.bound]
    rfl
  simp only [Prio.tick, if_pos hp.sliced, if_pos hz, hb, and_self]

private theorem notPromoted_iff {s' : Kernel τ} (hp : (s.thread thr).prio.Fresh) (h : OwnStep thr s op s') :
    NotPromoted thr (s, op, s') ↔ (op = .timer → (s.thread thr).timeSlice ≠ 1) := by
  have hnext := h.prio
  constructor
  · rintro ⟨-, hle⟩ rfl h1
    have hle' : (s'.thread thr).prio.dyn ≤ (s'.thread thr).prio.stat := hle
    rw [hnext, OwnOp.next, (hp.tick_dyn h1).1, (hp.tick_dyn h1).2] at hle'
    unfold prioOtherMin at hle'
    omega
  · intro hg
    have hf : (op.next (s.thread thr).prio).Fresh := hp.next hg
    rw [← hnext] at hf
    refine ⟨fun hop he => ?_, hf.dyn⟩
    have hz := he.2.2
    have h1 := hg hop
    simp only at hz
    omega

/-- The steps of a run promote the thread exactly if a tick ends its time slice. -/
theorem cpu_hog_promoted_iff {tr : List (Kernel τ × OwnOp × Kernel τ)} (hp : (k.thread thr).prio.Fresh)
    (hr : Run (OwnStep thr) k tr s) :
    (∀ x ∈ tr, NotPromoted thr x) ↔ ∀ x ∈ tr, x.2.1 = .timer → (x.1.thread thr).timeSlice ≠ 1 := by
  refine hr.forall_iff (fun k => (k.thread thr).prio.Fresh)
    (fun x => x.2.1 = .timer → (x.1.thread thr).timeSlice ≠ 1) (NotPromoted thr) hp (fun s op s' hi hg hst => ?_)
    fun s op s' hi hst => notPromoted_iff hi hst
  rw [hst.prio]
  exact hi.next hg

end Promotion

/-- Two threads of the priority 20, of which `true` is in the last tick of its time slice. -/
def hogAndPeer : Kernel Bool :=
  enqueueThread (.ofThreads [false, true]
    (fun b => { Thread.ready (if b then 2 else 1) 20 with bound := 0, timeSlice := if b then 1 else 40 }) false) true

theorem cpu_hog_promoted_iff_peer : ∃ (tr : List (Kernel Bool × OwnOp × Kernel Bool)) (s : Kernel Bool),
    Run (OwnStep false) hogAndPeer tr s ∧ tr.map (·.2.1) = [.wakeup, .timer, .yield] ∧
    ∀ x ∈ tr, NotPromoted false x := by
  have hp : (hogAndPeer.thread false).prio.Fresh := ⟨by decide, by decide, by decide, by decide⟩
  have h1 := Run.nil.snoc (show OwnStep false hogAndPeer .wakeup _ from rfl)
  have h2 := h1.snoc (show OwnStep false _ .timer _ from rfl)
  have hr := h2.snoc (show OwnStep false _ .yield _ from rfl)
  refine ⟨_, _, hr, rfl, (cpu_hog_promoted_iff hp hr).2 ?_⟩
  simp only [nil_append, cons_append, mem_cons, not_mem_nil, or_false, forall_eq_or_imp, forall_eq]
  decide

/-- The thread that has used up its time slice is chosen again, before one of its own priority that woke up while it was
running. -/
theorem cpu_hog_overtakes :
    let k := wakeup hogAndPeer false
    (k.thread true).prio.Fresh ∧ (k.thread false).priorityDyn = 20 ∧
    ((schedTimer (k.withCurrent true)).thread true).priorityDyn = 24 ∧
    (schedule (schedTimer (k.withCurrent true))).current = true := by
  refine ⟨⟨?_, ?_, ?_, ?_⟩, ?_, ?_, ?_⟩ <;> decide

end Manrix
