import Manrix.Kernel.Scheduling
import Manrix.Kernel.Sleep
import Manrix.Kernel.Timer

/-!
# Waiting for a synchronization object (`syscall_sync_lock`, `syscall_sync_unlock`)

The threads that wait for an object are linked by their field `runq`, like those of the run queue, with the head `wq` of
the object.  `syscall_sync_unlock` takes the thread that has waited longest off this list, without a test whether there
is one: on the empty list the head itself is taken for a thread and put on the run queue.

The calls are modelled for the object that `find_sync` has returned.  The head of a wait queue is a `RunHead` that is
not one of the run queue: outside of its bounds `run[index]` is any other head.
-/

namespace Manrix

open Function Links List Runs

def syncBlocked : BitVec 32 := 0x200 ||| threadBlocked ||| threadUnint

variable {τ σ : Type*} [DecidableEq τ]

/-- A pointer that is used as one to a thread; `cast h` is the memory at the head `h`, taken for a thread. -/
def asThread (cast : RunHead → τ) : Node RunHead τ → τ
  | .head h => cast h
  | .obj t => t

/-- `list_dequeue` with the type `thread_t`. -/
def dequeueThread (cast : RunHead → τ) (s : Links (Node RunHead τ)) (head : RunHead) : Links (Node RunHead τ) × τ :=
  let pointer := asThread cast (s.prev (.head head))
  let nxt := s.prev (.obj pointer)
  let s := s.setPrev (.head head) nxt
  (if nxt = .head head then s.setNext (.head head) (.head head)
    else s.setNext (.obj (asThread cast nxt)) (.head head), pointer)

/-- `syscall_sync_lock`, where `sn` is what `find_sync` returns. -/
def syscallSyncLock (wq : σ → RunHead) (k : Kernel τ) : Option σ → Kernel τ × Int
  | none => (k, -einval)
  | some sn =>
    let thr := k.current
    let k := k.modThread thr fun t => { t with states := syncBlocked }
    let k := removeThread k thr
    let k := { k with runq := listEnqueue k.runq (.head (wq sn)) (.obj thr) }
    (schedule k, 0)

def syscallSyncUnlock (wq : σ → RunHead) (cast : RunHead → τ) (k : Kernel τ) : Option σ → Kernel τ × Int
  | none => (k, -einval)
  | some sn =>
    let (runq, thr) := dequeueThread cast k.runq (wq sn)
    let k := { k with runq := runq }
    let k := k.modThread thr fun t => { t with states := threadRunning }
    (enqueueThread k thr, 0)

/-- The heads of the wait queues: one for each object, and none of the run queue. -/
structure WaitHeads (wq : σ → RunHead) : Prop where
  injective : Injective wq
  notRun : ∀ sn, ¬ IsRun (wq sn)

def IsHead (wq : σ → RunHead) (h : RunHead) : Prop := IsRun h ∨ ∃ sn, h = wq sn

/-- The lists of the run queue and the wait queues hold the threads `q`, whose priorities are in their range. -/
structure SyncQueues (wq : σ → RunHead) (k : Kernel τ) (q : RunHead → List τ) : Prop where
  queues : Queues (IsHead wq) k.runq q
  cpuHint : k.cpuHint = 0
  prio : ∀ h t, t ∈ q h → (k.thread t).PrioOk

variable {wq : σ → RunHead} {cast : RunHead → τ} {k k' : Kernel τ} {q q' : RunHead → List τ} {h : RunHead} {t : τ}
  {sn : σ} {ws : List τ}

private theorem dequeueThread_concat (hr : IsRing k.runq (.head h) ((ws ++ [t]).map .obj)) :
    dequeueThread cast k.runq h = (k.runq.unlink (.obj t), t) := by
  have hp := hr.prev
  rw [← map_reverse, reverse_append, reverse_singleton, singleton_append, map_cons,
    path_cons] at hp
  rw [map_append] at hr
  have hdeq : listDequeue k.runq (.head h) = (k.runq.unlink (.obj t), .obj t) := listDequeue_concat hr
  -- in front of the thread there is the head of the list or a thread
  have hnxt : k.runq.prev (.obj t) = .head h ∨ .obj (asThread cast (k.runq.prev (.obj t))) = k.runq.prev (.obj t) := by
    cases hws : ws.reverse with
    | nil =>
      rw [hws] at hp
      exact .inl hp.2
    | cons u us =>
      rw [hws, map_cons, path_cons] at hp
      rw [hp.2.1]
      exact .inr rfl
  have hobj : asThread cast (.obj t) = t := rfl
  simp only [listDequeue, hp.1, Prod.mk.injEq, and_true] at hdeq
  simp only [dequeueThread, hp.1, hobj, Prod.mk.injEq, and_true]
  rw [← hdeq]
  rcases hnxt with hnxt | hnxt
  · rw [if_pos hnxt, if_pos hnxt]
  · rw [hnxt]

private theorem syscallSyncUnlock_concat (hring : IsRing k.runq (.head (wq sn)) ((ws ++ [t]).map .obj)) :
    (syscallSyncUnlock wq cast k (some sn)).1 =
      enqueueThread ({ k with runq := k.runq.unlink (.obj t) }.modThread t fun t =>
        { t with states := threadRunning }) t := by
  simp only [syscallSyncUnlock, dequeueThread_concat hring]

/-- The thread that is unlocked goes from the end of the wait queue to the front of its list of the run queue. -/
theorem SyncQueues.unlock (hwq : WaitHeads wq) (hq : SyncQueues wq k q) (hws : q (wq sn) = ws ++ [t]) :
    SyncQueues wq (syscallSyncUnlock wq cast k (some sn)).1 (update (update q (wq sn) ws)
      ⟨0, prioq (k.thread t).priorityDyn⟩ (t :: q ⟨0, prioq (k.thread t).priorityDyn⟩)) := by
  have hmem : t ∈ q (wq sn) := by simp [hws]
  have hrun := (hq.prio _ t hmem).isRun
  have hne : (⟨0, prioq (k.thread t).priorityDyn⟩ : RunHead) ≠ wq sn := fun he => hwq.notRun sn (he ▸ hrun)
  have hring := hq.queues.ring (wq sn) (.inr ⟨sn, rfl⟩)
  rw [hws] at hring
  have her : (q (wq sn)).erase t = ws := by
    have hnd := hq.queues.nodup (wq sn)
    rw [hws] at hnd ⊢
    exact erase_concat hnd
  rw [syscallSyncUnlock_concat hring, ← her]
  refine ⟨?_, hq.cpuHint, fun h u hu => ?_⟩
  · rw [enqueueThread_runq]
    simpa [Kernel.modThread, hq.cpuHint] using hq.queues.move hmem (.inl hrun) hne
  · obtain ⟨h', hu'⟩ := (hq.queues.exists_mem_move hmem hne).mp ⟨h, hu⟩
    rw [enqueueThread_keep (g := Thread.PrioOk) _ _ _ fun _ _ => rfl,
      modThread_thread_keep (g := Thread.PrioOk) _ _ _ _ rfl]
    exact hq.prio h' u hu'

private theorem syscallSyncLock_keep {β : Type*} {g : Thread → β}
    (hg : ∀ t s c, g { t with states := s, schedule := c } = g t)
    (wq : σ → RunHead) (k : Kernel τ) (sn : σ) (u : τ) :
    g ((syscallSyncLock wq k (some sn)).1.thread u) = g (k.thread u) := by
  simp only [syscallSyncLock]
  rw [schedule_keep fun t c => hg t t.states c]
  simp only [removeThread_thread]
  exact modThread_thread_keep _ _ _ _ (hg _ _ (k.thread k.current).schedule)

private theorem syscallSyncLock_states (wq : σ → RunHead) (k : Kernel τ) (sn : σ) (u : τ) :
    ((syscallSyncLock wq k (some sn)).1.thread u).states =
      if u = k.current then syncBlocked else (k.thread u).states := by
  simp only [syscallSyncLock]
  rw [schedule_keep (g := Thread.states) fun _ _ => rfl]
  simp only [removeThread_thread, Kernel.modThread, update_apply]
  split
  · rfl
  · rfl

theorem SyncQueues.lock (hwq : WaitHeads wq) (hq : SyncQueues wq k q) (hh : IsRun h) (ht : k.current ∈ q h) (sn : σ) :
    SyncQueues wq (syscallSyncLock wq k (some sn)).1 (update (update q h ((q h).erase k.current))
      (wq sn) (k.current :: q (wq sn))) := by
  have hne : wq sn ≠ h := fun he => hwq.notRun sn (he ▸ hh)
  refine ⟨?_, ?_, fun h' u hu => ?_⟩
  · simpa [syscallSyncLock, schedule, Kernel.modThread, listEnqueue_eq] using hq.queues.move ht (.inr ⟨sn, rfl⟩) hne
  · simpa [syscallSyncLock, schedule, Kernel.modThread] using hq.cpuHint
  · obtain ⟨h', hu'⟩ := (hq.queues.exists_mem_move ht hne).mp ⟨h', hu⟩
    rw [syscallSyncLock_keep (g := Thread.PrioOk) fun _ _ _ => rfl]
    exact hq.prio h' u hu'

/-- The calls of the thread `thr` for an object. -/
inductive SyncCall (τ σ : Type*) where
  | lock (thr : τ) (sn : σ)
  | unlock (thr : τ) (sn : σ)

/-- A call by a thread of the run queue. -/
def SyncCallStep (wq : σ → RunHead) (cast : RunHead → τ) (k : Kernel τ) (c : SyncCall τ σ) (k' : Kernel τ) : Prop :=
  match c with
  | .lock thr sn => k.Runnable thr ∧ k' = (syscallSyncLock wq (k.withCurrent thr) (some sn)).1
  | .unlock thr sn => k.Runnable thr ∧ k' = (syscallSyncUnlock wq cast (k.withCurrent thr) (some sn)).1

theorem SyncCallStep.lock (h : k.Runnable t) (sn : σ) :
    SyncCallStep wq cast k (.lock t sn) (syscallSyncLock wq (k.withCurrent t) (some sn)).1 :=
  ⟨h, rfl⟩

theorem SyncCallStep.unlock (h : k.Runnable t) (sn : σ) :
    SyncCallStep wq cast k (.unlock t sn) (syscallSyncUnlock wq cast (k.withCurrent t) (some sn)).1 :=
  ⟨h, rfl⟩

/-- The thread `t` that has waited longest is made ready and goes to the run queue once, and nothing else changes. -/
def Wakes (wq : σ → RunHead) (k : Kernel τ) (q : RunHead → List τ) (sn : σ) (k' : Kernel τ) : Prop :=
  ∃ ws t q' h, q (wq sn) = ws ++ [t] ∧ SyncQueues wq k' q' ∧ q' (wq sn) = ws ∧ IsRun h ∧ q' h = t :: q h ∧
    (∀ h', h' ≠ wq sn → h' ≠ h → q' h' = q h') ∧ (k'.thread t).states = threadRunning ∧
    ∀ u, u ≠ t → (k'.thread u).states = (k.thread u).states

/-- The thread is blocked and goes from the run queue to the end of the wait queue, and nothing else changes. -/
def Blocks (wq : σ → RunHead) (k : Kernel τ) (q : RunHead → List τ) (thr : τ) (sn : σ) (k' : Kernel τ) : Prop :=
  ∃ q' h, SyncQueues wq k' q' ∧ IsRun h ∧ thr ∈ q h ∧ q' h = (q h).erase thr ∧ q' (wq sn) = thr :: q (wq sn) ∧
    (∀ h', h' ≠ wq sn → h' ≠ h → q' h' = q h') ∧ (k'.thread thr).states = syncBlocked ∧
    ∀ u, u ≠ thr → (k'.thread u).states = (k.thread u).states

/-- Unlocking wakes a thread up; if none waits, it changes nothing. -/
def SyncCallOk (wq : σ → RunHead) (x : Kernel τ × SyncCall τ σ × Kernel τ) : Prop :=
  ∃ q, SyncQueues wq x.1 q ∧ match x.2.1 with
    | .lock thr sn => Blocks wq x.1 q thr sn x.2.2
    | .unlock _ sn => (q (wq sn) = [] ∧ (∀ u, (x.2.2.thread u).states = (x.1.thread u).states) ∧
        x.2.2.runq = x.1.runq ∧ x.2.2.bitmap = x.1.bitmap ∧ x.2.2.nthreads = x.1.nthreads) ∨
        Wakes wq x.1 q sn x.2.2

/-- A thread waits for the object that is unlocked. -/
def HasWaiter (wq : σ → RunHead) (x : Kernel τ × SyncCall τ σ × Kernel τ) : Prop :=
  match x.2.1 with
  | .lock _ _ => True
  | .unlock _ sn => ∃ t, Threaded x.1.runq (wq sn) t

/-- The threads that a call blocks for the object. -/
def blockedBy [DecidableEq σ] (sn : σ) (x : Kernel τ × SyncCall τ σ × Kernel τ) : List τ :=
  match x.2.1 with
  | .lock thr sn' => if sn' = sn then [thr] else []
  | .unlock _ _ => []

/-- The threads that a call takes off the wait queue of the object. -/
def wokenBy [DecidableEq σ] (wq : σ → RunHead) (cast : RunHead → τ) (sn : σ)
    (x : Kernel τ × SyncCall τ σ × Kernel τ) : List τ :=
  match x.2.1 with
  | .lock _ _ => []
  | .unlock _ sn' => if sn' = sn then [(dequeueThread cast x.1.runq (wq sn)).2] else []

/-- First in, first out: those that waited at first and those that were blocked since then have been woken up in this
order, and the rest of them still wait. -/
def WokenInOrder [DecidableEq σ] (wq : σ → RunHead) (cast : RunHead → τ) (q₀ : RunHead → List τ)
    (tr : List (Kernel τ × SyncCall τ σ × Kernel τ)) (k : Kernel τ) : Prop :=
  ∃ q, SyncQueues wq k q ∧ ∀ sn, (q₀ (wq sn)).reverse ++ tr.flatMap (blockedBy sn) =
    tr.flatMap (wokenBy wq cast sn) ++ (q (wq sn)).reverse

omit [DecidableEq τ] in
theorem SyncQueues.withCurrent (hq : SyncQueues wq k q) (t : τ) : SyncQueues wq (k.withCurrent t) q :=
  ⟨hq.queues, hq.cpuHint, hq.prio⟩

theorem SyncQueues.blocks (hwq : WaitHeads wq) (hq : SyncQueues wq k q) (h : SyncCallStep wq cast k (.lock t sn) k') :
    Blocks wq k q t sn k' := by
  obtain ⟨⟨h, hh, ht⟩, rfl⟩ := h
  rw [hq.queues.threaded_iff (.inl hh)] at ht
  have hne : h ≠ wq sn := fun he => hwq.notRun sn (he ▸ hh)
  refine ⟨_, h, (hq.withCurrent t).lock hwq hh ht sn, hh, ht, ?_, ?_, fun h' h1 h2 => ?_, ?_, fun u hu => ?_⟩
  · rw [update_of_ne hne, update_self]
    rfl
  · rw [update_self]
    rfl
  · rw [update_of_ne h1, update_of_ne h2]
  · rw [syscallSyncLock_states]
    exact if_pos rfl
  · rw [syscallSyncLock_states]
    exact if_neg hu

omit [DecidableEq τ] in
theorem SyncQueues.exists_last (hq : SyncQueues wq k q) (h : ∃ u, Threaded k.runq (wq sn) u) :
    ∃ ws v, q (wq sn) = ws ++ [v] := by
  obtain ⟨u, hu⟩ := h
  rw [hq.queues.threaded_iff (.inr ⟨sn, rfl⟩)] at hu
  rcases eq_nil_or_concat (q (wq sn)) with hnil | ⟨ws, v, hv⟩
  · rw [hnil] at hu
    cases hu
  · exact ⟨ws, v, by rw [hv, concat_eq_append]⟩

theorem SyncQueues.wakes (hwq : WaitHeads wq) (hq : SyncQueues wq k q)
    (h : SyncCallStep wq cast k (.unlock t sn) k') (hw : ∃ u, Threaded k.runq (wq sn) u) : Wakes wq k q sn k' := by
  obtain ⟨-, rfl⟩ := h
  obtain ⟨ws, v, hws⟩ := hq.exists_last hw
  have hrun : IsRun ⟨0, prioq (k.thread v).priorityDyn⟩ := (hq.prio (wq sn) v (by simp [hws])).isRun
  have hne : wq sn ≠ ⟨0, prioq (k.thread v).priorityDyn⟩ := fun he => hwq.notRun sn (he ▸ hrun)
  have hring := (hq.withCurrent t).queues.ring (wq sn) (.inr ⟨sn, rfl⟩)
  rw [hws] at hring
  refine ⟨ws, v, _, _, hws, (hq.withCurrent t).unlock hwq hws, ?_, hrun, ?_, fun h' h1 h2 => ?_, ?_, fun u hu => ?_⟩
  · exact (update_of_ne hne ..).trans (update_self ..)
  · exact update_self ..
  · exact (update_of_ne h2 ..).trans (update_of_ne h1 ..)
  · rw [syscallSyncUnlock_concat hring, enqueueThread_keep (g := Thread.states) _ _ _ fun _ _ => rfl,
      modThread_thread_self]
  · rw [syscallSyncUnlock_concat hring, enqueueThread_keep (g := Thread.states) _ _ _ fun _ _ => rfl,
      modThread_thread_of_ne _ _ _ hu]
    rfl

theorem SyncQueues.callOk_iff (hwq : WaitHeads wq) (hq : SyncQueues wq k q) {c : SyncCall τ σ}
    (h : SyncCallStep wq cast k c k') : SyncCallOk wq (k, c, k') ↔ HasWaiter wq (k, c, k') := by
  match c, h with
  | .lock thr sn, h => exact iff_of_true ⟨q, hq, hq.blocks hwq h⟩ trivial
  | .unlock thr sn, h =>
    constructor
    · rintro ⟨q', hq', ⟨-, -, -, -, hn⟩ | ⟨ws, u, -, -, hws, -⟩⟩
      · -- the number of threads of the run queue has grown
        obtain ⟨-, rfl⟩ := h
        have := congrFun hn k.cpuHint
        simp [syscallSyncUnlock, Kernel.modThread, Kernel.withCurrent] at this
      · refine ⟨u, (hq'.queues.threaded_iff (.inr ⟨sn, rfl⟩)).mpr ?_⟩
        simp [hws]
    · intro hw
      exact ⟨q, hq, .inr (hq.wakes hwq h hw)⟩

variable [DecidableEq σ]

/-- What a call does to the order in which the threads wait for an object. -/
theorem SyncQueues.call (hwq : WaitHeads wq) (hq : SyncQueues wq k q) {c : SyncCall τ σ}
    (h : SyncCallStep wq cast k c k') (hg : HasWaiter wq (k, c, k')) :
    ∃ q', SyncQueues wq k' q' ∧ ∀ sn, (q (wq sn)).reverse ++ blockedBy sn (k, c, k') =
      wokenBy wq cast sn (k, c, k') ++ (q' (wq sn)).reverse := by
  match c, h, hg with
  | .lock thr sn, h, _ =>
    obtain ⟨q', h', hq', hrun, -, -, hfront, hother, -⟩ := hq.blocks hwq h
    refine ⟨q', hq', fun sn' => ?_⟩
    simp only [blockedBy, wokenBy]
    split
    · rename_i he
      subst he
      rw [hfront, reverse_cons, nil_append]
    · rename_i he
      rw [hother _ (fun e => he (hwq.injective e).symm) fun e => hwq.notRun sn' (e ▸ hrun), append_nil,
        nil_append]
  | .unlock thr sn, h, hw =>
    obtain ⟨ws, t, q', h', hws, hq', hrest, hrun, -, hother, -⟩ := hq.wakes hwq h hw
    refine ⟨q', hq', fun sn' => ?_⟩
    simp only [blockedBy, wokenBy]
    split
    · rename_i he
      subst he
      have hring := hq.queues.ring (wq sn) (.inr ⟨sn, rfl⟩)
      rw [hws] at hring
      rw [dequeueThread_concat hring, hws, hrest, reverse_append, append_nil]
      rfl
    · rename_i he
      rw [hother _ (fun e => he (hwq.injective e).symm) fun e => hwq.notRun sn' (e ▸ hrun), append_nil,
        nil_append]

theorem SyncQueues.wokenInOrder {q₀ : RunHead → List τ} {k₀ : Kernel τ}
    {tr : List (Kernel τ × SyncCall τ σ × Kernel τ)} (hwq : WaitHeads wq) (h₀ : SyncQueues wq k₀ q₀)
    (hr : Run (SyncCallStep wq cast) k₀ tr k) (hg : ∀ x ∈ tr, HasWaiter wq x) : WokenInOrder wq cast q₀ tr k := by
  induction hr with
  | nil => exact ⟨q₀, h₀, fun sn => by simp⟩
  | snoc _ hst ih =>
    obtain ⟨q, hq, hin⟩ := ih fun x hx => hg x (mem_append_left _ hx)
    obtain ⟨q', hq', hcall⟩ := hq.call hwq hst (hg _ (by simp))
    refine ⟨q', hq', fun sn => ?_⟩
    simp only [flatMap_append, flatMap_singleton]
    rw [← append_assoc, hin sn, append_assoc, hcall sn, ← append_assoc]

/-- For any objects and any threads that wait for them, and for any sequence of calls, the calls are all right and wake
the threads up in the order in which they were blocked, exactly if a thread waits at every unlocking. -/
theorem sync_wakes_first_waiter {q₀ : RunHead → List τ} {k₀ : Kernel τ}
    {tr : List (Kernel τ × SyncCall τ σ × Kernel τ)} (hwq : WaitHeads wq) (h₀ : SyncQueues wq k₀ q₀)
    (hr : Run (SyncCallStep wq cast) k₀ tr k) :
    ((∀ x ∈ tr, SyncCallOk wq x) ∧ WokenInOrder wq cast q₀ tr k) ↔ ∀ x ∈ tr, HasWaiter wq x := by
  have hsteps : (∀ x ∈ tr, SyncCallOk wq x) ↔ ∀ x ∈ tr, HasWaiter wq x := by
    refine hr.forall_iff (fun k => ∃ q, SyncQueues wq k q) (HasWaiter wq) (SyncCallOk wq) ⟨q₀, h₀⟩ ?_ ?_
    · rintro k c k' ⟨q, hq⟩ hg hst
      obtain ⟨q', hq', -⟩ := hq.call hwq hst hg
      exact ⟨q', hq'⟩
    · rintro k c k' ⟨q, hq⟩ hst
      exact hq.callOk_iff hwq hst
  constructor
  · rintro ⟨hok, -⟩
    exact hsteps.mp hok
  · intro hg
    exact ⟨hsteps.mpr hg, h₀.wokenInOrder hwq hr hg⟩

/-- One object, whose wait queue has the head `run[0]` of a processor that does not exist. -/
def oneWaitQueue (_ : Unit) : RunHead := ⟨maxCpu, 0⟩

private theorem oneWaitQueue_waitHeads : WaitHeads oneWaitQueue where
  injective := Function.injective_of_subsingleton _
  notRun sn := by cases sn; decide

omit [DecidableEq σ] in
private theorem boot_syncQueues {threads : List τ} {thread : τ → Thread} {initThread : τ} (hnd : threads.Nodup)
    (hp : ∀ t, (thread t).PrioOk) : ∃ q, SyncQueues wq (Kernel.boot threads thread initThread) q := by
  obtain ⟨q, hq, -⟩ : QueuedSet (IsHead wq) (Kernel.boot threads thread initThread) (· ∈ threads) :=
    boot_queuedSet hnd fun t => .inl (hp t).isRun
  refine ⟨q, hq.queues, boot_cpuHint, fun h t _ => ?_⟩
  rw [boot_keep (g := Thread.PrioOk) fun _ _ => rfl]
  exact hp t

/-- Three threads of the priority 20. -/
def threeReady : Kernel (Option Bool) := .boot [none, some false, some true] (fun _ => .ready 1 20) none

/-- Two threads lock the object and are woken up in the same order. -/
theorem sync_wakes_first_waiter_two :
    ∃ (tr : List (Kernel (Option Bool) × SyncCall (Option Bool) Unit × Kernel (Option Bool)))
      (k : Kernel (Option Bool)), Run (SyncCallStep oneWaitQueue fun _ => none) threeReady tr k ∧
      tr.map (·.2.1) = [.lock (some true) (), .lock (some false) (), .unlock none (), .unlock none ()] ∧
      tr.flatMap (wokenBy oneWaitQueue (fun _ => none) ()) = [some true, some false] ∧
      ∀ x ∈ tr, SyncCallOk oneWaitQueue x := by
  obtain ⟨q, hq⟩ : ∃ q, SyncQueues oneWaitQueue threeReady q := boot_syncQueues (by decide) fun _ => by decide
  have s1 : SyncCallStep oneWaitQueue (fun _ => none) threeReady (.lock (some true) ()) _ :=
    .lock ⟨⟨0, 5⟩, by decide, [none, some false], by decide⟩ ()
  have h2 := (Run.nil.snoc s1).snoc (SyncCallStep.lock (t := some false) ⟨⟨0, 5⟩, by decide, [none], by decide⟩ ())
  have h3 := h2.snoc (SyncCallStep.unlock (t := none) ⟨⟨0, 5⟩, by decide, [], by decide⟩ ())
  have hr := h3.snoc (SyncCallStep.unlock (t := none) ⟨⟨0, 5⟩, by decide, [some true], by decide⟩ ())
  refine ⟨_, _, hr, rfl, by decide, ((sync_wakes_first_waiter oneWaitQueue_waitHeads hq hr).mpr ?_).1⟩
  simp only [nil_append, cons_append, forall_mem_cons]
  exact ⟨trivial, trivial, ⟨some true, [some false], by decide⟩, ⟨some false, [], by decide⟩, by simp⟩

/-- Two threads of the priority 20; `none` is the memory at the head of the wait queue, taken for a thread. -/
def noWaiters : Kernel (Option Bool) := .boot [some false, some true] (fun _ => .ready 1 20) (some false)

/-- With no thread waiting, `syscall_sync_unlock` makes a thread out of the head of the wait queue. -/
theorem sync_unlock_no_waiter : ∃ k : Kernel (Option Bool),
    SyncCallStep oneWaitQueue (fun _ => none) noWaiters (.unlock (some true) ()) k ∧
    IsRing noWaiters.runq (.head (oneWaitQueue ())) [] ∧
    IsRing noWaiters.runq (.head ⟨0, 5⟩) [.obj (some false), .obj (some true)] ∧ noWaiters.nthreads 0 = 2 ∧
    IsRing k.runq (.head ⟨0, 5⟩) [.obj none, .obj (some false), .obj (some true)] ∧ k.nthreads 0 = 3 ∧
    (k.thread none).states = threadRunning ∧ (noWaiters.thread none).states ≠ threadRunning ∧
    k.runq.prev (.head (oneWaitQueue ())) ≠ .head (oneWaitQueue ()) ∧
    ¬ SyncCallOk oneWaitQueue (noWaiters, .unlock (some true) (), k) := by
  obtain ⟨q, hq⟩ : ∃ q, SyncQueues oneWaitQueue noWaiters q := boot_syncQueues (by decide) fun _ => by decide
  have hst : SyncCallStep oneWaitQueue (fun _ => none) noWaiters (.unlock (some true) ()) _ :=
    ⟨⟨⟨0, 5⟩, by decide, [some false], by decide⟩, rfl⟩
  have hempty : IsRing noWaiters.runq (.head (oneWaitQueue ())) ([].map .obj) := by decide
  refine ⟨_, hst, hempty, by decide, by decide, by decide, by decide, by decide, by decide, by decide, ?_⟩
  rw [hq.callOk_iff oneWaitQueue_waitHeads hst]
  rintro ⟨t, ht⟩
  exact not_mem_nil ((threaded_iff hempty).mp ht)

end Manrix
