import Manrix.Kernel.Ipc

/-!
# Sleeping and waking (`arch/i386/scheduling.c`, `kernel/irq.c`, `kernel/signal.c`)

`syscall_sleep_unint`, `syscall_wake_unint`, `handle_IRQ` and `send_signal` in any order.  `handle_IRQ` and
`send_signal` look at the state word before they wake a thread; `syscall_wake_unint` enqueues a thread that may be
queued already, and `syscall_sleep_unint` removes one that may be off the run queue already.  The first always destroys
a list; the second does so unless the stale link fields of the thread name cells that are still neighbours.
`run_queue_iff_not_blocked` gives the exact condition for whole runs.
-/

namespace Manrix

open Links Runs

def eperm : Int := 0x41
def einval : Int := 0x1d
def eagain : Int := 0x06
def maxSignal : Int := 32
def sigIgn : BitVec 32 := 1
def irqRequest : BitVec 32 := 1
def maxIrq : Nat := 16

structure Siginfo where
  siSigno : Int
  siCode : Int
  siErrno : Int
  siPid : Int
  siAddr : BitVec 32
  siStatus : Int
  siValue : BitVec 32

/-- A queued signal; without `sinfo` the field of the source keeps what the allocation left in it. -/
structure SigQueue where
  signal : Int
  sinfo : Option Siginfo

/-- The user of a process, the handlers of its `action` table by index, and its queued signals, the latest first. -/
structure Process where
  euid : Int
  saHandler : Int → BitVec 32
  sigqueue : List SigQueue

/-- An interrupt line with one handler. -/
structure Irq (τ : Type*) where
  handler : BitVec 32
  owner : τ

structure Sys (τ ρ : Type*) where
  k : Kernel τ
  proc : τ → ρ
  process : ρ → Process
  pcIrq : Nat → Irq τ

variable {τ ρ : Type*} [DecidableEq τ] [DecidableEq ρ]

def sleepUninterruptible (k : Kernel τ) (thr : τ) : Kernel τ := makeBlocked threadUnint k thr

def Sys.superuser {τ ρ : Type*} (s : Sys τ ρ) : Bool := (s.process (s.proc s.k.current)).euid = 0

/-- The thread with the `tid` in `ebx`, the current one for 0. -/
def Sys.target {τ ρ : Type*} (s : Sys τ ρ) (ebx : Int) : Option τ :=
  if ebx ≠ 0 then findByTid s.k ebx else some s.k.current

def syscallSleepUnint (s : Sys τ ρ) (ebx : Int) : Sys τ ρ × Int :=
  if !s.superuser then (s, -eperm)
  else
    match s.target ebx with
    | none => (s, -esrch)
    | some thread => ({ s with k := sleepUninterruptible s.k thread }, 0)

def syscallWakeUnint (s : Sys τ ρ) (ebx : Int) : Sys τ ρ × Int :=
  if !s.superuser then (s, -eperm)
  else
    match s.target ebx with
    | none => (s, -esrch)
    | some thread => ({ s with k := wakeup s.k thread }, 0)

/-- With one handler on the line the loop over the handlers runs once. -/
def handleIrq (s : Sys τ ρ) (irqno : Nat) : Sys τ ρ :=
  let irq := s.pcIrq irqno
  let k :=
    if irq.handler ≠ 0 then
      let thr := irq.owner
      let k := s.k.modThread thr fun t => { t with irqflag := t.irqflag ||| irqRequest }
      if (k.thread thr).states &&& threadBlocked ≠ 0 then wakeup k thr else k
    else s.k
  { s with k := schedule k }

/-- `btl` on a register: the index counts modulo 32. -/
def checkSet (bitmap : BitVec 32) (index : Int) : Bool := bitmap.getLsbD (index % 32).toNat

/-- The end of `send_signal`, from its label `noque`. -/
def Sys.noque (s : Sys τ ρ) (thr : τ) : Sys τ ρ :=
  if (s.k.thread thr).states = threadInt then { s with k := wakeup s.k thr } else s

/-- `send_signal`; `sq` says whether the allocation of the queue entry succeeds. -/
def sendSignal (s : Sys τ ρ) (thr : τ) (signal : Int) (sinfo : Option Siginfo) (sq : Bool) : Sys τ ρ × Int :=
  if signal < 0 ∨ signal > maxSignal then (s, -einval)
  else if checkSet (s.k.thread thr).saMask signal then (s.noque thr, 0)
  else if (s.process (s.proc thr)).saHandler (signal - 1) = sigIgn then (s.noque thr, 0)
  else if !sq then (s, -eagain)
  else
    let p := s.proc thr
    let s := { s with process := Function.update s.process p
                        { s.process p with sigqueue := ⟨signal, sinfo⟩ :: (s.process p).sigqueue } }
    let s := { s with k := s.k.modThread thr fun t => { t with sigpending := 1 } }
    (s.noque thr, 0)

/-- The calls of a thread, with the register `ebx`, an interrupt, and a signal for a thread. -/
inductive SleepOp (τ : Type*) where
  | sleep (t : τ) (ebx : Int)
  | wake (t : τ) (ebx : Int)
  | irq (irqno : Nat)
  | signal (thr : τ) (signal : Int) (sinfo : Option Siginfo) (sq : Bool)

def Sys.withCurrent {τ ρ : Type*} (s : Sys τ ρ) (t : τ) : Sys τ ρ := { s with k := s.k.withCurrent t }

/-- The calls are made by threads of the superuser that are on the run queue. -/
def SleepOp.Enabled {τ ρ : Type*} (s : Sys τ ρ) : SleepOp τ → Prop
  | .sleep t _ | .wake t _ => s.k.Runnable t ∧ (s.withCurrent t).superuser
  | .irq irqno => irqno < maxIrq
  | .signal _ _ _ _ => True

def SleepOp.exec (s : Sys τ ρ) : SleepOp τ → Sys τ ρ
  | .sleep t ebx => (syscallSleepUnint (s.withCurrent t) ebx).1
  | .wake t ebx => (syscallWakeUnint (s.withCurrent t) ebx).1
  | .irq irqno => handleIrq s irqno
  | .signal thr n sinfo sq => (sendSignal s thr n sinfo sq).1

def SleepStep (s : Sys τ ρ) (op : SleepOp τ) (s' : Sys τ ρ) : Prop := op.Enabled s ∧ s' = op.exec s

/-- The lists of the run queue are intact, no thread is on two of them or twice on one, and the threads on them are
those without the bit `THREAD_BLOCKED`. -/
def WellQueued {τ : Type*} (k : Kernel τ) : Prop :=
  ∃ q, Queues IsRun k.runq q ∧ ∀ t, (∃ h, t ∈ q h) ↔ ¬ (k.thread t).Blocked

/-- Every thread is ready and queued once. -/
structure Sys.Initial {τ ρ : Type*} (s : Sys τ ρ) : Prop where
  ready : ∀ t, (s.k.thread t).states = threadReady
  queued : QueuedSet IsRun s.k fun _ => True
  heads : ∀ t, IsRun (s.k.wakeHead t)

/-- The cell is the head of a list of the run queue or a thread without the bit `THREAD_BLOCKED`. -/
def Kernel.Listed {τ : Type*} (k : Kernel τ) : Node RunHead τ → Prop
  | .head h => IsRun h
  | .obj t => ¬ (k.thread t).Blocked

/-- The links of the thread name neighbours, as far as they name cells on the run queue, so that removing it once more
changes no list. -/
def Kernel.StaleOk {τ : Type*} (k : Kernel τ) (t : τ) : Prop :=
  (k.Listed (k.runq.prev (.obj t)) → k.runq.next (k.runq.prev (.obj t)) = k.runq.next (.obj t)) ∧
  (k.Listed (k.runq.next (.obj t)) → k.runq.prev (k.runq.next (.obj t)) = k.runq.prev (.obj t))

/-- Only blocked threads are woken, and only threads put to sleep that are not blocked or whose second removal is
harmless. -/
def SleepOk {τ ρ : Type*} (x : Sys τ ρ × SleepOp τ × Sys τ ρ) : Prop :=
  match x.2.1 with
  | .sleep t ebx => ∀ u, (x.1.withCurrent t).target ebx = some u → (x.1.k.thread u).Blocked → x.1.k.StaleOk u
  | .wake t ebx => ∀ u, (x.1.withCurrent t).target ebx = some u → (x.1.k.thread u).Blocked
  | _ => True

/-- The invariant of a run: the threads without `THREAD_BLOCKED` are queued, each on the list of its priority. -/
structure Awake {τ : Type*} (k : Kernel τ) : Prop where
  queued : QueuedSet IsRun k fun t => ¬ (k.thread t).Blocked
  heads : ∀ t, IsRun (k.wakeHead t)

variable {k k' : Kernel τ} {t : τ} {w : BitVec 32} {s : Sys τ ρ}

omit [DecidableEq τ] in
theorem Awake.wellQueued (h : Awake k) : WellQueued k := by
  obtain ⟨q, hq, hmem⟩ := h.queued
  exact ⟨q, hq.queues, hmem⟩

omit [DecidableEq τ] in
theorem Awake.congr (h : Awake k) (hr : k'.runq = k.runq) (hc : k'.cpuHint = k.cpuHint)
    (hf : ∀ u, (k'.thread u).states = (k.thread u).states ∧ (k'.thread u).cpu = (k.thread u).cpu ∧
      (k'.thread u).priorityDyn = (k.thread u).priorityDyn ∧
      (k'.thread u).priorityStat = (k.thread u).priorityStat) : Awake k' := by
  refine ⟨h.queued.congr hr (fun u _ => ?_) fun u => ?_, fun u => ?_⟩
  · obtain ⟨-, h1, h2, -⟩ := hf u
    simp only [Kernel.home, h1, h2]
  · simp only [Thread.Blocked, (hf u).1]
  · have := h.heads u
    rwa [Kernel.wakeHead, ← hc, ← (hf u).2.2.2] at this

theorem Awake.modThread {f : Thread → Thread} (h : Awake k)
    (hf : (f (k.thread t)).states = (k.thread t).states ∧ (f (k.thread t)).cpu = (k.thread t).cpu ∧
      (f (k.thread t)).priorityDyn = (k.thread t).priorityDyn ∧
      (f (k.thread t)).priorityStat = (k.thread t).priorityStat) : Awake (k.modThread t f) := by
  refine h.congr rfl rfl fun u => ?_
  by_cases hu : u = t
  · subst hu; rw [modThread_thread_self]; exact hf
  · rw [modThread_thread_of_ne k t f hu]; exact ⟨rfl, rfl, rfl, rfl⟩

theorem Awake.schedule (h : Awake k) : Awake (schedule k) := by
  refine h.congr rfl rfl fun u => ?_
  refine ⟨?_, ?_, ?_, ?_⟩ <;> exact schedule_keep fun _ _ => rfl

theorem Awake.wakeup (h : Awake k) (ht : (k.thread t).Blocked) : Awake (wakeup k t) := by
  refine ⟨(h.queued.wakeup (h.heads t) (not_not.2 ht)).congr rfl (fun _ _ => rfl) fun u => ?_, fun u => ?_⟩
  · show ¬ ((Manrix.wakeup k t).thread u).Blocked ↔ u = t ∨ ¬ (k.thread u).Blocked
    by_cases hu : u = t
    · subst hu
      simp [Manrix.wakeup, Thread.Blocked, threadReady, threadBlocked]
    · simp [Manrix.wakeup, hu, modThread_thread_of_ne, Thread.Blocked]
  · have hstat : ((Manrix.wakeup k t).thread u).priorityStat = (k.thread u).priorityStat :=
      wakeup_keep k t u fun _ _ _ _ => rfl
    have := h.heads u
    rwa [Kernel.wakeHead, ← hstat] at this

theorem Awake.sleep_awake (h : Awake k) (hw : w &&& threadBlocked ≠ 0) (ht : ¬ (k.thread t).Blocked) :
    Awake (makeBlocked w k t) := by
  refine ⟨(h.queued.makeBlocked ht).congr rfl (fun _ _ => rfl) fun u => ?_, fun u => ?_⟩
  · show ¬ ((makeBlocked w k t).thread u).Blocked ↔ u ≠ t ∧ ¬ (k.thread u).Blocked
    unfold Thread.Blocked
    rw [makeBlocked_states]
    split
    · rename_i hu
      exact iff_of_false (not_not.2 hw) fun hn => hn.1 hu
    · rename_i hu
      exact ⟨fun hn => ⟨hu, hn⟩, fun hn => hn.2⟩
  · rw [makeBlocked_wakeHead]
    exact h.heads u

omit [DecidableEq τ] in
theorem Awake.onList_iff {q : RunHead → List τ} (hmem : ∀ t, (∃ h, t ∈ q h) ↔ ¬ (k.thread t).Blocked)
    (y : Node RunHead τ) : OnList IsRun q y ↔ k.Listed y := by
  cases y with
  | head h => exact Iff.rfl
  | obj u => exact hmem u

private theorem makeBlocked_blocked_iff (hw : w &&& threadBlocked ≠ 0) (ht : (k.thread t).Blocked) (u : τ) :
    ((makeBlocked w k t).thread u).Blocked ↔ (k.thread u).Blocked := by
  unfold Thread.Blocked at *
  rw [makeBlocked_states]
  split
  · rename_i hu; subst hu; exact iff_of_true hw ht
  · rfl

theorem Awake.sleep_blocked_iff (h : Awake k) (hw : w &&& threadBlocked ≠ 0) (ht : (k.thread t).Blocked) :
    WellQueued (makeBlocked w k t) ↔ k.StaleOk t := by
  obtain ⟨q, hq, hmem⟩ := h.queued
  have hiff := hq.queues.unlink_iff (x := t)
  simp only [Awake.onList_iff hmem] at hiff
  rw [Kernel.StaleOk, ← hiff]
  unfold WellQueued
  rw [makeBlocked_runq]
  simp only [makeBlocked_blocked_iff hw ht, hmem]

theorem Awake.sleep_blocked (h : Awake k) (hw : w &&& threadBlocked ≠ 0) (ht : (k.thread t).Blocked)
    (hs : k.StaleOk t) : Awake (makeBlocked w k t) := by
  have hheads : ∀ u, IsRun ((makeBlocked w k t).wakeHead u) := by
    intro u
    rw [makeBlocked_wakeHead]
    exact h.heads u
  obtain ⟨q, hq, hmem⟩ := h.queued
  have hlist := Awake.onList_iff hmem
  have hq' : Queues IsRun (makeBlocked w k t).runq q := by
    rw [makeBlocked_runq]
    exact hq.queues.unlink_stale (fun hp => hs.1 ((hlist _).1 hp)) fun hn => hs.2 ((hlist _).1 hn)
  refine ⟨⟨q, ⟨hq', fun h u hu => makeBlocked_home.trans (hq.home h u hu)⟩, fun u => (hmem u).trans ?_⟩,
    hheads⟩
  exact not_congr (makeBlocked_blocked_iff hw ht u).symm

theorem Awake.not_wellQueued_wakeup (h : Awake k) (ht : ¬ (k.thread t).Blocked) : ¬ WellQueued (Manrix.wakeup k t) := by
  obtain ⟨q, hq, hmem⟩ := h.queued
  rintro ⟨q', hq', hmem'⟩
  have hrunq : (Manrix.wakeup k t).runq = k.runq.splice (.head (k.wakeHead t)) (.obj t) := by
    simp [Manrix.wakeup, Kernel.wakeHead]
  rw [hrunq] at hq'
  refine hq.queues.not_splice (h.heads t) ((hmem t).2 ht) hq' fun u => ?_
  rw [hmem' u, hmem u]
  by_cases hu : u = t
  · subst hu
    exact iff_of_true (by simp [Manrix.wakeup, Thread.Blocked, threadReady, threadBlocked]) ht
  · simp [Manrix.wakeup, hu, modThread_thread_of_ne, Thread.Blocked]

omit [DecidableEq ρ] in
theorem Awake.handleIrq (h : Awake s.k) (irqno : Nat) : Awake (handleIrq s irqno).k := by
  simp only [Manrix.handleIrq]
  apply Awake.schedule
  split
  · have h1 : Awake (s.k.modThread (s.pcIrq irqno).owner fun t =>
        { t with irqflag := t.irqflag ||| irqRequest }) :=
      h.modThread ⟨rfl, rfl, rfl, rfl⟩
    split
    · rename_i hb
      exact h1.wakeup hb
    · exact h1
  · exact h

omit [DecidableEq ρ] in
theorem Awake.noque (h : Awake s.k) (thr : τ) : Awake (s.noque thr).k := by
  unfold Sys.noque
  split
  · rename_i hi
    refine h.wakeup ?_
    rw [Thread.Blocked, hi]
    decide
  · exact h

theorem Awake.sendSignal (h : Awake s.k) (thr : τ) (signal : Int) (sinfo : Option Siginfo)
    (sq : Bool) : Awake (sendSignal s thr signal sinfo sq).1.k := by
  simp only [Manrix.sendSignal]
  split
  · exact h
  · split
    · exact h.noque thr
    · split
      · exact h.noque thr
      · split
        · exact h
        · apply Awake.noque
          exact h.modThread (f := fun t => { t with sigpending := 1 }) ⟨rfl, rfl, rfl, rfl⟩

variable {s s' : Sys τ ρ} {op : SleepOp τ}

omit [DecidableEq τ] [DecidableEq ρ] in
theorem Awake.withCurrent (h : Awake s.k) (t : τ) : Awake (s.withCurrent t).k :=
  h.congr rfl rfl fun _ => ⟨rfl, rfl, rfl, rfl⟩

/-- A step that meets the condition keeps the invariant. -/
theorem SleepStep.awake (h : Awake s.k) (hg : SleepOk (s, op, s')) (hs : SleepStep s op s') : Awake s'.k := by
  obtain ⟨hen, rfl⟩ := hs
  cases op with
  | sleep t ebx =>
    have hC := h.withCurrent t
    simp only [SleepOp.exec, syscallSleepUnint, hen.2, Bool.not_true, Bool.false_eq_true, if_false]
    split
    · exact hC
    · rename_i u hu
      by_cases hb : (s.k.thread u).Blocked
      · exact hC.sleep_blocked (by decide) hb (hg u hu hb)
      · exact hC.sleep_awake (by decide) hb
  | wake t ebx =>
    have hC := h.withCurrent t
    simp only [SleepOp.exec, syscallWakeUnint, hen.2, Bool.not_true, Bool.false_eq_true, if_false]
    split
    · exact hC
    · rename_i u hu
      exact hC.wakeup (hg u hu)
  | irq irqno => exact h.handleIrq irqno
  | signal thr n sinfo sq => exact h.sendSignal thr n sinfo sq

theorem SleepStep.wellQueued_iff (h : Awake s.k) (hs : SleepStep s op s') : WellQueued s'.k ↔ SleepOk (s, op, s') := by
  refine ⟨fun hw => ?_, fun hg => (hs.awake h hg).wellQueued⟩
  obtain ⟨hen, rfl⟩ := hs
  cases op with
  | sleep t ebx =>
    intro u hu hb
    simp only [SleepOp.exec, syscallSleepUnint, hen.2, Bool.not_true, Bool.false_eq_true, if_false] at hw hu
    rw [hu] at hw
    exact ((h.withCurrent t).sleep_blocked_iff (by decide) hb).1 hw
  | wake t ebx =>
    intro u hu
    simp only [SleepOp.exec, syscallWakeUnint, hen.2, Bool.not_true, Bool.false_eq_true, if_false] at hw hu
    rw [hu] at hw
    by_contra hb
    exact (h.withCurrent t).not_wellQueued_wakeup hb hw
  | irq irqno => trivial
  | signal thr n sinfo sq => trivial

/-- Every state of a run is well queued exactly if only blocked threads are woken, and only threads put to sleep that
are not blocked or whose second removal is harmless. -/
theorem run_queue_iff_not_blocked {s₀ : Sys τ ρ} {tr : List (Sys τ ρ × SleepOp τ × Sys τ ρ)} (h₀ : s₀.Initial)
    (hr : Run SleepStep s₀ tr s) : (∀ x ∈ tr, WellQueued x.2.2.k) ↔ ∀ x ∈ tr, SleepOk x := by
  refine hr.forall_iff (fun s => Awake s.k) SleepOk (fun x => WellQueued x.2.2.k) ⟨?_, h₀.heads⟩ ?_ ?_
  · refine h₀.queued.congr rfl (fun _ _ => rfl) fun t => iff_of_true ?_ trivial
    rw [Thread.Blocked, h₀.ready t]
    decide
  · intro s op s' h hg hs
    exact hs.awake h hg
  · intro s op s' h hs
    exact hs.wellQueued_iff h

/-- Two threads of one process of the superuser, with the `tid`s 1 and 2, and no interrupt handlers. -/
def twoSleepers : Sys Bool Unit where
  k := .boot [false, true] (fun b => .ready (if b then 2 else 1) 20) false
  proc _ := ()
  process _ := ⟨0, fun _ => 0, []⟩
  pcIrq _ := ⟨0, false⟩

private theorem twoSleepers_initial : twoSleepers.Initial where
  ready := by decide
  queued := (boot_queuedSet (V := IsRun) (by decide) (by decide)).congr rfl (fun _ _ => rfl) (by decide)
  heads := by decide

theorem SleepStep.of_enabled (s : Sys τ ρ) (op : SleepOp τ) (h : op.Enabled s) : SleepStep s op (op.exec s) :=
  ⟨h, rfl⟩

/-- A thread goes to sleep and is woken. -/
theorem run_queue_iff_not_blocked_wake : ∃ (tr : List (Sys Bool Unit × SleepOp Bool × Sys Bool Unit))
    (s : Sys Bool Unit), Run SleepStep twoSleepers tr s ∧ tr.map (·.2.1) = [.sleep true 0, .wake false 2] ∧
      ∀ x ∈ tr, WellQueued x.2.2.k := by
  have h1 := Run.nil.snoc (SleepStep.of_enabled twoSleepers (.sleep true 0)
    ⟨⟨⟨0, 5⟩, by decide, [false], by decide +kernel⟩, by decide⟩)
  have hr := h1.snoc (SleepStep.of_enabled _ (.wake false 2)
    ⟨⟨⟨0, 5⟩, by decide, [], by decide +kernel⟩, by decide⟩)
  refine ⟨_, _, hr, rfl, (run_queue_iff_not_blocked twoSleepers_initial hr).2 fun x hx => ?_⟩
  simp only [List.nil_append, List.cons_append, List.mem_cons, List.not_mem_nil, or_false] at hx
  rcases hx with rfl | rfl
  · intro u _ hb
    have hready : ∀ u, ¬ (twoSleepers.k.thread u).Blocked := by decide +kernel
    exact absurd hb (hready u)
  · show ∀ u : Bool, _
    decide +kernel

/-- A wake-up that arrives before the sleep: the thread 1 becomes its own successor, and the lists are destroyed. -/
theorem early_wake_destroys_run_queue : ∃ (tr : List (Sys Bool Unit × SleepOp Bool × Sys Bool Unit))
    (s : Sys Bool Unit), twoSleepers.Initial ∧ Run SleepStep twoSleepers tr s ∧
      tr.map (·.2.1) = [.wake true 1] ∧ s.k.runq.next (.obj false) = .obj false ∧ ¬ WellQueued s.k := by
  have hr := Run.nil.snoc (SleepStep.of_enabled twoSleepers (.wake true 1)
    ⟨⟨⟨0, 5⟩, by decide, [false], by decide +kernel⟩, by decide⟩)
  have hself : (SleepOp.exec twoSleepers (.wake true 1)).k.runq.next (.obj false) = .obj false := by
    decide +kernel
  have hhead : (SleepOp.exec twoSleepers (.wake true 1)).k.runq.next (.head ⟨0, 5⟩) = .obj false := by
    decide +kernel
  refine ⟨_, _, twoSleepers_initial, hr, rfl, hself, ?_⟩
  rintro ⟨q, hq, hmem⟩
  have h1 := (hq.prev_next (y := .obj false) ((hmem false).2 (by decide +kernel))).1
  have hV : OnList IsRun q (.head ⟨0, 5⟩) := (by decide : IsRun ⟨0, 5⟩)
  have h2 := (hq.prev_next hV).1
  rw [hself] at h1
  rw [hhead, h1] at h2
  cases h2

end Manrix
