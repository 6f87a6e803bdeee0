import Manrix.Kernel.Message

/-!
# Interleavings of the message primitives

The threads of the run queue call `send_message`, `receive_message` and `reply_message` in any order; a call runs
without interruption until it returns or blocks its thread, and a thread that runs again goes on behind the `schedule`
at which it was blocked.  The messages are short.

The tests `states & RECEIVE_BLOCKED` and `states & REPLY_BLOCKED` succeed in every blocked state, so a message or a
reply wakes any blocked thread.  A run without a message or a reply to a thread that is blocked for something else is
one of the abstract machine (`IpcStep.simulates`); `ipc_blocking_safety` shows that this condition is exact.
-/

namespace Manrix

open Function Links List Runs

variable {τ : Type*} [DecidableEq τ]

/-- The thread is on a list of the run queue. -/
def Kernel.Runnable {τ : Type*} (k : Kernel τ) (t : τ) : Prop := ∃ h, IsRun h ∧ Threaded k.runq h t

/-- The kernel, where each thread stands, and what has happened so far, the latest first. -/
structure Ipc (τ : Type*) where
  k : Kernel τ
  pc : τ → Pc
  hist : List (Event τ)

/-- The calls of a thread, and its going on behind the `schedule` of a call. -/
inductive IpcOp (τ : Type*) where
  | send (t : τ) (tid : Int) (m : Message)
  | receive (t : τ)
  | reply (t : τ) (tid : Int) (m : Message)
  | resume (t : τ)

def IpcOp.thread : IpcOp τ → τ
  | .send t _ _ | .receive t | .reply t _ _ | .resume t => t

/-- A thread makes a step if it is on the run queue, a call only outside of another call. -/
def IpcOp.Enabled (s : Ipc τ) (op : IpcOp τ) : Prop :=
  s.k.Runnable op.thread ∧
    match op with
    | .send t _ m | .reply t _ m => s.pc t = .user ∧ m.IsShort
    | .receive t => s.pc t = .user
    | .resume t => s.pc t ≠ .user

/-- A pass of `t` through `receive_message`. -/
def Ipc.receive (s : Ipc τ) (t : τ) : Ipc τ :=
  match receiveMessage (s.k.withCurrent t) with
  | (k, .blocked) => { s with k := k, pc := update s.pc t .receiving }
  | (k, .error _) => { s with k := k, pc := update s.pc t .user }
  | (k, .message snd m ret) =>
    { k := k, pc := update s.pc t .user, hist := .take t snd m ret :: s.hist }

def Ipc.finish (s : Ipc τ) (t : τ) : Ipc τ :=
  { s with
    pc := update s.pc t .user
    hist := .ret t (sendReturn s.k t).1 :: s.hist }

section Steps

variable (share : τ → τ → BitVec 32 → BitVec 32 → BitVec 32 → Int × BitVec 32)

def Ipc.send (s : Ipc τ) (t : τ) (tid : Int) (m : Message) : Ipc τ :=
  match findByTid s.k tid, sendMessage share (s.k.withCurrent t) tid m with
  | some r, (k, none) => { k := k, pc := update s.pc t .sending, hist := .send t r m :: s.hist }
  | _, (k, _) => { s with k := k }

def Ipc.reply (s : Ipc τ) (t : τ) (tid : Int) (m : Message) : Ipc τ :=
  let (k, ret) := replyMessage (s.k.withCurrent t) tid m
  match findByTid s.k tid with
  | some w => { s with k := k, hist := if ret = 0 then .answer t w m :: s.hist else s.hist }
  | none => { s with k := k }

def IpcOp.exec (s : Ipc τ) : IpcOp τ → Ipc τ
  | .send t tid m => s.send share t tid m
  | .receive t => s.receive t
  | .reply t tid m => s.reply t tid m
  | .resume t =>
    match s.pc t with
    | .sending => s.finish t
    | .receiving => s.receive t
    | .user => s

def IpcStep (s : Ipc τ) (op : IpcOp τ) (s' : Ipc τ) : Prop := op.Enabled s ∧ s' = op.exec share s

end Steps

/-- Every thread is ready, on the run queue and outside of a call, and no message has been sent. -/
structure Ipc.Initial (s : Ipc τ) : Prop where
  ready : ∀ t, (s.k.thread t).states = threadReady
  queued : QueuedSet IsRun s.k fun _ => True
  empty : Queues (fun _ => True) s.k.sndq fun _ => []
  heads : ∀ t, IsRun (s.k.wakeHead t)
  user : ∀ t, s.pc t = .user
  hist : s.hist = []

/-- The threads of a kernel that has just been booted, outside of any call. -/
def Ipc.boot (threads : List τ) (thread : τ → Thread) (initThread : τ) : Ipc τ :=
  ⟨Kernel.boot threads thread initThread, fun _ => .user, []⟩

theorem Ipc.boot_initial {threads : List τ} {thread : τ → Thread} {initThread : τ} (hnd : threads.Nodup)
    (hall : ∀ t, t ∈ threads) (hs : ∀ t, (thread t).states = threadReady) (hp : ∀ t, (thread t).PrioOk) :
    (Ipc.boot threads thread initThread).Initial where
  ready t := (boot_keep fun _ _ => rfl).trans (hs t)
  queued := (boot_queuedSet hnd fun t => (hp t).isRun).congr rfl (fun _ _ => rfl) fun t => by simp [hall t]
  empty := by
    show Queues _ (Kernel.boot threads thread initThread).sndq _
    rw [boot_sndq]
    exact queues_empty
  heads t := by
    have hstat : ((Kernel.boot threads thread initThread).thread t).priorityStat = (thread t).priorityStat :=
      boot_keep fun _ _ => rfl
    show IsRun ((Kernel.boot threads thread initThread).wakeHead t)
    unfold Kernel.wakeHead
    rw [boot_cpuHint, hstat]
    exact ⟨by simp [maxCpu], prioq_range (hp t).1⟩
  user _ := rfl
  hist := rfl

/-- A thread is ready only if none of its messages is outstanding. -/
def Ipc.BlockedSafe (s : Ipc τ) : Prop :=
  ∀ t, (s.k.thread t).states = threadReady → outstanding s.hist t = .idle

/-- What a step must not do: leave a thread ready whose message is outstanding, reply with success to a thread that does
not wait for a reply, or wake by a message a thread that is blocked sending. -/
structure StepSafe (x : Ipc τ × IpcOp τ × Ipc τ) : Prop where
  blocked : x.2.2.BlockedSafe
  reply : ∀ t tid m, x.2.1 = .reply t tid m → (replyMessage (x.1.k.withCurrent t) tid m).2 = 0 →
    ∃ w r m', findByTid x.1.k tid = some w ∧ (x.1.k.thread w).states = replyBlocked ∧
      outstanding x.1.hist w = .received r m'
  send : ∀ t tid m r, x.2.1 = .send t tid m → findByTid x.1.k tid = some r →
    (x.1.k.thread r).states = sendBlocked → (x.2.2.k.thread r).states = sendBlocked

/-- No message to a thread that is blocked sending or waits for its reply, no reply to one that is blocked sending or
receiving. -/
def TargetOk (x : Ipc τ × IpcOp τ × Ipc τ) : Prop :=
  match x.2.1 with
  | .send _ tid _ => ∀ r, findByTid x.1.k tid = some r →
      (x.1.k.thread r).states ≠ sendBlocked ∧ (x.1.k.thread r).states ≠ replyBlocked
  | .reply _ tid _ => ∀ w, findByTid x.1.k tid = some w →
      (x.1.k.thread w).states ≠ sendBlocked ∧ (x.1.k.thread w).states ≠ receiveBlocked
  | _ => True

/-- The kernel and the history are those of a reachable kind of state of the machine. -/
structure Ipc.Sim (tid : τ → Int) (find : Int → Option τ) (s : Ipc τ) (a : Rendezvous τ) : Prop where
  refines : Refines tid find s.k a
  pc : a.pc = s.pc
  hist : a.hist = s.hist
  inv : a.Inv tid

variable {share : τ → τ → BitVec 32 → BitVec 32 → BitVec 32 → Int × BitVec 32} {tid : τ → Int}
  {find : Int → Option τ} {s s' : Ipc τ} {a : Rendezvous τ} {op : IpcOp τ} {t : τ}

theorem Ipc.Sim.ready_of_runnable (h : s.Sim tid find a) (hr : s.k.Runnable t) : a.status t = .ready :=
  h.refines.runnable.threaded_iff.1 hr

theorem Ipc.Initial.sim (h : s.Initial) :
    s.Sim (fun t => (s.k.thread t).tid) (findByTid s.k)
      { status := fun _ => .ready, msg := fun t => (s.k.thread t).msg, rcvq := fun _ => [], pc := s.pc,
        hist := [] } :=
  { refines :=
      { states := h.ready
        msg := fun _ => rfl
        tid := fun _ => rfl
        find := fun _ => rfl
        runnable := h.queued.congr rfl (fun _ _ => rfl) (by simp)
        senders := h.empty
        heads := h.heads }
    pc := rfl
    hist := h.hist.symm
    inv :=
      { fits := fun _ => trivial
        pc := fun _ => by simp [Pc.Fits]
        nodup := fun _ => nodup_nil
        mem := by simp [outstanding]
        msg := by simp [outstanding]
        order := fun _ => rfl
        count := by simp [outstanding]
        result := by simp [h.user]
        rets := by simp } }

/-- A pass through `receive_message` is a step of the machine. -/
theorem Ipc.Sim.receive (h : s.Sim tid find a) (ht : a.status t = .ready) (hpc : s.pc t ≠ .sending) :
    ∃ a', RendezvousStep tid a a' ∧ Refines tid find (s.receive t).k a' ∧ a'.pc = (s.receive t).pc ∧
      a'.hist = (s.receive t).hist := by
  have hC := h.refines.setCurrent t
  have hpc' : a.pc t ≠ .sending := by rw [h.pc]; exact hpc
  rcases hm : receiveMessage (s.k.withCurrent t) with ⟨k', res⟩
  rcases eq_nil_or_concat (a.rcvq t) with hq | ⟨ts, u, hq⟩
  · obtain ⟨hres, hR⟩ := hC.receiveMessage_nil ht hq
    rw [hm] at hres hR
    obtain rfl : res = .blocked := hres
    refine ⟨a.await t, .await ht hpc', ?_⟩
    simp only [Ipc.receive, hm]
    exact ⟨hR, by rw [← h.pc]; rfl, h.hist⟩
  · rw [concat_eq_append] at hq
    have hu : a.status u ≠ .ready := fun hu => h.inv.notMem (t := u) (by simp [hu]) t (by rw [hq]; simp)
    obtain ⟨hres, hR⟩ := hC.receiveMessage_concat hu hq
    rw [hm] at hres hR
    obtain rfl : res = .message u (a.msg u) (if (a.msg u).NoReply then 0 else tid u) := hres
    refine ⟨a.take t u (tid u), .take ht hpc' hq, ?_⟩
    simp only [Ipc.receive, hm]
    exact ⟨hR, by rw [← h.pc]; rfl, by rw [← h.hist]; rfl⟩

theorem Ipc.Sim.status_of_send (h : s.Sim tid find a) (r : τ) :
    (s.k.thread r).states ≠ sendBlocked ∧ (s.k.thread r).states ≠ replyBlocked ↔
      a.status r = .ready ∨ a.status r = .receiveBlocked := by
  rw [h.refines.states r]
  cases a.status r <;> decide

theorem Ipc.Sim.status_of_reply (h : s.Sim tid find a) (w : τ) :
    (s.k.thread w).states ≠ sendBlocked ∧ (s.k.thread w).states ≠ receiveBlocked ↔
      a.status w = .ready ∨ a.status w = .replyBlocked := by
  rw [h.refines.states w]
  cases a.status w <;> decide

theorem Ipc.Sim.send {i : Int} {m : Message} (h : s.Sim tid find a) (ht : a.status t = .ready) (hpc : s.pc t = .user)
    (hm : m.IsShort) (hr : ∀ r, find i = some r → a.status r = .ready ∨ a.status r = .receiveBlocked) :
    ∃ a', RendezvousStep tid a a' ∧ Refines tid find (s.send share t i m).k a' ∧
      a'.pc = (s.send share t i m).pc ∧ a'.hist = (s.send share t i m).hist := by
  have hC := h.refines.setCurrent t
  have hf := h.refines.find i
  rcases hsend : sendMessage share (s.k.withCurrent t) i m with ⟨k', res⟩
  cases hfind : find i with
  | none =>
    have hk : sendMessage share (s.k.withCurrent t) i m = (s.k.withCurrent t, some (-esrch)) := by
      simp only [sendMessage, hC.find i, hfind]
    rw [hsend, Prod.mk.injEq] at hk
    refine ⟨a, .skip, ?_⟩
    simp only [Ipc.send, hf, hfind, hsend, hk]
    exact ⟨hC, h.pc, h.hist⟩
  | some r =>
    obtain ⟨hres, hR⟩ := hC.sendMessage share ht (h.inv.notMem (by simp [ht])) hm hfind (hr r hfind)
    rw [hsend] at hres hR
    obtain rfl : res = none := hres
    refine ⟨a.send t r m (tid t), .send ht (by rw [h.pc]; exact hpc), ?_⟩
    simp only [Ipc.send, hf, hfind, hsend]
    exact ⟨hR, by rw [← h.pc]; rfl, by rw [← h.hist]; rfl⟩

theorem Ipc.Sim.reply {i : Int} {m : Message} (h : s.Sim tid find a) (ht : a.status t = .ready)
    (hw : ∀ w, find i = some w → a.status w = .ready ∨ a.status w = .replyBlocked) :
    ∃ a', RendezvousStep tid a a' ∧ Refines tid find (s.reply t i m).k a' ∧ a'.pc = (s.reply t i m).pc ∧
      a'.hist = (s.reply t i m).hist := by
  have hC := h.refines.setCurrent t
  have hf := h.refines.find i
  rcases hrep : replyMessage (s.k.withCurrent t) i m with ⟨k', res⟩
  cases hfind : find i with
  | none =>
    have hk : replyMessage (s.k.withCurrent t) i m = (s.k.withCurrent t, -esrch) := by
      simp only [replyMessage, hC.find i, hfind]
    rw [hrep, Prod.mk.injEq] at hk
    refine ⟨a, .skip, ?_⟩
    simp only [Ipc.reply, hf, hfind, hrep, hk]
    exact ⟨hC, h.pc, h.hist⟩
  | some w =>
    rcases hw w hfind with hst | hst
    · have hk := hC.replyMessage_ready (m := m) hfind hst
      rw [hrep, Prod.mk.injEq] at hk
      refine ⟨a, .skip, ?_⟩
      simp only [Ipc.reply, hf, hfind, hrep, hk]
      exact ⟨hC, h.pc, h.hist⟩
    · obtain ⟨hres, hR⟩ := hC.replyMessage (m := m) hfind (by simp [hst]) t
      rw [hrep] at hres hR
      obtain rfl : res = 0 := hres
      refine ⟨a.answer t w m, .answer ht hst, ?_⟩
      simp only [Ipc.reply, hf, hfind, hrep, if_true]
      exact ⟨hR, h.pc, by rw [← h.hist]; rfl⟩

/-- A step whose target is right is a step of the machine. -/
theorem IpcStep.simulates (h : s.Sim tid find a) (hg : TargetOk (s, op, s')) (hs : IpcStep share s op s') :
    ∃ a', RendezvousStep tid a a' ∧ s'.Sim tid find a' := by
  have hstep : ∃ a', RendezvousStep tid a a' ∧ Refines tid find s'.k a' ∧ a'.pc = s'.pc ∧
      a'.hist = s'.hist := by
    obtain ⟨⟨hrun, hen⟩, rfl⟩ := hs
    have ht := h.ready_of_runnable hrun
    cases op with
    | send t i m =>
      refine h.send ht hen.1 hen.2 fun r hr => (h.status_of_send r).1 (hg r ?_)
      rw [h.refines.find, hr]
    | receive t => exact h.receive ht (by rw [hen]; decide)
    | reply t i m =>
      refine h.reply ht fun w hw => (h.status_of_reply w).1 (hg w ?_)
      rw [h.refines.find, hw]
    | resume t =>
      simp only [IpcOp.exec]
      cases hpc : s.pc t with
      | user => exact absurd hpc hen
      | receiving => exact h.receive ht (by rw [hpc]; decide)
      | sending =>
        refine ⟨_, .finish ht (by rw [h.pc]; exact hpc), h.refines.congr rfl rfl rfl, ?_, ?_⟩
        · rw [Ipc.finish, ← h.pc]; rfl
        · show _ = Event.ret t (s.k.thread t).msg :: s.hist
          rw [h.refines.msg, ← h.hist]; rfl
  obtain ⟨a', hstep, hR, hpc, hhist⟩ := hstep
  exact ⟨a', hstep, hR, hpc, hhist, hstep.inv h.inv⟩

theorem Ipc.Sim.blockedSafe (h : s.Sim tid find a) : s.BlockedSafe := by
  intro t ht
  have hw : (a.status t).word = Status.ready.word := (h.refines.states t).symm.trans ht
  rw [← h.hist]
  exact h.inv.idle (Status.word_inj hw)

theorem IpcStep.safe (h : s.Sim tid find a) (hg : TargetOk (s, op, s')) (hs : IpcStep share s op s') :
    StepSafe (s, op, s') := by
  obtain ⟨a', -, h'⟩ := hs.simulates h hg
  refine ⟨h'.blockedSafe, fun t i m hop hret => ?_, fun t i m r hop hf hst => ?_⟩
  · obtain rfl : op = .reply t i m := hop
    cases hf : findByTid s.k i with
    | none => simp [replyMessage, (h.refines.setCurrent t).find i, ← h.refines.find i, hf, esrch] at hret
    | some w =>
      have hfind : find i = some w := (h.refines.find i).symm.trans hf
      rcases (h.status_of_reply w).1 (hg w hf) with hst | hst
      · have hk := (h.refines.setCurrent t).replyMessage_ready (m := m) hfind hst
        simp only at hret
        rw [hk] at hret
        exact absurd hret (show -esrch ≠ 0 by decide)
      · have hfit := h.inv.fits w
        rw [hst] at hfit
        obtain ⟨r, m', ho⟩ := hfit.received
        refine ⟨w, r, m', rfl, ?_, by rw [← h.hist]; exact ho⟩
        rw [h.refines.states w, hst]
        rfl
  · obtain rfl : op = .send t i m := hop
    exact absurd hst (hg r hf).1

/-- A message to a thread that is blocked sending or waits for its reply leaves it ready with its message
outstanding. -/
theorem IpcStep.not_blockedSafe_of_send {i : Int} {m : Message} {r : τ} (h : s.Sim tid find a)
    (hs : IpcStep share s (.send t i m) s') (hf : findByTid s.k i = some r)
    (hr : ¬ (a.status r = .ready ∨ a.status r = .receiveBlocked)) : ¬ s'.BlockedSafe := by
  obtain ⟨⟨hrun, -, hm⟩, rfl⟩ := hs
  have ht : a.status t = .ready := h.ready_of_runnable hrun
  have hrt : r ≠ t := by
    intro he
    exact hr (.inl (he ▸ ht))
  have hfind : find i = some r := (h.refines.find i).symm.trans hf
  obtain ⟨hres, hR⟩ := (h.refines.setCurrent t).sendMessage_blocked share (m := m) ht
    (h.inv.notMem (t := t) (by simp [ht])) hm hfind fun he => hr (.inl he)
  rcases hsend : sendMessage share (s.k.withCurrent t) i m with ⟨k', res⟩
  rw [hsend] at hres hR
  obtain rfl : res = none := hres
  intro hsafe
  have hsafe := hsafe r
  simp only [IpcOp.exec, Ipc.send, hf, hsend, outstanding_send_of_ne hrt, ← h.hist] at hsafe
  refine hr ((h.inv.fits r).idle_iff.1 (hsafe ?_))
  rw [hR.states r]
  show (update (update a.status r .ready) t .sendBlocked r).word = _
  rw [update_of_ne hrt, update_self]
  rfl

/-- A step from a state of the machine is safe exactly if its target is right. -/
theorem IpcStep.safe_iff (h : s.Sim tid find a) (hs : IpcStep share s op s') :
    StepSafe (s, op, s') ↔ TargetOk (s, op, s') := by
  refine ⟨fun hsafe => ?_, fun hg => hs.safe h hg⟩
  cases op with
  | send t i m =>
    intro r hf
    rw [h.status_of_send]
    by_contra hr
    exact hs.not_blockedSafe_of_send h hf hr hsafe.blocked
  | reply t i m =>
    intro w hf
    rw [h.status_of_reply]
    by_contra hw
    have hfind : find i = some w := (h.refines.find i).symm.trans hf
    have hret := ((h.refines.setCurrent t).replyMessage (m := m) hfind (fun he => hw (.inl he)) t).1
    obtain ⟨w', -, -, hf', hst, -⟩ := hsafe.reply t i m rfl hret
    cases hf.symm.trans hf'
    have hword : (a.status w).word = Status.replyBlocked.word := (h.refines.states w).symm.trans hst
    exact hw (.inr (Status.word_inj hword))
  | receive t => trivial
  | resume t => trivial

/-- A run of the message primitives is safe exactly if no message goes to a thread that is blocked sending or waits for
its reply, and no reply to a thread that is blocked sending or receiving. -/
theorem ipc_blocking_safety {s₀ : Ipc τ} {tr : List (Ipc τ × IpcOp τ × Ipc τ)} (h₀ : s₀.Initial)
    (hr : Run (IpcStep share) s₀ tr s) : (∀ x ∈ tr, StepSafe x) ↔ ∀ x ∈ tr, TargetOk x := by
  refine hr.forall_iff (fun s => ∃ a, s.Sim (fun t => (s₀.k.thread t).tid) (findByTid s₀.k) a)
    TargetOk StepSafe ⟨_, h₀.sim⟩ ?_ ?_
  · rintro s op s' ⟨a, h⟩ hg hs
    obtain ⟨a', -, h'⟩ := hs.simulates h hg
    exact ⟨a', h'⟩
  · rintro s op s' ⟨a, h⟩ hs
    exact hs.safe_iff h

/-- Three threads with the `tid`s 1, 2 and 3. -/
def threeThreads : Ipc (Fin 3) := .boot [0, 1, 2] (fun i => .ready (i + 1) 20) 0

theorem threeThreads_initial :
    threeThreads.Initial := Ipc.boot_initial (by decide) (by decide) (by decide) (by decide)

def shortMessage : Message := { Message.empty with flags := msgShort }

theorem IpcStep.of_enabled (share : τ → τ → BitVec 32 → BitVec 32 → BitVec 32 → Int × BitVec 32) (s : Ipc τ)
    (op : IpcOp τ) (h : op.Enabled s) : IpcStep share s op (op.exec share s) :=
  ⟨h, rfl⟩

/-- A message and its receipt. -/
theorem ipc_blocking_safety_receive : ∃ (tr : List (Ipc (Fin 3) × IpcOp (Fin 3) × Ipc (Fin 3))) (s : Ipc (Fin 3)),
      Run (IpcStep fun _ _ _ _ _ => (0, 0)) threeThreads tr s ∧ tr.map (fun x => x.2.1.thread) = [0, 1] ∧
      (∀ x ∈ tr, StepSafe x) ∧ outstanding s.hist 0 = .received 1 shortMessage := by
  have h1 := Run.nil.snoc (IpcStep.of_enabled (fun _ _ _ _ _ => (0, 0)) threeThreads (.send 0 2 shortMessage)
    ⟨⟨⟨0, 5⟩, by decide, [], by decide⟩, by decide, by decide⟩)
  have hr := h1.snoc (IpcStep.of_enabled _ _ (.receive 1)
    ⟨⟨⟨0, 5⟩, by decide, [], by decide +kernel⟩, by decide⟩)
  refine ⟨_, _, hr, rfl, (ipc_blocking_safety threeThreads_initial hr).2 fun x hx => ?_, by decide +kernel⟩
  simp only [nil_append, cons_append, mem_cons, not_mem_nil, or_false] at hx
  rcases hx with rfl | rfl
  · show ∀ r : Fin 3, findByTid threeThreads.k 2 = some r → _
    decide +kernel
  · trivial

/-- While the thread 1 is blocked sending to the thread 2, a message of the thread 3 to it wakes it. -/
theorem send_wakes_blocked_sender : ∃ (tr : List (Ipc (Fin 3) × IpcOp (Fin 3) × Ipc (Fin 3))) (s : Ipc (Fin 3)),
      threeThreads.Initial ∧ Run (IpcStep fun _ _ _ _ _ => (0, 0)) threeThreads tr s ∧
      tr.map (fun x => x.2.1.thread) = [0, 2] ∧
      (s.k.thread 0).states = threadReady ∧ outstanding s.hist 0 = .queued 1 shortMessage ∧ ¬ ∀ x ∈ tr, StepSafe x := by
  have h1 := Run.nil.snoc (IpcStep.of_enabled (fun _ _ _ _ _ => (0, 0)) threeThreads (.send 0 2 shortMessage)
    ⟨⟨⟨0, 5⟩, by decide, [], by decide⟩, by decide, by decide⟩)
  have hr := h1.snoc (IpcStep.of_enabled _ _ (.send 2 1 shortMessage)
    ⟨⟨⟨0, 5⟩, by decide, [1], by decide +kernel⟩, by decide, by decide⟩)
  refine ⟨_, _, threeThreads_initial, hr, rfl, by decide +kernel, by decide +kernel, fun hsafe => ?_⟩
  have hidle := (hsafe _ (mem_append_right _ (mem_singleton_self _))).blocked 0 (by decide +kernel)
  revert hidle
  decide +kernel

end Manrix
