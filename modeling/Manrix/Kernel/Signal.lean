import Mathlib.Data.List.Count
import Manrix.Kernel.Sleep

/-!
# Signals of a process (`kernel/signal.c`, `arch/i386/signal.c`)

`send_signal` queues a signal for the process of a thread and sets `sigpending`; a signal that the thread blocks is
dropped.  `handle_signal`, which is called when `sigpending` is set, takes the latest signal that is not blocked from
the queue, acts on it, and clears `sigpending` when `is_pending` finds no further one.  The loop of `is_pending` stops
before the last signal of the queue, and a change of the mask does not look at the queue.  So the oldest signal stays
behind when it is the only one left that could be delivered.  On an empty queue the loop starts with the head of the
list, as if it were an entry, and may go on anywhere in the memory: `signals_not_lost`.
-/

namespace Manrix

open Function Runs

def sigDfl : BitVec 32 := 0
def saResethand : BitVec 32 := 8
def saSiginfo : BitVec 32 := 0x10

/-- `SIGCHLD`, `SIGCONT`, `SIGTSTP`, `SIGTTIN`, `SIGTTOU`, `SIGSTOP`: by default they do nothing. -/
def defaultNothing : List Int := [4, 5, 19, 20, 21, 15]

/-- The masks and flags in the `action` table of the process, next to its handlers in `sys`, and the address of the head
`sigqueue` of its queue. -/
structure SigSys (τ ρ : Type*) where
  sys : Sys τ ρ
  saMask : Int → BitVec 32
  saFlags : Int → BitVec 32
  head : BitVec 32

variable {τ ρ : Type*} {queue : List SigQueue}

/-! ### The queue -/

/-- `dequeue_signal`: the first signal that is not blocked, and the others. -/
def dequeueSignal (mask : BitVec 32) : List SigQueue → Option (SigQueue × List SigQueue)
  | [] => none
  | sq :: queue =>
    if checkSet mask sq.signal then (dequeueSignal mask queue).map fun (q, queue) => (q, sq :: queue)
    else some (sq, queue)

/-- `is_pending`.  With an empty queue it takes the head of the list for an entry: the number of the signal is the
address `head`, which is in the first word of the head, and the link, 32 bytes behind, is `link`, the field `sa_mask` of
`action[2]`.  If this signal is blocked the loop goes on with what the mask points to, and there is no result. -/
def isPending (mask head link : BitVec 32) : List SigQueue → Option Bool
  | [] => if link = head then some false else if checkSet mask head.toInt then none else some true
  | [_] => some false
  | sq :: next :: queue =>
    if checkSet mask sq.signal then isPending mask head link (next :: queue) else some true

/-- On an empty queue `is_pending` follows a mask as a pointer. -/
def Walks (mask head link : BitVec 32) : Prop := link ≠ head ∧ checkSet mask head.toInt = true

def Deliverable (mask : BitVec 32) (queue : List SigQueue) : Prop := ∃ sq ∈ queue, checkSet mask sq.signal = false

private theorem dequeueSignal_perm {mask : BitVec 32} {queue queue' : List SigQueue} {q : SigQueue}
    (h : dequeueSignal mask queue = some (q, queue')) : queue.Perm (q :: queue') := by
  induction queue generalizing queue' with
  | nil => cases h
  | cons sq queue ih =>
    rw [dequeueSignal] at h
    split at h
    · obtain ⟨⟨q', rest⟩, hrest, heq⟩ := Option.map_eq_some_iff.1 h
      cases heq
      exact ((ih hrest).cons sq).trans (.swap ..)
    · cases h
      exact .refl _

private theorem dequeueSignal_zero (sq : SigQueue) (queue : List SigQueue) :
    dequeueSignal 0 (sq :: queue) = some (sq, queue) := by
  simp [dequeueSignal, checkSet]

private theorem isPending_of_ne_nil (mask head link : BitVec 32) {queue : List SigQueue} (h : queue ≠ []) :
    ∃ b, isPending mask head link queue = some b ∧ (b = true ↔ Deliverable mask queue.dropLast) := by
  induction queue with
  | nil => exact absurd rfl h
  | cons sq queue ih =>
    cases queue with
    | nil => exact ⟨false, rfl, by simp [Deliverable]⟩
    | cons next queue =>
      rw [isPending, List.dropLast_cons_cons]
      cases hb : checkSet mask sq.signal with
      | true =>
        obtain ⟨b, hb', hiff⟩ := ih (by simp)
        refine ⟨b, by simpa using hb', hiff.trans ?_⟩
        simp [Deliverable, hb]
      | false => exact ⟨true, rfl, by simp [Deliverable, hb]⟩

private theorem isPending_isSome_iff {mask head link : BitVec 32} :
    (isPending mask head link queue).isSome ↔ (queue = [] → ¬ Walks mask head link) := by
  cases queue with
  | nil =>
    unfold isPending Walks
    split_ifs <;> simp_all
  | cons sq queue =>
    obtain ⟨b, hb, -⟩ := isPending_of_ne_nil mask head link (List.cons_ne_nil sq queue)
    simp [hb]

/-! ### The functions -/

def Sys.sigMask (s : Sys τ ρ) (thr : τ) : BitVec 32 := (s.k.thread thr).saMask
def Sys.sigPending (s : Sys τ ρ) (thr : τ) : BitVec 32 := (s.k.thread thr).sigpending
def Sys.sigQueue (s : Sys τ ρ) (thr : τ) : List SigQueue := (s.process (s.proc thr)).sigqueue

section

variable [DecidableEq τ]

def Sys.setMask (s : Sys τ ρ) (thr : τ) (mask : BitVec 32) : Sys τ ρ :=
  { s with k := s.k.modThread thr fun t => { t with saMask := mask } }

def Sys.setPending (s : Sys τ ρ) (thr : τ) (pending : BitVec 32) : Sys τ ρ :=
  { s with k := s.k.modThread thr fun t => { t with sigpending := pending } }

/-- `sigprocmask`, for the current thread `thr`. -/
def sigprocmask (s : Sys τ ρ) (thr : τ) (how : Int) (set : Option (BitVec 32)) : Sys τ ρ × Int :=
  match set with
  | none => (s, 0)
  | some set =>
    if how = 1 then (s.setMask thr (s.sigMask thr ||| set), 0)
    else if how = 2 then (s.setMask thr (s.sigMask thr &&& ~~~set), 0)
    else if how = 4 then (s.setMask thr set, 0)
    else (s, -einval)

variable [DecidableEq ρ]

omit [DecidableEq τ] in
def Sys.modProcess (s : Sys τ ρ) (thr : τ) (f : Process → Process) : Sys τ ρ :=
  { s with process := update s.process (s.proc thr) (f (s.process (s.proc thr))) }

/-- `signal_frame`, without the frame on the stack of the user. -/
def signalFrame (s : SigSys τ ρ) (thr : τ) (signal : Int) : SigSys τ ρ :=
  let i := signal - 1
  let s := { s with sys := s.sys.setMask thr (s.sys.sigMask thr ||| s.saMask i) }
  if s.saFlags i &&& saResethand ≠ 0 then
    { s with
      saMask := update s.saMask i (s.saMask i &&& ~~~saSiginfo)
      sys := s.sys.modProcess thr fun p => { p with saHandler := update p.saHandler i sigDfl } }
  else s

/-- The action of `handle_signal` on a signal; there is no result when the process exits. -/
def actSignal (s : SigSys τ ρ) (thr : τ) (signal : Int) : Option (SigSys τ ρ) :=
  let handler := (s.sys.process (s.sys.proc thr)).saHandler (signal - 1)
  if handler = sigIgn then some s
  else if handler = sigDfl then
    if signal ∈ defaultNothing then some s else none
  else some (signalFrame s thr signal)

omit [DecidableEq ρ] in
/-- The end of `handle_signal`, from its label `nosig`. -/
def nosig (s : SigSys τ ρ) (thr : τ) : Option (SigSys τ ρ) :=
  (isPending (s.sys.sigMask thr) s.head (s.saMask 2) (s.sys.sigQueue thr)).map fun pending =>
    if !pending then { s with sys := s.sys.setPending thr 0 } else s

/-- `handle_signal`: the state and the signal that is delivered.  There is no result when the process exits, or when
`is_pending` leaves the queue. -/
def handleSignal (s : SigSys τ ρ) (thr : τ) : Option (SigSys τ ρ × Option Int) :=
  match dequeueSignal (s.sys.sigMask thr) (s.sys.sigQueue thr) with
  | none => (nosig s thr).map (·, none)
  | some (q, queue) =>
    (actSignal { s with sys := s.sys.modProcess thr fun p => { p with sigqueue := queue } } thr q.signal).bind
      fun s => (nosig s thr).map (·, some q.signal)

/-- The signals that are blocked for the handler of a signal. -/
def handlerMask (s : SigSys τ ρ) (thr : τ) (signal : Int) : BitVec 32 :=
  let handler := (s.sys.process (s.sys.proc thr)).saHandler (signal - 1)
  if handler = sigIgn ∨ handler = sigDfl then 0 else s.saMask (signal - 1)

/-- The field `sa_mask` of `action[2]` when a signal has been acted on. -/
def linkAfter (s : SigSys τ ρ) (thr : τ) (signal : Int) : BitVec 32 :=
  let handler := (s.sys.process (s.sys.proc thr)).saHandler (signal - 1)
  if ¬ (handler = sigIgn ∨ handler = sigDfl) ∧ s.saFlags (signal - 1) &&& saResethand ≠ 0 ∧ signal - 1 = 2 then
    s.saMask 2 &&& ~~~saSiginfo
  else s.saMask 2

/-! ### What they write -/

section Fields

omit [DecidableEq ρ]

variable (s : Sys τ ρ) (thr : τ) (x : BitVec 32)

@[simp] theorem setMask_sigMask : (s.setMask thr x).sigMask thr = x := by
  simp [Sys.setMask, Sys.sigMask, Kernel.modThread]

@[simp] theorem setMask_sigPending : (s.setMask thr x).sigPending thr = s.sigPending thr := by
  simp [Sys.setMask, Sys.sigPending, Kernel.modThread]

@[simp] theorem setMask_sigQueue : (s.setMask thr x).sigQueue thr = s.sigQueue thr := rfl

@[simp] theorem setPending_sigMask : (s.setPending thr x).sigMask thr = s.sigMask thr := by
  simp [Sys.setPending, Sys.sigMask, Kernel.modThread]

@[simp] theorem setPending_sigPending : (s.setPending thr x).sigPending thr = x := by
  simp [Sys.setPending, Sys.sigPending, Kernel.modThread]

@[simp] theorem setPending_sigQueue : (s.setPending thr x).sigQueue thr = s.sigQueue thr := rfl

end Fields

section Fields

variable (s : Sys τ ρ) (thr : τ) (f : Process → Process)

omit [DecidableEq τ] in
@[simp] theorem modProcess_sigPending : (s.modProcess thr f).sigPending thr = s.sigPending thr := rfl

omit [DecidableEq τ] in
@[simp] theorem modProcess_sigQueue : (s.modProcess thr f).sigQueue thr = (f (s.process (s.proc thr))).sigqueue := by
  simp [Sys.modProcess, Sys.sigQueue]

omit [DecidableEq ρ] in
private theorem noque_fields : (s.noque thr).sigMask thr = s.sigMask thr ∧
    (s.noque thr).sigPending thr = s.sigPending thr ∧ (s.noque thr).sigQueue thr = s.sigQueue thr := by
  rw [Sys.noque]
  split
  · refine ⟨?_, ?_, rfl⟩
    · exact wakeup_keep s.k thr thr (g := Thread.saMask) fun _ _ _ _ => rfl
    · exact wakeup_keep s.k thr thr (g := Thread.sigpending) fun _ _ _ _ => rfl
  · exact ⟨rfl, rfl, rfl⟩

end Fields

section

variable {s s' : SigSys τ ρ} {thr : τ} {signal : Int}

omit [DecidableEq ρ] in
private theorem nosig_fields (h : nosig s thr = some s') :
    s'.sys.sigMask thr = s.sys.sigMask thr ∧ s'.sys.sigQueue thr = s.sys.sigQueue thr ∧
    ∃ b, isPending (s.sys.sigMask thr) s.head (s.saMask 2) (s.sys.sigQueue thr) = some b ∧
      s'.sys.sigPending thr = if b then s.sys.sigPending thr else 0 := by
  obtain ⟨b, hb, rfl⟩ := Option.map_eq_some_iff.1 h
  cases b with
  | true => exact ⟨rfl, rfl, true, hb, rfl⟩
  | false => exact ⟨setPending_sigMask .., rfl, false, hb, setPending_sigPending ..⟩

/-- The action on a signal may add to the mask. -/
private theorem actSignal_fields (h : actSignal s thr signal = some s') :
    s'.sys.sigQueue thr = s.sys.sigQueue thr ∧ s'.sys.sigPending thr = s.sys.sigPending thr ∧
    s'.sys.sigMask thr = s.sys.sigMask thr ||| handlerMask s thr signal ∧ s'.head = s.head ∧
    s'.saMask 2 = linkAfter s thr signal := by
  simp only [actSignal] at h
  unfold handlerMask linkAfter
  split at h
  · rename_i hign
    cases h
    simp [hign]
  · rename_i hign
    split at h
    · rename_i hdfl
      split at h
      · cases h
        simp [hdfl]
      · cases h
    · rename_i hdfl
      cases h
      have hhandler : ¬ ((s.sys.process (s.sys.proc thr)).saHandler (signal - 1) = sigIgn ∨
          (s.sys.process (s.sys.proc thr)).saHandler (signal - 1) = sigDfl) := not_or.2 ⟨hign, hdfl⟩
      simp only [signalFrame, hhandler, not_false_eq_true, true_and]
      split
      · rename_i hreset
        refine ⟨?_, setMask_sigPending .., setMask_sigMask .., rfl, ?_⟩
        · rw [modProcess_sigQueue]
          rfl
        · by_cases h2 : signal - 1 = 2
          · simp [h2] at hreset ⊢
            exact fun h => absurd h hreset
          · simp [h2, Ne.symm h2]
      · rename_i hreset
        exact ⟨rfl, setMask_sigPending .., setMask_sigMask .., rfl, (if_neg fun h => hreset h.1).symm⟩

private theorem actSignal_queue (s : SigSys τ ρ) (thr : τ) (signal : Int) (queue : List SigQueue) :
    (actSignal { s with sys := s.sys.modProcess thr fun p => { p with sigqueue := queue } } thr signal).isSome =
      (actSignal s thr signal).isSome := by
  unfold actSignal
  simp only [Sys.modProcess, update_self]
  split
  · rfl
  · split
    · split <;> rfl
    · rfl

omit [DecidableEq τ] in
private theorem handlerMask_queue (s : SigSys τ ρ) (thr : τ) (signal : Int) (queue : List SigQueue) :
    handlerMask { s with sys := s.sys.modProcess thr fun p => { p with sigqueue := queue } } thr signal =
      handlerMask s thr signal ∧
    linkAfter { s with sys := s.sys.modProcess thr fun p => { p with sigqueue := queue } } thr signal =
      linkAfter s thr signal := by
  unfold handlerMask linkAfter
  simp only [Sys.modProcess, update_self, and_self]

private theorem handleSignal_cases {out : Option Int} (h : handleSignal s thr = some (s', out)) :
    ∃ head link b, isPending (s'.sys.sigMask thr) head link (s'.sys.sigQueue thr) = some b ∧
    s'.sys.sigPending thr = (if b then s.sys.sigPending thr else 0) ∧
    ((out = none ∧ dequeueSignal (s.sys.sigMask thr) (s.sys.sigQueue thr) = none ∧
        s'.sys.sigMask thr = s.sys.sigMask thr ∧ s'.sys.sigQueue thr = s.sys.sigQueue thr) ∨ ∃ q, out = some q.signal ∧
        dequeueSignal (s.sys.sigMask thr) (s.sys.sigQueue thr) = some (q, s'.sys.sigQueue thr) ∧
        s'.sys.sigMask thr = s.sys.sigMask thr ||| handlerMask s thr q.signal) := by
  rw [handleSignal] at h
  split at h
  · rename_i hnone
    obtain ⟨s₁, hs₁, heq⟩ := Option.map_eq_some_iff.1 h
    cases heq
    obtain ⟨hmask, hqueue, b, hb, hpending⟩ := nosig_fields hs₁
    exact ⟨_, _, b, by rw [hmask, hqueue, hb], hpending, .inl ⟨rfl, hnone, hmask, hqueue⟩⟩
  · rename_i q queue hsome
    obtain ⟨s₁, hact, h⟩ := Option.bind_eq_some_iff.1 h
    obtain ⟨s₂, hs₂, heq⟩ := Option.map_eq_some_iff.1 h
    cases heq
    obtain ⟨hqueue₁, hpending₁, hmask₁, -⟩ := actSignal_fields hact
    rw [modProcess_sigQueue] at hqueue₁
    obtain ⟨hmask, hqueue, b, hb, hpending⟩ := nosig_fields hs₂
    refine ⟨_, _, b, by rw [hmask, hqueue, hb], by rw [hpending, hpending₁, modProcess_sigPending],
      .inr ⟨q, rfl, by rw [hqueue, hqueue₁, hsome], ?_⟩⟩
    rw [hmask, hmask₁, (handlerMask_queue ..).1]
    rfl

private theorem handleSignal_isSome_of_none (hd : dequeueSignal (s.sys.sigMask thr) (s.sys.sigQueue thr) = none) :
    (handleSignal s thr).isSome ↔ (s.sys.sigQueue thr = [] → ¬ Walks (s.sys.sigMask thr) s.head (s.saMask 2)) := by
  rw [handleSignal, hd, Option.isSome_map, nosig, Option.isSome_map]
  exact isPending_isSome_iff

private theorem handleSignal_isSome_of_some {q : SigQueue}
    (hd : dequeueSignal (s.sys.sigMask thr) (s.sys.sigQueue thr) = some (q, queue))
    (ha : (actSignal s thr q.signal).isSome) : (handleSignal s thr).isSome ↔
      (queue = [] → ¬ Walks (s.sys.sigMask thr ||| handlerMask s thr q.signal) s.head (linkAfter s thr q.signal)) := by
  rw [← actSignal_queue s thr q.signal queue] at ha
  obtain ⟨s₁, hact⟩ := Option.isSome_iff_exists.1 ha
  obtain ⟨hqueue, -, hmask, hhead, hlink⟩ := actSignal_fields hact
  obtain ⟨hm, hl⟩ := handlerMask_queue s thr q.signal queue
  rw [modProcess_sigQueue] at hqueue
  rw [hm] at hmask
  rw [hl] at hlink
  rw [handleSignal, hd]
  simp only [hact, Option.bind_some, Option.isSome_map, nosig]
  rw [isPending_isSome_iff, hqueue, hmask, hhead, hlink]
  rfl

end

/-! ### The system -/

/-- The state, and the signals that have been sent to the process and delivered to it. -/
structure SigState (τ ρ : Type*) where
  s : SigSys τ ρ
  sent : List Int
  delivered : List Int

inductive SigOp where
  | send (signal : Int) (sinfo : Option Siginfo) (sq : Bool)
  | mask (how : Int) (set : Option (BitVec 32))
  | handle

def SigState.handle (thr : τ) (x : SigState τ ρ) : Option (SigState τ ρ) :=
  (handleSignal x.s thr).map fun r => ⟨r.1, x.sent, r.2.toList ++ x.delivered⟩

/-- The process exits on the signal that would be delivered. -/
def SigState.Exits (thr : τ) (x : SigState τ ρ) : Prop :=
  ∃ q queue, dequeueSignal (x.s.sys.sigMask thr) (x.s.sys.sigQueue thr) = some (q, queue) ∧
    actSignal x.s thr q.signal = none

/-- A signal from 1 to 31 that is not ignored is sent, and counts when the call does not fail; the mask is changed; a
signal is handled when `sigpending` is set, and the process does not exit.  If `handle_signal` does not return, the
state after it can be any. -/
def SigStep (thr : τ) (x : SigState τ ρ) (op : SigOp) (x' : SigState τ ρ) : Prop :=
  match op with
  | .send signal sinfo sq =>
    let r := sendSignal x.s.sys thr signal sinfo sq
    1 ≤ signal ∧ signal ≤ 31 ∧ (x.s.sys.process (x.s.sys.proc thr)).saHandler (signal - 1) ≠ sigIgn ∧
      x' = ⟨{ x.s with sys := r.1 }, if r.2 = 0 then signal :: x.sent else x.sent, x.delivered⟩
  | .mask how set => x' = { x with s := { x.s with sys := (sigprocmask x.s.sys thr how set).1 } }
  | .handle => x.s.sys.sigPending thr ≠ 0 ∧ ¬ x.Exits thr ∧ ∀ y, x.handle thr = some y → x' = y

def SigReturns (thr : τ) (step : SigState τ ρ × SigOp × SigState τ ρ) : Prop :=
  match step.2.1 with
  | .handle => (step.1.handle thr).isSome
  | _ => True

omit [DecidableEq τ] [DecidableEq ρ] in
/-- A signal that is sent, not delivered and not blocked makes `sigpending` set. -/
def SigState.Shown (thr : τ) (x : SigState τ ρ) : Prop :=
  ∀ signal, x.delivered.count signal < x.sent.count signal → checkSet (x.s.sys.sigMask thr) signal = false →
    x.s.sys.sigPending thr ≠ 0

omit [DecidableEq τ] [DecidableEq ρ] in
def SigState.AllDelivered (x : SigState τ ρ) : Prop :=
  ∀ signal, x.delivered.count signal = x.sent.count signal

omit [DecidableEq ρ] in
/-- The return from a handler sets the mask back to the one in the frame. -/
def SigState.signalReturn (thr : τ) (x : SigState τ ρ) (mask : BitVec 32) : SigState τ ρ :=
  { x with s := { x.s with sys := x.s.sys.setMask thr mask } }

/-- `handle_signal` and the return from the handler while `sigpending` is set, so many times at most. -/
def handleAll (thr : τ) : Nat → SigState τ ρ → Option (SigState τ ρ)
  | 0, x => some x
  | n + 1, x =>
    if x.s.sys.sigPending thr = 0 then some x
    else
      (x.handle thr).bind fun x' => handleAll thr n (x'.signalReturn thr (x.s.sys.sigMask thr))

/-- A signal is not blocked when it is sent.  A new mask lets a queued signal through only when the old one does.  When
`handle_signal` takes a signal, and those that its handler blocks are added to the mask, a signal of the rest of the
queue can be delivered only when this holds without the last one, and if the rest is empty `is_pending` stays in the
queue. -/
def SigGuard (thr : τ) (step : SigState τ ρ × SigOp × SigState τ ρ) : Prop :=
  let mask := step.1.s.sys.sigMask thr
  let queue := step.1.s.sys.sigQueue thr
  match step.2.1 with
  | .send signal _ _ => checkSet mask signal = false
  | .mask how set => Deliverable ((sigprocmask step.1.s.sys thr how set).1.sigMask thr) queue → Deliverable mask queue
  | .handle =>
    match dequeueSignal mask queue with
    | none => queue = [] → ¬ Walks mask step.1.s.head (step.1.s.saMask 2)
    | some (q, rest) =>
      let mask' := mask ||| handlerMask step.1.s thr q.signal
      (Deliverable mask' rest → Deliverable mask' rest.dropLast) ∧
        (rest = [] → ¬ Walks mask' step.1.s.head (linkAfter step.1.s thr q.signal))

/-! ### The invariant -/

section

omit [DecidableEq τ] [DecidableEq ρ]

/-- What is sent is delivered or in the queue. -/
def SigState.Kept (thr : τ) (x : SigState τ ρ) : Prop :=
  ∀ signal, x.sent.count signal =
    x.delivered.count signal + ((x.s.sys.sigQueue thr).map SigQueue.signal).count signal

/-- Moreover `sigpending` is set when a signal of the queue is not blocked. -/
structure SigInv (thr : τ) (x : SigState τ ρ) : Prop where
  kept : x.Kept thr
  pending : Deliverable (x.s.sys.sigMask thr) (x.s.sys.sigQueue thr) → x.s.sys.sigPending thr ≠ 0

theorem SigState.Kept.allDelivered_iff {thr : τ} {x : SigState τ ρ} (h : x.Kept thr) :
    x.AllDelivered ↔ x.s.sys.sigQueue thr = [] := by
  constructor
  · intro hall
    refine List.eq_nil_iff_forall_not_mem.2 fun sq hsq => ?_
    have hpos := List.count_pos_iff.2 (List.mem_map_of_mem (f := SigQueue.signal) hsq)
    have := h sq.signal
    have := hall sq.signal
    omega
  · intro hnil signal
    have := h signal
    rw [hnil, List.map_nil, List.count_nil] at this
    exact this.symm

theorem SigInv.shown {thr : τ} {x : SigState τ ρ} (h : SigInv thr x) : x.Shown thr := by
  intro signal hlt hfree
  have hcount := h.kept signal
  have hpos : 0 < ((x.s.sys.sigQueue thr).map SigQueue.signal).count signal := by omega
  obtain ⟨sq, hsq, rfl⟩ := List.mem_map.1 (List.count_pos_iff.1 hpos)
  exact h.pending ⟨sq, hsq, hfree⟩

end

variable {thr : τ} {x x' : SigState τ ρ}

theorem SigState.Kept.handle (h : x.Kept thr) (hx : x.handle thr = some x') : x'.Kept thr := by
  obtain ⟨⟨s', out⟩, hr, rfl⟩ := Option.map_eq_some_iff.1 hx
  intro signal
  obtain ⟨-, -, -, -, -, ⟨rfl, -, -, hqueue⟩ | ⟨q, rfl, hdeq, -⟩⟩ := handleSignal_cases hr
  · rw [hqueue]
    exact h signal
  · have hperm := ((dequeueSignal_perm hdeq).map SigQueue.signal).count_eq signal
    have := h signal
    simp only [Option.toList_some, List.cons_append, List.nil_append, List.map_cons, List.count_cons] at hperm ⊢
    omega

theorem SigGuard.returns (hg : SigGuard thr (x, .handle, x')) (hex : ¬ x.Exits thr) : (x.handle thr).isSome := by
  rw [SigState.handle, Option.isSome_map]
  simp only [SigGuard] at hg
  split at hg
  · rename_i hd
    exact (handleSignal_isSome_of_none hd).2 hg
  · rename_i q rest hd
    refine (handleSignal_isSome_of_some hd ?_).2 hg.2
    by_contra hnone
    exact hex ⟨q, rest, hd, Option.not_isSome_iff_eq_none.1 hnone⟩

omit [DecidableEq τ] [DecidableEq ρ] in
private theorem not_deliverable_of_none {mask : BitVec 32} (h : dequeueSignal mask queue = none) :
    ¬ Deliverable mask queue := by
  rintro ⟨sq, hsq, hfree⟩
  induction queue with
  | nil => cases hsq
  | cons q queue ih =>
    rw [dequeueSignal] at h
    split at h
    · rename_i hb
      rcases List.mem_cons.1 hsq with rfl | hsq
      · rw [hfree] at hb
        cases hb
      · exact ih (Option.map_eq_none_iff.1 h) hsq
    · cases h

theorem SigInv.handle (h : SigInv thr x) (hx : x.handle thr = some x') (hpend : x.s.sys.sigPending thr ≠ 0)
    (hg : SigGuard thr (x, .handle, x')) : SigInv thr x' := by
  refine ⟨h.kept.handle hx, fun hdel => ?_⟩
  obtain ⟨⟨s', out⟩, hr, rfl⟩ := Option.map_eq_some_iff.1 hx
  obtain ⟨head, link, b, hb, hpending, hcases⟩ := handleSignal_cases hr
  simp only at hdel ⊢
  have hlast : Deliverable (s'.sys.sigMask thr) (s'.sys.sigQueue thr).dropLast := by
    simp only [SigGuard] at hg
    rcases hcases with ⟨-, hd, hmask, hqueue⟩ | ⟨q, -, hd, hmask⟩
    · rw [hmask, hqueue] at hdel
      exact absurd hdel (not_deliverable_of_none hd)
    · rw [hd] at hg
      rw [hmask] at hdel ⊢
      exact hg.1 hdel
  have hne : s'.sys.sigQueue thr ≠ [] := by
    obtain ⟨sq, hsq, -⟩ := hdel
    exact List.ne_nil_of_mem hsq
  obtain ⟨b', hb', hiff⟩ := isPending_of_ne_nil (s'.sys.sigMask thr) head link hne
  cases hb.symm.trans hb'
  rw [hpending, hiff.2 hlast, if_pos rfl]
  exact hpend

omit [DecidableEq ρ] in
private theorem sigprocmask_fields (s : Sys τ ρ) (thr : τ) (how : Int) (set : Option (BitVec 32)) :
    (sigprocmask s thr how set).1.sigPending thr = s.sigPending thr ∧
    (sigprocmask s thr how set).1.sigQueue thr = s.sigQueue thr := by
  cases set with
  | none => exact ⟨rfl, rfl⟩
  | some set =>
    simp only [sigprocmask]
    split_ifs <;> simp

private theorem sendSignal_fields (s : Sys τ ρ) {signal : Int} (sinfo : Option Siginfo) (sq : Bool) (h1 : 1 ≤ signal)
    (h31 : signal ≤ 31) (hfree : checkSet (s.sigMask thr) signal = false)
    (hign : (s.process (s.proc thr)).saHandler (signal - 1) ≠ sigIgn) :
    (sq = false ∧ sendSignal s thr signal sinfo sq = (s, -eagain)) ∨ ((sendSignal s thr signal sinfo sq).2 = 0 ∧
      (sendSignal s thr signal sinfo sq).1.sigQueue thr = ⟨signal, sinfo⟩ :: s.sigQueue thr ∧
      (sendSignal s thr signal sinfo sq).1.sigPending thr = 1) := by
  have hrange : ¬ (signal < 0 ∨ signal > maxSignal) := by
    simp only [maxSignal]
    omega
  rw [Sys.sigMask] at hfree
  rw [sendSignal, if_neg hrange, if_neg (by simp [hfree]), if_neg hign]
  cases sq with
  | false => exact .inl ⟨rfl, rfl⟩
  | true =>
    refine .inr ⟨rfl, ?_, ?_⟩
    · rw [if_neg (by simp)]
      refine (noque_fields _ thr).2.2.trans ?_
      simp [Sys.sigQueue]
    · rw [if_neg (by simp)]
      refine (noque_fields _ thr).2.1.trans ?_
      simp [Sys.sigPending, Kernel.modThread]

theorem SigInv.step {op : SigOp} (h : SigInv thr x) (hg : SigGuard thr (x, op, x')) (hst : SigStep thr x op x') :
    SigInv thr x' ∧ SigReturns thr (x, op, x') := by
  cases op with
  | send signal sinfo sq =>
    obtain ⟨h1, h31, hign, rfl⟩ := hst
    rcases sendSignal_fields x.s.sys sinfo sq h1 h31 hg hign with ⟨-, heq⟩ | ⟨hret, hqueue, hpending⟩
    · rw [heq]
      exact ⟨h, trivial⟩
    · refine ⟨⟨fun y => ?_, fun _ => by simp [hpending]⟩, trivial⟩
      have := h.kept y
      simp only [hret, hqueue, if_true, List.map_cons, List.count_cons]
      omega
  | mask how set =>
    obtain rfl := hst
    obtain ⟨hpending, hqueue⟩ := sigprocmask_fields x.s.sys thr how set
    refine ⟨⟨fun y => ?_, fun hdel => ?_⟩, trivial⟩
    · have := h.kept y
      rwa [← hqueue] at this
    · simp only [hqueue, hpending] at hdel ⊢
      exact h.pending (hg hdel)
  | handle =>
    obtain ⟨hpend, hex, hx⟩ := hst
    have hret := hg.returns hex
    obtain ⟨y, hy⟩ := Option.isSome_iff_exists.1 hret
    obtain rfl := hx y hy
    exact ⟨h.handle hy hpend hg, hret⟩

/-! ### All signals are unblocked -/

private theorem handleAll_inv (I : SigState τ ρ → Prop)
    (hI : ∀ x x', I x → x.s.sys.sigPending thr ≠ 0 → x.handle thr = some x' →
      I (x'.signalReturn thr (x.s.sys.sigMask thr))) {n : Nat} (h : I x) (hx : handleAll thr n x = some x') : I x' := by
  induction n generalizing x with
  | zero =>
    cases hx
    exact h
  | succ n ih =>
    rw [handleAll] at hx
    split at hx
    · cases hx
      exact h
    · rename_i hpend
      obtain ⟨x₁, hx₁, hx⟩ := Option.bind_eq_some_iff.1 hx
      exact ih (hI x x₁ h hpend hx₁) hx

private theorem handle_of_unblocked (hmask : x.s.sys.sigMask thr = 0) (hx : x.handle thr = some x') :
    x'.s.sys.sigQueue thr = (x.s.sys.sigQueue thr).tail ∧
    ((x'.s.sys.sigQueue thr).length = 1 → x'.s.sys.sigPending thr = 0) := by
  obtain ⟨⟨s', out⟩, hr, rfl⟩ := Option.map_eq_some_iff.1 hx
  obtain ⟨head, link, b, hb, hpending, hcases⟩ := handleSignal_cases hr
  rw [hmask] at hcases
  constructor
  · cases hq : x.s.sys.sigQueue thr with
    | nil =>
      rw [hq] at hcases
      obtain ⟨-, -, -, hqueue⟩ | ⟨_, -, hdeq, -⟩ := hcases
      · exact hqueue
      · cases hdeq
    | cons sq queue =>
      rw [hq, dequeueSignal_zero] at hcases
      obtain ⟨-, hnone, -⟩ | ⟨_, -, hdeq, -⟩ := hcases
      · cases hnone
      · cases hdeq
        rfl
  · intro hlen
    obtain ⟨sq, hsq⟩ := List.length_eq_one_iff.1 hlen
    simp only at hsq ⊢
    rw [hsq, isPending] at hb
    rw [hpending, ← Option.some.inj hb, if_neg (by simp)]

private theorem handleAll_of_nil (n : Nat) (hmask : x.s.sys.sigMask thr = 0) (hnil : x.s.sys.sigQueue thr = []) :
    ∃ x', handleAll thr n x = some x' ∧ x'.s.sys.sigQueue thr = [] := by
  induction n generalizing x with
  | zero => exact ⟨x, rfl, hnil⟩
  | succ n ih =>
    rw [handleAll]
    split
    · exact ⟨x, rfl, hnil⟩
    · have hd : dequeueSignal (x.s.sys.sigMask thr) (x.s.sys.sigQueue thr) = none := by
        rw [hnil]
        rfl
      have hsome : (x.handle thr).isSome := by
        rw [SigState.handle, Option.isSome_map, handleSignal_isSome_of_none hd, hmask]
        rintro - ⟨-, hb⟩
        simp [checkSet] at hb
      obtain ⟨x₁, hx₁⟩ := Option.isSome_iff_exists.1 hsome
      rw [hx₁, Option.bind_some]
      refine ih ((setMask_sigMask ..).trans hmask) ?_
      exact (handle_of_unblocked hmask hx₁).1.trans (by rw [hnil, List.tail_nil])

private theorem handleAll_ne_nil {n : Nat} (hmask : x.s.sys.sigMask thr = 0)
    (htwo : 2 ≤ (x.s.sys.sigQueue thr).length) (hx : handleAll thr n x = some x') : x'.s.sys.sigQueue thr ≠ [] := by
  have hinv := handleAll_inv (fun x => x.s.sys.sigMask thr = 0 ∧
    (2 ≤ (x.s.sys.sigQueue thr).length ∨ ((x.s.sys.sigQueue thr).length = 1 ∧ x.s.sys.sigPending thr = 0))) ?_
    ⟨hmask, .inl htwo⟩ hx
  · intro hnil
    simp [hnil] at hinv
  · rintro x x' ⟨hmask, h⟩ hpend hx
    obtain ⟨hqueue, hone⟩ := handle_of_unblocked hmask hx
    have htwo : 2 ≤ (x.s.sys.sigQueue thr).length := h.resolve_right fun h => hpend h.2
    refine ⟨(setMask_sigMask ..).trans hmask, ?_⟩
    simp only [SigState.signalReturn, setMask_sigQueue, setMask_sigPending]
    have hlen : (x'.s.sys.sigQueue thr).length = (x.s.sys.sigQueue thr).length - 1 := by
      rw [hqueue, List.length_tail]
    rcases Nat.lt_or_ge 1 (x'.s.sys.sigQueue thr).length with hlt | hle
    · exact .inl hlt
    · have hlen1 : (x'.s.sys.sigQueue thr).length = 1 := by omega
      exact .inr ⟨hlen1, hone hlen1⟩

private theorem handleAll_kept {n : Nat} (h : x.Kept thr) (hx : handleAll thr n x = some x') : x'.Kept thr :=
  handleAll_inv (fun x => x.Kept thr) (fun _ x' h _ hx => show x'.Kept thr from h.handle hx) h hx

private theorem handle_one_isSome {sq : SigQueue} (hmask : x.s.sys.sigMask thr = 0) (hq : x.s.sys.sigQueue thr = [sq])
    (hact : (actSignal x.s thr sq.signal).isSome) :
    (x.handle thr).isSome ↔ ¬ Walks (handlerMask x.s thr sq.signal) x.s.head (linkAfter x.s thr sq.signal) := by
  have hd : dequeueSignal (x.s.sys.sigMask thr) (x.s.sys.sigQueue thr) = some (sq, []) := by
    rw [hmask, hq, dequeueSignal_zero]
  rw [SigState.handle, Option.isSome_map, handleSignal_isSome_of_some hd hact, hmask]
  simp

/-- When no signal is blocked, the calls deliver all that is sent exactly when the queue holds at most one signal, for
whose handler `is_pending` stays in the queue. -/
theorem SigInv.allDelivered_iff (h : SigInv thr x) (hmask : x.s.sys.sigMask thr = 0)
    (hact : ∀ q ∈ x.s.sys.sigQueue thr, (actSignal x.s thr q.signal).isSome) :
    (∀ n, (x.s.sys.sigQueue thr).length ≤ n → ∃ x', handleAll thr n x = some x' ∧ x'.AllDelivered) ↔
      (x.s.sys.sigQueue thr).length ≤ 1 ∧
        ∀ q ∈ x.s.sys.sigQueue thr, ¬ Walks (handlerMask x.s thr q.signal) x.s.head (linkAfter x.s thr q.signal) := by
  have hpend : ∀ sq, x.s.sys.sigQueue thr = [sq] → x.s.sys.sigPending thr ≠ 0 := fun sq hq =>
    h.pending ⟨sq, by simp [hq], by simp [hmask, checkSet]⟩
  constructor
  · intro hall
    obtain ⟨x', hx, hdel⟩ := hall _ le_rfl
    have hone : (x.s.sys.sigQueue thr).length ≤ 1 := by
      by_contra hlt
      exact handleAll_ne_nil hmask (by omega) hx ((handleAll_kept h.kept hx).allDelivered_iff.1 hdel)
    refine ⟨hone, fun q hqm => ?_⟩
    obtain ⟨sq, hq⟩ := List.length_eq_one_iff.1 (le_antisymm hone (List.length_pos_of_mem hqm))
    obtain rfl : q = sq := by simpa [hq] using hqm
    rw [hq, List.length_singleton, handleAll, if_neg (hpend q hq)] at hx
    obtain ⟨x₁, hx₁, -⟩ := Option.bind_eq_some_iff.1 hx
    exact (handle_one_isSome hmask hq (hact q hqm)).1 (Option.isSome_iff_exists.2 ⟨x₁, hx₁⟩)
  · rintro ⟨hle, hstay⟩ n hlen
    have hdone : ∃ x', handleAll thr n x = some x' ∧ x'.s.sys.sigQueue thr = [] := by
      cases hq : x.s.sys.sigQueue thr with
      | nil => exact handleAll_of_nil n hmask hq
      | cons sq queue =>
        obtain rfl : queue = [] := by
          rw [hq, List.length_cons] at hle
          exact List.length_eq_zero_iff.1 (by omega)
        have hm : sq ∈ x.s.sys.sigQueue thr := by simp [hq]
        obtain ⟨x₁, hx₁⟩ := Option.isSome_iff_exists.1 ((handle_one_isSome hmask hq (hact sq hm)).2 (hstay sq hm))
        cases n with
        | zero => simp [hq] at hlen
        | succ n =>
          rw [handleAll, if_neg (hpend sq hq), hx₁, Option.bind_some]
          refine handleAll_of_nil n ((setMask_sigMask ..).trans hmask) ?_
          exact (handle_of_unblocked hmask hx₁).1.trans (by rw [hq, List.tail_cons])
    obtain ⟨x', hx, hnil⟩ := hdone
    exact ⟨x', hx, (handleAll_kept h.kept hx).allDelivered_iff.2 hnil⟩

omit [DecidableEq τ] [DecidableEq ρ] in
/-- Nothing has been sent. -/
structure SigState.New (thr : τ) (x : SigState τ ρ) : Prop where
  queue : x.s.sys.sigQueue thr = []
  sent : x.sent = []
  delivered : x.delivered = []

omit [DecidableEq τ] [DecidableEq ρ] in
theorem SigState.New.inv (h : x.New thr) : SigInv thr x := by
  constructor
  · intro signal
    rw [h.queue, h.sent, h.delivered]
    rfl
  · rw [h.queue]
    rintro ⟨_, hsq, -⟩
    cases hsq

/-- While the steps keep `SigGuard`, `sigpending` is set whenever a signal can be delivered.  Then, with no signal
blocked, the calls of `handle_signal` deliver everything exactly if there is at most one signal in the queue and
`is_pending` does not go on behind it. -/
theorem signals_not_lost (thr : τ) (x₀ x : SigState τ ρ) (tr : List (SigState τ ρ × SigOp × SigState τ ρ))
    (hnew : x₀.New thr) (hr : Run (SigStep thr) x₀ tr x) (hg : ∀ step ∈ tr, SigGuard thr step) :
    (∀ step ∈ tr, SigReturns thr step ∧ step.2.2.Shown thr) ∧
    (x.s.sys.sigMask thr = 0 → (∀ q ∈ x.s.sys.sigQueue thr, (actSignal x.s thr q.signal).isSome) →
      ((∀ n, (x.s.sys.sigQueue thr).length ≤ n → ∃ x', handleAll thr n x = some x' ∧ x'.AllDelivered) ↔
        (x.s.sys.sigQueue thr).length ≤ 1 ∧ ∀ q ∈ x.s.sys.sigQueue thr,
            ¬ Walks (handlerMask x.s thr q.signal) x.s.head (linkAfter x.s thr q.signal))) := by
  constructor
  · refine hr.forall_of_guard (SigInv thr) (SigGuard thr) (fun step => SigReturns thr step ∧ step.2.2.Shown thr)
      hnew.inv ?_ hg
    intro x op x' h hg hst
    obtain ⟨h', hret⟩ := h.step hg hst
    exact ⟨h', hret, h'.shown⟩
  · have h : SigInv thr x :=
      hr.inv_of_guard (SigInv thr) (SigGuard thr) hnew.inv (fun _ _ _ h hg hst => (h.step hg hst).1) hg
    exact h.allDelivered_iff

end

/-! ### A process with a handler for every signal -/

/-- One thread, which blocks the signals of `mask`, and to which the signals of `queue` have been sent. -/
def handlers (mask pending : BitVec 32) (queue delivered : List Int) : SigState Unit Unit where
  s :=
    { sys :=
        { k := .ofThreads [()] (fun _ => { Thread.ready 7 10 with saMask := mask, sigpending := pending }) ()
          proc := id
          process := fun _ => ⟨0, fun _ => 0x1000, queue.map (⟨·, none⟩)⟩
          pcIrq := fun _ => ⟨0, ()⟩ }
      saMask := fun _ => 0
      saFlags := fun _ => 0
      head := 0x2000 }
  sent := queue ++ delivered
  delivered := delivered

private theorem handlers_new (mask : BitVec 32) : (handlers mask 0 [] []).New () := ⟨rfl, rfl, rfl⟩

/-- One signal is sent and delivered. -/
theorem signals_not_lost_one : (handlers 0 1 [9] []).Shown () ∧
    ∀ n, 1 ≤ n → ∃ x', handleAll () n (handlers 0 1 [9] []) = some x' ∧ x'.AllDelivered := by
  have hstep : SigStep () (handlers 0 0 [] []) (.send 9 none true) (handlers 0 1 [9] []) :=
    ⟨by decide, by decide, by decide, rfl⟩
  obtain ⟨hshown, hall⟩ := signals_not_lost () (handlers 0 0 [] []) (handlers 0 1 [9] []) _ (handlers_new 0)
    (.snoc .nil hstep) (by simp [SigGuard, handlers, Kernel.ofThreads, Sys.sigMask, checkSet])
  refine ⟨(hshown (_, _, handlers 0 1 [9] []) (List.mem_singleton_self _)).2, (hall rfl ?_).2 ⟨by decide, ?_⟩⟩
  · intro q hq
    obtain rfl : q = ⟨9, none⟩ := List.mem_singleton.1 hq
    rfl
  · rintro q hq ⟨-, hb⟩
    obtain rfl : q = ⟨9, none⟩ := List.mem_singleton.1 hq
    exact absurd hb (by decide)

/-- Signal 9 and then signal 10 are sent, and 10 is delivered: 9 is the last in the queue and `sigpending` is cleared. A
signal that is blocked when it is sent is lost. -/
theorem signal_left_behind : (∃ tr x, Run (SigStep ()) (handlers 0 0 [] []) tr x ∧
      tr.map (·.2.1) = [.send 9 none true, .send 10 none true, .handle] ∧ ¬ x.Shown ()) ∧
    (∃ tr x, Run (SigStep ()) (handlers 0x200 0 [] []) tr x ∧
      tr.map (·.2.1) = [.send 9 none true, .mask 4 (some 0)] ∧ ¬ x.Shown ()) := by
  constructor
  · have h9 : SigStep () (handlers 0 0 [] []) (.send 9 none true) (handlers 0 1 [9] []) :=
      ⟨by decide, by decide, by decide, rfl⟩
    have h10 : SigStep () (handlers 0 1 [9] []) (.send 10 none true) (handlers 0 1 [10, 9] []) :=
      ⟨by decide, by decide, by decide, rfl⟩
    have hhandle : SigStep () (handlers 0 1 [10, 9] []) .handle { handlers 0 0 [9] [10] with sent := [10, 9] } := by
      refine ⟨by decide, ?_, fun y hy => Option.some.inj hy⟩
      rintro ⟨q, queue, hd, hact⟩
      cases hd
      cases hact
    exact ⟨_, _, .snoc (.snoc (.snoc .nil h9) h10) hhandle, rfl, fun h => h 9 (by decide) (by decide) rfl⟩
  · have h9 : SigStep () (handlers 0x200 0 [] []) (.send 9 none true) { handlers 0x200 0 [] [] with sent := [9] } :=
      ⟨by decide, by decide, by decide, rfl⟩
    have hmask : SigStep () { handlers 0x200 0 [] [] with sent := [9] } (.mask 4 (some 0))
        { handlers 0 0 [] [] with sent := [9] } := rfl
    exact ⟨_, _, .snoc (.snoc .nil h9) hmask, rfl, fun h => h 9 (by decide) (by decide) rfl⟩

end Manrix
