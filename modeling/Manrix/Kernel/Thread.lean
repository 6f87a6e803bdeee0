import Mathlib.Data.BitVec
import Manrix.Lib.Queues
import Manrix.LinkedList

/-!
# Threads and the kernel state (`kernel/thread.h`, `kernel/message.h`, `kernel/scheduling.h`)

The state word of a thread, the message it carries, the thread structure and the part of the kernel state that the
scheduler and the message primitives work on.  Pointers to threads are the elements of an arbitrary type `τ`.  The link
field `runq` of the threads is one store whose heads are the lists `runqueue[cpu].run[index]`, the link field `sndq` one
whose heads are the lists `rcvq` of the threads.
-/

namespace Manrix

def threadReady : BitVec 32 := 0x02
def threadBlocked : BitVec 32 := 0x10
def threadUnint : BitVec 32 := 0x04 ||| threadBlocked
def threadInt : BitVec 32 := 0x08 ||| threadBlocked
def sendBlocked : BitVec 32 := 0x20 ||| threadBlocked ||| threadUnint
def receiveBlocked : BitVec 32 := 0x40 ||| threadBlocked ||| threadUnint
def replyBlocked : BitVec 32 := 0x80 ||| threadBlocked ||| threadUnint

def msgShort : BitVec 16 := 1
def msgMapSend : BitVec 16 := 4
def msgMapReceive : BitVec 16 := 8
def msgNoreply : BitVec 16 := 0x20

/-- `struct message`, in the order of its fields; `w3` is also `snd_bufsize`, `w4` also `rcv_ptr`, `w5` also
`rcv_bufsize` and `w2` also `snd_ptr`. -/
structure Message where
  w3 : BitVec 32
  w4 : BitVec 32
  w5 : BitVec 32
  dummy1 : BitVec 32
  tid : Int
  w2 : BitVec 32
  w1 : BitVec 32
  dummy : BitVec 16
  flags : BitVec 16
  deriving DecidableEq

def Message.IsShort (m : Message) : Prop := m.flags &&& msgShort ≠ 0

def Message.NoReply (m : Message) : Prop := m.flags &&& msgNoreply ≠ 0

instance (m : Message) : Decidable m.IsShort := inferInstanceAs (Decidable (_ ≠ _))

instance (m : Message) : Decidable m.NoReply := inferInstanceAs (Decidable (_ ≠ _))

/-- The fields of `struct thread` that the scheduler, the message primitives, the interrupt dispatcher and `send_signal`
read or write; its link fields are in the stores of `Kernel`. -/
structure Thread where
  tid : Int
  states : BitVec 32
  schedpolicy : Int
  priorityStat : Int
  priorityDyn : Int
  bound : Int
  timeSlice : Int
  schedule : Int
  cpu : Nat
  msg : Message
  saMask : BitVec 32
  sigpending : BitVec 32
  irqflag : BitVec 32
  deriving DecidableEq

/-- The bit `THREAD_BLOCKED` of the state word. -/
def Thread.Blocked (t : Thread) : Prop := t.states &&& threadBlocked ≠ 0

instance (t : Thread) : Decidable t.Blocked := inferInstanceAs (Decidable (_ ≠ _))

/-- The head of the list `runqueue[cpu].run[index]`. -/
structure RunHead where
  cpu : Nat
  index : Int
  deriving DecidableEq

/-- The kernel state.  `thash` gives the hash chains of the thread table, in the order `find_by_tid` walks them. -/
structure Kernel (τ : Type*) where
  thread : τ → Thread
  runq : Links (Node RunHead τ)
  bitmap : Nat → BitVec 32
  nthreads : Nat → Int
  cpuHint : Nat
  sndq : Links (Node τ τ)
  thash : Nat → List τ
  current : τ
  initThread : τ

/-- The kernel with the thread `t` running. -/
def Kernel.withCurrent {τ : Type*} (k : Kernel τ) (t : τ) : Kernel τ := { k with current := t }

@[simp] theorem withCurrent_current {τ : Type*} (k : Kernel τ) (t : τ) : (k.withCurrent t).current = t := rfl

@[simp] theorem withCurrent_thread {τ : Type*} (k : Kernel τ) (t : τ) :
    (k.withCurrent t).thread = k.thread := rfl

variable {τ : Type*} [DecidableEq τ]

def Kernel.modThread (k : Kernel τ) (t : τ) (f : Thread → Thread) : Kernel τ :=
  { k with thread := Function.update k.thread t (f (k.thread t)) }

section ModThread

variable (k : Kernel τ) (t u : τ) (f : Thread → Thread)

@[simp] theorem modThread_thread_self : (k.modThread t f).thread t = f (k.thread t) := by
  simp [Kernel.modThread]

theorem modThread_thread_of_ne {u : τ} (h : u ≠ t) : (k.modThread t f).thread u = k.thread u := by
  simp [Kernel.modThread, h]

@[simp] theorem modThread_runq : (k.modThread t f).runq = k.runq := rfl

@[simp] theorem modThread_bitmap : (k.modThread t f).bitmap = k.bitmap := rfl

@[simp] theorem modThread_nthreads : (k.modThread t f).nthreads = k.nthreads := rfl

@[simp] theorem modThread_cpuHint : (k.modThread t f).cpuHint = k.cpuHint := rfl

@[simp] theorem modThread_sndq : (k.modThread t f).sndq = k.sndq := rfl

@[simp] theorem modThread_thash : (k.modThread t f).thash = k.thash := rfl

@[simp] theorem modThread_current : (k.modThread t f).current = k.current := rfl

@[simp] theorem modThread_initThread : (k.modThread t f).initThread = k.initThread := rfl

theorem modThread_modThread (g : Thread → Thread) :
    (k.modThread t f).modThread t g = k.modThread t fun th => g (f th) := by
  simp [Kernel.modThread]

theorem modThread_thread_keep {β : Type*} {g : Thread → β} (hg : g (f (k.thread t)) = g (k.thread t)) :
    g ((k.modThread t f).thread u) = g (k.thread u) := by
  by_cases h : u = t
  · subst h; simpa using hg
  · rw [modThread_thread_of_ne k t f h]

end ModThread

def hashSize : Nat := 4096

/-- `hash_fn` on a 32-bit `int`: a bucket of the one page of pointers. -/
def hashFn (x : Int) : Nat :=
  let x := BitVec.ofInt 32 x
  ((x.sshiftRight 8 ^^^ x) &&& BitVec.ofNat 32 (hashSize / 4 - 1)).toNat

/-- The first thread with this `tid` on the chain of the bucket of `tid`; `none` is the `NULL` at its end. -/
def findByTid (k : Kernel τ) (tid : Int) : Option τ :=
  (k.thash (hashFn tid)).find? fun t => (k.thread t).tid = tid

omit [DecidableEq τ] in
theorem findByTid_tid {k : Kernel τ} {tid : Int} {t : τ} (h : findByTid k tid = some t) : (k.thread t).tid = tid := by
  simpa using List.find?_some h

omit [DecidableEq τ] in
theorem findByTid_congr {k k' : Kernel τ} (hh : k'.thash = k.thash)
    (ht : ∀ t, (k'.thread t).tid = (k.thread t).tid) (tid : Int) : findByTid k' tid = findByTid k tid := by
  simp only [findByTid, hh, ht]

def Message.empty : Message := ⟨0, 0, 0, 0, 0, 0, 0, 0, 0⟩

/-- A ready thread of the policy `SCHED_OTHER`. -/
def Thread.ready (tid prio : Int) : Thread :=
  { tid := tid, states := threadReady, schedpolicy := 4, priorityStat := prio, priorityDyn := prio,
    bound := 4, timeSlice := 40, schedule := 0, cpu := 0, msg := .empty, saMask := 0, sigpending := 0, irqflag := 0 }

/-- Every list is empty and every thread is in the bucket of its `tid`. -/
def Kernel.ofThreads (threads : List τ) (thread : τ → Thread) (initThread : τ) : Kernel τ :=
  { thread := thread, runq := ⟨id, id⟩, bitmap := fun _ => 0, nthreads := fun _ => 0, cpuHint := 0,
    sndq := ⟨id, id⟩, thash := fun b => threads.filter fun t => hashFn (thread t).tid = b,
    current := initThread, initThread := initThread }

end Manrix
