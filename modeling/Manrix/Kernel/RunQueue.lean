import Manrix.Kernel.Thread

/-!
# The run queue (`kernel/scheduling.h`)

`enqueue_thread`, `remove_thread` and `wakeup`.  `RunQueues V k q` says that the lists with the heads `V` hold the
threads `q` and that each thread is on the list on which `remove_thread` looks for it; enqueueing a thread that is on no
list and removing one that is on a list keep this.  `QueuedSet V k S` forgets the lists and keeps the set of the threads
on them.

Preemption of the kernel is compiled out (`MANRIX_KPREEMPT`), so `kpreempt_disable` and `kpreempt_enable` do nothing,
and there is one processor (`MAX_CPU` is 1 without `MANRIX_SMP`).
-/

namespace Manrix

open Function Links

def maxCpu : Nat := 1

def npriors : Int := 128

/-- The number of lists in a run queue. -/
def maxq : Int := npriors / 4

/-- The list a priority belongs to; the division of C truncates. -/
def prioq (prio : Int) : Int := prio.tdiv 4

/-- `btsl`, for a bit index in `0..31`. -/
def setBit (bitmap : BitVec 32) (index : Int) : BitVec 32 := bitmap ||| (1#32 <<< index.toNat)

/-- `btrl`, for a bit index in `0..31`. -/
def clearBit (bitmap : BitVec 32) (index : Int) : BitVec 32 := bitmap &&& ~~~(1#32 <<< index.toNat)

variable {τ : Type*} [DecidableEq τ]

def enqueueThread (k : Kernel τ) (thread : τ) : Kernel τ :=
  let index := prioq (k.thread thread).priorityDyn
  let rqlist := Node.head ⟨k.cpuHint, index⟩
  let k := { k with nthreads := update k.nthreads k.cpuHint (k.nthreads k.cpuHint + 1) }
  let k := { k with runq := listEnqueue k.runq rqlist (.obj thread) }
  let k := { k with bitmap := update k.bitmap k.cpuHint (setBit (k.bitmap k.cpuHint) index) }
  k.modThread thread fun t => { t with cpu := k.cpuHint }

def removeThread (k : Kernel τ) (thread : τ) : Kernel τ :=
  let index := prioq (k.thread thread).priorityDyn
  let cpu := (k.thread thread).cpu
  let list := Node.head ⟨cpu, index⟩
  let k := { k with runq := listDel k.runq list (.obj thread) }
  let k := if listIsempty k.runq list then
      { k with bitmap := update k.bitmap cpu (clearBit (k.bitmap cpu) index) }
    else k
  { k with nthreads := update k.nthreads cpu (k.nthreads cpu - 1) }

def wakeup (k : Kernel τ) (thr : τ) : Kernel τ :=
  let k := k.modThread thr fun t => { t with states := threadReady }
  let k := k.modThread thr fun t => { t with priorityDyn := t.priorityStat }
  enqueueThread k thr

/-- The list on which `remove_thread` looks for a thread. -/
def Kernel.home (k : Kernel τ) (t : τ) : RunHead := ⟨(k.thread t).cpu, prioq (k.thread t).priorityDyn⟩

/-- The list on which `wakeup` puts a thread. -/
def Kernel.wakeHead (k : Kernel τ) (t : τ) : RunHead := ⟨k.cpuHint, prioq (k.thread t).priorityStat⟩

section Fields

variable (k : Kernel τ) (t u : τ)

@[simp] theorem enqueueThread_runq : (enqueueThread k t).runq =
      k.runq.splice (.head ⟨k.cpuHint, prioq (k.thread t).priorityDyn⟩) (.obj t) := by
  rw [← listEnqueue_eq]; rfl

@[simp] theorem enqueueThread_thread :
    (enqueueThread k t).thread = update k.thread t { k.thread t with cpu := k.cpuHint } := rfl

theorem enqueueThread_keep {β : Type*} {g : Thread → β} (hg : ∀ t c, g { t with cpu := c } = g t) :
    g ((enqueueThread k t).thread u) = g (k.thread u) := by
  rw [enqueueThread_thread, update_apply]
  split
  · subst_vars; exact hg _ _
  · rfl

theorem wakeup_keep {β : Type*} {g : Thread → β}
    (hg : ∀ t s p c, g { t with states := s, priorityDyn := p, cpu := c } = g t) :
    g ((wakeup k t).thread u) = g (k.thread u) := by
  unfold wakeup
  rw [enqueueThread_keep _ _ _ fun t c => hg t t.states t.priorityDyn c, modThread_modThread]
  apply modThread_thread_keep
  exact hg (k.thread t) threadReady (k.thread t).priorityStat (k.thread t).cpu

@[simp] theorem enqueueThread_bitmap : (enqueueThread k t).bitmap =
    update k.bitmap k.cpuHint (setBit (k.bitmap k.cpuHint) (prioq (k.thread t).priorityDyn)) := rfl

@[simp] theorem enqueueThread_nthreads :
    (enqueueThread k t).nthreads = update k.nthreads k.cpuHint (k.nthreads k.cpuHint + 1) := rfl

@[simp] theorem enqueueThread_cpuHint : (enqueueThread k t).cpuHint = k.cpuHint := rfl

@[simp] theorem enqueueThread_sndq : (enqueueThread k t).sndq = k.sndq := rfl

@[simp] theorem enqueueThread_thash : (enqueueThread k t).thash = k.thash := rfl

@[simp] theorem enqueueThread_current : (enqueueThread k t).current = k.current := rfl

@[simp] theorem enqueueThread_initThread : (enqueueThread k t).initThread = k.initThread := rfl

@[simp] theorem removeThread_runq : (removeThread k t).runq = k.runq.unlink (.obj t) := by
  rw [← listDel_eq k.runq (.head (k.home t)) (.obj t)]
  simp only [removeThread, Kernel.home]
  split <;> rfl

@[simp] theorem removeThread_thread : (removeThread k t).thread = k.thread := by
  simp only [removeThread]; split <;> rfl

@[simp] theorem removeThread_nthreads : (removeThread k t).nthreads =
    update k.nthreads (k.thread t).cpu (k.nthreads (k.thread t).cpu - 1) := by
  simp only [removeThread]; split <;> rfl

@[simp] theorem removeThread_cpuHint : (removeThread k t).cpuHint = k.cpuHint := by
  simp only [removeThread]; split <;> rfl

@[simp] theorem removeThread_sndq : (removeThread k t).sndq = k.sndq := by
  simp only [removeThread]; split <;> rfl

@[simp] theorem removeThread_thash : (removeThread k t).thash = k.thash := by
  simp only [removeThread]; split <;> rfl

@[simp] theorem removeThread_current : (removeThread k t).current = k.current := by
  simp only [removeThread]; split <;> rfl

@[simp] theorem removeThread_initThread : (removeThread k t).initThread = k.initThread := by
  simp only [removeThread]; split <;> rfl

theorem removeThread_bitmap : (removeThread k t).bitmap = if listIsempty (removeThread k t).runq (.head (k.home t)) then
      update k.bitmap (k.thread t).cpu (clearBit (k.bitmap (k.thread t).cpu) (k.home t).index) else k.bitmap := by
  have hl : (removeThread k t).runq = listDel k.runq (.head (k.home t)) (.obj t) := by
    rw [removeThread_runq, listDel_eq]
  rw [hl]
  simp only [removeThread, Kernel.home]
  split <;> simp_all

end Fields

/-- The lists with the heads `V` hold the threads `q`, each thread on the list `remove_thread` takes it from. -/
structure RunQueues (V : RunHead → Prop) (k : Kernel τ) (q : RunHead → List τ) : Prop where
  queues : Queues V k.runq q
  home : ∀ h t, t ∈ q h → k.home t = h

variable {V : RunHead → Prop} {k k' : Kernel τ} {q : RunHead → List τ} {h : RunHead} {t : τ}

omit [DecidableEq τ] in
theorem RunQueues.congr (hq : RunQueues V k q) (hr : k'.runq = k.runq)
    (hh : ∀ h t, t ∈ q h → k'.home t = k.home t) : RunQueues V k' q :=
  ⟨hr ▸ hq.queues, fun h t ht => (hh h t ht).trans (hq.home h t ht)⟩

theorem RunQueues.enqueueThread (hq : RunQueues V k q) (hV : V ⟨k.cpuHint, prioq (k.thread t).priorityDyn⟩)
    (ht : ∀ h, t ∉ q h) : RunQueues V (enqueueThread k t) (update q ⟨k.cpuHint, prioq (k.thread t).priorityDyn⟩
      (t :: q ⟨k.cpuHint, prioq (k.thread t).priorityDyn⟩)) := by
  refine ⟨?_, fun h u hu => ?_⟩
  · rw [enqueueThread_runq]
    exact hq.queues.splice hV ht
  · by_cases hut : u = t
    · subst hut
      have hh : h = ⟨k.cpuHint, prioq (k.thread u).priorityDyn⟩ := by
        by_contra hne
        rw [update_of_ne hne] at hu
        exact ht h hu
      simp [Kernel.home, hh]
    · have hu' : u ∈ q h := by
        simp only [update_apply] at hu
        split at hu
        · rcases List.mem_cons.1 hu with rfl | hu
          · exact absurd rfl hut
          · subst_vars; exact hu
        · exact hu
      rw [← hq.home h u hu']
      simp [Kernel.home, hut]

theorem RunQueues.removeThread (hq : RunQueues V k q) (ht : t ∈ q h) :
    RunQueues V (removeThread k t) (update q h ((q h).erase t)) := by
  refine ⟨?_, fun h' u hu => ?_⟩
  · rw [removeThread_runq]
    exact hq.queues.unlink ht
  · have hu' : u ∈ q h' := by
      simp only [update_apply] at hu
      split at hu
      · subst_vars; exact List.mem_of_mem_erase hu
      · exact hu
    rw [← hq.home h' u hu']
    simp [Kernel.home]

/-- Exactly the threads `S` are on a list. -/
def QueuedSet (V : RunHead → Prop) (k : Kernel τ) (S : τ → Prop) : Prop :=
  ∃ q, RunQueues V k q ∧ ∀ t, (∃ h, t ∈ q h) ↔ S t

variable {S S' : τ → Prop}

omit [DecidableEq τ] in
theorem QueuedSet.congr (hq : QueuedSet V k S) (hr : k'.runq = k.runq)
    (hh : ∀ t, S t → k'.home t = k.home t) (hS : ∀ t, S' t ↔ S t) : QueuedSet V k' S' := by
  obtain ⟨q, hq, hmem⟩ := hq
  exact ⟨q, hq.congr hr fun h t ht => hh t ((hmem t).1 ⟨h, ht⟩), fun t => (hmem t).trans (hS t).symm⟩

omit [DecidableEq τ] in
theorem QueuedSet.threaded_iff (hq : QueuedSet V k S) : (∃ h, V h ∧ Threaded k.runq h t) ↔ S t := by
  obtain ⟨q, hq, hmem⟩ := hq
  rw [← hmem t]
  constructor
  · rintro ⟨h, hV, ht⟩
    exact ⟨h, (hq.queues.threaded_iff hV).1 ht⟩
  · rintro ⟨h, ht⟩
    have hV := hq.queues.head_of_mem ht
    exact ⟨h, hV, (hq.queues.threaded_iff hV).2 ht⟩

theorem QueuedSet.enqueueThread (hq : QueuedSet V k S) (hV : V ⟨k.cpuHint, prioq (k.thread t).priorityDyn⟩)
    (ht : ¬ S t) : QueuedSet V (enqueueThread k t) (fun u => u = t ∨ S u) := by
  obtain ⟨q, hq, hmem⟩ := hq
  have htq : ∀ h, t ∉ q h := fun h hm => ht ((hmem t).1 ⟨h, hm⟩)
  refine ⟨_, hq.enqueueThread hV htq, fun u => ?_⟩
  show _ ↔ u = t ∨ S u
  rw [← hmem u, exists_mem_update_cons]

theorem QueuedSet.removeThread (hq : QueuedSet V k S) (ht : S t) :
    QueuedSet V (removeThread k t) (fun u => u ≠ t ∧ S u) := by
  obtain ⟨q, hq, hmem⟩ := hq
  obtain ⟨h, hth⟩ := (hmem t).2 ht
  refine ⟨_, hq.removeThread hth, fun u => ?_⟩
  show _ ↔ u ≠ t ∧ S u
  rw [← hmem u, hq.queues.exists_mem_update_erase hth]

theorem QueuedSet.wakeup (hq : QueuedSet V k S) (hV : V (k.wakeHead t)) (ht : ¬ S t) :
    QueuedSet V (wakeup k t) (fun u => u = t ∨ S u) := by
  have hq' : QueuedSet V ((k.modThread t fun t => { t with states := threadReady }).modThread t
      fun t => { t with priorityDyn := t.priorityStat }) S := by
    refine hq.congr rfl (fun u hu => ?_) fun _ => Iff.rfl
    have hut : u ≠ t := by rintro rfl; exact ht hu
    simp [Kernel.home, modThread_thread_of_ne, hut]
  refine hq'.enqueueThread ?_ ht
  simpa [Kernel.wakeHead] using hV

def Kernel.boot (threads : List τ) (thread : τ → Thread) (initThread : τ) : Kernel τ :=
  threads.foldr (fun t k => enqueueThread k t) (.ofThreads threads thread initThread)

section Boot

variable {l threads : List τ} {thread : τ → Thread} {initThread : τ}

private theorem foldr_enqueue_keep {β : Type*} {g : Thread → β} (hg : ∀ t c, g { t with cpu := c } = g t)
    {u : τ} :
    g ((l.foldr (fun t k => enqueueThread k t) k).thread u) = g (k.thread u) := by
  induction l with
  | nil => rfl
  | cons t l ih => rw [List.foldr_cons, enqueueThread_keep _ _ _ hg, ih]

private theorem foldr_enqueue_rest : (l.foldr (fun t k => enqueueThread k t) k).cpuHint = k.cpuHint ∧
      (l.foldr (fun t k => enqueueThread k t) k).sndq = k.sndq := by
  induction l with
  | nil => exact ⟨rfl, rfl⟩
  | cons t l ih => exact ih

theorem boot_keep {β : Type*} {g : Thread → β} (hg : ∀ t c, g { t with cpu := c } = g t) {u : τ} :
    g ((Kernel.boot threads thread initThread).thread u) = g (thread u) :=
  foldr_enqueue_keep hg

theorem boot_cpuHint : (Kernel.boot threads thread initThread).cpuHint = 0 := foldr_enqueue_rest.1

theorem boot_sndq : (Kernel.boot threads thread initThread).sndq = ⟨id, id⟩ := foldr_enqueue_rest.2

private theorem foldr_enqueue_queuedSet (hq : QueuedSet V k fun _ => False) (hnd : l.Nodup)
    (hV : ∀ t, V ⟨k.cpuHint, prioq (k.thread t).priorityDyn⟩) :
    QueuedSet V (l.foldr (fun t k => enqueueThread k t) k) (· ∈ l) := by
  induction l with
  | nil => exact hq.congr rfl (fun _ _ => rfl) (by simp)
  | cons t l ih =>
    rw [List.nodup_cons] at hnd
    have hdyn : ((l.foldr (fun t k => enqueueThread k t) k).thread t).priorityDyn =
        (k.thread t).priorityDyn := foldr_enqueue_keep fun _ _ => rfl
    have h := (ih hnd.2).enqueueThread (t := t) (by rw [foldr_enqueue_rest.1, hdyn]; exact hV t) hnd.1
    exact h.congr rfl (fun _ _ => rfl) fun u => List.mem_cons

theorem boot_queuedSet (hnd : threads.Nodup) (hV : ∀ t, V ⟨0, prioq (thread t).priorityDyn⟩) :
    QueuedSet V (Kernel.boot threads thread initThread) (· ∈ threads) :=
  foldr_enqueue_queuedSet ⟨fun _ => [], ⟨queues_empty, by simp⟩, by simp⟩ hnd hV

end Boot

end Manrix
