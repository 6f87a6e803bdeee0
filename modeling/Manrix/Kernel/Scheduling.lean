import Mathlib.Data.Finset.Card
import Manrix.Kernel.RunQueue
import Manrix.Lib.Runs

/-!
# The scheduler (`kernel/scheduling.c`)

`sched_init`, `sched_timer`, `syscall_sched_yield` and the choice `schedule` makes, over every sequence of the
operations that move threads on and off the run queue.

A state of such a sequence carries, beside the kernel, the set of the threads enqueued and not removed since, and the
log of the calls of `enqueue_thread`, the latest first.  `SchedInvAt` ties the bitmap, the lists, the counter, the
priorities and the log together; `enqueue_thread` and `remove_thread` keep it, and the other operations are made of
these two.
-/

namespace Manrix

open Function Links List Runs

def schedRr : Int := 2
def schedOther : Int := 4
def prioOtherMin : Int := 4
def prioSysMin : Int := 46

/-- A time slice in timer ticks; `HZ` is 1000. -/
def slice : Int := 4 * (1000 / 100)

/-- `bsrl`: the index of the highest set bit, and `-1` for the empty bitmap. -/
def frs (x : BitVec 32) : Int := if x = 0 then -1 else x.toNat.log2

variable {τ : Type*} [DecidableEq τ] {x : BitVec 32}

/-- The heads of all lists, in the order `sched_init` initialises them. -/
def runHeads : List RunHead :=
  (List.range maxCpu).flatMap fun rqindex =>
    (List.range maxq.toNat).map fun (index : Nat) => (⟨rqindex, index⟩ : RunHead)

def schedInit (k : Kernel τ) : Kernel τ :=
  { k with
    bitmap := fun _ => 0
    nthreads := fun _ => 0
    runq := runHeads.foldl (fun s h => listInit s (.head h)) k.runq }

/-- The time slice of the current thread ends with this tick, and its policy is one that `sched_timer` handles. -/
def Thread.Expires (t : Thread) : Prop :=
  t.schedpolicy = schedOther ∧ t.priorityStat < prioSysMin ∧ t.timeSlice - 1 = 0

instance (t : Thread) : Decidable t.Expires := inferInstanceAs (Decidable (_ ∧ _ ∧ _))

def schedTimer (k : Kernel τ) : Kernel τ :=
  let thr := k.current
  if (k.thread thr).schedpolicy = schedRr then k
  else if (k.thread thr).schedpolicy ≠ schedOther then k
  else if prioSysMin ≤ (k.thread thr).priorityStat then k
  else
    let k := k.modThread thr fun t => { t with timeSlice := t.timeSlice - 1 }
    if (k.thread thr).timeSlice = 0 then
      let k := k.modThread thr fun t => { t with timeSlice := slice }
      let k := k.modThread thr fun t =>
        { t with bound := if t.bound - 1 < prioOtherMin then prioOtherMin else t.bound - 1 }
      let k := removeThread k thr
      let k := k.modThread thr fun t => { t with priorityDyn := t.priorityStat + t.bound }
      enqueueThread k thr
    else k

def syscallSchedYield (k : Kernel τ) : Kernel τ :=
  let thr := k.current
  let k := removeThread k thr
  let k := enqueueThread k thr
  k.modThread thr fun t => { t with schedule := 1 }

/-- The thread `schedule` switches to.  The idle thread of the one processor is `init_thread`. -/
def scheduleNew (k : Kernel τ) : τ :=
  let quenum := frs (k.bitmap 0)
  if quenum < 0 then k.initThread
  else
    let list := Node.head ⟨0, quenum⟩
    if listIsempty k.runq list then k.initThread
    else
      match lastEntry k.runq list with
      | .obj new => new
      | .head _ => k.initThread -- not met: the last entry of a list that is not empty is a thread

def schedule (k : Kernel τ) : Kernel τ :=
  let k := { k with current := scheduleNew k }
  k.modThread k.current fun t => { t with schedule := 0 }

/-- Block the thread in the state `states` and give up the processor. -/
def makeBlocked (states : BitVec 32) (k : Kernel τ) (thr : τ) : Kernel τ :=
  let k := k.modThread thr fun t => { t with states := states }
  let k := removeThread k thr
  schedule k

private theorem getLsbD_one_shiftLeft {n i : Nat} (hn : n < 32) (hi : i < 32) :
    (1#32 <<< n).getLsbD i = decide (i = n) := by
  rw [BitVec.getLsbD_shiftLeft, BitVec.getLsbD_one]
  by_cases h : i = n
  · subst h; simp [hi]
  · by_cases hlt : i < n
    · simp [hlt, h]
    · have : i - n ≠ 0 := by omega
      simp [hi, hlt, h, this]

theorem getLsbD_setBit {n : Int} {i : Nat} (hn : 0 ≤ n ∧ n < 32) (hi : i < 32) :
    (setBit x n).getLsbD i = true ↔ x.getLsbD i = true ∨ (i : Int) = n := by
  have hn' : n.toNat < 32 := by omega
  rw [setBit, BitVec.getLsbD_or, getLsbD_one_shiftLeft hn' hi]
  have hin : i = n.toNat ↔ (i : Int) = n := by omega
  simp only [Bool.or_eq_true, decide_eq_true_eq, hin]

theorem getLsbD_clearBit {n : Int} {i : Nat} (hn : 0 ≤ n ∧ n < 32) (hi : i < 32) :
    (clearBit x n).getLsbD i = true ↔ x.getLsbD i = true ∧ (i : Int) ≠ n := by
  have hn' : n.toNat < 32 := by omega
  rw [clearBit, BitVec.getLsbD_and, BitVec.getLsbD_not, getLsbD_one_shiftLeft hn' hi]
  have hin : i = n.toNat ↔ (i : Int) = n := by omega
  simp only [hi, decide_true, Bool.true_and, Bool.and_eq_true, Bool.not_eq_true', decide_eq_false_iff_not,
    hin, ne_eq]

theorem frs_neg_iff (x : BitVec 32) : frs x < 0 ↔ ∀ i, i < 32 → x.getLsbD i = false := by
  unfold frs
  split
  · rename_i h; subst h; simp
  · rename_i h
    constructor
    · intro hlt; omega
    · intro hall
      exact absurd (BitVec.eq_of_getLsbD_eq fun i hi => by rw [hall i hi]; simp) h

theorem frs_spec (h : 0 ≤ frs x) :
    frs x < 32 ∧ x.getLsbD (frs x).toNat = true ∧ ∀ i, i < 32 → x.getLsbD i = true → (i : Int) ≤ frs x := by
  unfold frs at h ⊢
  split at h
  · omega
  · rename_i hx
    have hx' : x.toNat ≠ 0 := fun e => hx (BitVec.eq_of_toNat_eq (by simpa using e))
    rw [if_neg hx]
    refine ⟨?_, ?_, fun i hi hb => ?_⟩
    · have := (Nat.log2_lt hx').2 x.isLt
      omega
    · rw [Int.toNat_natCast]
      exact Nat.testBit_log2 hx'
    · have : 2 ^ i ≤ x.toNat := Nat.ge_two_pow_of_testBit hb
      have := (Nat.le_log2 hx').2 this
      omega

/-- The heads of the lists in `runqueue`. -/
def IsRun (h : RunHead) : Prop := h.cpu < maxCpu ∧ 0 ≤ h.index ∧ h.index < maxq

instance (h : RunHead) : Decidable (IsRun h) := inferInstanceAs (Decidable (_ ∧ _ ∧ _))

def Thread.PrioOk (t : Thread) : Prop :=
  (0 ≤ t.priorityStat ∧ t.priorityStat < npriors) ∧ 0 ≤ t.priorityDyn ∧ t.priorityDyn < npriors

def Thread.BoundOk (t : Thread) : Prop := 0 ≤ t.bound ∧ t.bound ≤ prioOtherMin

instance (t : Thread) : Decidable t.PrioOk := inferInstanceAs (Decidable ((_ ∧ _) ∧ _ ∧ _))

instance (t : Thread) : Decidable t.BoundOk := inferInstanceAs (Decidable (_ ∧ _))

theorem prioq_range {p : Int} (h : 0 ≤ p ∧ p < npriors) : 0 ≤ prioq p ∧ prioq p < maxq := by
  unfold npriors at h
  unfold prioq maxq npriors
  rw [Int.tdiv_eq_ediv_of_nonneg h.1]
  omega

theorem Thread.PrioOk.isRun {t : Thread} (h : t.PrioOk) : IsRun ⟨0, prioq t.priorityDyn⟩ :=
  ⟨by simp [maxCpu], prioq_range h.2⟩

/-- The lists `q` hold the threads `queued`, the bitmap and the counter agree with them, and a thread further from the
head of a list was enqueued before those nearer to it. -/
structure SchedInvAt (k : Kernel τ) (queued : Finset τ) (log : List τ) (q : RunHead → List τ) : Prop where
  lists : RunQueues IsRun k q
  mem : ∀ t, (∃ h, t ∈ q h) ↔ t ∈ queued
  hint : k.cpuHint = 0
  prio : ∀ t, (k.thread t).PrioOk
  bits : ∀ h, IsRun h → ((k.bitmap h.cpu).getLsbD h.index.toNat = true ↔ q h ≠ [])
  count : k.nthreads 0 = queued.card
  order : ∀ h, (q h).Pairwise fun a b => log.idxOf a < log.idxOf b

def SchedInv (k : Kernel τ) (queued : Finset τ) (log : List τ) : Prop := ∃ q, SchedInvAt k queued log q

variable {k k' : Kernel τ} {queued : Finset τ} {log : List τ} {q : RunHead → List τ} {t : τ} {h : RunHead}

theorem SchedInvAt.isRun_home (hi : SchedInvAt k queued log q) {h : RunHead} (ht : t ∈ q h) : IsRun h :=
  hi.lists.queues.head_of_mem ht

theorem IsRun.cpu_eq (hh : IsRun h) : h.cpu = 0 := by
  have hc := hh.1
  unfold maxCpu at hc
  omega

theorem IsRun.index_lt (hh : IsRun h) : h.index.toNat < 32 := by
  have hi := hh.2
  unfold maxq npriors at hi
  omega

private theorem isRun_fin (i : Fin 32) : IsRun ⟨0, (i : Nat)⟩ := by
  have hi := i.isLt
  refine ⟨by simp [maxCpu], ?_⟩
  simp only [maxq, npriors]
  omega

private theorem isRun_eq_iff {h h' : RunHead} (hh : IsRun h) (hh' : IsRun h') :
    h = h' ↔ (h.index.toNat : Int) = h'.index := by
  obtain ⟨c, i⟩ := h
  obtain ⟨c', i'⟩ := h'
  unfold IsRun maxCpu at hh hh'
  simp only [RunHead.mk.injEq] at hh hh' ⊢
  omega

private theorem SchedInvAt.enqueueThread_bits (hi : SchedInvAt k queued log q) {h : RunHead} (hh : IsRun h) :
    ((enqueueThread k t).bitmap h.cpu).getLsbD h.index.toNat = true ↔ update q ⟨0, prioq (k.thread t).priorityDyn⟩
        (t :: q ⟨0, prioq (k.thread t).priorityDyn⟩) h ≠ [] := by
  have hV := (hi.prio t).isRun
  have hb := hi.bits h hh
  have hr32 : 0 ≤ prioq (k.thread t).priorityDyn ∧ prioq (k.thread t).priorityDyn < 32 := hV.2
  rw [hh.cpu_eq] at hb ⊢
  rw [enqueueThread_bitmap, hi.hint, update_self, getLsbD_setBit hr32 hh.index_lt, hb,
    ← isRun_eq_iff hh hV, update_apply]
  split
  · rename_i he; subst he; simp
  · rename_i he; simp [he]

/-- A new call in the log keeps the order of the calls for the other threads. -/
private theorem pairwise_log_cons {l : List τ} (ht : t ∉ l) (hp : l.Pairwise fun a b => log.idxOf a < log.idxOf b) :
    l.Pairwise fun a b => (t :: log).idxOf a < (t :: log).idxOf b := by
  refine hp.imp_of_mem fun ha hb hab => ?_
  have hne : ∀ {u}, u ∈ l → t ≠ u := fun hu e => ht (e ▸ hu)
  rw [idxOf_cons_ne _ (hne ha), idxOf_cons_ne _ (hne hb)]
  omega

theorem SchedInv.enqueueThread (hi : SchedInv k queued log) (ht : t ∉ queued) :
    SchedInv (enqueueThread k t) (insert t queued) (t :: log) := by
  obtain ⟨q, hi⟩ := hi
  have htq : ∀ h, t ∉ q h := fun h hm => ht ((hi.mem t).1 ⟨h, hm⟩)
  have hV := (hi.prio t).isRun
  have hl := hi.lists.enqueueThread (hi.hint ▸ hV) htq
  rw [hi.hint] at hl
  refine ⟨_, hl, fun u => ?_, hi.hint, fun u => ?_, fun h hh => hi.enqueueThread_bits hh, ?_, fun h => ?_⟩
  · rw [Finset.mem_insert, ← hi.mem u, exists_mem_update_cons]
  · by_cases hut : u = t
    · subst hut; simpa [Thread.PrioOk] using hi.prio u
    · simpa [hut] using hi.prio u
  · rw [enqueueThread_nthreads, hi.hint, update_self, hi.count, Finset.card_insert_of_notMem ht]
    rfl
  · simp only [update_apply]
    split
    · refine pairwise_cons.2 ⟨fun u hu => ?_, pairwise_log_cons (htq _) (hi.order _)⟩
      have hne : t ≠ u := by rintro rfl; exact htq _ hu
      rw [idxOf_cons_self, idxOf_cons_ne _ hne]
      omega
    · exact pairwise_log_cons (htq h) (hi.order h)

private theorem SchedInvAt.cpu_of_mem (hi : SchedInvAt k queued log q) {h : RunHead} (ht : t ∈ q h) :
    (k.thread t).cpu = 0 := by
  have hc := (hi.isRun_home ht).cpu_eq
  rwa [← hi.lists.home h t ht] at hc

private theorem SchedInvAt.removeThread_bits (hi : SchedInvAt k queued log q) {h h' : RunHead}
    (ht : t ∈ q h) (hh' : IsRun h') : ((removeThread k t).bitmap h'.cpu).getLsbD h'.index.toNat = true ↔
      update q h ((q h).erase t) h' ≠ [] := by
  have hV := hi.isRun_home ht
  have hb := hi.bits h' hh'
  have hemp := listIsempty_iff ((hi.lists.removeThread ht).queues.ring h hV)
  rw [update_self, map_eq_nil_iff] at hemp
  rw [hh'.cpu_eq] at hb ⊢
  rw [removeThread_bitmap, hi.lists.home h t ht, hi.cpu_of_mem ht]
  -- the bit is cleared exactly if the thread was the only one on its list
  by_cases he : (q h).erase t = []
  · rw [if_pos (hemp.2 he), update_self, getLsbD_clearBit hV.2 hh'.index_lt, hb,
      update_apply, ne_eq _ h.index, ← isRun_eq_iff hh' hV]
    split
    · rename_i hhe; subst hhe; simp [he]
    · rename_i hhe; simp [hhe]
  · rw [if_neg fun hm => he (hemp.1 hm), hb, update_apply]
    split
    · rename_i hhe
      subst hhe
      simp [he, ne_nil_of_mem ht]
    · rfl

theorem SchedInv.removeThread (hi : SchedInv k queued log) (ht : t ∈ queued) :
    SchedInv (removeThread k t) (queued.erase t) log := by
  obtain ⟨q, hi⟩ := hi
  obtain ⟨h, hth⟩ := (hi.mem t).2 ht
  refine ⟨_, hi.lists.removeThread hth, fun u => ?_, ?_, fun u => ?_,
    fun h' hh' => hi.removeThread_bits hth hh', ?_, fun h' => ?_⟩
  · rw [Finset.mem_erase, ← hi.mem u, hi.lists.queues.exists_mem_update_erase hth]
  · rw [removeThread_cpuHint, hi.hint]
  · rw [removeThread_thread]; exact hi.prio u
  · rw [removeThread_nthreads, hi.cpu_of_mem hth, update_self, hi.count, Finset.card_erase_of_mem ht]
    have : 0 < queued.card := Finset.card_pos.2 ⟨t, ht⟩
    omega
  · simp only [update_apply]
    split
    · subst_vars; exact (hi.order _).sublist (erase_sublist ..)
    · exact hi.order h'

theorem SchedInv.congr (hi : SchedInv k queued log) (hr : k'.runq = k.runq) (hb : k'.bitmap = k.bitmap)
    (hn : k'.nthreads = k.nthreads) (hc : k'.cpuHint = k.cpuHint) (hp : ∀ t, (k'.thread t).PrioOk)
    (hh : ∀ t ∈ queued, k'.home t = k.home t) : SchedInv k' queued log := by
  obtain ⟨q, hi⟩ := hi
  exact ⟨q, hi.lists.congr hr fun h t ht => hh t ((hi.mem t).1 ⟨h, ht⟩), hi.mem, hc.trans hi.hint, hp,
    hb ▸ hi.bits, hn ▸ hi.count, hi.order⟩

theorem SchedInv.modThread {f : Thread → Thread} (hi : SchedInv k queued log) (hp : (f (k.thread t)).PrioOk)
    (hh : t ∈ queued → (f (k.thread t)).cpu = (k.thread t).cpu ∧
      (f (k.thread t)).priorityDyn = (k.thread t).priorityDyn) : SchedInv (k.modThread t f) queued log := by
  refine hi.congr rfl rfl rfl rfl (fun u => ?_) fun u hu => ?_
  · by_cases hut : u = t
    · subst hut; rwa [modThread_thread_self]
    · rw [modThread_thread_of_ne k t f hut]
      exact hi.elim fun _ hi => hi.prio u
  · unfold Kernel.home
    by_cases hut : u = t
    · subst hut; rw [modThread_thread_self, (hh hu).1, (hh hu).2]
    · rw [modThread_thread_of_ne k t f hut]

theorem SchedInv.prioOk (hi : SchedInv k queued log) (t : τ) : (k.thread t).PrioOk :=
  hi.elim fun _ hi => hi.prio t

theorem SchedInv.setCurrent (hi : SchedInv k queued log) (t : τ) : SchedInv (k.withCurrent t) queued log :=
  hi.congr rfl rfl rfl rfl hi.prioOk fun _ _ => rfl

theorem SchedInv.wakeup (hi : SchedInv k queued log) (ht : t ∉ queued) :
    SchedInv (wakeup k t) (insert t queued) (t :: log) := by
  have hp := hi.prioOk t
  refine SchedInv.enqueueThread
    ((hi.modThread ?_ fun hm => absurd hm ht).modThread ?_ fun hm => absurd hm ht) ht
  · exact hp
  · rw [modThread_thread_self]
    exact ⟨hp.1, hp.1⟩

theorem SchedInv.yield (hi : SchedInv k queued log) (ht : k.current ∈ queued) :
    SchedInv (syscallSchedYield k) queued (k.current :: log) := by
  have h := (hi.removeThread ht).enqueueThread (Finset.notMem_erase k.current queued)
  rw [Finset.insert_erase ht] at h
  show SchedInv (Kernel.modThread _ k.current fun t => { t with schedule := 1 }) queued _
  exact h.modThread (h.prioOk k.current) fun _ => ⟨rfl, rfl⟩

/-- The writes `sched_timer` makes to the thread before it takes it off its list. -/
def Thread.newSlice (t : Thread) : Thread :=
  { t with
    timeSlice := slice
    bound := if t.bound - 1 < prioOtherMin then prioOtherMin else t.bound - 1 }

theorem schedTimer_of_expires (k : Kernel τ) (h : (k.thread k.current).Expires) :
    schedTimer k = enqueueThread ((removeThread (k.modThread k.current Thread.newSlice) k.current).modThread
      k.current fun t => { t with priorityDyn := t.priorityStat + t.bound }) k.current := by
  obtain ⟨hpol, hsys, hz⟩ := h
  have hrr : (k.thread k.current).schedpolicy ≠ schedRr := by rw [hpol]; decide
  simp only [schedTimer, if_neg hrr, if_neg (not_not.2 hpol), if_neg (not_le.2 hsys), modThread_thread_self,
    if_pos hz, modThread_modThread]
  rfl

private theorem schedTimer_of_not_expires (k : Kernel τ) (h : ¬ (k.thread k.current).Expires) : schedTimer k = k ∨
      schedTimer k = k.modThread k.current fun t => { t with timeSlice := t.timeSlice - 1 } := by
  simp only [schedTimer, modThread_thread_self]
  split
  · exact .inl rfl
  · split
    · exact .inl rfl
    · split
      · exact .inl rfl
      · rename_i hpol hsys
        rw [if_neg fun hz => h ⟨not_not.1 hpol, not_le.1 hsys, hz⟩]
        exact .inr rfl

theorem Thread.newSlice_bound {t : Thread} (hb : t.BoundOk) : t.newSlice.bound = prioOtherMin := by
  have := hb.2
  unfold newSlice prioOtherMin at *
  simp only
  omega

/-- The thread leaves its list under its old priority and joins one under the new priority. -/
theorem SchedInv.timer (hi : SchedInv k queued log) (ht : k.current ∈ queued) (hb : (k.thread k.current).BoundOk) :
    SchedInv (schedTimer k) queued (if (k.thread k.current).Expires then k.current :: log else log) := by
  have hp := hi.prioOk k.current
  split
  · rename_i he
    have h1 : SchedInv (k.modThread k.current Thread.newSlice) queued log :=
      hi.modThread hp fun _ => ⟨rfl, rfl⟩
    have h2 := h1.removeThread ht
    have h3 : SchedInv ((Manrix.removeThread (k.modThread k.current Thread.newSlice) k.current).modThread
        k.current fun t => { t with priorityDyn := t.priorityStat + t.bound })
        (queued.erase k.current) log := by
      refine h2.modThread ?_ fun hm => absurd hm (Finset.notMem_erase _ _)
      rw [removeThread_thread, modThread_thread_self]
      refine ⟨hp.1, ?_⟩
      have hsys := he.2.1
      have hstat := hp.1
      simp only [Thread.newSlice_bound hb]
      simp only [Thread.newSlice]
      unfold prioSysMin at hsys
      unfold npriors prioOtherMin at *
      omega
    have h4 := h3.enqueueThread (Finset.notMem_erase k.current queued)
    rw [Finset.insert_erase ht] at h4
    rw [schedTimer_of_expires k he]
    exact h4
  · rename_i he
    rcases schedTimer_of_not_expires k he with h | h
    · rw [h]; exact hi
    · rw [h]; exact hi.modThread hp fun _ => ⟨rfl, rfl⟩

private theorem foldl_listInit_ring (l : List RunHead) (s : Links (Node RunHead τ))
    (hs : h ∈ l ∨ IsRing s (.head h) []) : IsRing (l.foldl (fun s h => listInit s (.head h)) s) (.head h) [] := by
  induction l generalizing s with
  | nil => exact hs.resolve_left (not_mem_nil)
  | cons a l ih =>
    rw [foldl_cons]
    apply ih
    by_cases ha : h = a
    · right; rw [ha]; exact listInit_ring s _
    · refine hs.imp (fun hm => (mem_cons.1 hm).resolve_left ha) fun hr => hr.congr fun y hy => ?_
      have hy' : y ≠ .head a := by
        rintro rfl
        simp only [mem_singleton, Node.head.injEq] at hy
        exact ha hy.symm
      simp [listInit, hy']

theorem IsRun.mem_runHeads (hh : IsRun h) : h ∈ runHeads := by
  obtain ⟨hc, h0, hm⟩ := hh
  simp only [runHeads, mem_flatMap, mem_range, mem_map]
  refine ⟨h.cpu, hc, h.index.toNat, (Int.toNat_lt_toNat (by decide)).2 hm, ?_⟩
  rw [Int.toNat_of_nonneg h0]

theorem schedInit_inv (h0 : k.cpuHint = 0) (hp : ∀ t, (k.thread t).PrioOk) : SchedInv (schedInit k) ∅ [] := by
  refine ⟨fun _ => [], ⟨⟨fun h hh => ?_, fun _ _ => rfl, by simp⟩, by simp⟩, by simp, h0, hp, ?_, rfl,
    by simp⟩
  · exact foldl_listInit_ring _ _ (.inl hh.mem_runHeads)
  · intro h _
    simp [schedInit]

/-- A state of the run queue, with the threads enqueued and not removed since and the calls of `enqueue_thread` made so
far, the latest first. -/
structure Sched (τ : Type*) where
  k : Kernel τ
  queued : Finset τ
  log : List τ

/-- The operations; `yield t` and `timer t` are `syscall_sched_yield` and `sched_timer` with `t` as the current
thread. -/
inductive SchedOp (τ : Type*) where
  | enqueue (t : τ)
  | wakeup (t : τ)
  | remove (t : τ)
  | yield (t : τ)
  | timer (t : τ)

/-- The operations that enqueue are made on threads that are not queued, the others on queued ones. -/
def SchedOp.Enabled (s : Sched τ) : SchedOp τ → Prop
  | .enqueue t | .wakeup t => t ∉ s.queued
  | .remove t | .yield t | .timer t => t ∈ s.queued

instance (s : Sched τ) (op : SchedOp τ) : Decidable (op.Enabled s) := by
  cases op <;> unfold SchedOp.Enabled <;> infer_instance

def SchedOp.exec (s : Sched τ) : SchedOp τ → Sched τ
  | .enqueue t => ⟨enqueueThread s.k t, insert t s.queued, t :: s.log⟩
  | .wakeup t => ⟨Manrix.wakeup s.k t, insert t s.queued, t :: s.log⟩
  | .remove t => ⟨removeThread s.k t, s.queued.erase t, s.log⟩
  | .yield t => ⟨syscallSchedYield (s.k.withCurrent t), s.queued, t :: s.log⟩
  | .timer t => ⟨schedTimer (s.k.withCurrent t), s.queued,
      if (s.k.thread t).Expires then t :: s.log else s.log⟩

def SchedStep (s : Sched τ) (op : SchedOp τ) (s' : Sched τ) : Prop := op.Enabled s ∧ s' = op.exec s

theorem SchedStep.of_enabled (s : Sched τ) (op : SchedOp τ) (h : op.Enabled s) : SchedStep s op (op.exec s) :=
  ⟨h, rfl⟩

def SchedOp.IsTimer : SchedOp τ → Prop
  | .timer _ => True
  | _ => False

/-- The state `sched_init` leaves. -/
def Sched.init (k : Kernel τ) : Sched τ := ⟨schedInit k, ∅, []⟩

theorem SchedStep.inv {s s' : Sched τ} {op : SchedOp τ} (hi : SchedInv s.k s.queued s.log)
    (hb : op.IsTimer → ∀ t, (s.k.thread t).BoundOk) (hs : SchedStep s op s') : SchedInv s'.k s'.queued s'.log := by
  obtain ⟨he, rfl⟩ := hs
  cases op with
  | enqueue t => exact hi.enqueueThread he
  | wakeup t => exact hi.wakeup he
  | remove t => exact hi.removeThread he
  | yield t => exact (hi.setCurrent t).yield he
  | timer t => exact (hi.setCurrent t).timer he (hb trivial t)

/-- Only `sched_timer` writes `bound`. -/
theorem SchedStep.boundOk {s s' : Sched τ} {op : SchedOp τ} (hb : ∀ t, (s.k.thread t).BoundOk)
    (hs : SchedStep s op s') (u : τ) : (s'.k.thread u).BoundOk := by
  obtain ⟨-, rfl⟩ := hs
  have hkeep : ∀ {a b : Thread}, b.bound = a.bound → a.BoundOk → b.BoundOk := by
    intro a b he h
    unfold Thread.BoundOk at *
    rwa [he]
  have henq : ∀ (k : Kernel τ) t, ((enqueueThread k t).thread u).bound = (k.thread u).bound :=
    fun k t => enqueueThread_keep k t u fun _ _ => rfl
  cases op with
  | enqueue t => exact hkeep (henq _ t) (hb u)
  | wakeup t => exact hkeep (wakeup_keep _ t u fun _ _ _ _ => rfl) (hb u)
  | remove t => exact hkeep (congrArg Thread.bound (congrFun (removeThread_thread s.k t) u)) (hb u)
  | yield t =>
    refine hkeep ?_ (hb u)
    simp only [SchedOp.exec, syscallSchedYield]
    rw [modThread_thread_keep (g := Thread.bound) _ _ _ _ rfl, henq, removeThread_thread, withCurrent_thread]
  | timer t =>
    simp only [SchedOp.exec]
    by_cases he : (s.k.thread t).Expires
    · rw [schedTimer_of_expires (s.k.withCurrent t) he, withCurrent_current]
      by_cases hut : u = t
      · subst hut
        have hn := Thread.newSlice_bound (hb u)
        refine hkeep (a := (s.k.thread u).newSlice) ?_ ⟨by rw [hn]; decide, hn.le⟩
        rw [henq, modThread_thread_keep (g := Thread.bound) _ _ _ _ rfl, removeThread_thread,
          modThread_thread_self, withCurrent_thread]
      · refine hkeep ?_ (hb u)
        rw [henq, modThread_thread_of_ne _ _ _ hut, removeThread_thread, modThread_thread_of_ne _ _ _ hut,
          withCurrent_thread]
    · rcases schedTimer_of_not_expires (s.k.withCurrent t) he with h | h
      · rw [h]; exact hb u
      · rw [h]; exact hkeep (modThread_thread_keep (g := Thread.bound) _ _ _ _ rfl) (hb u)

theorem SchedInvAt.exists_list (hi : SchedInvAt k queued log q) (ht : t ∈ queued) :
    ∃ i : Fin 32, prioq (k.thread t).priorityDyn = (i : Nat) ∧ t ∈ q ⟨0, (i : Nat)⟩ := by
  obtain ⟨h, hth⟩ := (hi.mem t).2 ht
  have hV := hi.isRun_home hth
  have hidx : prioq (k.thread t).priorityDyn = h.index := congrArg RunHead.index (hi.lists.home h t hth)
  have hr : 0 ≤ h.index ∧ h.index < 32 := hV.2
  have hh : h = ⟨0, ((h.index.toNat : Nat) : Int)⟩ :=
    (isRun_eq_iff hV (isRun_fin ⟨h.index.toNat, by omega⟩)).2 rfl
  refine ⟨⟨h.index.toNat, by omega⟩, by simp only; omega, ?_⟩
  rw [hh] at hth
  exact hth

/-- The lists of a state with the invariant, as the source numbers them. -/
theorem SchedInvAt.lists_spec (hi : SchedInvAt k queued log q) :
    (∀ i : Fin 32, IsRing k.runq (.head ⟨0, (i : Nat)⟩) ((q ⟨0, (i : Nat)⟩).map .obj)) ∧
    (∀ i : Fin 32, (k.bitmap 0).getLsbD i = true ↔ q ⟨0, (i : Nat)⟩ ≠ []) ∧
    (∀ t ∈ queued, ∃ i : Fin 32, prioq (k.thread t).priorityDyn = (i : Nat) ∧
      ∀ j : Fin 32, (q ⟨0, (j : Nat)⟩).count t = if j = i then 1 else 0) ∧
    ∀ (i : Fin 32), ∀ t ∈ q ⟨0, (i : Nat)⟩, t ∈ queued := by
  refine ⟨fun i => hi.lists.queues.ring _ (isRun_fin i), fun i => hi.bits _ (isRun_fin i), fun t ht => ?_,
    fun i t ht => (hi.mem t).1 ⟨_, ht⟩⟩
  obtain ⟨i, hidx, hti⟩ := hi.exists_list ht
  refine ⟨i, hidx, fun j => ?_⟩
  split
  · rename_i hj
    subst hj
    exact count_eq_one_of_mem (hi.lists.queues.nodup _) hti
  · rename_i hj
    rw [count_eq_zero]
    intro hm
    have he := congrArg RunHead.index (hi.lists.queues.disjoint _ _ t hm hti)
    apply hj
    apply Fin.ext
    simp only at he
    omega

/-- The run queue in every state that the operations reach from `sched_init`. -/
theorem run_queue_invariant {k₀ : Kernel τ} (h0 : k₀.cpuHint = 0) (hp : ∀ t, (k₀.thread t).PrioOk)
    (hb : ∀ t, (k₀.thread t).BoundOk) {tr : List (Sched τ × SchedOp τ × Sched τ)} {s : Sched τ}
    (hr : Run SchedStep (Sched.init k₀) tr s) : ∃ q : Fin 32 → List τ,
      (∀ i : Fin 32, IsRing s.k.runq (.head ⟨0, (i : Nat)⟩) ((q i).map .obj)) ∧
      (∀ i : Fin 32, (s.k.bitmap 0).getLsbD i = true ↔ q i ≠ []) ∧
      (∀ t ∈ s.queued, ∃ i : Fin 32, prioq (s.k.thread t).priorityDyn = (i : Nat) ∧
        ∀ j, (q j).count t = if j = i then 1 else 0) ∧ (∀ i, ∀ t ∈ q i, t ∈ s.queued) ∧
      s.k.nthreads 0 = s.queued.card := by
  have hi : SchedInv s.k s.queued s.log ∧ ∀ t, (s.k.thread t).BoundOk := by
    refine hr.inv (fun s => SchedInv s.k s.queued s.log ∧ ∀ t, (s.k.thread t).BoundOk)
      ⟨schedInit_inv h0 hp, hb⟩ fun s op s' hi hs => ?_
    exact ⟨hs.inv hi.1 fun _ => hi.2, hs.boundOk hi.2⟩
  obtain ⟨⟨q, hi⟩, -⟩ := hi
  obtain ⟨h1, h2, h3, h4⟩ := hi.lists_spec
  exact ⟨fun i => q ⟨0, (i : Nat)⟩, h1, h2, h3, h4, hi.count⟩

/-- Two threads of the priorities 20 and 40, both in the last tick of their time slice. -/
def twoRunners : Kernel Bool :=
  .ofThreads [false, true]
    (fun b => { Thread.ready (if b then 2 else 1) (if b then 40 else 20) with timeSlice := 1 }) false

theorem run_queue_invariant_timer : ∃ (tr : List (Sched Bool × SchedOp Bool × Sched Bool)) (s : Sched Bool),
    Run SchedStep (Sched.init twoRunners) tr s ∧ tr.map (·.2.1) = [.enqueue true, .enqueue false, .timer true] ∧
    (s.k.thread true).priorityDyn = 44 ∧ s.k.nthreads 0 = s.queued.card := by
  have h1 := Run.nil.snoc (SchedStep.of_enabled (Sched.init twoRunners) (.enqueue true) (by decide))
  have h2 := h1.snoc (SchedStep.of_enabled _ (.enqueue false) (by decide))
  have hr := h2.snoc (SchedStep.of_enabled _ (.timer true) (by decide))
  obtain ⟨q, -, -, -, -, hn⟩ := run_queue_invariant rfl (by decide) (by decide) hr
  exact ⟨_, _, hr, rfl, by decide, hn⟩

theorem SchedInvAt.frs_neg_iff (hi : SchedInvAt k queued log q) : frs (k.bitmap 0) < 0 ↔ queued = ∅ := by
  obtain ⟨-, hbit, -, hmem⟩ := hi.lists_spec
  rw [Manrix.frs_neg_iff, Finset.eq_empty_iff_forall_notMem]
  constructor
  · intro hall t ht
    obtain ⟨i, -, hti⟩ := hi.exists_list ht
    have hset := (hbit i).2 (ne_nil_of_mem hti)
    rw [hall i i.isLt] at hset
    exact absurd hset (by decide)
  · intro hemp i hi32
    by_contra hb
    have hne := (hbit ⟨i, hi32⟩).1 (by simpa using hb)
    obtain ⟨t, ht⟩ := exists_mem_of_ne_nil _ hne
    exact hemp t (hmem ⟨i, hi32⟩ t ht)

theorem SchedInvAt.scheduleNew_spec (hi : SchedInvAt k queued log q) (hne : queued ≠ ∅) :
    ∃ h xs, h = ⟨0, frs (k.bitmap 0)⟩ ∧ q h = xs ++ [scheduleNew k] ∧
      ∀ t ∈ queued, prioq (k.thread t).priorityDyn ≤ h.index := by
  have hnn : ¬ frs (k.bitmap 0) < 0 := fun h => hne (hi.frs_neg_iff.1 h)
  obtain ⟨h32, hset, hmax⟩ := frs_spec (not_lt.1 hnn)
  obtain ⟨-, hbit, -, -⟩ := hi.lists_spec
  have hV : IsRun ⟨0, frs (k.bitmap 0)⟩ := ⟨by simp [maxCpu], not_lt.1 hnn, h32⟩
  have hq := (hi.bits _ hV).1 hset
  have hx := (dropLast_append_getLast hq).symm
  have hring := hi.lists.queues.ring _ hV
  have hemp : ¬ listIsempty k.runq (.head ⟨0, frs (k.bitmap 0)⟩) = true := by
    rw [listIsempty_iff hring, map_eq_nil_iff]; exact hq
  rw [hx, map_append, map_singleton] at hring
  refine ⟨_, (q ⟨0, frs (k.bitmap 0)⟩).dropLast, rfl, ?_, fun t ht => ?_⟩
  · simp only [scheduleNew, if_neg hnn, hemp, lastEntry_concat hring]
    exact hx
  · obtain ⟨i, hidx, hti⟩ := hi.exists_list ht
    rw [hidx]
    exact hmax i i.isLt ((hbit i).2 (ne_nil_of_mem hti))

theorem SchedInvAt.scheduleNew_mem (hi : SchedInvAt k queued log q) (hne : queued ≠ ∅) : scheduleNew k ∈ queued := by
  obtain ⟨h, xs, -, hq, -⟩ := hi.scheduleNew_spec hne
  refine (hi.mem _).1 ⟨h, ?_⟩
  rw [hq]
  simp

theorem SchedInvAt.scheduleNew_oldest (hi : SchedInvAt k queued log q) (ht : t ∈ queued)
    (hlev : prioq (k.thread t).priorityDyn = prioq (k.thread (scheduleNew k)).priorityDyn)
    (hne : t ≠ scheduleNew k) : log.idxOf t < log.idxOf (scheduleNew k) := by
  obtain ⟨h, xs, -, hq, -⟩ := hi.scheduleNew_spec (Finset.ne_empty_of_mem ht)
  have hin : scheduleNew k ∈ q h := by rw [hq]; simp
  have hidx := congrArg RunHead.index (hi.lists.home h _ hin)
  obtain ⟨h', hth⟩ := (hi.mem t).2 ht
  have hidx' := congrArg RunHead.index (hi.lists.home h' t hth)
  -- the level and the one processor determine the list
  have hh' : h' = h := by
    have hr' := hi.isRun_home hth
    rw [isRun_eq_iff hr' (hi.isRun_home hin), Int.toNat_of_nonneg hr'.2.1]
    unfold Kernel.home at hidx hidx'
    simp only at hidx hidx'
    omega
  have ho := hi.order h
  rw [hh', hq, mem_append, mem_singleton] at hth
  rw [hq] at ho
  exact (pairwise_append.1 ho).2.2 t (hth.resolve_right hne) _ (mem_singleton_self _)

/-- The thread `schedule` switches to, in every state that the operations other than `sched_timer` reach from
`sched_init`.  A larger index in the log is an older last call of `enqueue_thread`; the idle thread is `init_thread`,
which is not put on the run queue. -/
theorem schedule_selects {k₀ : Kernel τ} (h0 : k₀.cpuHint = 0) (hp : ∀ t, (k₀.thread t).PrioOk)
    {tr : List (Sched τ × SchedOp τ × Sched τ)} {s : Sched τ} (hr : Run SchedStep (Sched.init k₀) tr s)
    (hnt : ∀ x ∈ tr, ¬ x.2.1.IsTimer) : (s.queued.Nonempty → (schedule s.k).current ∈ s.queued ∧ (∀ t ∈ s.queued,
        prioq (s.k.thread t).priorityDyn ≤ prioq (s.k.thread (schedule s.k).current).priorityDyn) ∧ ∀ t ∈ s.queued,
        prioq (s.k.thread t).priorityDyn = prioq (s.k.thread (schedule s.k).current).priorityDyn →
        t ≠ (schedule s.k).current → s.log.idxOf t < s.log.idxOf (schedule s.k).current) ∧
    (s.queued = ∅ → (schedule s.k).current = s.k.initThread) ∧
    (s.k.initThread ∉ s.queued → ((schedule s.k).current = s.k.initThread ↔ s.queued = ∅)) := by
  have hi : SchedInv s.k s.queued s.log :=
    hr.inv_of_guard (fun s => SchedInv s.k s.queued s.log) (fun x => ¬ x.2.1.IsTimer) (schedInit_inv h0 hp)
      (fun s op s' hi hg hs => hs.inv hi fun ht => absurd ht hg) hnt
  obtain ⟨q, hi⟩ := hi
  have hidle : s.queued = ∅ → (schedule s.k).current = s.k.initThread := by
    intro he
    have hneg := hi.frs_neg_iff.2 he
    simp [schedule, scheduleNew, hneg]
  have hcur : (schedule s.k).current = scheduleNew s.k := rfl
  refine ⟨fun hne => ?_, hidle, fun hno => ⟨fun he => ?_, hidle⟩⟩
  · have hne := hne.ne_empty
    obtain ⟨h, xs, -, hq, hmax⟩ := hi.scheduleNew_spec hne
    have hidx := congrArg RunHead.index (hi.lists.home h (scheduleNew s.k) (by rw [hq]; simp))
    rw [hcur]
    refine ⟨hi.scheduleNew_mem hne, fun t ht => ?_, fun t ht hlev htne => hi.scheduleNew_oldest ht hlev htne⟩
    exact (hmax t ht).trans_eq hidx.symm
  · by_contra hne
    exact hno (he ▸ hi.scheduleNew_mem hne)

theorem schedule_selects_oldest : ∃ (tr : List (Sched Bool × SchedOp Bool × Sched Bool)) (s : Sched Bool),
    Run SchedStep (Sched.init twoRunners) tr s ∧ tr.map (·.2.1) = [.wakeup true, .enqueue false, .yield true] ∧
    (schedule s.k).current ∈ s.queued := by
  have h1 := Run.nil.snoc (SchedStep.of_enabled (Sched.init twoRunners) (.wakeup true) (by decide))
  have h2 := h1.snoc (SchedStep.of_enabled _ (.enqueue false) (by decide))
  have hr := h2.snoc (SchedStep.of_enabled _ (.yield true) (by decide))
  have h := schedule_selects rfl (by decide) hr (by simp [SchedOp.IsTimer])
  exact ⟨_, _, hr, rfl, (h.1 ⟨true, by decide⟩).1⟩

section Blocking

variable {w : BitVec 32} {u : τ} {V : RunHead → Prop} {S : τ → Prop}

theorem schedule_keep {β : Type*} {g : Thread → β} (hg : ∀ t c, g { t with schedule := c } = g t) :
    g ((schedule k).thread u) = g (k.thread u) :=
  modThread_thread_keep { k with current := scheduleNew k } (scheduleNew k) u
    (fun t => { t with schedule := 0 }) (hg _ 0)

theorem makeBlocked_states : ((makeBlocked w k t).thread u).states = if u = t then w else (k.thread u).states := by
  unfold makeBlocked
  rw [schedule_keep (g := Thread.states) fun _ _ => rfl, removeThread_thread]
  split
  · rename_i hu; subst hu; rw [modThread_thread_self]
  · rename_i hu; rw [modThread_thread_of_ne _ _ _ hu]

theorem makeBlocked_keep {β : Type*} {g : Thread → β}
    (hg : ∀ t s c, g { t with states := s, schedule := c } = g t) :
    g ((makeBlocked w k t).thread u) = g (k.thread u) := by
  unfold makeBlocked
  rw [schedule_keep fun t c => hg t t.states c, removeThread_thread]
  apply modThread_thread_keep
  exact hg (k.thread t) w (k.thread t).schedule

theorem makeBlocked_rest : (makeBlocked w k t).thash = k.thash ∧ (makeBlocked w k t).cpuHint = k.cpuHint ∧
    (makeBlocked w k t).sndq = k.sndq := by
  simp [makeBlocked, schedule]

theorem makeBlocked_runq : (makeBlocked w k t).runq = k.runq.unlink (.obj t) := by
  simp [makeBlocked, schedule]

theorem makeBlocked_home : (makeBlocked w k t).home u = k.home u := by
  unfold Kernel.home
  rw [makeBlocked_keep (g := Thread.cpu) fun _ _ _ => rfl,
    makeBlocked_keep (g := Thread.priorityDyn) fun _ _ _ => rfl]

theorem makeBlocked_wakeHead : (makeBlocked w k t).wakeHead u = k.wakeHead u := by
  unfold Kernel.wakeHead
  rw [makeBlocked_rest.2.1, makeBlocked_keep (g := Thread.priorityStat) fun _ _ _ => rfl]

theorem QueuedSet.makeBlocked (hq : QueuedSet V k S) (ht : S t) :
    QueuedSet V (makeBlocked w k t) fun u => u ≠ t ∧ S u := by
  refine (hq.removeThread ht).congr ?_ (fun u _ => ?_) fun _ => Iff.rfl
  · rw [makeBlocked_runq, removeThread_runq]
  · rw [makeBlocked_home]
    simp [Kernel.home]

end Blocking

end Manrix
