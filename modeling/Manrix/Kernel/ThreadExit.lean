import Manrix.Kernel.ExitWait
import Manrix.Kernel.Id
import Manrix.Kernel.RoundRobin

/-!
# The end of a thread (`destroy_thread`, `exit_threads`, `thread_wait`)

The functions with all they write: the identifiers, the thread table, the run queue, the lists of the processes and the
counter.  The lists of the processes are those of the model of `syscall_exit`, and `exit_threads` does to them what it
does there (`exitThreadsFrom_exit`).

`thread_wait` puts the thread to sleep that is waited for, and not the caller, which stays ready and on the run queue.
`destroy_thread` then wakes the caller, which may be queued already.
-/

namespace Manrix

open Fuel Function Links

variable {ρ τ : Type*} [DecidableEq ρ] [DecidableEq τ]

/-- `exit` holds the lists `threads` of the processes and counts the calls of `destroy_thread`. -/
structure ThreadMem (ρ τ : Type*) where
  k : Kernel τ
  ids : IdBitmap
  waiting : τ → Option τ
  totalProcess : Int
  exit : ExitMem ρ τ

/-- `thash_remove`, on the list of the threads of the bucket. -/
def thashRemove (k : Kernel τ) (thread : τ) : Kernel τ :=
  let b := hashFn (k.thread thread).tid
  { k with thash := update k.thash b ((k.thash b).erase thread) }

/-- `destroy_thread`; its second `spin_lock`, in the place of `spin_unlock`, is compiled to nothing. -/
def ThreadMem.destroyThread (s : ThreadMem ρ τ) (thread : τ) : ThreadMem ρ τ :=
  let s := { s with ids := (deallocTid (s.k.thread thread).tid s.ids).1 }
  let s := { s with k := thashRemove s.k thread }
  let s :=
    match s.waiting thread with
    | some waiting => { s with k := wakeup s.k waiting }
    | none => s
  let s := { s with totalProcess := s.totalProcess - 1 }
  { s with exit := Manrix.destroyThread s.exit thread }

/-- The loop of `exit_threads` with all that `destroy_thread` writes. -/
def ThreadMem.exitThreadsFrom (cur : τ) (process : ρ) (fuel e : Nat) (s : ThreadMem ρ τ) : Option (ThreadMem ρ τ) :=
  exitThreadsLoop (fun s : ThreadMem ρ τ => s.exit.threads) (fun s l => { s with exit := { s.exit with threads := l } })
    ThreadMem.destroyThread cur process fuel e s

def ThreadMem.exitThreads (s : ThreadMem ρ τ) (fuel : Nat) (process : ρ) : Option (ThreadMem ρ τ) :=
  exitThreadsFrom s.k.current process fuel 0 s

omit [DecidableEq ρ] in
def ThreadMem.threadWait (s : ThreadMem ρ τ) (tid : Int) : ThreadMem ρ τ × Int :=
  let cur := s.k.current
  match findByTid s.k tid with
  | none => (s, -esrch)
  | some thr =>
    let s := { s with waiting := update s.waiting thr (some cur) }
    ({ s with k := sleepUninterruptible s.k thr }, 0)

section Teardown

variable {s s' : ThreadMem ρ τ} {p : ρ} {cur t : τ} {l : List τ} {fuel e : Nat}

theorem ThreadMem.destroyThread_exit (s : ThreadMem ρ τ) (t : τ) :
    (s.destroyThread t).exit = Manrix.destroyThread s.exit t := by
  simp only [ThreadMem.destroyThread]
  cases s.waiting t <;> rfl

/-- To the lists and the records of the processes the loop does what it does in the model of `syscall_exit`. -/
theorem ThreadMem.exitThreadsFrom_exit (s : ThreadMem ρ τ) :
    (exitThreadsFrom cur p fuel e s).map ThreadMem.exit = Manrix.exitThreads cur p fuel e s.exit := by
  induction fuel generalizing e s with
  | zero => rfl
  | succ fuel ih =>
    simp only [exitThreadsFrom, Manrix.exitThreads] at ih
    rw [exitThreadsFrom, Manrix.exitThreads, exitThreadsLoop, exitThreadsLoop]
    split
    · rfl
    · generalize listDequeue s.exit.threads (.head p) = r
      obtain ⟨l, _ | thr⟩ := r
      · rfl
      · dsimp only
        split
        · split
          · exact ih _
          · rfl
        · split
          · rw [ih, ThreadMem.destroyThread_exit]
          · simp only [Option.map_some, ThreadMem.destroyThread_exit]

omit [DecidableEq τ] in
private theorem queues_single {st : Links (Node ρ τ)} (hr : IsRing st (.head p) (l.map .obj)) :
    Queues (· = p) st (update (fun _ => []) p l) := by
  refine ⟨fun h hh => ?_, fun h hh => update_of_ne hh _ _, fun h h' t ht ht' => ?_⟩
  · rw [hh, update_self]
    exact hr
  · have hmem : ∀ {h}, t ∈ update (fun _ => []) p l h → h = p := by
      intro h ht
      by_contra hne
      rw [update_of_ne hne] at ht
      cases ht
    rw [hmem ht, hmem ht']

/-- `exit_threads` comes to an end, destroys each thread of the list once but for the current one, which is left alone
on the list. -/
theorem exit_threads_teardown (hr : IsRing s.exit.threads (.head p) (l.map .obj)) (hcur : s.k.current ∈ l) :
    ∃ n s', (∀ fuel, n ≤ fuel → s.exitThreads fuel p = some s') ∧
      (∀ t, s'.exit.destroys t = s.exit.destroys t + if t ∈ l ∧ t ≠ s.k.current then 1 else 0) ∧
      IsRing s'.exit.threads (.head p) [.obj s.k.current] := by
  have hnd : l.Nodup := (List.nodup_cons.1 hr.nodup).2.of_map
  obtain ⟨vs, us, rfl⟩ := List.append_of_mem hcur
  obtain ⟨n, m, hrun, hd, hq⟩ := exitThreads_first (queues_single hr) (update_self ..)
  obtain ⟨s', hs', rfl⟩ := Option.map_eq_some_iff.1
    ((ThreadMem.exitThreadsFrom_exit s).trans (hrun n le_rfl))
  refine ⟨n, s', fun fuel hf => exitThreadsLoop_extends hf _ _ _ hs', fun t => ?_, ?_⟩
  · have hperm : (vs ++ s.k.current :: us).Perm (s.k.current :: (vs ++ us)) := List.perm_middle
    have hnd' := hperm.nodup_iff.1 hnd
    rw [List.nodup_cons] at hnd'
    rw [hd.count, hnd'.2.count]
    have hiff : t ∈ vs ++ us ↔ t ∈ vs ++ s.k.current :: us ∧ t ≠ s.k.current := by
      rw [hperm.mem_iff, List.mem_cons]
      constructor
      · exact fun ht => ⟨.inr ht, fun he => hnd'.1 (he ▸ ht)⟩
      · exact fun ht => ht.1.resolve_left ht.2
    simp only [hiff]
  · have hring := hq.ring p rfl
    rw [update_self] at hring
    exact hring

end Teardown

/-- Two threads `true` and `false` of the process, both ready, of which `false` is running. -/
def twoInProcess : ThreadMem Unit Bool where
  k := twoPeers
  ids := ⟨fun _ => 0, 0⟩
  waiting := fun _ => none
  totalProcess := 1
  exit :=
    { mem :=
        { kernel := (), live := [()]
          proc := fun _ => ⟨500, 0, 0, 0, 0, 0, (), none, 0, 0, 0, 0, 0, 0⟩
          links := ⟨.head, .head⟩
          phash := fun _ => none }
      threads := listEnqueue (listEnqueue ⟨id, id⟩ (.head ()) (.obj false)) (.head ()) (.obj true)
      thrProc := fun _ => ()
      saFlags := fun _ => 0
      saHandler := fun _ => 0
      frees := fun _ => 0
      destroys := fun _ => 0 }

theorem exit_threads_teardown_two : ∃ s', (∃ n, ∀ fuel, n ≤ fuel → twoInProcess.exitThreads fuel () = some s') ∧
    s'.exit.destroys true = 1 ∧ s'.exit.destroys false = 0 ∧ IsRing s'.exit.threads (.head ()) [.obj false] := by
  have hr : IsRing twoInProcess.exit.threads (.head ()) ([true, false].map .obj) := by decide
  obtain ⟨n, s', hrun, hcount, hring⟩ := exit_threads_teardown hr (by decide)
  exact ⟨s', ⟨n, hrun⟩, hcount true, hcount false, hring⟩

/-- What joining the thread `t` should do: of all threads only the caller is blocked, and it alone leaves the run queue;
it is made ready and queued again by the destruction of `t` and by no other. -/
structure ThreadMem.Joins (s s' : ThreadMem ρ τ) (t : τ) : Prop where
  blocked : (s'.k.thread s.k.current).Blocked
  others : ∀ u, u ≠ s.k.current → (s'.k.thread u).states = (s.k.thread u).states
  dequeued : ∀ q, LevelInv s.k q →
    ∃ q', LevelInv s'.k q' ∧ ∀ u, (∃ h, u ∈ q' h) ↔ u ≠ s.k.current ∧ ∃ h, u ∈ q h
  woken : ((s'.destroyThread t).k.thread s.k.current).states = threadReady
  queued : ∀ q, LevelInv s'.k q →
    ∃ q', LevelInv (s'.destroyThread t).k q' ∧ ∀ u, (∃ h, u ∈ q' h) ↔ u = s.k.current ∨ ∃ h, u ∈ q h
  once : ∀ u, u ≠ t → s.waiting u ≠ some s.k.current →
    ((s'.destroyThread u).k.thread s.k.current).states = (s'.k.thread s.k.current).states

section Join

variable {s : ThreadMem ρ τ} {t : τ} {tid : Int}

omit [DecidableEq ρ] in
private theorem threadWait_eq (ht : findByTid s.k tid = some t) : s.threadWait tid =
    ({ s with
        waiting := update s.waiting t (some s.k.current)
        k := sleepUninterruptible s.k t }, 0) := by
  simp only [ThreadMem.threadWait, ht]

omit [DecidableEq ρ] in
private theorem threadWait_states (ht : findByTid s.k tid = some t) (u : τ) :
    ((s.threadWait tid).1.k.thread u).states = if u = t then threadUnint else (s.k.thread u).states := by
  rw [threadWait_eq ht]
  exact makeBlocked_states

/-- No call of `thread_wait` for another thread joins it: the running caller is not blocked. -/
theorem thread_wait_never_joins (ht : findByTid s.k tid = some t) (hne : t ≠ s.k.current)
    (hrun : ¬ (s.k.thread s.k.current).Blocked) :
    ((s.threadWait tid).1.k.thread s.k.current).states = (s.k.thread s.k.current).states ∧
    ((s.threadWait tid).1.k.thread t).states = threadUnint ∧ ¬ s.Joins (s.threadWait tid).1 t := by
  have hcur := threadWait_states ht s.k.current
  rw [if_neg hne.symm] at hcur
  refine ⟨hcur, by rw [threadWait_states ht, if_pos rfl], fun hj => hrun ?_⟩
  have hb := hj.blocked
  unfold Thread.Blocked at hb ⊢
  rwa [hcur] at hb

private theorem destroyThread_not_wellQueued {w : τ} (hw : s.waiting t = some w) (ha : Awake s.k)
    (hb : ¬ (s.k.thread w).Blocked) : ¬ WellQueued (s.destroyThread t).k := by
  have hk : (s.destroyThread t).k = wakeup (thashRemove s.k t) w := by
    simp only [ThreadMem.destroyThread, hw]
  rw [hk]
  refine Awake.not_wellQueued_wakeup (k := thashRemove s.k t) ?_ hb
  exact ha.congr rfl rfl fun _ => ⟨rfl, rfl, rfl, rfl⟩

theorem destroy_after_wait (ht : findByTid s.k tid = some t) (hne : t ≠ s.k.current) (ha : Awake s.k)
    (hrun : ¬ (s.k.thread s.k.current).Blocked) (hready : ¬ (s.k.thread t).Blocked) :
    ¬ WellQueued ((s.threadWait tid).1.destroyThread t).k := by
  have hcur := threadWait_states ht s.k.current
  rw [if_neg hne.symm] at hcur
  rw [threadWait_eq ht] at hcur ⊢
  refine destroyThread_not_wellQueued (w := s.k.current) (update_self ..) ?_ ?_
  · exact ha.sleep_awake (by decide) hready
  · unfold Thread.Blocked at hrun ⊢
    rwa [hcur]

end Join

theorem thread_wait_never_joins_two : findByTid twoInProcess.k 2 = some true ∧
    ¬ twoInProcess.Joins (twoInProcess.threadWait 2).1 true := by
  have ht : findByTid twoInProcess.k 2 = some true := by decide
  exact ⟨ht, (thread_wait_never_joins ht (by decide) (by decide)).2.2⟩

/-- `false` waits for `true`: it is `true` that is blocked and leaves the run queue, and `false` stays on it. -/
theorem thread_wait_blocks_target :
    let k := (twoInProcess.threadWait 2).1.k
    (k.thread false).states = threadReady ∧ (k.thread true).states = threadUnint ∧
    IsRing twoInProcess.k.runq (.head ⟨0, 5⟩) [.obj false, .obj true] ∧
    IsRing k.runq (.head ⟨0, 5⟩) [.obj false] := by
  decide

end Manrix
