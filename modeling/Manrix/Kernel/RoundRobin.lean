import Manrix.Kernel.Scheduling

/-!
# Yielding in turn

Rounds of `schedule` followed by `syscall_sched_yield` of the thread it chose.  The chosen thread is the last entry of
the highest level; `syscall_sched_yield` takes it off its list and puts it in front of the others, so a round rotates
the level by one place and leaves the bitmap as it was, also if the level is empty in between.
-/

namespace Manrix

open Function Links List

variable {τ : Type*} [DecidableEq τ]

/-- The lists of the run queue hold the threads `q`, and a bit of the bitmap is set exactly if its list holds a
thread. -/
structure LevelInv (k : Kernel τ) (q : RunHead → List τ) : Prop where
  lists : RunQueues IsRun k q
  hint : k.cpuHint = 0
  bits : ∀ h, IsRun h → ((k.bitmap h.cpu).getLsbD h.index.toNat = true ↔ q h ≠ [])

theorem SchedInvAt.levelInv {k : Kernel τ} {queued : Finset τ} {log : List τ} {q : RunHead → List τ}
    (hi : SchedInvAt k queued log q) : LevelInv k q :=
  ⟨hi.lists, hi.hint, hi.bits⟩

/-- The threads that `n` rounds choose, the first one first, and the state after them. -/
def yieldRounds : Nat → Kernel τ → List τ × Kernel τ
  | 0, k => ([], k)
  | n + 1, k =>
    let k := schedule k
    let (ts, k') := yieldRounds n (syscallSchedYield k)
    (k.current :: ts, k')

private theorem eq_of_getLsbD_iff {x y : BitVec 32}
    (h : ∀ i, i < 32 → (x.getLsbD i = true ↔ y.getLsbD i = true)) : x = y :=
  BitVec.eq_of_getLsbD_eq fun i hi => Bool.eq_iff_iff.2 (h i hi)

private theorem setBit_of_getLsbD {x : BitVec 32} {n : Int} (hn : 0 ≤ n ∧ n < 32) (hx : x.getLsbD n.toNat = true) :
    setBit x n = x := by
  refine eq_of_getLsbD_iff fun i hi => ?_
  rw [getLsbD_setBit hn hi]
  refine or_iff_left_of_imp fun he => ?_
  have hin : i = n.toNat := by omega
  rwa [hin]

private theorem setBit_clearBit_of_getLsbD {x : BitVec 32} {n : Int} (hn : 0 ≤ n ∧ n < 32)
    (hx : x.getLsbD n.toNat = true) : setBit (clearBit x n) n = x := by
  refine eq_of_getLsbD_iff fun i hi => ?_
  rw [getLsbD_setBit hn hi, getLsbD_clearBit hn hi]
  by_cases he : (i : Int) = n
  · have hin : i = n.toNat := by omega
    rw [hin] at he ⊢
    simp only [he, hx, or_true]
  · simp [he]

section Round

variable {k k' : Kernel τ} {q : RunHead → List τ} {h : RunHead} {t : τ} {xs ys : List τ}

omit [DecidableEq τ] in
theorem LevelInv.congr (hi : LevelInv k q) (hr : k'.runq = k.runq) (hb : k'.bitmap = k.bitmap)
    (hc : k'.cpuHint = k.cpuHint) (hh : ∀ t, k'.home t = k.home t) : LevelInv k' q :=
  ⟨hi.lists.congr hr fun _ t _ => hh t, hc.trans hi.hint, hb ▸ hi.bits⟩

omit [DecidableEq τ] in
theorem LevelInv.isRun (hi : LevelInv k q) (ht : t ∈ q h) : IsRun h := hi.lists.queues.head_of_mem ht

omit [DecidableEq τ] in
theorem LevelInv.home_eq (hi : LevelInv k q) (ht : t ∈ q h) :
    (k.thread t).cpu = 0 ∧ (⟨0, prioq (k.thread t).priorityDyn⟩ : RunHead) = h := by
  have hhome := hi.lists.home h t ht
  have hcpu : (k.thread t).cpu = 0 := by
    rw [← (hi.isRun ht).cpu_eq, ← hhome]
    rfl
  exact ⟨hcpu, by rw [← hhome, Kernel.home, hcpu]⟩

omit [DecidableEq τ] in
theorem LevelInv.frs_eq (hi : LevelInv k q) (ht : t ∈ q h) (hmax : ∀ h', q h' ≠ [] → h'.index ≤ h.index) :
    frs (k.bitmap 0) = h.index := by
  have hV := hi.isRun ht
  have hset := (hi.bits h hV).2 (ne_nil_of_mem ht)
  rw [hV.cpu_eq] at hset
  have hnn : ¬ frs (k.bitmap 0) < 0 := by
    rw [frs_neg_iff]
    intro hall
    rw [hall _ hV.index_lt] at hset
    cases hset
  obtain ⟨h32, htop, hle⟩ := frs_spec (not_lt.1 hnn)
  have hVtop : IsRun ⟨0, frs (k.bitmap 0)⟩ := ⟨by simp [maxCpu], not_lt.1 hnn, h32⟩
  have hupper := hmax _ ((hi.bits _ hVtop).1 htop)
  have hlower := hle _ hV.index_lt hset
  have h0 := hV.2.1
  simp only at hupper
  omega

theorem LevelInv.schedule_current (hi : LevelInv k q) (hq : q h = xs ++ [t])
    (hmax : ∀ h', q h' ≠ [] → h'.index ≤ h.index) : (schedule k).current = t := by
  have ht : t ∈ q h := by simp [hq]
  have hV := hi.isRun ht
  have hfrs := hi.frs_eq ht hmax
  have hh : (⟨0, h.index⟩ : RunHead) = h := by rw [← hV.cpu_eq]
  have hring := hi.lists.queues.ring h hV
  rw [hq, map_append, map_singleton] at hring
  have hemp : ¬ listIsempty k.runq (.head h) = true := by
    rw [listIsempty_iff hring]
    simp
  show scheduleNew k = t
  simp only [scheduleNew, hfrs, if_neg (not_lt.2 hV.2.1), hh, if_neg hemp, lastEntry_concat hring]

theorem LevelInv.schedule (hi : LevelInv k q) : LevelInv (schedule k) q := by
  refine hi.congr rfl rfl rfl fun u => ?_
  unfold Kernel.home
  rw [schedule_keep (g := Thread.cpu) fun _ _ => rfl, schedule_keep (g := Thread.priorityDyn) fun _ _ => rfl]

theorem LevelInv.yield_bitmap (hi : LevelInv k q) (ht : k.current ∈ q h) : (syscallSchedYield k).bitmap = k.bitmap := by
  obtain ⟨hcpu, hh⟩ := hi.home_eq ht
  have hV := hi.isRun ht
  have hidx : prioq (k.thread k.current).priorityDyn = h.index := congrArg RunHead.index hh
  have hset := (hi.bits h hV).2 (ne_nil_of_mem ht)
  rw [hV.cpu_eq] at hset
  have hb : (syscallSchedYield k).bitmap = update (removeThread k k.current).bitmap 0
      (setBit ((removeThread k k.current).bitmap 0) h.index) := by
    simp only [syscallSchedYield, modThread_bitmap, enqueueThread_bitmap, removeThread_cpuHint, hi.hint,
      removeThread_thread, hidx]
  rw [hb, removeThread_bitmap, hcpu, hi.lists.home h _ ht]
  split
  · rw [update_self, setBit_clearBit_of_getLsbD hV.2 hset, update_idem, update_eq_self]
  · rw [setBit_of_getLsbD hV.2 hset, update_eq_self]

theorem LevelInv.yield_nthreads (hi : LevelInv k q) (ht : k.current ∈ q h) :
    (syscallSchedYield k).nthreads = k.nthreads := by
  obtain ⟨hcpu, -⟩ := hi.home_eq ht
  simp only [syscallSchedYield, modThread_nthreads, enqueueThread_nthreads, removeThread_cpuHint, hi.hint,
    removeThread_nthreads, hcpu, update_self, update_idem, Int.sub_add_cancel,
    update_eq_self]

/-- The thread that yields goes from the end of its list to the front. -/
theorem LevelInv.yield (hi : LevelInv k q) (hq : q h = xs ++ [k.current]) :
    LevelInv (syscallSchedYield k) (update q h (k.current :: xs)) := by
  have ht : k.current ∈ q h := by simp [hq]
  have hnd := hi.lists.queues.nodup h
  have hrem := hi.lists.removeThread ht
  have hoff : ∀ h', k.current ∉ update q h ((q h).erase k.current) h' := fun h' hm =>
    ((hi.lists.queues.exists_mem_update_erase ht).1 ⟨h', hm⟩).1 rfl
  obtain ⟨-, hh⟩ := hi.home_eq ht
  have hlevel : (⟨(removeThread k k.current).cpuHint,
      prioq ((removeThread k k.current).thread k.current).priorityDyn⟩ : RunHead) = h := by
    rw [removeThread_cpuHint, hi.hint, removeThread_thread, hh]
  have henq := hrem.enqueueThread (by rw [hlevel]; exact hi.isRun ht) hoff
  rw [hq] at hnd
  rw [hlevel, update_self, update_idem, hq, erase_concat hnd] at henq
  refine ⟨henq.congr rfl fun _ u _ => ?_, ?_, fun h' hh' => ?_⟩
  · unfold Kernel.home syscallSchedYield
    rw [modThread_thread_keep (g := Thread.cpu) _ _ _ _ rfl,
      modThread_thread_keep (g := Thread.priorityDyn) _ _ _ _ rfl]
  · simp only [syscallSchedYield, modThread_cpuHint, enqueueThread_cpuHint, removeThread_cpuHint, hi.hint]
  · rw [hi.yield_bitmap ht, hi.bits h' hh', update_apply]
    split
    · rename_i he
      simp [he, hq]
    · rfl

/-- Rounds that serve the end `ys` of the highest level put it in front of the rest. -/
theorem LevelInv.yieldRounds (hi : LevelInv k q) (hq : q h = xs ++ ys) (hmax : ∀ h', q h' ≠ [] → h'.index ≤ h.index) :
    (yieldRounds ys.length k).1 = ys.reverse ∧ LevelInv (yieldRounds ys.length k).2 (update q h (ys ++ xs)) ∧
    (yieldRounds ys.length k).2.bitmap = k.bitmap ∧ (yieldRounds ys.length k).2.nthreads = k.nthreads := by
  induction ys using List.reverseRecOn generalizing k q xs with
  | nil =>
    refine ⟨rfl, ?_, rfl, rfl⟩
    rw [append_nil] at hq
    rw [nil_append, ← hq, update_eq_self]
    exact hi
  | append_singleton ys t ih =>
    rw [← append_assoc] at hq
    have hcur := hi.schedule_current hq hmax
    have his := hi.schedule
    have hq' : q h = (xs ++ ys) ++ [(Manrix.schedule k).current] := by rw [hcur, hq]
    have ht : (Manrix.schedule k).current ∈ q h := by simp [hq']
    -- the round leaves the same levels occupied
    have hmax' : ∀ h', update q h ((Manrix.schedule k).current :: (xs ++ ys)) h' ≠ [] →
        h'.index ≤ h.index := by
      intro h' hne
      by_cases he : h' = h
      · rw [he]
      · rw [update_of_ne he] at hne
        exact hmax h' hne
    have hfront : update q h ((Manrix.schedule k).current :: (xs ++ ys)) h =
        ((Manrix.schedule k).current :: xs) ++ ys := update_self ..
    obtain ⟨h1, h2, h3, h4⟩ := ih (his.yield hq') hfront hmax'
    rw [update_idem, hcur] at h2
    have hn : (ys ++ [t]).length = ys.length + 1 := by simp
    rw [hn, Manrix.yieldRounds]
    refine ⟨?_, ?_, ?_, ?_⟩
    · rw [reverse_append, reverse_singleton, singleton_append, ← h1, hcur]
    · rw [append_assoc]
      exact h2
    · exact h3.trans (his.yield_bitmap ht)
    · exact h4.trans (his.yield_nthreads ht)

/-- As many rounds as the highest level has threads choose each of them once, the one that was queued first before the
others, and leave the lists, the bitmap and the counters as they were.  `log` are the calls of `enqueue_thread`, the
latest first. -/
theorem yield_round_robin (hi : LevelInv k q) (hmax : ∀ h', q h' ≠ [] → h'.index ≤ h.index) :
    (yieldRounds (q h).length k).1 = (q h).reverse ∧
    (∀ t, (yieldRounds (q h).length k).1.count t = if t ∈ q h then 1 else 0) ∧
    (∀ log : List τ, ((q h).Pairwise fun a b => log.idxOf a < log.idxOf b) →
      (yieldRounds (q h).length k).1.Pairwise fun a b => log.idxOf b < log.idxOf a) ∧
    LevelInv (yieldRounds (q h).length k).2 q ∧
    (yieldRounds (q h).length k).2.bitmap = k.bitmap ∧ (yieldRounds (q h).length k).2.nthreads = k.nthreads := by
  have hnd := hi.lists.queues.nodup h
  obtain ⟨h1, h2, h3, h4⟩ := hi.yieldRounds (nil_append (q h)).symm hmax
  rw [append_nil, update_eq_self] at h2
  refine ⟨h1, fun t => ?_, fun log hlog => ?_, h2, h3, h4⟩
  · rw [h1, count_reverse, List.Nodup.count hnd]
  · rw [h1, pairwise_reverse]
    exact hlog

end Round

/-- Two threads of one priority, `true` queued before `false`. -/
def twoPeers : Kernel Bool :=
  enqueueThread (enqueueThread (schedInit (.ofThreads [false, true] (fun b => .ready (if b then 2 else 1) 20) false))
    true) false

theorem yield_round_robin_twoPeers : ∃ q : RunHead → List Bool, LevelInv twoPeers q ∧ q ⟨0, 5⟩ = [false, true] ∧
    (yieldRounds 2 twoPeers).1 = [true, false] ∧ LevelInv (yieldRounds 2 twoPeers).2 q := by
  have hprio : ∀ b, (twoPeers.thread b).priorityDyn = 20 := by decide
  have hinv : SchedInv twoPeers (insert false (insert true ∅)) [false, true] := by
    refine ((schedInit_inv rfl ?_).enqueueThread ?_).enqueueThread ?_ <;> decide
  obtain ⟨q, hi⟩ := hinv
  have hlevel : ∀ h', q h' ≠ [] → h' = ⟨0, 5⟩ := by
    intro h' hne
    obtain ⟨b, hb⟩ := exists_mem_of_ne_nil _ hne
    obtain ⟨-, hh⟩ := hi.levelInv.home_eq hb
    rw [← hh, hprio b]
    rfl
  have hq : q ⟨0, 5⟩ = [false, true] := by
    have hmem : ∀ b, b ∈ q ⟨0, 5⟩ := by
      intro b
      obtain ⟨h', hb⟩ := (hi.mem b).2 (by cases b <;> decide)
      rwa [hlevel h' (ne_nil_of_mem hb)] at hb
    have hring := hi.lists.queues.ring ⟨0, 5⟩ (by decide)
    have hring' : IsRing twoPeers.runq (.head ⟨0, 5⟩) ([false, true].map .obj) := by decide
    have heq := hring.next.unique hring'.next (by simp) (by simp)
    exact map_injective_iff.2 (fun _ _ h => Node.obj.inj h) heq
  have h := yield_round_robin (h := ⟨0, 5⟩) hi.levelInv fun h' hne => by rw [hlevel h' hne]
  rw [hq] at h
  exact ⟨q, hi.levelInv, hq, h.1, h.2.2.2.1⟩

end Manrix
