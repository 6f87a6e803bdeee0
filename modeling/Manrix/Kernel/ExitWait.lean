import Manrix.Kernel.Process
import Manrix.Kernel.Sleep
import Manrix.Lib.Fuel
import Manrix.Lib.Queues
import Manrix.Lib.Runs
import Manrix.LinkedList

/-!
# Exit and wait

`syscall_exit` and `waitpid`, as far as the records of the processes and the threads are concerned.  Timers, signals,
files, identifiers and the memory map are left out, as are the locks; so are the sleep of a parent that waits and what
is done to the run queue.

The record of a process that does not ignore `SIGCHLD` is marked as a zombie, and at the end of the same call a zombie
is freed; its last thread is destroyed twice.  A process that ignores `SIGCHLD` leaves neither its status nor a mark,
whatever its parent does.  `phash_remove` takes no process out of the hash: for the first one of a bucket it changes a
local variable, and for another one its loop has no end.
-/

namespace Manrix

open Fuel Function Links List Runs

def echild : Int := 0x0c
def saNocldwait : BitVec 32 := 0x20
def wifexit : BitVec 32 := 0x010000
def wnohang : BitVec 32 := 1

variable {ρ τ : Type*} [DecidableEq ρ] [DecidableEq τ]

/-- The processes, the lists `threads`, the entries of `action` for `SIGCHLD`, and how often a record was freed and a
thread destroyed. -/
structure ExitMem (ρ τ : Type*) where
  mem : ProcMem ρ
  threads : Links (Node ρ τ)
  thrProc : τ → ρ
  saFlags : ρ → BitVec 32
  saHandler : ρ → BitVec 32
  frees : ρ → Nat
  destroys : τ → Nat

omit [DecidableEq ρ] [DecidableEq τ] in
def ExitMem.ignoresChld (s : ExitMem ρ τ) (p : ρ) : Bool :=
  s.saFlags p &&& saNocldwait ≠ 0 || s.saHandler p = sigIgn

/-- The loop of `phash_remove`; at its end is the process `link`, or a read through a null pointer. -/
def phashSkip (next : ρ → Option ρ) (process : ρ) : Nat → Option ρ → Option (Option ρ)
  | 0, _ => none
  | _ + 1, none => some none
  | fuel + 1, some link =>
    if next link ≠ some process ∨ next link ≠ none then phashSkip next process fuel (next link) else some (some link)

/-- `phash_remove`; for the first process of the bucket only the local variable `p` changes. -/
def phashRemove (s : ProcMem ρ) (fuel : Nat) (process : ρ) : Option (Option (ProcMem ρ)) :=
  let p := s.phash (hashFn (s.proc process).pid.toInt)
  if p = some process then some (some s)
  else (phashSkip (fun q => (s.proc q).next) process fuel p).map fun link =>
    link.map fun link => s.modProc link ({ · with next := (s.proc process).next })

/-- `destroy_thread`, without the hash table, the identifier and the thread that waits. -/
def destroyThread (s : ExitMem ρ τ) (thread : τ) : ExitMem ρ τ :=
  { s with
    threads := listDel s.threads (.head (s.thrProc thread)) (.obj thread)
    destroys := update s.destroys thread (s.destroys thread + 1) }

/-- The loop of `exit_threads` on a state with the lists `threads`, which `put` replaces; `e` is its variable `end`. -/
def exitThreadsLoop {σ : Type*} (threads : σ → Links (Node ρ τ)) (put : σ → Links (Node ρ τ) → σ) (destroy : σ → τ → σ)
    (cur : τ) (process : ρ) : Nat → Nat → σ → Option σ
  | 0, _, _ => none
  | fuel + 1, e, s =>
    if listIsempty (threads s) (.head process) then some s
    else
      match listDequeue (threads s) (.head process) with
      | (_, .head _) => none -- not met: the object in front of the head of a list that is not empty is a thread
      | (l, .obj thr) =>
        if thr = cur then
          let s := put s (listEnqueue l (.head process) (.obj cur))
          if e + 1 < 2 then exitThreadsLoop threads put destroy cur process fuel (e + 1) s else some s
        else
          let s := destroy (put s l) thr
          if e < 2 then exitThreadsLoop threads put destroy cur process fuel e s else some s

def exitThreads (cur : τ) (process : ρ) (fuel e : Nat) (s : ExitMem ρ τ) : Option (ExitMem ρ τ) :=
  exitThreadsLoop ExitMem.threads (fun s l => { s with threads := l }) destroyThread cur process fuel e s

def ExitMem.modProc (s : ExitMem ρ τ) (p : ρ) (f : Proc ρ → Proc ρ) : ExitMem ρ τ := { s with mem := s.mem.modProc p f }

def ExitMem.processFree (s : ExitMem ρ τ) (p : ρ) : ExitMem ρ τ :=
  { s with mem := Manrix.processFree s.mem p, frees := update s.frees p (s.frees p + 1) }

/-- The status of a process that exits. -/
def exitCode (exitStatus status : BitVec 32) : BitVec 32 := exitStatus ||| (status &&& 0xFF) ||| wifexit

omit [DecidableEq ρ] in
/-- A parent that waits for the end of a `vfork` can run again. -/
def clearVforked (r : Proc ρ) : Proc ρ :=
  if r.status &&& statVforked ≠ 0 then { r with status := r.status &&& ~~~statVforked } else r

/-- What `syscall_exit` does when the threads are gone but for the current one. -/
def exitProcess (s : ExitMem ρ τ) (p : ρ) (thr : τ) (status : BitVec 32) : ExitMem ρ τ :=
  let s :=
    if s.ignoresChld p then s
    else
      let s := s.modProc p fun r =>
        { r with exitStatus := exitCode r.exitStatus status, status := r.status ||| processZombie }
      destroyThread s thr
  let s := destroyThread (s.modProc p clearVforked) thr
  -- this is also the mark that has just been set for a process that is to be waited for
  if (s.mem.proc p).status &&& processZombie ≠ 0 then s.processFree p else s

/-- `syscall_exit` in the thread `thr`; `some none` is a read through a null pointer. -/
def syscallExit (s : ExitMem ρ τ) (fuel : Nat) (thr : τ) (status : BitVec 32) : Option (Option (ExitMem ρ τ)) :=
  let p := s.thrProc thr
  match phashRemove s.mem fuel p with
  | none => none
  | some none => some none
  | some (some mem) =>
    (exitThreads thr p fuel 0 { s with mem := mem }).map fun s => some (exitProcess s p thr status)

/-- What `waitpid` returns: the identifier and the status of a child, or another value. -/
inductive WaitResult (ρ : Type*) where
  | child (chld : ρ) (pid stat : BitVec 32)
  | other (ret : Int)

/-- `waitpid`, in a thread of the process `proc`; a parent that would sleep returns 0. -/
def waitpid (s : ExitMem ρ τ) (fuel : Nat) (proc : ρ) (pid flags : BitVec 32) : Option (ExitMem ρ τ × WaitResult ρ) :=
  if !haveChildren s.mem proc then some (s, .other (-echild))
  else
    let rest := if flags &&& wnohang ≠ 0 then -echild else 0
    if 0 < pid.toInt then
      match findByPid s.mem fuel pid with
      | some (.result none) => some (s, .other (-echild))
      | some (.result (some chld)) =>
        if (s.mem.proc chld).parent ≠ proc then some (s, .other (-echild))
        else if (s.mem.proc chld).status = processZombie then
          (s.mem.links.listDelChild (.child proc) chld).map fun l =>
            (({ s with mem := { s.mem with links := l } } : ExitMem ρ τ).processFree chld,
              .child chld (s.mem.proc chld).pid (s.mem.proc chld).exitStatus)
        else some (s, .other rest)
      | _ => none
    else some (s, .other rest)

/-- Besides: the status that a process has exited with, what `waitpid` has returned for it, and whether a call has not
come to its end. -/
structure ExitState (ρ τ : Type*) where
  mem : ExitMem ρ τ
  exited : ρ → Option (BitVec 32)
  waited : ρ → List (BitVec 32 × BitVec 32)
  hung : Bool

inductive ExitOp (ρ τ : Type*) where
  | exit (thr : τ) (status : BitVec 32)
  | wait (proc : ρ) (pid flags : BitVec 32)

omit [DecidableEq τ] in
def ExitState.record (s : ExitState ρ τ) (m : ExitMem ρ τ) : WaitResult ρ → ExitState ρ τ
  | .child chld pid stat =>
    { s with mem := m, waited := update s.waited chld (s.waited chld ++ [(pid, stat)]) }
  | .other _ => { s with mem := m }

/-- A thread of a process exits, or a process waits for a child. -/
def ExitStep (s : ExitState ρ τ) (op : ExitOp ρ τ) (s' : ExitState ρ τ) : Prop :=
  match op with
  | .exit thr status =>
    let p := s.mem.thrProc thr
    Threaded s.mem.threads p thr ∧ s.exited p = none ∧
    ((∃ fuel m, syscallExit s.mem fuel thr status = some (some m) ∧ s' = { s with
        mem := m
        exited := update s.exited p (some (exitCode (s.mem.mem.proc p).exitStatus status)) }) ∨
      ((∀ fuel m, syscallExit s.mem fuel thr status ≠ some (some m)) ∧ s' = { s with hung := true }))
  | .wait proc pid flags =>
    0 < pid.toInt ∧ ∃ fuel m r, waitpid s.mem fuel proc pid flags = some (m, r) ∧ s' = s.record m r

/-- The calls come to their end, a record is freed at most once, the threads `q₀ p` of an exited process are destroyed
once, and the record of a child whose parent does not ignore `SIGCHLD` is kept with the status until one `waitpid` has
returned it. -/
structure ExitOk (q₀ : ρ → List τ) (s : ExitState ρ τ) : Prop where
  hung : s.hung = false
  freed : ∀ p, s.mem.frees p ≤ 1
  destroyed : ∀ p, s.exited p ≠ none → ∀ t ∈ q₀ p, s.mem.destroys t = 1
  kept : ∀ p code, s.exited p = some code → s.mem.ignoresChld (s.mem.mem.proc p).parent = false →
    (s.waited p = [] ∧ s.mem.frees p = 0 ∧ (s.mem.mem.proc p).exitStatus = code) ∨
      s.waited p = [((s.mem.mem.proc p).pid, code)]

/-- A process that exits ignores `SIGCHLD`, as its parent does, and is the first one of its bucket. -/
def ExitGuard (x : ExitState ρ τ × ExitOp ρ τ × ExitState ρ τ) : Prop :=
  match x.2.1 with
  | .exit thr _ =>
    let s := x.1.mem
    let p := s.thrProc thr
    s.ignoresChld p = true ∧ s.ignoresChld (s.mem.proc p).parent = true ∧
      s.mem.phash (hashFn (s.mem.proc p).pid.toInt) = some p
  | .wait _ _ _ => True

section Threads

variable {s s₁ s' : ExitMem ρ τ} {V : ρ → Prop} {q : ρ → List τ} {p : ρ} {cur t : τ} {us vs : List τ} {fuel e : Nat}

/-- The threads `us` have been destroyed. -/
structure Destroyed (s s' : ExitMem ρ τ) (us : List τ) : Prop where
  rest : s' = { s with threads := s'.threads, destroys := s'.destroys }
  count : ∀ t, s'.destroys t = s.destroys t + us.count t

omit [DecidableEq ρ] in
theorem Destroyed.trans (h₁ : Destroyed s s₁ us) (h₂ : Destroyed s₁ s' vs) : Destroyed s s' (us ++ vs) := by
  constructor
  · rw [h₂.rest, h₁.rest]
  · intro t
    rw [h₂.count, h₁.count, count_append]
    omega

omit [DecidableEq ρ] in
theorem Destroyed.perm (h : Destroyed s s' us) (hp : us.Perm vs) : Destroyed s s' vs := by
  refine ⟨h.rest, fun t => ?_⟩
  rw [h.count, hp.count_eq]

private theorem destroyThread_destroyed (s : ExitMem ρ τ) (t : τ) : Destroyed s (destroyThread s t) [t] := by
  refine ⟨rfl, fun x => ?_⟩
  by_cases h : x = t
  · subst h
    simp [destroyThread]
  · simp [destroyThread, h, Ne.symm h]

private theorem unlink_destroyThread (hq : Queues V s.threads q) (ht : t ∈ q p) :
    (destroyThread { s with threads := s.threads.unlink (.obj t) } t).threads = s.threads.unlink (.obj t) := by
  have hr := hq.ring p (hq.head_of_mem ht)
  have hm : (Node.obj t : Node ρ τ) ∈ (q p).map Node.obj := mem_map_of_mem ht
  simp only [destroyThread, listDel_eq]
  exact unlink_unlink (hr.next_ne hm) (hr.prev_ne hm)

private theorem exitThreads_concat (hq : Queues V s.threads q) (hl : q p = us ++ [t]) :
    exitThreads cur p (fuel + 1) e s =
      if t = cur then
        let s' := { s with threads := (s.threads.unlink (.obj t)).splice (.head p) (.obj cur) }
        if e + 1 < 2 then exitThreads cur p fuel (e + 1) s' else some s'
      else
        let s' := destroyThread { s with threads := s.threads.unlink (.obj t) } t
        if e < 2 then exitThreads cur p fuel e s' else some s' := by
  have hr := hq.ring p (hq.head_of_mem (x := t) (by simp [hl]))
  rw [hl, map_append, map_singleton] at hr
  have hne : ¬ listIsempty s.threads (.head p) = true := by
    rw [listIsempty_iff hr]
    simp
  rw [exitThreads, exitThreadsLoop, if_neg hne, listDequeue_concat hr]
  simp only [listEnqueue_eq]
  rfl

private theorem exitThreads_other (us : List τ) (hq : Queues V s.threads q) (hl : q p = us ++ [t]) (ht : t ≠ cur)
    (he : e < 2) : ∃ s₁, (∀ fuel, exitThreads cur p (fuel + 1) e s = exitThreads cur p fuel e s₁) ∧ Destroyed s s₁ [t] ∧
      Queues V s₁.threads (update q p us) := by
  have hmem : t ∈ q p := by simp [hl]
  refine ⟨destroyThread { s with threads := s.threads.unlink (.obj t) } t, fun fuel => ?_, ?_, ?_⟩
  · rw [exitThreads_concat hq hl, if_neg ht, if_pos he]
  · obtain ⟨hrest, hcount⟩ := destroyThread_destroyed { s with threads := s.threads.unlink (.obj t) } t
    exact ⟨hrest, hcount⟩
  · rw [unlink_destroyThread hq hmem]
    exact hq.unlink_last hl

omit [DecidableEq ρ] [DecidableEq τ] in
private theorem later {f g : Nat → Option (ExitMem ρ τ)} {n : Nat} (hfg : ∀ fuel, f (fuel + 1) = g fuel)
    (hg : ∀ fuel, n ≤ fuel → g fuel = some s') : ∀ fuel, n + 1 ≤ fuel → f fuel = some s' := by
  intro fuel hf
  obtain ⟨fuel, rfl⟩ := Nat.exists_eq_add_of_le' (Nat.le_trans (Nat.le_add_left 1 n) hf)
  rw [hfg, hg fuel (by omega)]

private theorem exitThreads_cur (us : List τ) (hq : Queues V s.threads q) (hl : q p = us ++ [cur]) :
    ∃ s₁, (∀ fuel, exitThreads cur p (fuel + 1) e s =
      if e + 1 < 2 then exitThreads cur p fuel (e + 1) s₁ else some s₁) ∧
      Destroyed s s₁ [] ∧ Queues V s₁.threads (update q p (cur :: us)) := by
  have hmem : cur ∈ q p := by simp [hl]
  have hu := hq.unlink_last hl
  have hoff : ∀ h, cur ∉ update q p us h := by
    intro h hm
    have hnd := hq.nodup p
    rw [hl] at hnd
    have herase : update q p us = update q p ((q p).erase cur) := by rw [hl, erase_concat hnd]
    rw [herase] at hm
    exact ((hq.exists_mem_update_erase hmem).1 ⟨h, hm⟩).1 rfl
  refine ⟨{ s with threads := (s.threads.unlink (.obj cur)).splice (.head p) (.obj cur) }, fun fuel => ?_,
    ⟨rfl, by simp⟩, ?_⟩
  · rw [exitThreads_concat hq hl, if_pos rfl]
  · have := hu.splice (h := p) (hq.head_of_mem hmem) hoff
    rwa [update_self, update_idem] at this

private theorem exitThreads_second (hq : Queues V s.threads q) (hl : q p = cur :: us) :
    ∃ n s', (∀ fuel, n ≤ fuel → exitThreads cur p fuel 1 s = some s') ∧ Destroyed s s' us ∧
      Queues V s'.threads (update q p [cur]) := by
  induction us using List.reverseRecOn generalizing s q with
  | nil =>
    obtain ⟨s₁, hrun, hd, hq₁⟩ := exitThreads_cur (e := 1) [] hq hl
    refine ⟨1, s₁, fun fuel hf => ?_, hd, hq₁⟩
    obtain ⟨fuel, rfl⟩ := Nat.exists_eq_add_of_le' hf
    rw [hrun, if_neg (by omega)]
  | append_singleton us t ih =>
    have hnd := hq.nodup p
    rw [hl, nodup_cons] at hnd
    have ht : t ≠ cur := fun he => hnd.1 (by simp [he])
    obtain ⟨s₁, hrun, hd, hq₁⟩ := exitThreads_other (e := 1) (cur :: us) hq hl ht (by omega)
    obtain ⟨n, s', hrun', hd', hq'⟩ := ih hq₁ (update_self ..)
    refine ⟨n + 1, s', later hrun hrun', (hd.trans hd').perm perm_append_comm, ?_⟩
    rwa [update_idem] at hq'

/-- Each thread but the current one is destroyed once, and the current one is left. -/
theorem exitThreads_first (hq : Queues V s.threads q) (hl : q p = vs ++ cur :: us) :
    ∃ n s', (∀ fuel, n ≤ fuel → exitThreads cur p fuel 0 s = some s') ∧ Destroyed s s' (vs ++ us) ∧
      Queues V s'.threads (update q p [cur]) := by
  induction us using List.reverseRecOn generalizing s q with
  | nil =>
    obtain ⟨s₁, hrun, hd, hq₁⟩ := exitThreads_cur (e := 0) vs hq hl
    obtain ⟨n, s', hrun', hd', hq'⟩ := exitThreads_second hq₁ (update_self ..)
    refine ⟨n + 1, s', later (fun fuel => (hrun fuel).trans (if_pos (by omega))) hrun', ?_, ?_⟩
    · exact (hd.trans hd').perm (by simp)
    · rwa [update_idem] at hq'
  | append_singleton us t ih =>
    have hl' : q p = (vs ++ cur :: us) ++ [t] := by simp [hl]
    have ht : t ≠ cur := by
      have hnd := hq.nodup p
      rw [hl'] at hnd
      rintro rfl
      exact (nodup_append.1 hnd).2.2 t (by simp) t (by simp) rfl
    obtain ⟨s₁, hrun, hd, hq₁⟩ := exitThreads_other (e := 0) _ hq hl' ht (by omega)
    obtain ⟨n, s', hrun', hd', hq'⟩ := ih hq₁ (update_self ..)
    refine ⟨n + 1, s', later hrun hrun', (hd.trans hd').perm ?_, ?_⟩
    · have hperm : ([t] ++ (vs ++ us)).Perm ((vs ++ us) ++ [t]) := perm_append_comm
      rwa [append_assoc vs us] at hperm
    · rwa [update_idem] at hq'

theorem exitThreadsLoop_extends {σ : Type*} {threads : σ → Links (Node ρ τ)} {put : σ → Links (Node ρ τ) → σ}
    {destroy : σ → τ → σ} {fuel' : Nat} (hf : fuel ≤ fuel') (e : Nat) (s : σ) :
    Extends (exitThreadsLoop threads put destroy cur p fuel e s)
      (exitThreadsLoop threads put destroy cur p fuel' e s) := by
  refine le_rounds (R := fun n m => ∀ e s, Extends (exitThreadsLoop threads put destroy cur p n e s)
    (exitThreadsLoop threads put destroy cur p m e s)) ?_ ?_ hf e s
  · exact fun m e s => extends_none _
  · intro n m ih e s
    unfold exitThreadsLoop
    refine .ite (.refl _) ?_
    obtain ⟨l, thr⟩ := listDequeue (threads s) (.head p)
    cases thr with
    | head h => exact .refl _
    | obj thr => exact .ite (.ite (ih _ _) (.refl _)) (.ite (ih _ _) (.refl _))

private theorem exitThreads_spec (hq : Queues (fun _ => True) s.threads q) (hcur : cur ∈ q p) :
    ∃ s', (∃ n, ∀ fuel, n ≤ fuel → exitThreads cur p fuel 0 s = some s') ∧
      (∀ fuel s'', exitThreads cur p fuel 0 s = some s'' → s'' = s') ∧ Destroyed s s' ((q p).erase cur) ∧
      Queues (fun _ => True) s'.threads (update q p [cur]) := by
  obtain ⟨vs, us, hl⟩ := append_of_mem hcur
  obtain ⟨n, s', hrun, hd, hq'⟩ := exitThreads_first hq hl
  have hnd := hq.nodup p
  rw [hl] at hnd
  have hv : cur ∉ vs := fun hm => (nodup_append.1 hnd).2.2 cur hm cur (by simp) rfl
  refine ⟨s', ⟨n, hrun⟩, ?_, ?_, hq'⟩
  · intro fuel s'' h
    exact eq_of_extends (fun hf => exitThreadsLoop_extends hf 0 s) h (hrun n (Nat.le_refl n))
  · rwa [hl, erase_append_right _ hv, erase_cons_head]

end Threads

section Calls

variable {s s' : ExitMem ρ τ} {q : ρ → List τ} {p : ρ} {thr t : τ} {status : BitVec 32} {fuel : Nat}

private theorem phashSkip_ne {next : ρ → Option ρ} {link : ρ} {start : Option ρ} :
    phashSkip next p fuel start ≠ some (some link) := by
  induction fuel generalizing start with
  | zero => simp [phashSkip]
  | succ fuel ih =>
    cases start with
    | none => simp [phashSkip]
    | some x =>
      unfold phashSkip
      split
      · exact ih
      · rename_i h
        push Not at h
        rw [h.1] at h
        cases h.2

theorem phashRemove_eq_some {mem mem' : ProcMem ρ} :
    phashRemove mem fuel p = some (some mem') ↔ mem.phash (hashFn (mem.proc p).pid.toInt) = some p ∧ mem' = mem := by
  unfold phashRemove
  dsimp only
  split
  · rename_i h
    simp [h, eq_comm]
  · rename_i h
    refine iff_of_false ?_ fun hc => h hc.1
    intro hc
    obtain ⟨r, hr, he⟩ := Option.map_eq_some_iff.1 hc
    obtain ⟨link, rfl, -⟩ := Option.map_eq_some_iff.1 he
    exact phashSkip_ne hr

omit [DecidableEq ρ] in
private theorem clearVforked_fields (r : Proc ρ) :
    (clearVforked r).status &&& processZombie = r.status &&& processZombie ∧ (clearVforked r).parent = r.parent ∧
      (clearVforked r).exitStatus = r.exitStatus := by
  unfold clearVforked
  split
  · refine ⟨?_, rfl, rfl⟩
    dsimp only
    rw [BitVec.and_assoc, show ~~~statVforked &&& processZombie = processZombie by decide]
  · exact ⟨rfl, rfl, rfl⟩

private theorem exitProcess_ignoring (hi : s.ignoresChld p = true) (hz : (s.mem.proc p).status &&& processZombie = 0) :
    exitProcess s p thr status = destroyThread (s.modProc p clearVforked) thr := by
  have hz' : ((destroyThread (s.modProc p clearVforked) thr).mem.proc p).status &&& processZombie = 0 := by
    simp only [destroyThread, ExitMem.modProc, ProcMem.modProc, update_self]
    rw [(clearVforked_fields _).1, hz]
  unfold exitProcess
  rw [if_pos hi]
  dsimp only
  rw [if_neg (not_not.2 hz')]

private theorem exitProcess_destroys (hi : s.ignoresChld p = false) :
    (exitProcess s p thr status).destroys thr = s.destroys thr + 2 := by
  have hn : ¬ s.ignoresChld p = true := by simp [hi]
  unfold exitProcess
  rw [if_neg hn]
  dsimp only
  split <;> simp [ExitMem.processFree, destroyThread, ExitMem.modProc]

private theorem syscallExit_spec (hq : Queues (fun _ => True) s.threads q) (ht : thr ∈ q (s.thrProc thr))
    (status : BitVec 32) : ∃ s₁, Destroyed s s₁ ((q (s.thrProc thr)).erase thr) ∧
      Queues (fun _ => True) s₁.threads (update q (s.thrProc thr) [thr]) ∧
      (s.mem.phash (hashFn (s.mem.proc (s.thrProc thr)).pid.toInt) = some (s.thrProc thr) →
        ∃ fuel, syscallExit s fuel thr status = some (some (exitProcess s₁ (s.thrProc thr) thr status))) ∧
      ∀ fuel m, syscallExit s fuel thr status = some (some m) →
        s.mem.phash (hashFn (s.mem.proc (s.thrProc thr)).pid.toInt) = some (s.thrProc thr) ∧
        m = exitProcess s₁ (s.thrProc thr) thr status := by
  obtain ⟨s₁, ⟨n, hrun⟩, huniq, hd, hq₁⟩ := exitThreads_spec hq ht
  refine ⟨s₁, hd, hq₁, fun hb => ⟨n, ?_⟩, fun fuel m h => ?_⟩
  · unfold syscallExit
    dsimp only
    rw [phashRemove_eq_some.2 ⟨hb, rfl⟩]
    simp [hrun n (Nat.le_refl n)]
  · unfold syscallExit at h
    dsimp only at h
    split at h
    · cases h
    · cases h
    · rename_i mem hmem
      obtain ⟨hb, rfl⟩ := phashRemove_eq_some.1 hmem
      obtain ⟨s₂, h₂, he⟩ := Option.map_eq_some_iff.1 h
      rw [huniq fuel s₂ h₂] at he
      exact ⟨hb, (Option.some.inj he).symm⟩

omit [DecidableEq τ] in
private theorem waitpid_eq {proc : ρ} {pid flags : BitVec 32} {r : WaitResult ρ}
    (hz : ∀ p, (s.mem.proc p).status &&& processZombie = 0) (h : waitpid s fuel proc pid flags = some (s', r)) :
    s' = s ∧ ∃ ret, r = .other ret := by
  have hne : ∀ p, (s.mem.proc p).status ≠ processZombie := by
    intro p he
    have := hz p
    rw [he] at this
    exact absurd this (by decide)
  unfold waitpid at h
  dsimp only at h
  split at h
  · cases h
    exact ⟨rfl, _, rfl⟩
  · split at h
    · split at h
      · cases h
        exact ⟨rfl, _, rfl⟩
      · rename_i chld _
        split at h
        · cases h
          exact ⟨rfl, _, rfl⟩
        · rw [if_neg (hne chld)] at h
          cases h
          exact ⟨rfl, _, rfl⟩
      · cases h
    · cases h
      exact ⟨rfl, _, rfl⟩

end Calls

/-- The state of a system in which the threads were `q₀` at the start, and the processes that have exited and their
parents ignore `SIGCHLD`. -/
structure ExitInv (q₀ : ρ → List τ) (s : ExitState ρ τ) : Prop where
  hung : s.hung = false
  waited : ∀ p, s.waited p = []
  frees : ∀ p, s.mem.frees p = 0
  queues : Queues (fun _ => True) s.mem.threads fun p => if s.exited p = none then q₀ p else []
  owner : ∀ p, ∀ t ∈ q₀ p, s.mem.thrProc t = p
  fresh : ∀ p, s.exited p = none → ∀ t ∈ q₀ p, s.mem.destroys t = 0
  destroyed : ∀ p, s.exited p ≠ none → ∀ t ∈ q₀ p, s.mem.destroys t = 1
  status : ∀ p, (s.mem.mem.proc p).status &&& processZombie = 0
  running : ∀ p, s.exited p = none → (s.mem.mem.proc p).exitStatus &&& wifexit = 0
  ignoring : ∀ p, s.exited p ≠ none → s.mem.ignoresChld (s.mem.mem.proc p).parent = true

section Runs

variable {s s' : ExitState ρ τ} {q₀ : ρ → List τ} {op : ExitOp ρ τ} {thr : τ} {status : BitVec 32}

omit [DecidableEq ρ] [DecidableEq τ] in
theorem ExitInv.ok (hi : ExitInv q₀ s) : ExitOk q₀ s where
  hung := hi.hung
  freed p := by rw [hi.frees p]; omega
  destroyed := hi.destroyed
  kept p code hp hn := by
    rw [hi.ignoring p (by simp [hp])] at hn
    cases hn

private theorem exitCode_and_wifexit (exitStatus status : BitVec 32) :
    exitCode exitStatus status &&& wifexit = wifexit := by
  unfold exitCode
  ext i
  simp only [BitVec.getElem_and, BitVec.getElem_or]
  cases wifexit[i] <;> simp

omit [DecidableEq ρ] in
private theorem count_erase_of_nodup {l : List τ} {t : τ} (hnd : l.Nodup) (ht : t ∈ l) :
    (l.erase thr).count t = if t = thr then 0 else 1 := by
  split
  · rename_i he
    subst he
    rw [count_erase_self, count_eq_one_of_mem hnd ht]
  · rename_i he
    rw [count_erase_of_ne he, count_eq_one_of_mem hnd ht]

theorem ExitInv.mem_of_exit (hi : ExitInv q₀ s) (h : ExitStep s (.exit thr status) s') :
    s.exited (s.mem.thrProc thr) = none ∧ thr ∈ q₀ (s.mem.thrProc thr) := by
  obtain ⟨ht, he, -⟩ := h
  have := (hi.queues.threaded_iff (h := s.mem.thrProc thr) trivial).1 ht
  rw [if_pos he] at this
  exact ⟨he, this⟩

theorem ExitInv.destroys_once {p : ρ} {d : τ → Nat} (hi : ExitInv q₀ s) (hmem : thr ∈ q₀ p)
    (hcount : ∀ t, d t = s.mem.destroys t + ((q₀ p).erase thr).count t) (hnd : (q₀ p).Nodup) :
    ∀ q, ∀ t ∈ q₀ q, update d thr (d thr + 1) t = s.mem.destroys t + if q = p then 1 else 0 := by
  intro q t ht
  by_cases hqp : q = p
  · subst hqp
    by_cases htt : t = thr
    · subst htt
      rw [update_self, hcount, count_erase_of_nodup hnd ht, if_pos rfl, if_pos rfl]
    · rw [update_of_ne htt, hcount, count_erase_of_nodup hnd ht, if_neg htt, if_pos rfl]
  · have htp : t ∉ q₀ p := fun hm => hqp ((hi.owner q t ht).symm.trans (hi.owner p t hm))
    have htt : t ≠ thr := by
      rintro rfl
      exact htp hmem
    rw [update_of_ne htt, hcount, count_eq_zero_of_not_mem fun hm => htp (mem_of_mem_erase hm),
      if_neg hqp]

/-- The exit of a process that ignores `SIGCHLD`. -/
theorem ExitInv.exit (hi : ExitInv q₀ s) (h : ExitStep s (.exit thr status) s')
    (hg : ExitGuard (s, .exit thr status, s')) : ExitInv q₀ s' := by
  obtain ⟨he, hmem⟩ := hi.mem_of_exit h
  obtain ⟨hown, hparent, hb⟩ := hg
  obtain ⟨s₁, hd, hq₁, hret, huniq⟩ := syscallExit_spec hi.queues (by rwa [if_pos he]) status
  obtain ⟨fuel, m, hm, rfl⟩ | ⟨hnever, -⟩ := h.2.2
  swap
  · obtain ⟨fuel, hf⟩ := hret hb
    exact absurd hf (hnever fuel _)
  obtain ⟨l, d, rfl⟩ : ∃ l d, s₁ = { s.mem with threads := l, destroys := d } := ⟨_, _, hd.rest⟩
  have hcount : ∀ t, d t = s.mem.destroys t + ((q₀ (s.mem.thrProc thr)).erase thr).count t := by
    have := hd.count
    rwa [if_pos he] at this
  have hnd : (q₀ (s.mem.thrProc thr)).Nodup := by
    have := hi.queues.nodup (s.mem.thrProc thr)
    rwa [if_pos he] at this
  obtain ⟨-, rfl⟩ := huniq fuel m hm
  rw [exitProcess_ignoring (s := { s.mem with threads := l, destroys := d }) hown (hi.status _)]
  generalize hp : s.mem.thrProc thr = p at *
  have hfields := fun q => modProc_keeps (s := s.mem.mem) (p := p) (g := clearVforked)
    (fun r : Proc ρ => (r.status &&& processZombie, r.parent, r.exitStatus))
    (fun r => by simp only [clearVforked_fields r]) q
  simp only [Prod.mk.injEq] at hfields
  have hdest := hi.destroys_once hmem hcount hnd
  refine ⟨hi.hung, hi.waited, hi.frees, ?_, hi.owner, ?_, ?_, ?_, ?_, ?_⟩
  · have hlast := hq₁.unlink_last (h := p) (l := []) (update_self ..)
    rw [update_idem] at hlast
    simp only [destroyThread, ExitMem.modProc, listDel_eq]
    convert hlast using 1
    funext q
    by_cases hqp : q = p
    · subst hqp
      simp
    · simp [hqp]
  · intro q hq t ht
    have hqp : q ≠ p := by
      rintro rfl
      simp at hq
    have hq' : s.exited q = none := by simpa [hqp] using hq
    refine (hdest q t ht).trans ?_
    rw [if_neg hqp, hi.fresh q hq' t ht]
  · intro q hq t ht
    refine (hdest q t ht).trans ?_
    by_cases hqp : q = p
    · subst hqp
      rw [if_pos rfl, hi.fresh q he t ht]
    · rw [if_neg hqp, hi.destroyed q (by simpa [hqp] using hq) t ht]
  · intro q
    exact (hfields q).1.trans (hi.status q)
  · intro q hq
    have hqp : q ≠ p := by
      rintro rfl
      simp at hq
    have hq' : s.exited q = none := by simpa [hqp] using hq
    refine Eq.trans ?_ (hi.running q hq')
    exact congrArg (· &&& wifexit) (hfields q).2.2
  · intro q hq
    have hpar : ((s.mem.mem.modProc p clearVforked).proc q).parent = (s.mem.mem.proc q).parent := (hfields q).2.1
    change s.mem.ignoresChld ((s.mem.mem.modProc p clearVforked).proc q).parent = true
    rw [hpar]
    by_cases hqp : q = p
    · subst hqp
      exact hparent
    · exact hi.ignoring q (by simpa [hqp] using hq)

/-- Any other exit has lost something. -/
theorem ExitInv.exit_not_ok (hi : ExitInv q₀ s) (h : ExitStep s (.exit thr status) s')
    (hg : ¬ ExitGuard (s, .exit thr status, s')) : ¬ ExitOk q₀ s' := by
  intro hok
  obtain ⟨he, hmem⟩ := hi.mem_of_exit h
  obtain ⟨s₁, hd, hq₁, hret, huniq⟩ := syscallExit_spec hi.queues (by rwa [if_pos he]) status
  obtain ⟨fuel, m, hm, rfl⟩ | ⟨hnever, rfl⟩ := h.2.2
  swap
  · cases hok.hung
  obtain ⟨l, d, rfl⟩ : ∃ l d, s₁ = { s.mem with threads := l, destroys := d } := ⟨_, _, hd.rest⟩
  obtain ⟨hb, rfl⟩ := huniq fuel m hm
  cases hown : s.mem.ignoresChld (s.mem.thrProc thr) with
  | false =>
    -- the thread is destroyed twice
    have hdest := hok.destroyed (s.mem.thrProc thr) (by simp) thr hmem
    dsimp only at hdest
    rw [exitProcess_destroys (s := { s.mem with threads := l, destroys := d }) hown] at hdest
    omega
  | true =>
    have hparent : s.mem.ignoresChld (s.mem.mem.proc (s.mem.thrProc thr)).parent = false := by
      by_contra hp
      exact hg ⟨hown, by simpa using hp, hb⟩
    -- the status is not recorded
    have hkept := hok.kept (s.mem.thrProc thr) _ (update_self ..)
    rw [exitProcess_ignoring (s := { s.mem with threads := l, destroys := d }) hown (hi.status _)] at hkept
    have hproc : (destroyThread (ExitMem.modProc { s.mem with threads := l, destroys := d } (s.mem.thrProc thr)
        clearVforked) thr).mem.proc (s.mem.thrProc thr) = clearVforked (s.mem.mem.proc (s.mem.thrProc thr)) :=
      update_self ..
    obtain ⟨-, hpar, hexit⟩ := clearVforked_fields (s.mem.mem.proc (s.mem.thrProc thr))
    rw [hproc, hpar, hexit] at hkept
    rcases hkept hparent with ⟨-, -, hcode⟩ | hw
    · have hrun := hi.running _ he
      rw [hcode, exitCode_and_wifexit] at hrun
      exact absurd hrun (by decide)
    · rw [show s.waited _ = [] from hi.waited _] at hw
      cases hw

theorem ExitInv.step (hi : ExitInv q₀ s) (h : ExitStep s op s') (hg : ExitGuard (s, op, s')) : ExitInv q₀ s' := by
  cases op with
  | exit thr status => exact hi.exit h hg
  | wait proc pid flags =>
    obtain ⟨-, fuel, m, r, hw, rfl⟩ := h
    obtain ⟨rfl, ret, rfl⟩ := waitpid_eq hi.status hw
    exact hi

theorem ExitInv.ok_iff (hi : ExitInv q₀ s) (h : ExitStep s op s') : ExitOk q₀ s' ↔ ExitGuard (s, op, s') := by
  refine ⟨fun hok => ?_, fun hg => (hi.step h hg).ok⟩
  cases op with
  | exit thr status =>
    by_contra hg
    exact hi.exit_not_ok h hg hok
  | wait proc pid flags => exact trivial

end Runs

/-- No process has exited, and the threads of the process `p` are `q₀ p`. -/
structure Running (q₀ : ρ → List τ) (m : ExitMem ρ τ) : Prop where
  frees : ∀ p, m.frees p = 0
  destroys : ∀ p, ∀ t ∈ q₀ p, m.destroys t = 0
  queues : Queues (fun _ => True) m.threads q₀
  owner : ∀ p, ∀ t ∈ q₀ p, m.thrProc t = p
  status : ∀ p, (m.mem.proc p).status &&& processZombie = 0
  exitStatus : ∀ p, (m.mem.proc p).exitStatus &&& wifexit = 0

/-- Exits and waits are right exactly as long as the processes that exit ignore `SIGCHLD`, as their parents do, and are
the first ones of their buckets. -/
theorem exit_and_wait {q₀ : ρ → List τ} {m : ExitMem ρ τ} {tr : List (ExitState ρ τ × ExitOp ρ τ × ExitState ρ τ)}
    {s : ExitState ρ τ} (h₀ : Running q₀ m) (hr : Run ExitStep ⟨m, fun _ => none, fun _ => [], false⟩ tr s) :
    (∀ x ∈ tr, ExitOk q₀ x.2.2) ↔ ∀ x ∈ tr, ExitGuard x := by
  refine hr.forall_iff (ExitInv q₀) ExitGuard (fun x => ExitOk q₀ x.2.2) ?_ ?_ ?_
  · exact ⟨rfl, fun _ => rfl, h₀.frees, h₀.queues, h₀.owner, fun p _ => h₀.destroys p, fun p hp => absurd rfl hp,
      h₀.status, fun p _ => h₀.exitStatus p, fun p hp => absurd rfl hp⟩
  · exact fun s op s' hi hg h => hi.step h hg
  · exact fun s op s' hi h => hi.ok_iff h

/-- A process `true` with one thread, a child of the kernel process `false`, with the default action or not. -/
def oneChild (saHandler : BitVec 32) : ExitMem Bool Unit where
  mem :=
    { kernel := false, live := [true, false]
      proc := fun _ => ⟨500, 0, 0, 0, 0, 0, false, none, 0, 0, 0, 0, 0, 0⟩
      links := ⟨.head, .head⟩
      phash := fun _ => some true }
  threads := listEnqueue ⟨id, id⟩ (.head true) (.obj ())
  thrProc := fun _ => true
  saFlags := fun _ => 0
  saHandler := fun _ => saHandler
  frees := fun _ => 0
  destroys := fun _ => 0

private theorem oneChild_running (h : BitVec 32) : Running (fun p => if p then [()] else []) (oneChild h) := by
  refine ⟨fun _ => rfl, fun _ _ _ => rfl, ?_, ?_, fun _ => BitVec.zero_and, fun _ => BitVec.zero_and⟩
  · have hq : Queues (fun _ => True) (⟨id, id⟩ : Links (Node Bool Unit)) fun _ => [] := queues_empty
    have hadd := hq.splice (h := true) (x := ()) trivial (by simp)
    have hfun : (fun p => if p then [()] else []) = update (fun _ : Bool => ([] : List Unit)) true [()] := by
      funext p
      cases p <;> rfl
    rw [← listEnqueue_eq] at hadd
    rw [hfun]
    exact hadd
  · intro p t ht
    cases p with
    | false => simp at ht
    | true => rfl

def childRunning (saHandler : BitVec 32) : ExitState Bool Unit :=
  ⟨oneChild saHandler, fun _ => none, fun _ => [], false⟩

/-- The child has called `exit(7)`. -/
def childExited (saHandler : BitVec 32) : ExitState Bool Unit where
  mem := ((syscallExit (oneChild saHandler) 3 () 7).bind id).getD (oneChild saHandler)
  exited := update (fun _ => none) true (some (exitCode 0 7))
  waited := fun _ => []
  hung := false

theorem exit_and_wait_ignoring :
    Run ExitStep (childRunning 1) [(childRunning 1, .exit () 7, childExited 1)] (childExited 1) ∧
    ExitOk (fun p => if p then [()] else []) (childExited 1) := by
  have hrun : Run ExitStep (childRunning 1) [(childRunning 1, .exit () 7, childExited 1)] (childExited 1) :=
    .snoc .nil ⟨⟨[], rfl⟩, rfl, .inl ⟨3, (childExited 1).mem, rfl, rfl⟩⟩
  refine ⟨hrun, (exit_and_wait (oneChild_running 1) hrun).2 ?_ _ (mem_singleton_self _)⟩
  intro x hx
  rw [mem_singleton.1 hx]
  exact ⟨rfl, rfl, rfl⟩

/-- A child with the default action exits: its thread is destroyed twice, and its record is freed before any
`waitpid`. -/
theorem default_child_freed :
    Run ExitStep (childRunning 0) [(childRunning 0, .exit () 7, childExited 0)] (childExited 0) ∧
    (childExited 0).mem.destroys () = 2 ∧ (childExited 0).mem.frees true = 1 ∧
    ¬ ExitOk (fun p => if p then [()] else []) (childExited 0) := by
  refine ⟨.snoc .nil ⟨⟨[], rfl⟩, rfl, .inl ⟨3, (childExited 0).mem, rfl, rfl⟩⟩, rfl, rfl, ?_⟩
  intro hok
  have := hok.destroyed true (by simp [childExited]) () (by simp)
  exact absurd this (by decide)

end Manrix
