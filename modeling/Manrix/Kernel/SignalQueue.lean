import Manrix.Kernel.Signal

/-!
# The queue of signals (`dequeue_signal`, `find_queued`, `signal_wait` and the signal sets of libc)

The signals of a process are on a list with the head `sigqueue` in the process.  `dequeue_signal` and `find_queued` walk
the list from its first entry on, and take the first one that meets a test.  On the list of the entries `dequeue_signal`
is the function of the same name of the model of `handle_signal` (`dequeueSignal_refines`).

The test of `find_queued` takes the number of a signal for a mask: `set & signal` instead of the bit `signal` of `set`,
which `sigaddset` sets and `sigismember` tests.  As no number of a signal has this bit of its own, a wait for one signal
never takes the signal.  What `signal_wait` does to `sigpending` in the end is not modelled.
-/

namespace Manrix

open Links List

/-- The link fields `queue` of the entries and the heads in the processes, and the entries. -/
structure SigMem (ρ σ : Type*) where
  sigqueue : Links (Node ρ σ)
  sq : σ → SigQueue

variable {ρ σ : Type*} {set : BitVec 32}

def SigMem.signal (s : SigMem ρ σ) (sq : σ) : Int := (s.sq sq).signal

def isBlocked (saMask : BitVec 32) (signal : Int) : Bool := checkSet saMask signal

def setHasSignal (set : BitVec 32) (signal : Int) : Bool := set &&& BitVec.ofInt 32 signal ≠ 0

section Functions

variable [DecidableEq ρ] [DecidableEq σ]

def SigMem.isQueued (s : SigMem ρ σ) (p : ρ) : Bool := s.sigqueue.next (.head p) ≠ .head p

/-- `dequeue_signal` for a thread of the process `p` with the mask `saMask`. -/
def SigMem.dequeueSignal (s : SigMem ρ σ) (fuel : Nat) (p : ρ) (saMask : BitVec 32) : Option (SigMem ρ σ × Option σ) :=
  (search s.sigqueue (fun sq => !isBlocked saMask (s.signal sq)) fuel (s.sigqueue.next (.head p))).map fun
    | none => (s, none)
    | some sq => ({ s with sigqueue := listDel s.sigqueue (.head p) (.obj sq) }, some sq)

def SigMem.findQueued (s : SigMem ρ σ) (fuel : Nat) (p : ρ) (set : BitVec 32) : Option (Option σ) :=
  if !s.isQueued p then some none
  else search s.sigqueue (fun sq => setHasSignal set (s.signal sq)) fuel (s.sigqueue.next (.head p))

/-- `signal_wait`, with the entry it takes off the queue.  The thread sleeps in any case: `awake` is the state when it
runs again, and `nsleep` the result of `do_nsleep` if there is a timeout. -/
def SigMem.signalWait (s awake : SigMem ρ σ) (fuel : Nat) (p : ρ) (set : BitVec 32) (nsleep : Option Int) :
    Option (SigMem ρ σ × Option σ × Int) :=
  match s.findQueued fuel p set with
  | none => none
  | some first =>
    -- without a timeout, and if nothing was queued before the sleep, `err` keeps its first value
    let err := if first.isSome then nsleep.getD (-1) else -1
    match awake.findQueued fuel p set with
    | none => none
    | some none => some (awake, none, -eagain)
    | some (some queue) =>
      if err < 0 then some (awake, none, err)
      else some ({ awake with sigqueue := listDel awake.sigqueue (.head p) (.obj queue) }, some queue, 0)

end Functions

/-- The set and the result; a signal above 31, which is not refused, is a bit behind the set. -/
def sigaddset (set : BitVec 32) (signo : Int) : BitVec 32 × Int :=
  if signo < 0 ∨ signo > maxSignal then (set, -1) else (setBit set signo, 0)

def sigdelset (set : BitVec 32) (signo : Int) : BitVec 32 × Int :=
  if signo < 0 ∨ signo > maxSignal then (set, -1) else (clearBit set signo, 0)

def sigismember (set : BitVec 32) (signo : Int) : Int :=
  if signo < 0 ∨ signo > maxSignal then -1 else if checkSet set signo then 1 else 0

private theorem checkSet_of_range {n : Int} (hn : 0 ≤ n ∧ n < 32) : checkSet set n = set.getLsbD n.toNat := by
  rw [checkSet, Int.emod_eq_of_lt hn.1 hn.2]

private theorem sigismember_of_range {n : Int} (hn : 0 ≤ n ∧ n < 32) :
    sigismember set n = 1 ↔ set.getLsbD n.toNat = true := by
  have hn' : ¬ (n < 0 ∨ n > maxSignal) := by unfold maxSignal; omega
  rw [sigismember, if_neg hn', checkSet_of_range hn]
  split <;> simp_all

/-- A call on a set, for a signal. -/
inductive SigsetOp where
  | add (signo : Int)
  | del (signo : Int)

def SigsetOp.signo : SigsetOp → Int
  | .add signo | .del signo => signo

def SigsetOp.exec (set : BitVec 32) : SigsetOp → BitVec 32
  | .add signo => (sigaddset set signo).1
  | .del signo => (sigdelset set signo).1

/-- What the call does to a set of numbers. -/
def SigsetOp.apply (set : Finset Int) : SigsetOp → Finset Int
  | .add signo => insert signo set
  | .del signo => set.erase signo

theorem SigsetOp.exec_members {op : SigsetOp} {members : Finset Int} {n : Int}
    (hop : 0 ≤ op.signo ∧ op.signo < 32) (hn : 0 ≤ n ∧ n < 32) (h : sigismember set n = 1 ↔ n ∈ members) :
    sigismember (op.exec set) n = 1 ↔ n ∈ op.apply members := by
  have hrange : ¬ (op.signo < 0 ∨ op.signo > maxSignal) := by unfold maxSignal; omega
  rw [sigismember_of_range hn] at h ⊢
  have h32 : n.toNat < 32 := by omega
  cases op with
  | add signo =>
    simp only [SigsetOp.exec, sigaddset, SigsetOp.signo] at hrange hop ⊢
    rw [if_neg hrange, getLsbD_setBit hop h32, Int.toNat_of_nonneg hn.1, h, SigsetOp.apply, Finset.mem_insert, or_comm]
  | del signo =>
    simp only [SigsetOp.exec, sigdelset, SigsetOp.signo] at hrange hop ⊢
    rw [if_neg hrange, getLsbD_clearBit hop h32, Int.toNat_of_nonneg hn.1, h, SigsetOp.apply, Finset.mem_erase,
      and_comm]

theorem sigset_members {ops : List SigsetOp} (hops : ∀ op ∈ ops, 0 ≤ op.signo ∧ op.signo < 32) {set : BitVec 32}
    {members : Finset Int} {n : Int} (hn : 0 ≤ n ∧ n < 32) (h : sigismember set n = 1 ↔ n ∈ members) :
    sigismember (ops.foldl SigsetOp.exec set) n = 1 ↔ n ∈ ops.foldl SigsetOp.apply members := by
  induction ops generalizing set members with
  | nil => exact h
  | cons op ops ih =>
    rw [forall_mem_cons] at hops
    exact ih hops.2 (SigsetOp.exec_members hops.1 hn h)

section Dequeue

variable [DecidableEq ρ] [DecidableEq σ] {s : SigMem ρ σ} {p : ρ} {l : List σ} {fuel : Nat} {saMask : BitVec 32}

theorem SigMem.dequeueSignal_eq (hr : IsRing s.sigqueue (.head p) (l.map .obj)) (hf : l.length < fuel) :
    s.dequeueSignal fuel p saMask =
      match l.find? fun sq => !isBlocked saMask (s.signal sq) with
      | none => some (s, none)
      | some sq => some ({ s with sigqueue := listDel s.sigqueue (.head p) (.obj sq) }, some sq) := by
  rw [SigMem.dequeueSignal, hr.search_eq hf]
  cases l.find? fun sq => !isBlocked saMask (s.signal sq) <;> rfl

private theorem listDel_mid_ring {st : Links (Node ρ σ)} {xs ys : List σ} {sq : σ}
    (hr : IsRing st (.head p) ((xs ++ sq :: ys).map .obj)) :
    IsRing (listDel st (.head p) (.obj sq)) (.head p) ((xs ++ ys).map .obj) ∧
      AgreeOff st (listDel st (.head p) (.obj sq)) (.head p :: (xs ++ ys).map .obj) := by
  rw [map_append, map_cons] at hr
  rw [map_append]
  exact ⟨listDel_ring hr, listDel_agreeOff hr⟩

/-- `dequeue_signal` gives nothing and changes nothing exactly if every signal of the queue is blocked; otherwise it
takes off the first one that is not, and leaves the others in their order. -/
theorem dequeue_signal_selects (hr : IsRing s.sigqueue (.head p) (l.map .obj))
    (hsig : ∀ sq ∈ l, 1 ≤ s.signal sq ∧ s.signal sq ≤ 31) (hf : l.length < fuel) :
    (s.dequeueSignal fuel p saMask = some (s, none) ↔ ∀ sq ∈ l, saMask.getLsbD (s.signal sq).toNat = true) ∧
    ((∃ sq ∈ l, saMask.getLsbD (s.signal sq).toNat = false) →
      ∃ xs sq ys s', l = xs ++ sq :: ys ∧ (∀ x ∈ xs, saMask.getLsbD (s.signal x).toNat = true) ∧
        saMask.getLsbD (s.signal sq).toNat = false ∧ s.dequeueSignal fuel p saMask = some (s', some sq) ∧
        IsRing s'.sigqueue (.head p) ((xs ++ ys).map .obj) ∧ s'.sq = s.sq ∧
        AgreeOff s.sigqueue s'.sigqueue (.head p :: (xs ++ ys).map .obj)) := by
  have hbit : ∀ sq ∈ l, isBlocked saMask (s.signal sq) = saMask.getLsbD (s.signal sq).toNat := fun sq hm =>
    checkSet_of_range ⟨by have := hsig sq hm; omega, by have := hsig sq hm; omega⟩
  rw [SigMem.dequeueSignal_eq hr hf]
  cases hfind : l.find? fun sq => !isBlocked saMask (s.signal sq) with
  | none =>
    have hall : ∀ sq ∈ l, saMask.getLsbD (s.signal sq).toNat = true := by
      intro sq hm
      have := find?_eq_none.1 hfind sq hm
      rw [hbit sq hm] at this
      simpa using this
    refine ⟨iff_of_true rfl hall, ?_⟩
    rintro ⟨sq, hm, hno⟩
    rw [hall sq hm] at hno
    cases hno
  | some sq =>
    obtain ⟨hno, xs, ys, rfl, hxs⟩ := find?_eq_some_iff_append.1 hfind
    have hsq : saMask.getLsbD (s.signal sq).toNat = false := by
      rw [hbit sq (by simp)] at hno
      simpa using hno
    refine ⟨iff_of_false ?_ ?_, fun _ => ?_⟩
    · simp
    · intro hall
      rw [hall sq (by simp)] at hsq
      cases hsq
    · obtain ⟨hring, hoff⟩ := listDel_mid_ring hr
      refine ⟨xs, sq, ys, _, rfl, fun x hx => ?_, hsq, rfl, hring, rfl, hoff⟩
      have := hxs x hx
      rw [hbit x (by simp [hx])] at this
      simpa using this

omit [DecidableEq ρ] in
private theorem dequeueSignal_map (s : SigMem ρ σ) : dequeueSignal saMask (l.map s.sq) =
    (l.find? fun sq => !isBlocked saMask (s.signal sq)).map fun sq => (s.sq sq, (l.erase sq).map s.sq) := by
  induction l with
  | nil => rfl
  | cons sq l ih =>
    rw [map_cons, dequeueSignal, find?_cons]
    cases hb : isBlocked saMask (s.signal sq) with
    | false =>
      have hc : checkSet saMask (s.sq sq).signal = false := hb
      simp [hc]
    | true =>
      have hc : checkSet saMask (s.sq sq).signal = true := hb
      rw [if_pos hc, ih]
      simp only [Bool.not_true, Option.map_map]
      cases hfind : l.find? fun sq => !isBlocked saMask (s.signal sq) with
      | none => rfl
      | some q =>
        have hq := find?_some hfind
        have hne : sq ≠ q := by
          rintro rfl
          simp [hb] at hq
        simp [erase_cons, hne]

theorem dequeueSignal_refines (hr : IsRing s.sigqueue (.head p) (l.map .obj)) (hf : l.length < fuel) :
    ∃ (s' : SigMem ρ σ) (r : Option σ) (l' : List σ), s.dequeueSignal fuel p saMask = some (s', r) ∧
      IsRing s'.sigqueue (.head p) (l'.map .obj) ∧ s'.sq = s.sq ∧
      dequeueSignal saMask (l.map s.sq) = r.map fun sq => (s.sq sq, l'.map s.sq) := by
  rw [SigMem.dequeueSignal_eq hr hf, dequeueSignal_map]
  cases hfind : l.find? fun sq => !isBlocked saMask (s.signal sq) with
  | none => exact ⟨s, none, l, rfl, hr, rfl, rfl⟩
  | some sq =>
    obtain ⟨-, xs, ys, rfl, -⟩ := find?_eq_some_iff_append.1 hfind
    have hnd : (xs ++ sq :: ys).Nodup := (nodup_cons.1 hr.nodup).2.of_map
    have hxs : sq ∉ xs := fun hm => (nodup_append.1 hnd).2.2 sq hm sq (by simp) rfl
    refine ⟨_, some sq, xs ++ ys, rfl, (listDel_mid_ring hr).1, rfl, ?_⟩
    rw [Option.map_some, Option.map_some, erase_append_right _ hxs, erase_cons_head]

end Dequeue

/-- The first signal of the queue that `find_queued` takes for a member is one, and if there is none the queue has no
member. -/
def SigMem.FirstIsMember (s : SigMem ρ σ) (set : BitVec 32) (l : List σ) : Prop :=
  (∀ xs sq ys, l = xs ++ sq :: ys → (∀ x ∈ xs, setHasSignal set (s.signal x) = false) →
    setHasSignal set (s.signal sq) = true → sigismember set (s.signal sq) = 1) ∧
  ((∀ sq ∈ l, setHasSignal set (s.signal sq) = false) → ∀ sq ∈ l, sigismember set (s.signal sq) ≠ 1)

/-- A wait for the signal `n` takes no other signal, and takes this one if it is queued at the call (`l`) or when the
thread runs again (`l'`). -/
def SigMem.WaitsFor (s awake : SigMem ρ σ) (l l' : List σ) (n : Int) (taken : Option σ) : Prop :=
  (∀ sq, taken = some sq → awake.signal sq = n) ∧
  ((∃ sq ∈ l, s.signal sq = n) ∨ (∃ sq ∈ l', awake.signal sq = n) → taken ≠ none)

/-- The signal `n` is not queued, neither at the call nor when the thread runs again; and unless there is no timeout or
the sleep fails, one of the two times no signal is queued whose number has the bit `n`. -/
def SigMem.NothingTaken (s awake : SigMem ρ σ) (l l' : List σ) (n : Int) (nsleep : Option Int) : Prop :=
  (∀ sq ∈ l, s.signal sq ≠ n) ∧ (∀ sq ∈ l', awake.signal sq ≠ n) ∧
  ((∃ r, nsleep = some r ∧ 0 ≤ r) → (∀ sq ∈ l, setHasSignal (sigaddset 0 n).1 (s.signal sq) = false) ∨
    ∀ sq ∈ l', setHasSignal (sigaddset 0 n).1 (awake.signal sq) = false)

section Find

variable [DecidableEq ρ] [DecidableEq σ] {s awake : SigMem ρ σ} {p : ρ} {l l' : List σ} {fuel : Nat} {set : BitVec 32}
  {n : Int}

theorem SigMem.findQueued_eq (hr : IsRing s.sigqueue (.head p) (l.map .obj)) (hf : l.length < fuel) :
    s.findQueued fuel p set = some (l.find? fun sq => setHasSignal set (s.signal sq)) := by
  unfold SigMem.findQueued SigMem.isQueued
  by_cases hq : s.sigqueue.next (.head p) = .head p
  · have hemp := (listIsempty_iff hr).1 (by simpa [listIsempty] using hq)
    rw [map_eq_nil_iff] at hemp
    subst hemp
    simp [hq]
  · rw [hr.search_eq hf]
    simp [hq]

private theorem setHasSignal_singleton (hn : 1 ≤ n ∧ n ≤ 31) : setHasSignal (sigaddset 0 n).1 n = false := by
  have hall : ∀ i : Fin 32, (1#32 <<< i.val) &&& BitVec.ofNat 32 i.val = 0 := by decide
  have hrange : ¬ (n < 0 ∨ n > maxSignal) := by unfold maxSignal; omega
  obtain ⟨m, rfl⟩ : ∃ m : Nat, n = m := ⟨n.toNat, by omega⟩
  have hm := hall ⟨m, by omega⟩
  rw [sigaddset, if_neg hrange, setHasSignal]
  simpa [setBit] using hm

/-- `signal_wait` on a set of one signal. -/
theorem SigMem.signalWait_iff (hn : 1 ≤ n ∧ n ≤ 31) (nsleep : Option Int)
    (hr : IsRing s.sigqueue (.head p) (l.map .obj)) (hf : l.length < fuel)
    (hr' : IsRing awake.sigqueue (.head p) (l'.map .obj)) (hf' : l'.length < fuel) :
    ∃ s' taken ret, s.signalWait awake fuel p (sigaddset 0 n).1 nsleep = some (s', taken, ret) ∧
      (s.WaitsFor awake l l' n taken ↔ s.NothingTaken awake l l' n nsleep) := by
  unfold SigMem.signalWait
  rw [SigMem.findQueued_eq hr hf, SigMem.findQueued_eq hr' hf']
  dsimp only
  -- when nothing is taken, the wait is right if there was nothing to take
  have hnone : ((∃ r, nsleep = some r ∧ 0 ≤ r) →
      (∀ sq ∈ l, setHasSignal (sigaddset 0 n).1 (s.signal sq) = false) ∨
        ∀ sq ∈ l', setHasSignal (sigaddset 0 n).1 (awake.signal sq) = false) →
      (s.WaitsFor awake l l' n none ↔ s.NothingTaken awake l l' n nsleep) := by
    intro hbits
    constructor
    · rintro ⟨-, hq⟩
      exact ⟨fun sq hm he => hq (.inl ⟨sq, hm, he⟩) rfl, fun sq hm he => hq (.inr ⟨sq, hm, he⟩) rfl, hbits⟩
    · rintro ⟨h1, h2, -⟩
      exact ⟨by simp, fun h => h.elim (fun ⟨sq, hm, he⟩ => absurd he (h1 sq hm))
        fun ⟨sq, hm, he⟩ => absurd he (h2 sq hm)⟩
  cases hfind' : l'.find? fun sq => setHasSignal (sigaddset 0 n).1 (awake.signal sq) with
  | none => exact ⟨_, none, _, rfl, hnone fun _ => .inr (by simpa using hfind')⟩
  | some q =>
    have hq := find?_some hfind'
    have hqm := mem_of_find?_eq_some hfind'
    cases hfind : l.find? fun sq => setHasSignal (sigaddset 0 n).1 (s.signal sq) with
    | none => exact ⟨_, none, _, rfl, hnone fun _ => .inl (by simpa using hfind)⟩
    | some first =>
      by_cases herr : nsleep.getD (-1) < 0
      · refine ⟨awake, none, nsleep.getD (-1), by simp [herr], hnone ?_⟩
        rintro ⟨r, rfl, h0⟩
        exact absurd herr (by simpa using h0)
      · refine ⟨{ awake with sigqueue := listDel awake.sigqueue (.head p) (.obj q) }, some q, 0, by simp [herr],
          iff_of_false ?_ ?_⟩
        · rintro ⟨honly, -⟩
          rw [honly q rfl, setHasSignal_singleton hn] at hq
          cases hq
        · rintro ⟨-, -, hbits⟩
          have hsleep : ∃ r, nsleep = some r ∧ 0 ≤ r := by
            cases nsleep with
            | none => exact absurd (by decide : (-1 : Int) < 0) herr
            | some r => exact ⟨r, rfl, Int.not_lt.1 herr⟩
          rcases hbits hsleep with h | h
          · have hfirst := find?_some hfind
            rw [h first (mem_of_find?_eq_some hfind)] at hfirst
            cases hfirst
          · rw [h q hqm] at hq
            cases hq

/-- `find_queued` finds an entry exactly if a member of the set is queued, and only members, exactly if the first signal
that shares a bit with the set is a member; and a wait for one signal is right exactly if there is nothing to take. -/
theorem find_queued_member_iff (hr : IsRing s.sigqueue (.head p) (l.map .obj)) (hf : l.length < fuel)
    (set : BitVec 32) :
    (∃ r, s.findQueued fuel p set = some r ∧ (((r ≠ none ↔ ∃ sq ∈ l, sigismember set (s.signal sq) = 1) ∧
          ∀ sq, r = some sq → sq ∈ l ∧ sigismember set (s.signal sq) = 1) ↔ s.FirstIsMember set l)) ∧
    ∀ (awake : SigMem ρ σ) (l' : List σ) (n : Int) (nsleep : Option Int), 1 ≤ n ∧ n ≤ 31 →
      IsRing awake.sigqueue (.head p) (l'.map .obj) → l'.length < fuel →
      ∃ s' taken ret, s.signalWait awake fuel p (sigaddset 0 n).1 nsleep = some (s', taken, ret) ∧
        (s.WaitsFor awake l l' n taken ↔ s.NothingTaken awake l l' n nsleep) := by
  refine ⟨⟨_, SigMem.findQueued_eq hr hf, ?_⟩, fun awake l' n nsleep hn hr' hf' =>
    SigMem.signalWait_iff hn nsleep hr hf hr' hf'⟩
  cases hfind : l.find? fun sq => setHasSignal set (s.signal sq) with
  | none =>
    have hnone : ∀ sq ∈ l, setHasSignal set (s.signal sq) = false := by simpa using hfind
    constructor
    · rintro ⟨hiff, -⟩
      refine ⟨fun xs sq ys hl _ hsq => ?_, fun _ sq hm hmem => hiff.2 ⟨sq, hm, hmem⟩ rfl⟩
      rw [hnone sq (by simp [hl])] at hsq
      cases hsq
    · rintro ⟨-, hno⟩
      refine ⟨iff_of_false (by simp) ?_, by simp⟩
      rintro ⟨sq, hm, hmem⟩
      exact hno hnone sq hm hmem
  | some sq =>
    obtain ⟨hsq, xs, ys, hl, hxs⟩ := find?_eq_some_iff_append.1 hfind
    have hm : sq ∈ l := by simp [hl]
    constructor
    · rintro ⟨-, hret⟩
      refine ⟨fun xs' sq' ys' hl' hxs' hsq' => ?_, fun hall => ?_⟩
      · have hfind' : (l.find? fun sq => setHasSignal set (s.signal sq)) = some sq' :=
          find?_eq_some_iff_append.2 ⟨hsq', xs', ys', hl', by simpa using hxs'⟩
        exact (hret sq' (hfind.symm.trans hfind')).2
      · rw [hall sq hm] at hsq
        cases hsq
    · rintro ⟨hfirst, -⟩
      have hmem := hfirst xs sq ys hl (by simpa using hxs) hsq
      refine ⟨iff_of_true (by simp) ⟨sq, hm, hmem⟩, ?_⟩
      rintro sq' ⟨⟩
      exact ⟨hm, hmem⟩

end Find

/-- The signals 2 (`false`) and 4 (`true`) of one process, 4 in front. -/
def twoSignals : SigMem Unit Bool where
  sigqueue := listEnqueue (listEnqueue ⟨id, id⟩ (.head ()) (.obj false)) (.head ()) (.obj true)
  sq := fun b => ⟨if b then 4 else 2, none⟩

private theorem twoSignals_ring : IsRing twoSignals.sigqueue (.head ()) ([true, false].map .obj) := by decide

theorem dequeue_signal_selects_two : twoSignals.dequeueSignal 3 () 0x14 = some (twoSignals, none) ∧
    ∃ xs sq ys s', [true, false] = xs ++ sq :: ys ∧ twoSignals.dequeueSignal 3 () 0x10 = some (s', some sq) ∧
      IsRing s'.sigqueue (.head ()) ((xs ++ ys).map .obj) := by
  have hsig : ∀ sq ∈ [true, false], 1 ≤ twoSignals.signal sq ∧ twoSignals.signal sq ≤ 31 := by decide
  have hf : [true, false].length < 3 := by decide
  have hfree : (0x10 : BitVec 32).getLsbD (twoSignals.signal false).toNat = false := by decide
  refine ⟨(dequeue_signal_selects twoSignals_ring hsig hf).1.2 (by decide), ?_⟩
  obtain ⟨xs, sq, ys, s', hl, -, -, hret, hring, -⟩ :=
    (dequeue_signal_selects twoSignals_ring hsig hf).2 ⟨false, by decide, hfree⟩
  exact ⟨xs, sq, ys, s', hl, hret, hring⟩

theorem find_queued_member_iff_two : (∃ r, twoSignals.findQueued 3 () 0x14 = some r ∧
      ∀ sq, r = some sq → sigismember 0x14 (twoSignals.signal sq) = 1) ∧
    ∃ s' taken ret, twoSignals.signalWait twoSignals 3 () (sigaddset 0 1).1 none = some (s', taken, ret) ∧
      twoSignals.WaitsFor twoSignals [true, false] [true, false] 1 taken := by
  have hf : [true, false].length < 3 := by decide
  obtain ⟨⟨r, hr, hiff⟩, hwait⟩ := find_queued_member_iff twoSignals_ring hf 0x14
  have hmem : ∀ sq, sigismember 0x14 (twoSignals.signal sq) = 1 := by decide
  have hfirst : twoSignals.FirstIsMember 0x14 [true, false] :=
    ⟨fun _ sq _ _ _ _ => hmem sq, fun h => absurd (h true (by decide)) (by decide)⟩
  obtain ⟨s', taken, ret, hret, hiff'⟩ := hwait twoSignals [true, false] 1 none (by decide) twoSignals_ring hf
  exact ⟨⟨r, hr, fun sq hsq => ((hiff.2 hfirst).2 sq hsq).2⟩, s', taken, ret, hret,
    hiff'.2 ⟨by decide, by decide, by simp⟩⟩

/-- A wait for the signal 2 alone finds the signal 4, and takes it when the timeout has passed; with 2 alone in the
queue it finds nothing. -/
theorem find_queued_wrong_signal :
    let set := (sigaddset 0 2).1
    twoSignals.findQueued 3 () set = some (some true) ∧ twoSignals.signal true = 4 ∧ sigismember set 4 = 0 ∧
    (twoSignals.signalWait twoSignals 3 () set (some 0)).map Prod.snd = some (some true, 0) ∧
    ((twoSignals.dequeueSignal 3 () 0).bind fun x => x.1.findQueued 3 () set) = some none ∧
    twoSignals.signal false = 2 ∧ sigismember set 2 = 1 := by
  decide

end Manrix
