import Manrix.Lib.Chain
import Manrix.Kernel.RunQueue

/-!
# Timers (`kernel/timer.c`)

`insert_timer`, `delete_timer` and the loop of `check_timeouts` that runs at every tick.  The list `tmlist` is kept with
the smallest timeout last, so the loop looks at the last timer, and stops at the first that is not due.  Its test is the
wrong way round (`timeout >= ticks`): a last timer that is overdue stops the loop, and a list without an overdue timer
is emptied, whatever the timeouts (`checkTimeouts_empties`).  Nor does a periodic timer that is put back stay on it:
`list_add_next` does not write the link that the loop follows.

Times are natural numbers.  A loop that does not end and a write through a null pointer have no result.
-/

namespace Manrix

open Chain Function Links List

def threadRunning : BitVec 32 := 0x01

def tmSleep : BitVec 32 := 1
def tmTimer : BitVec 32 := 2
def tmOneshot : BitVec 32 := 4

def sigevSignal : Int := 1

/-- `struct timer` without its two links; `next` is the hash link. -/
structure Timer (τ ω : Type*) where
  timeout : Nat
  nextarm : Nat
  sigevNotify : Int
  sigevSigno : Int
  owner : τ
  flag : BitVec 32
  timerId : Int
  next : Option ω

/-- The timers of the kernel.  `tlist` is the link field of `tmlist`, `pproc` that of the lists of the processes `ρ`,
and `tmhash` gives the addresses of the elements of the hash table, which are timers themselves. `signals`, `fired` and
`freed` record the signals sent, the timers taken off the list as due and the timers given back to the cache. -/
structure Timers (τ ρ ω : Type*) where
  k : Kernel τ
  proc : τ → ρ
  alarm : ρ → Option ω
  timer : ω → Timer τ ω
  tlist : Links (Node Unit ω)
  pproc : Links (Node ρ ω)
  tmhash : Nat → ω
  signals : List (ρ × Int)
  fired : List ω
  freed : List ω

variable {τ ρ ω : Type*} [DecidableEq τ] [DecidableEq ρ] [DecidableEq ω] {thr : Option τ}

namespace Timers

def tmlist : Node Unit ω := .head ()

/-- The field `timeout` at an address of the list; that of `tmlist` is never written. -/
def timeoutAt (s : Timers τ ρ ω) : Node Unit ω → Nat
  | .head _ => 0
  | .obj t => (s.timer t).timeout

def timerById (fuel : Nat) (s : Timers τ ρ ω) (timerId : Int) : Option (Option ω) :=
  chainFind (fun t => (s.timer t).next) (fun t => (s.timer t).timerId = timerId) fuel
    (some (s.tmhash (hashFn timerId)))

/-- What `delete_timer` does with the timer it has found. -/
def freeTimer (s : Timers τ ρ ω) : Option ω → Timers τ ρ ω
  | none => s
  | some tm =>
    { s with pproc := listDel s.pproc (.head (s.proc (s.timer tm).owner)) (.obj tm), freed := s.freed ++ [tm] }

def deleteTimer (fuel : Nat) (s : Timers τ ρ ω) (timerId : Int) : Option (Timers τ ρ ω) :=
  (timerById fuel s timerId).map s.freeTimer

/-- The loop of `insert_timer`: the first place from `tm` on whose timeout is not larger. -/
def findPlace (s : Timers τ ρ ω) (timeout : Nat) : Nat → Node Unit ω → Option (Node Unit ω)
  | 0, _ => none
  | fuel + 1, tm => if s.timeoutAt tm > timeout then findPlace s timeout fuel (s.tlist.next tm) else some tm

def insertTimer (fuel : Nat) (s : Timers τ ρ ω) (item : ω) : Option (Timers τ ρ ω) :=
  -- there is no return here: the loop below runs on the list that holds the item already
  let tlist := if listIsempty s.tlist tmlist then listEnqueue s.tlist tmlist (.obj item) else s.tlist
  let s := { s with tlist := tlist }
  (findPlace s (s.timer item).timeout fuel (s.tlist.next tmlist)).map fun tm =>
    { s with tlist := listAddNext s.tlist (s.tlist.prev tm) (.obj item) }

/-- What a due timer does: it wakes its owner or sends its signal. -/
def fire (s : Timers τ ρ ω) (t : ω) : Timers τ ρ ω :=
  let lentry := s.timer t
  if lentry.flag &&& tmSleep ≠ 0 then
    let k := s.k.modThread lentry.owner fun th => { th with states := threadRunning }
    { s with k := enqueueThread k lentry.owner }
  else if lentry.flag &&& tmTimer ≠ 0 ∧ lentry.sigevNotify = sigevSignal then
    { s with signals := s.signals ++ [(s.proc lentry.owner, lentry.sigevSigno)] }
  else s

/-- `thr->proc->alarm = NULL`. -/
def clearAlarm (thr : Option τ) (s : Timers τ ρ ω) : Option (Timers τ ρ ω) :=
  thr.map fun thr => { s with alarm := update s.alarm (s.proc thr) none }

def rearm (s : Timers τ ρ ω) (t : ω) : Timers τ ρ ω :=
  let lentry := s.timer t
  { s with timer := update s.timer t { lentry with timeout := lentry.timeout + lentry.nextarm } }

/-- The rest of a round, after the due timer `t` has been taken off the list; also the new value of `thr`. -/
def expire (fuel : Nat) (thr : Option τ) (s : Timers τ ρ ω) (t : ω) : Option (Timers τ ρ ω × Option τ) :=
  let lentry := s.timer t
  let s := s.fire t
  if lentry.flag &&& tmSleep ≠ 0 then
    (deleteTimer fuel s lentry.timerId).map fun s => (s, some lentry.owner)
  else if lentry.flag &&& tmTimer ≠ 0 then
    let s := if lentry.flag &&& tmOneshot ≠ 0 then (deleteTimer fuel s lentry.timerId).bind (clearAlarm thr)
      else some s
    s.bind fun s =>
      if lentry.nextarm = 0 then some (s, thr)
      else (insertTimer fuel (s.rearm t) t).map fun s => (s, thr)
  else some (s, thr)

/-- `list_dequeue` on `tmlist`, which takes off `due`. -/
def dequeue (s : Timers τ ρ ω) (due : List ω) : Timers τ ρ ω :=
  { s with tlist := (listDequeue s.tlist tmlist).1, fired := s.fired ++ due }

def checkTimeouts (ticks : Nat) : Nat → Option τ → Timers τ ρ ω → Option (Timers τ ρ ω)
  | 0, _, _ => none
  | fuel + 1, thr, s =>
    if listIsempty s.tlist tmlist then some s
    else
      match lastEntry s.tlist tmlist with
      -- only when the links are broken; the other fields of tmlist are zero
      | .head _ => if 0 ≥ ticks then checkTimeouts ticks fuel thr (s.dequeue []) else some s
      | .obj t =>
        if (s.timer t).timeout ≥ ticks then
          (expire fuel thr (s.dequeue [t]) t).bind fun r => checkTimeouts ticks fuel r.2 r.1
        else some s

end Timers

namespace Timers

variable {s s' : Timers τ ρ ω} {fuel : Nat} {t : ω} {id : Int}

/-- The fields that only the list operations and the rearming of a round write. -/
structure SameList (s s' : Timers τ ρ ω) : Prop where
  tlist : s'.tlist = s.tlist
  timer : s'.timer = s.timer
  fired : s'.fired = s.fired
  proc : s'.proc = s.proc
  tmhash : s'.tmhash = s.tmhash

omit [DecidableEq τ] [DecidableEq ρ] [DecidableEq ω] in
theorem SameList.trans {s'' : Timers τ ρ ω} (h : SameList s s') (h' : SameList s' s'') : SameList s s'' :=
  ⟨h'.tlist.trans h.tlist, h'.timer.trans h.timer, h'.fired.trans h.fired, h'.proc.trans h.proc,
    h'.tmhash.trans h.tmhash⟩

omit [DecidableEq ρ] [DecidableEq ω] in
private theorem fire_sameList (s : Timers τ ρ ω) (t : ω) : SameList s (s.fire t) := by
  unfold fire
  dsimp only
  split
  · exact ⟨rfl, rfl, rfl, rfl, rfl⟩
  · split
    · exact ⟨rfl, rfl, rfl, rfl, rfl⟩
    · exact ⟨rfl, rfl, rfl, rfl, rfl⟩

omit [DecidableEq τ] in
private theorem freeTimer_sameList (s : Timers τ ρ ω) (r : Option ω) : SameList s (s.freeTimer r) := by
  cases r with
  | none => exact ⟨rfl, rfl, rfl, rfl, rfl⟩
  | some tm => exact ⟨rfl, rfl, rfl, rfl, rfl⟩

omit [DecidableEq τ] in
private theorem freeTimer_effect (s : Timers τ ρ ω) (r : Option ω) :
    (s.freeTimer r).k = s.k ∧ (s.freeTimer r).signals = s.signals := by
  cases r with
  | none => exact ⟨rfl, rfl⟩
  | some tm => exact ⟨rfl, rfl⟩

omit [DecidableEq τ] in
private theorem deleteTimer_sameList (h : deleteTimer fuel s id = some s') : SameList s s' := by
  obtain ⟨r, -, rfl⟩ := Option.map_eq_some_iff.mp h
  exact freeTimer_sameList s r

omit [DecidableEq τ] [DecidableEq ω] in
private theorem clearAlarm_sameList (h : clearAlarm thr s = some s') : SameList s s' := by
  obtain ⟨u, -, rfl⟩ := Option.map_eq_some_iff.mp h
  exact ⟨rfl, rfl, rfl, rfl, rfl⟩

private theorem expire_cases {thr thr' : Option τ} (h : expire fuel thr s t = some (s', thr')) :
    ∃ s₁, SameList s s₁ ∧ (s' = s₁ ∨ insertTimer fuel (s₁.rearm t) t = some s') := by
  have hf := fire_sameList s t
  simp only [expire] at h
  split at h
  · obtain ⟨s₁, hd, he⟩ := Option.map_eq_some_iff.mp h
    exact ⟨s₁, hf.trans (deleteTimer_sameList hd), .inl (Prod.mk.inj he).1.symm⟩
  split at h
  · obtain ⟨s₁, h₁, h⟩ := Option.bind_eq_some_iff.mp h
    have hs : SameList s s₁ := by
      split at h₁
      · obtain ⟨s₂, hd, hc⟩ := Option.bind_eq_some_iff.mp h₁
        exact (hf.trans (deleteTimer_sameList hd)).trans (clearAlarm_sameList hc)
      · exact Option.some.inj h₁ ▸ hf
    refine ⟨s₁, hs, ?_⟩
    split at h
    · exact .inl (Prod.mk.inj (Option.some.inj h)).1.symm
    · obtain ⟨s₂, hi, he⟩ := Option.map_eq_some_iff.mp h
      exact .inr (hi.trans (congrArg some (Prod.mk.inj he).1))
  · exact ⟨_, hf, .inl (Prod.mk.inj (Option.some.inj h)).1.symm⟩

end Timers

/-! ### The list as the loop sees it

The loop follows the `prev` links from the head, and of the `next` links it looks at that of the head only. -/

section Back

variable {α : Type*} {l : Links α} {h x : α} {xs : List α}

/-- Along `prev` the head `h` leads through `xs` back to the head, and `list_isempty` tells whether `xs` is empty. -/
structure IsBack (l : Links α) (h : α) (xs : List α) : Prop where
  nodup : (h :: xs).Nodup
  prev : Path l.prev h xs h
  next : l.next h = h ↔ xs = []

theorem IsBack.of_ring (hr : IsRing l h xs) : IsBack l h xs.reverse := by
  refine ⟨?_, hr.prev, ?_⟩
  · simpa using hr.nodup
  · classical
    rw [reverse_eq_nil_iff, ← listIsempty_iff hr, listIsempty, decide_eq_true_eq]

theorem IsBack.ring_nil (hb : IsBack l h []) : IsRing l h [] :=
  ⟨hb.nodup, hb.next.mpr rfl, hb.prev⟩

variable [DecidableEq α]

theorem IsBack.isempty (hb : IsBack l h xs) : listIsempty l h = true ↔ xs = [] := by
  rw [← hb.next, listIsempty, decide_eq_true_eq]

/-- `list_dequeue` takes the first object along `prev`. -/
theorem IsBack.dequeue (hb : IsBack l h (x :: xs)) : IsBack (listDequeue l h).1 h xs := by
  obtain ⟨hx, hp⟩ := path_cons.mp hb.prev
  have hnd := hb.nodup
  have hprev : ∀ m : Links α, m.prev = update l.prev h (l.prev x) → Path m.prev h xs h := by
    intro m hm
    rw [hm]
    refine hp.congr_start (update_self ..) fun y hy => update_of_ne ?_ _ _
    rintro rfl
    simp [hy] at hnd
  simp only [listDequeue, hx]
  split
  · rename_i hh
    have hxs : xs = [] := by
      cases xs with
      | nil => rfl
      | cons y ys =>
        have : y = h := hp.1.symm.trans hh
        simp [this] at hnd
    exact ⟨by simp [hxs], hprev _ rfl, by simp [hxs]⟩
  · rename_i hh
    have hxs : xs ≠ [] := by
      rintro rfl
      exact hh hp
    have hne : l.next h ≠ h := fun he => by simpa using hb.next.mp he
    refine ⟨List.Nodup.sublist (by simp) hnd, hprev _ rfl, ?_⟩
    simp [hxs, Ne.symm hh, hne]

theorem IsBack.addNext (hb : IsBack l h xs) (hxs : xs ≠ []) (hx : x ∉ h :: xs) (prv : α) :
    IsBack (listAddNext l prv x) h xs := by
  have hxh : x ≠ h := fun e => hx (by simp [e])
  refine ⟨hb.nodup, ?_, ?_⟩
  · refine hb.prev.congr fun y hy => update_of_ne ?_ _ _
    rintro rfl
    exact hx hy
  · have hne : l.next h ≠ h := fun he => hxs (hb.next.mp he)
    simp only [hxs, iff_false]
    show update (update l.next prv x) x (l.next prv) h ≠ h
    rw [update_of_ne hxh.symm, update_apply]
    split
    · exact hxh
    · exact hne

theorem IsBack.enqueue_next (hb : IsBack l h []) (hx : x ≠ h) : (listEnqueue l h x).next h = x := by
  simp [listEnqueue, hb.next.mpr rfl, hx.symm]

theorem IsBack.enqueue_prev (hb : IsBack l h []) (hx : x ≠ h) : (listEnqueue l h x).prev x = h := by
  simp [listEnqueue, hb.next.mpr rfl, hx]

theorem IsBack.enqueue_addNext (hb : IsBack l h []) (hx : x ≠ h) :
    IsBack (listAddNext (listEnqueue l h x) h x) h [x] := by
  have hn : l.next h = h := hb.next.mpr rfl
  refine ⟨by simp [hx.symm], ?_, ?_⟩
  · simp [listAddNext, listEnqueue, hn, hx.symm]
  · simp [listAddNext, listEnqueue, hn, hx, hx.symm]

end Back

namespace Timers

variable {s s' : Timers τ ρ ω} {fuel ticks : Nat} {t : ω} {xs : List ω}

/-- The timers `xs` as the loop sees them, the next to be looked at first. -/
def OnList (s : Timers τ ρ ω) (xs : List ω) : Prop := IsBack s.tlist tmlist (xs.map .obj)

omit [DecidableEq τ] [DecidableEq ρ] [DecidableEq ω] in
private theorem obj_not_mem (ht : t ∉ xs) : (.obj t : Node Unit ω) ∉ tmlist :: xs.map .obj := by
  simp [tmlist, ht]

omit [DecidableEq τ] [DecidableEq ρ] in
theorem insertTimer_nil (hb : s.OnList []) (h : insertTimer fuel s t = some s') :
    s' = { s with tlist := listAddNext (listEnqueue s.tlist tmlist (.obj t)) tmlist (.obj t) } := by
  have ht : (.obj t : Node Unit ω) ≠ tmlist := by simp [tmlist]
  simp only [insertTimer, if_pos (hb.isempty.mpr rfl)] at h
  obtain ⟨tm, hp, rfl⟩ := Option.map_eq_some_iff.mp h
  have htm : tm = .obj t := by
    cases fuel with
    | zero => cases hp
    | succ fuel =>
      simp only [findPlace, IsBack.enqueue_next hb ht, timeoutAt, gt_iff_lt, lt_irrefl, if_false] at hp
      exact (Option.some.inj hp).symm
  rw [htm, IsBack.enqueue_prev hb ht]

omit [DecidableEq τ] [DecidableEq ρ] in
theorem insertTimer_onList (hb : s.OnList xs) (ht : t ∉ xs) (h : insertTimer fuel s t = some s') :
    s'.timer = s.timer ∧ s'.fired = s.fired ∧ s'.OnList (if xs = [] then [t] else xs) := by
  by_cases hxs : xs = []
  · subst hxs
    obtain rfl := insertTimer_nil hb h
    exact ⟨rfl, rfl, IsBack.enqueue_addNext hb (by simp [tmlist])⟩
  · have he : ¬ listIsempty s.tlist tmlist = true := fun he => hxs (by simpa using hb.isempty.mp he)
    simp only [insertTimer, if_neg he] at h
    obtain ⟨tm, hp, rfl⟩ := Option.map_eq_some_iff.mp h
    refine ⟨rfl, rfl, ?_⟩
    rw [if_neg hxs]
    exact hb.addNext (by simpa using hxs) (obj_not_mem ht) _

private theorem expire_onList {thr thr' : Option τ} (hb : s.OnList xs) (ht : t ∉ xs)
    (h : expire fuel thr s t = some (s', thr')) :
    s'.fired = s.fired ∧ (∀ u, (s.timer u).timeout ≤ (s'.timer u).timeout) ∧
      (s'.OnList xs ∨ xs = [] ∧ s'.OnList [t]) := by
  obtain ⟨s₁, hs, rfl | hi⟩ := expire_cases h
  · refine ⟨hs.fired, fun u => (congrArg (fun f => (f u).timeout) hs.timer).ge, .inl ?_⟩
    unfold OnList
    rw [hs.tlist]
    exact hb
  · have hb₁ : (s₁.rearm t).OnList xs := by
      show IsBack s₁.tlist _ _
      rw [hs.tlist]
      exact hb
    obtain ⟨htm, hfi, hon⟩ := insertTimer_onList hb₁ ht hi
    refine ⟨hfi.trans hs.fired, fun u => ?_, ?_⟩
    · rw [htm, ← hs.timer]
      show _ ≤ (update s₁.timer t _ u).timeout
      rw [update_apply]
      split
      · rename_i hu
        rw [hu]
        exact Nat.le_add_right ..
      · exact le_rfl
    · split at hon
      · exact .inr ⟨‹_›, hon⟩
      · exact .inl hon

/-- Where no timer is overdue, a call that ends leaves the list empty and has fired every timer. -/
theorem checkTimeouts_empties (hb : s.OnList xs) (hle : ∀ x ∈ xs, ticks ≤ (s.timer x).timeout)
    (h : checkTimeouts ticks fuel thr s = some s') :
    s'.tlist.next tmlist = tmlist ∧ ∃ log, s'.fired = s.fired ++ log ∧ xs ⊆ log := by
  induction fuel generalizing thr s xs with
  | zero => cases h
  | succ fuel ih =>
    rw [checkTimeouts] at h
    cases xs with
    | nil =>
      rw [if_pos (hb.isempty.mpr rfl)] at h
      cases h
      exact ⟨hb.next.mpr rfl, [], by simp⟩
    | cons x xs =>
      have hne : ¬ listIsempty s.tlist tmlist = true := fun he => by simpa using hb.isempty.mp he
      have hx : lastEntry s.tlist tmlist = .obj x := hb.prev.1
      rw [if_neg hne, hx] at h
      simp only at h
      rw [if_pos (hle x (mem_cons_self ..))] at h
      obtain ⟨⟨s₁, thr₁⟩, he, h⟩ := Option.bind_eq_some_iff.mp h
      have hb₁ : (s.dequeue [x]).OnList xs := IsBack.dequeue hb
      have hxs : x ∉ xs := by
        have := hb.nodup
        simp only [map_cons, nodup_cons, mem_map] at this
        exact fun hm => this.2.1 ⟨x, hm, rfl⟩
      obtain ⟨hfi, hti, hon⟩ := expire_onList hb₁ hxs he
      have hle₁ : ∀ u, u ∈ x :: xs → ticks ≤ (s₁.timer u).timeout := fun u hu => (hle u hu).trans (hti u)
      have hfi : s₁.fired = s.fired ++ [x] := hfi
      have hrest : s'.tlist.next tmlist = tmlist ∧ ∃ log, s'.fired = s₁.fired ++ log ∧ xs ⊆ log := by
        obtain hon | ⟨rfl, hon⟩ := hon
        · exact ih hon (fun u hu => hle₁ u (mem_cons_of_mem _ hu)) h
        · obtain ⟨hn, log, hlog, -⟩ := ih hon hle₁ h
          exact ⟨hn, log, hlog, nil_subset _⟩
      obtain ⟨hn, log, hlog, hsub⟩ := hrest
      refine ⟨hn, x :: log, ?_, cons_subset_cons x hsub⟩
      rw [hlog, hfi, append_assoc, singleton_append]

omit [DecidableEq ρ] [DecidableEq ω] in
private theorem foldl_fire_congr (s s' : Timers τ ρ ω) (hk : s'.k = s.k) (hs : s'.signals = s.signals)
    (ht : s'.timer = s.timer) (hp : s'.proc = s.proc) (log : List ω) :
    (log.foldl fire s').k = (log.foldl fire s).k ∧ (log.foldl fire s').signals = (log.foldl fire s).signals := by
  induction log generalizing s s' with
  | nil => exact ⟨hk, hs⟩
  | cons t log ih =>
    refine ih _ _ ?_ ?_ ?_ ?_
    all_goals
      simp only [fire, ht]
      split
      · simp [hk, hs, hp]
      · split <;> simp [hk, hs, ht, hp]

end Timers

def Timer.IsSleep (t : Timer τ ω) : Prop := t.flag &&& tmSleep ≠ 0

def Timer.IsPeriodic (t : Timer τ ω) : Prop :=
  t.flag &&& tmSleep = 0 ∧ t.flag &&& tmTimer ≠ 0 ∧ t.flag &&& tmOneshot = 0 ∧ 0 < t.nextarm

namespace Timers

variable {s s' : Timers τ ρ ω} {fuel ticks : Nat} {xs : List ω}

/-- The chains of the hash table end. -/
def HashEnds (s : Timers τ ρ ω) : Prop :=
  ∀ i, ∃ ys, IsChain (fun t => (s.timer t).next) (some (s.tmhash i)) ys

/-- The list holds the timers `xs`, sleep timers and periodic ones, with the smallest timeout last, and the chains of
the hash table end. -/
structure Listed (s : Timers τ ρ ω) (xs : List ω) : Prop where
  ring : IsRing s.tlist tmlist (xs.map .obj)
  sorted : xs.Pairwise fun t u => (s.timer u).timeout ≤ (s.timer t).timeout
  kind : ∀ t ∈ xs, (s.timer t).IsSleep ∨ (s.timer t).IsPeriodic
  hash : s.HashEnds

/-- A call of `check_timeouts` ends; it fires the timers that are due, each of which does what it is for, and leaves
those that are not due and the periodic ones, with timeouts to come. -/
def FiresOnTime (s : Timers τ ρ ω) (xs : List ω) (ticks : Nat) : Prop :=
  ∃ (fuel : Nat) (s' : Timers τ ρ ω) (log ys : List ω), checkTimeouts ticks fuel none s = some s' ∧
    s'.fired = s.fired ++ log ∧ (∀ t, t ∈ log ↔ t ∈ xs ∧ (s.timer t).timeout ≤ ticks) ∧
    s'.k = (log.foldl fire s).k ∧ s'.signals = (log.foldl fire s).signals ∧
    IsRing s'.tlist tmlist (ys.map .obj) ∧
    (∀ t, t ∈ ys ↔ t ∈ xs ∧ (ticks < (s.timer t).timeout ∨ (s.timer t).IsPeriodic)) ∧
    ∀ t ∈ ys, ticks < (s'.timer t).timeout

/-- Every timer is a sleep timer that is due at this very tick. -/
def AllDueNow (s : Timers τ ρ ω) (xs : List ω) (ticks : Nat) : Prop :=
  ∀ t ∈ xs, (s.timer t).IsSleep ∧ (s.timer t).timeout = ticks

private theorem expire_sleep {t : ω} (ht : (s.timer t).IsSleep) (hc : s.HashEnds) (thr : Option τ) :
    ∃ n s₁, (∀ fuel, n < fuel → expire fuel thr s t = some (s₁, some (s.timer t).owner)) ∧ SameList s s₁ ∧
      s₁.k = (s.fire t).k ∧ s₁.signals = (s.fire t).signals := by
  have hfire := fire_sameList s t
  obtain ⟨ys, hys⟩ := hc (hashFn (s.timer t).timerId)
  have hys' : IsChain (fun u => ((s.fire t).timer u).next)
      (some ((s.fire t).tmhash (hashFn (s.timer t).timerId))) ys := by
    rw [hfire.timer, hfire.tmhash]
    exact hys
  have heff := freeTimer_effect (s.fire t) (ys.find? fun u => ((s.fire t).timer u).timerId = (s.timer t).timerId)
  refine ⟨ys.length, _, fun fuel hf => ?_, hfire.trans (freeTimer_sameList _ _), heff.1, heff.2⟩
  simp only [expire]
  rw [if_pos (show _ ≠ _ from ht), deleteTimer, timerById, chainFind_eq hys' _ hf]
  rfl

/-- Sleep timers none of which is overdue: the call ends, has fired all of them and leaves the list empty. -/
private theorem checkTimeouts_sleepers (hb : s.OnList xs)
    (hs : ∀ x ∈ xs, (s.timer x).IsSleep ∧ ticks ≤ (s.timer x).timeout) (hc : s.HashEnds) (thr : Option τ) :
    ∃ n s', (∀ fuel, n < fuel → checkTimeouts ticks fuel thr s = some s') ∧ s'.OnList [] ∧
      s'.fired = s.fired ++ xs ∧ s'.k = (xs.foldl fire s).k ∧ s'.signals = (xs.foldl fire s).signals := by
  induction xs generalizing s thr with
  | nil =>
    refine ⟨0, s, fun fuel hf => ?_, hb, by simp, rfl, rfl⟩
    obtain ⟨fuel, rfl⟩ : ∃ n, fuel = n + 1 := ⟨fuel - 1, by omega⟩
    rw [checkTimeouts, if_pos (hb.isempty.mpr rfl)]
  | cons x xs ih =>
    obtain ⟨hx, hle⟩ := hs x (mem_cons_self ..)
    obtain ⟨n, s₁, he, hsl, hk, hsg⟩ :=
      expire_sleep (s := s.dequeue [x]) (t := x) hx hc thr
    have hti : s₁.timer = s.timer := hsl.timer
    have hb₁ : s₁.OnList xs := by
      unfold OnList
      rw [hsl.tlist]
      exact IsBack.dequeue hb
    have hs₁ : ∀ u ∈ xs, (s₁.timer u).IsSleep ∧ ticks ≤ (s₁.timer u).timeout := by
      rw [hti]
      exact fun u hu => hs u (mem_cons_of_mem _ hu)
    have hc₁ : s₁.HashEnds := by
      unfold HashEnds
      rw [hti, hsl.tmhash]
      exact hc
    obtain ⟨m, s', hrun, hend, hlog, hk', hsg'⟩ := ih hb₁ hs₁ hc₁ (some (s.timer x).owner)
    -- taking the timer off the list does not change what it and the remaining ones do
    have hx₁ := foldl_fire_congr s (s.dequeue [x]) rfl rfl rfl rfl [x]
    have hxs := foldl_fire_congr (s.fire x) s₁ (hk.trans hx₁.1) (hsg.trans hx₁.2)
      (hti.trans (fire_sameList s x).timer.symm) (hsl.proc.trans (fire_sameList s x).proc.symm) xs
    refine ⟨max n m + 1, s', fun fuel hf => ?_, hend, ?_, hk'.trans hxs.1, hsg'.trans hxs.2⟩
    · obtain ⟨fuel, rfl⟩ : ∃ f, fuel = f + 1 := ⟨fuel - 1, by omega⟩
      have hne : ¬ listIsempty s.tlist tmlist = true := fun he => by simpa using hb.isempty.mp he
      have hlast : lastEntry s.tlist tmlist = .obj x := hb.prev.1
      rw [checkTimeouts, if_neg hne, hlast]
      simp only
      rw [if_pos hle, he fuel (by omega), Option.bind_some]
      exact hrun fuel (by omega)
    · rw [hlog, hsl.fired]
      simp [dequeue]

omit [DecidableEq τ] [DecidableEq ρ] [DecidableEq ω] in
theorem Listed.onList (h : s.Listed xs) : s.OnList xs.reverse := by
  unfold OnList
  rw [map_reverse]
  exact IsBack.of_ring h.ring

private theorem checkTimeouts_overdue {t : ω} (hb : s.OnList (t :: xs)) (ht : (s.timer t).timeout < ticks)
    (h : checkTimeouts ticks fuel thr s = some s') : s' = s := by
  cases fuel with
  | zero => cases h
  | succ fuel =>
    have hne : ¬ listIsempty s.tlist tmlist = true := fun he => by simpa using hb.isempty.mp he
    have hlast : lastEntry s.tlist tmlist = .obj t := hb.prev.1
    rw [checkTimeouts, if_neg hne, hlast] at h
    simp only at h
    rw [if_neg (by omega)] at h
    exact (Option.some.inj h).symm

/-- A call that fires on time finds no overdue timer. -/
theorem FiresOnTime.not_overdue (hl : s.Listed xs) (h : s.FiresOnTime xs ticks) :
    ∀ t ∈ xs, ticks ≤ (s.timer t).timeout := by
  obtain ⟨fuel, s', log, ys, hrun, hlog, hdue, -⟩ := h
  intro t ht
  by_contra hlt
  obtain ⟨zs, z, rfl⟩ : ∃ zs z, xs = zs ++ [z] := by
    rcases eq_nil_or_concat xs with rfl | ⟨zs, z, rfl⟩
    · cases ht
    · exact ⟨zs, z, by simp⟩
  -- the smallest timeout is last
  have hz : (s.timer z).timeout ≤ (s.timer t).timeout := by
    rcases mem_append.mp ht with ht | ht
    · exact (pairwise_append.mp hl.sorted).2.2 t ht z (mem_singleton_self z)
    · rw [mem_singleton.mp ht]
  have hb := hl.onList
  rw [reverse_append, reverse_singleton, singleton_append] at hb
  obtain rfl := checkTimeouts_overdue hb (by omega) hrun
  have hnil : log = [] := by simpa using hlog
  have hmem := (hdue z).mpr ⟨by simp, by omega⟩
  rw [hnil] at hmem
  cases hmem

end Timers

/-- Timers fire on time exactly when every timer of the list is a sleep timer that is due at this very tick: an overdue
timer keeps the loop from firing anything, without one the loop fires every timer, those that are not due too, and in
both cases no periodic timer is left on the list. -/
theorem check_timeouts_on_time {s : Timers τ ρ ω} {xs : List ω} {ticks : Nat} (hl : s.Listed xs) :
    s.FiresOnTime xs ticks ↔ s.AllDueNow xs ticks := by
  constructor
  · intro h
    have hle := h.not_overdue hl
    obtain ⟨fuel, s', log, ys, hrun, hlog, hdue, -, -, hring, hleft, -⟩ := h
    obtain ⟨hempty, log', hlog', hsub⟩ := Timers.checkTimeouts_empties hl.onList
      (fun t ht => hle t (mem_reverse.mp ht)) hrun
    obtain rfl : log = log' := append_cancel_left (hlog.symm.trans hlog')
    have hys : ys = [] := by
      simpa [listIsempty, hempty] using listIsempty_iff hring
    intro t ht
    refine ⟨?_, ?_⟩
    · refine (hl.kind t ht).resolve_right fun hp => ?_
      have hm := (hleft t).mpr ⟨ht, .inr hp⟩
      rw [hys] at hm
      cases hm
    · have hfired := (hdue t).mp (hsub (mem_reverse.mpr ht))
      exact le_antisymm hfired.2 (hle t ht)
  · intro h
    have hs : ∀ t ∈ xs.reverse, (s.timer t).IsSleep ∧ ticks ≤ (s.timer t).timeout := fun t ht =>
      ⟨(h t (mem_reverse.mp ht)).1, (h t (mem_reverse.mp ht)).2.ge⟩
    obtain ⟨n, s', hrun, hend, hlog, hk, hsg⟩ := Timers.checkTimeouts_sleepers hl.onList hs hl.hash none
    refine ⟨n + 1, s', xs.reverse, [], hrun _ (Nat.lt_succ_self n), hlog, ?_, hk, hsg, hend.ring_nil, ?_, by simp⟩
    · intro t
      rw [mem_reverse]
      exact ⟨fun ht => ⟨ht, (h t ht).2.le⟩, And.left⟩
    · rintro t
      refine ⟨fun ht => absurd ht not_mem_nil, ?_⟩
      rintro ⟨ht, hlt | hp⟩
      · exact absurd (h t ht).2 hlt.ne'
      · exact absurd hp.1 (h t ht).1

/-- Two threads asleep until the tick 5; `none` is the element of the hash table. -/
def twoTimers : Timers Bool Unit (Option Bool) where
  k := Kernel.ofThreads [false, true] (fun _ => { Thread.ready 1 16 with states := threadInt }) false
  proc _ := ()
  alarm _ := none
  timer
    | none => ⟨0, 0, 0, 0, false, 0, 0, none⟩
    | some b => ⟨5, 0, 0, 0, b, tmSleep, 1, none⟩
  tlist := listEnqueue (listEnqueue ⟨id, id⟩ (.head ()) (.obj (some true))) (.head ()) (.obj (some false))
  pproc := ⟨id, id⟩
  tmhash _ := none
  signals := []
  fired := []
  freed := []

private theorem twoTimers_listed : twoTimers.Listed [some false, some true] where
  ring := by decide
  sorted := by simp [twoTimers]
  kind := by simp [twoTimers, Timer.IsSleep, tmSleep]
  hash _ := ⟨[none], rfl, rfl⟩

theorem check_timeouts_on_time_two : twoTimers.Listed [some false, some true] ∧
    twoTimers.FiresOnTime [some false, some true] 5 := by
  refine ⟨twoTimers_listed, (check_timeouts_on_time twoTimers_listed).mpr ?_⟩
  simp [Timers.AllDueNow, twoTimers, Timer.IsSleep, tmSleep]

/-- At the tick before, both threads are woken, and at the tick after, if the timers are still there, none is. -/
theorem overdue_never_fires : (∃ (s : Timers Bool Unit (Option Bool)) (xs : List (Option Bool)) (ticks : Nat),
      s.Listed xs ∧ ¬ s.FiresOnTime xs ticks) ∧
      (twoTimers.checkTimeouts 4 4 none).map (·.fired) = some [some true, some false] ∧
      (twoTimers.checkTimeouts 6 4 none).map (·.fired) = some [] := by
  refine ⟨⟨twoTimers, _, 6, twoTimers_listed, fun h => ?_⟩, by decide, by decide⟩
  exact absurd (h.not_overdue twoTimers_listed (some true) (by simp)) (by decide)

end Manrix
