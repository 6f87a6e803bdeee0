import Manrix.Kernel.Id
import Manrix.Kernel.Sleep
import Manrix.Kernel.Timer

/-!
# The list and the table of the timers (`insert_timer`, `timer_create`, `delete_timer`)

`insert_timer` leaves a broken list, whatever the list was: on the empty list the item is put behind the head twice and
becomes its own successor, and otherwise the timer behind it still has the old timer before it
(`insert_timer_breaks_list`).

The elements of the hash table are timers themselves, and `tmhash_insert` changes a local pointer to one of them. The
table stays as `time_init` has left it, so `timer_by_id` finds no timer that was created, `delete_timer` deletes none,
and the number 0 stands for an element of the table (`timer_table_history`).  The table has one page, for 68 timers,
while `hash_fn` gives numbers up to 1023: for most of them the functions read memory that is not of the table. Nothing
calls `tmhash_remove` or `dealloc_timerid`.
-/

namespace Manrix

open Chain Fuel Function Links List Runs

variable {τ ρ ω : Type*} [DecidableEq τ] [DecidableEq ρ] [DecidableEq ω]

namespace Timers

variable {s s' : Timers τ ρ ω} {fuel : Nat} {item : ω} {xs : List ω}

/-- The list holds the timers `xs`, with the largest timeout in front. -/
structure SortedList (s : Timers τ ρ ω) (xs : List ω) : Prop where
  ring : IsRing s.tlist tmlist (xs.map .obj)
  sorted : xs.Pairwise fun t u => (s.timer u).timeout ≤ (s.timer t).timeout

/-- `insert_timer` ends with a sorted list of the timers `xs` and the item. -/
def InsertsTimer (s : Timers τ ρ ω) (xs : List ω) (item : ω) : Prop :=
  ∃ (fuel : Nat) (s' : Timers τ ρ ω) (ys : List ω),
    insertTimer fuel s item = some s' ∧ s'.SortedList ys ∧ ys.Perm (item :: xs)

omit [DecidableEq τ] [DecidableEq ρ] [DecidableEq ω] in
theorem SortedList.onList (h : s.SortedList xs) : s.OnList xs.reverse := by
  unfold OnList
  rw [map_reverse]
  exact IsBack.of_ring h.ring

omit [DecidableEq τ] [DecidableEq ρ] [DecidableEq ω] in
private theorem findPlace_isSome {timeout : Nat} {tm : Node Unit ω} {ys : List (Node Unit ω)}
    (hp : Path s.tlist.next tm ys tmlist) (hf : ys.length + 1 < fuel) : (findPlace s timeout fuel tm).isSome := by
  rcases fuel with _ | fuel
  · omega
  induction ys generalizing tm fuel with
  | nil =>
    rcases fuel with _ | fuel
    · omega
    rw [findPlace]
    split
    · have h0 : ¬ s.timeoutAt tmlist > timeout := Nat.not_lt_zero _
      rw [path_nil.mp hp, findPlace, if_neg h0]
      rfl
    · rfl
  | cons y ys ih =>
    rcases fuel with _ | fuel
    · omega
    rw [findPlace]
    split
    · rw [hp.1]
      exact ih hp.2 _ (by rw [length_cons] at hf; omega)
    · rfl

omit [DecidableEq τ] [DecidableEq ρ] in
private theorem insertTimer_isSome (hl : s.SortedList xs) (hf : xs.length + 2 < fuel) :
    (insertTimer fuel s item).isSome := by
  simp only [insertTimer, Option.isSome_map]
  by_cases he : listIsempty s.tlist tmlist = true
  · have ht : (.obj item : Node Unit ω) ≠ tmlist := by simp [tmlist]
    have hxs : xs = [] := by simpa using (listIsempty_iff hl.ring).mp he
    rcases fuel with _ | fuel
    · omega
    have hb : IsBack s.tlist tmlist [] := by simpa [hxs, OnList] using hl.onList
    rw [if_pos he, hb.enqueue_next ht]
    simp [findPlace, timeoutAt]
  · rw [if_neg he]
    cases xs with
    | nil => exact absurd ((listIsempty_iff hl.ring).mpr rfl) he
    | cons x xs =>
      have hp := hl.ring.next
      rw [map_cons, path_cons] at hp
      rw [hp.1]
      exact findPlace_isSome hp.2 (by rw [length_map]; rw [length_cons] at hf; omega)

omit [DecidableEq τ] [DecidableEq ρ] in
private theorem insertTimer_self_loop (hb : s.OnList []) (h : insertTimer fuel s item = some s') :
    s'.tlist.next (.obj item) = .obj item := by
  have hn : ∀ l : Links (Node Unit ω), (listAddNext l tmlist (.obj item)).next (.obj item) = l.next tmlist := by
    intro l
    simp [listAddNext]
  rw [insertTimer_nil hb h, hn, IsBack.enqueue_next hb (by simp [tmlist])]

omit [DecidableEq τ] [DecidableEq ρ] in
private theorem not_insertsTimer (hl : s.SortedList xs) (hi : item ∉ xs) : ¬ s.InsertsTimer xs item := by
  rintro ⟨fuel, s', ys, h, hs', hperm⟩
  have hb := hl.onList
  by_cases hxs : xs = []
  · subst hxs
    have hy : (.obj item : Node Unit ω) ∈ ys.map .obj := mem_map_of_mem (hperm.mem_iff.mpr (by simp))
    exact hs'.ring.next_ne hy (insertTimer_self_loop hb h)
  -- along `prev` the old timers are left, without the item
  · have hon := (insertTimer_onList hb (by simpa using hi) h).2.2
    rw [if_neg (by simpa using hxs)] at hon
    have hb' := hs'.onList
    have hrev := hon.prev.unique hb'.prev (nodup_cons.mp hon.nodup).1 (nodup_cons.mp hb'.nodup).1
    have hlen : xs.length = ys.length := by simpa using congrArg List.length hrev
    have := hperm.length_eq
    rw [length_cons] at this
    omega

end Timers

omit [DecidableEq τ] [DecidableEq ρ] in
/-- `insert_timer` ends, and it never leaves a sorted list with the item. -/
theorem insert_timer_breaks_list {s : Timers τ ρ ω} {xs : List ω} {item : ω} (hl : s.SortedList xs)
    (hi : item ∉ xs) : (∃ n, ∀ fuel, n < fuel → (s.insertTimer fuel item).isSome) ∧ ¬ s.InsertsTimer xs item :=
  ⟨⟨xs.length + 2, fun _ hf => Timers.insertTimer_isSome hl hf⟩, Timers.not_insertsTimer hl hi⟩

/-- No timer is in use; the elements of the hash table are the natural numbers, and `false` and `true` are two more
timers of the cache. -/
def zeroTimers : Timers Unit Unit (Nat ⊕ Bool) where
  k := Kernel.ofThreads [()] (fun _ => Thread.ready 1 16) ()
  proc _ := ()
  alarm _ := none
  timer _ := ⟨0, 0, 0, 0, (), 0, 0, none⟩
  tlist := ⟨id, id⟩
  pproc := ⟨id, id⟩
  tmhash i := .inl i
  signals := []
  fired := []
  freed := []

/-- The timers have the timeout 5, and `true` is on the list or not. -/
def fiveTimers (listed : Bool) : Timers Unit Unit (Nat ⊕ Bool) :=
  { zeroTimers with
    timer := fun _ => ⟨5, 0, 0, 0, (), tmSleep, 1, none⟩
    tlist := if listed then listEnqueue ⟨id, id⟩ Timers.tmlist (.obj (.inr true)) else ⟨id, id⟩ }

private theorem fiveTimers_sorted (listed : Bool) :
    (fiveTimers listed).SortedList (if listed then [.inr true] else []) := by
  cases listed with
  | false => exact ⟨by decide, List.Pairwise.nil⟩
  | true => exact ⟨by decide, pairwise_singleton ..⟩

theorem insert_timer_breaks_list_empty : (fiveTimers false).SortedList [] ∧
    ¬ (fiveTimers false).InsertsTimer [] (.inr false) :=
  ⟨fiveTimers_sorted false, (insert_timer_breaks_list (fiveTimers_sorted false) (by simp)).2⟩

/-- On the empty list `next` of the item leads to the item itself, and on a list with one timer `prev` of the head leads
past the item to the head. -/
theorem insert_timer_loses_item :
    (∃ (s : Timers Unit Unit (Nat ⊕ Bool)) (xs : List (Nat ⊕ Bool)) (item : Nat ⊕ Bool), s.SortedList xs ∧
      item ∉ xs ∧ 0 < (s.timer item).timeout ∧ ¬ s.InsertsTimer xs item) ∧
      ((fiveTimers false).insertTimer 3 (.inr false)).map (fun s => s.tlist.next (.obj (.inr false))) =
        some (.obj (.inr false)) ∧ ((fiveTimers true).insertTimer 3 (.inr false)).map
        (fun s => (s.tlist.next Timers.tmlist, s.tlist.prev Timers.tmlist, s.tlist.prev (.obj (.inr true)))) =
        some (.obj (.inr false), .obj (.inr true), Timers.tmlist) :=
  ⟨⟨_, _, .inr false, fiveTimers_sorted true, by simp, by decide,
    Timers.not_insertsTimer (fiveTimers_sorted true) (by simp)⟩, by decide, by decide⟩

def clockRealtime : Int := 0
def sigalrm : Int := 2

/-- `struct sigevent`, as far as the kernel reads it. -/
structure Sigevent where
  sigevNotify : Int
  sigevSigno : Int

/-- The timers and the bitmap of their ids.  `live` has the timer that was created with an id and has not been
deleted. -/
structure TimerTable (τ ρ ω : Type*) where
  tms : Timers τ ρ ω
  timerids : IdBitmap
  live : Int → Option ω

/-- The page of the table has so many timers, of 60 bytes each. -/
def tmhashLen : Nat := 0x1000 / 60

def Timers.tmhashInsert (s : Timers τ ρ ω) (timer : ω) : Timers τ ρ ω :=
  let tm := s.tmhash (hashFn (s.timer timer).timerId)
  -- `tm = timer` only changes the local variable
  { s with timer := update s.timer timer { s.timer timer with next := some tm } }

namespace TimerTable

/-- `timer_by_id`, which reads outside of the table for most ids. -/
def timerById (fuel : Nat) (s : TimerTable τ ρ ω) (timerId : Int) : Option (Option ω) :=
  if hashFn timerId < tmhashLen then s.tms.timerById fuel timerId else none

/-- `delete_timer`, with its return value. -/
def deleteTimer (fuel : Nat) (s : TimerTable τ ρ ω) (timerId : Int) : Option (Timers τ ρ ω × Int) :=
  (s.timerById fuel timerId).map fun tm => (s.tms.freeTimer tm, if tm.isNone then -1 else 0)

omit [DecidableEq τ] in
theorem deleteTimer_fst {fuel : Nat} {s : TimerTable τ ρ ω} {timerId : Int} (h : hashFn timerId < tmhashLen) :
    (s.deleteTimer fuel timerId).map Prod.fst = s.tms.deleteTimer fuel timerId := by
  simp [deleteTimer, timerById, h, Timers.deleteTimer, Function.comp_def]

/-- What `timer_create` writes into the new timer `tm`. -/
def setTimer (s : TimerTable τ ρ ω) (tm : ω) (timerId : Int) (flags : BitVec 32) (sig : Option Sigevent) :
    Timers τ ρ ω :=
  let old := s.tms.timer tm
  let sigv : Sigevent := match sig with
    | none => if flags = tmTimer then ⟨sigevSignal, sigalrm⟩ else ⟨old.sigevNotify, old.sigevSigno⟩
    | some sig => sig
  { s.tms with
    timer := update s.tms.timer tm
      { old with
        timerId := timerId, flag := flags, owner := s.tms.k.current
        sigevNotify := sigv.sigevNotify, sigevSigno := sigv.sigevSigno }
    pproc := listAdd s.tms.pproc (.head (s.tms.proc s.tms.k.current)) (.obj tm) }

/-- `timer_create`, where `mem` is what `kmem_cache_alloc` returns. -/
def timerCreate (fuel : Nat) (s : TimerTable τ ρ ω) (mem : Option ω) (clkid : Int) (flags : BitVec 32)
    (sig : Option Sigevent) : Option (TimerTable τ ρ ω × Except Int ω) :=
  match mem with
  | none => some (s, .error (-eagain))
  | some tm =>
    if clkid ≠ clockRealtime then some (s, .error (-einval))
    else (allocTimerid fuel s.timerids).map fun c =>
      (⟨(s.setTimer tm c.ret flags sig).tmhashInsert tm, c.bitmap, update s.live c.ret (some tm)⟩, .ok tm)

end TimerTable

/-- The calls, with what `kmem_cache_alloc` returns. -/
inductive TimerOp (ω : Type*) where
  | create (mem : Option ω) (clkid : Int) (flags : BitVec 32) (sig : Option Sigevent)
  | delete (timerId : Int)
  | lookup (timerId : Int)

/-- The cache gives out memory that neither a timer nor the table is in.  If `delete_timer` has no result, the state
after it can be any. -/
def TimerStep (s : TimerTable τ ρ ω) (op : TimerOp ω) (s' : TimerTable τ ρ ω) : Prop :=
  match op with
  | .create mem clkid flags sig =>
    (∀ tm, mem = some tm → (∀ i < tmhashLen, s.tms.tmhash i ≠ tm) ∧ ∀ id, s.live id ≠ some tm) ∧
      ∃ fuel r, s.timerCreate fuel mem clkid flags sig = some (s', r)
  | .delete id => ∀ fuel tms r, s.deleteTimer fuel id = some (tms, r) →
      s' = ⟨tms, s.timerids, update s.live id none⟩
  | .lookup _ => s' = s

omit [DecidableEq τ] [DecidableEq ρ] [DecidableEq ω] in
/-- What `time_init` sets up: all elements of the table are zero. -/
structure TimerTable.Zeroed (s : TimerTable τ ρ ω) : Prop where
  timerId : ∀ i < tmhashLen, (s.tms.timer (s.tms.tmhash i)).timerId = 0
  next : ∀ i < tmhashLen, (s.tms.timer (s.tms.tmhash i)).next = none
  live : ∀ id, s.live id = none

/-- `alloc_timerid` can return this id. -/
def IdBitmap.TimeridFree (b : IdBitmap) (timerId : Int) : Prop :=
  0 ≤ timerId - 1 ∧ Bitmap.has b.word (timerId - 1) = false

/-- `timer_by_id` returns the timer with the id if there is one, and `NULL` otherwise; `delete_timer` returns 0 exactly
if there is one, which is then on the list of no process, and its id is free again. -/
def TimerStepOk (x : TimerTable τ ρ ω × TimerOp ω × TimerTable τ ρ ω) : Prop :=
  match x.2.1 with
  | .create .. => True
  | .delete id => ∃ fuel r, x.1.deleteTimer fuel id = some (x.2.2.tms, r) ∧ (r = 0 ↔ ∃ t, x.1.live id = some t) ∧
      ∀ t, x.1.live id = some t →
        (∀ (p : ρ) (ts : List ω), IsRing x.2.2.tms.pproc (.head p) (ts.map .obj) → t ∉ ts) ∧
        x.2.2.timerids.TimeridFree id
  | .lookup id => ∃ fuel, x.1.timerById fuel id = some (x.1.live id)

/-- Only ids that no timer has are looked up or deleted, and not 0, and their place is in the table. -/
def TimerGuard (x : TimerTable τ ρ ω × TimerOp ω × TimerTable τ ρ ω) : Prop :=
  match x.2.1 with
  | .create .. => True
  | .delete id => id ≠ 0 ∧ hashFn id < tmhashLen ∧ x.1.live id = none
  | .lookup id => id ≠ 0 ∧ hashFn id < tmhashLen ∧ x.1.live id = none

namespace TimerTable

variable {s s' : TimerTable τ ρ ω} {fuel : Nat} {id : Int}

omit [DecidableEq τ] [DecidableEq ρ] [DecidableEq ω] in
/-- The elements of the table are still zero, and no timer that was created is one of them. -/
structure Inv (s : TimerTable τ ρ ω) : Prop where
  timerId : ∀ i < tmhashLen, (s.tms.timer (s.tms.tmhash i)).timerId = 0
  next : ∀ i < tmhashLen, (s.tms.timer (s.tms.tmhash i)).next = none
  outside : ∀ id t, s.live id = some t → ∀ i < tmhashLen, s.tms.tmhash i ≠ t

omit [DecidableEq τ] [DecidableEq ρ] [DecidableEq ω] in
theorem Zeroed.inv (h : s.Zeroed) : s.Inv where
  timerId := h.timerId
  next := h.next
  outside id t ht := absurd (ht.symm.trans (h.live id)) (by simp)

omit [DecidableEq τ] [DecidableEq ρ] [DecidableEq ω] in
theorem Inv.timerById (hi : s.Inv) (hp : hashFn id < tmhashLen) (hf : 1 < fuel) :
    s.timerById fuel id = some (if id = 0 then some (s.tms.tmhash (hashFn id)) else none) := by
  have hc : IsChain (fun t => (s.tms.timer t).next) (some (s.tms.tmhash (hashFn id))) [s.tms.tmhash (hashFn id)] :=
    ⟨rfl, hi.next _ hp⟩
  rw [TimerTable.timerById, if_pos hp, Timers.timerById, chainFind_eq hc _ hf, find?_singleton]
  by_cases h0 : id = 0
  · simp [hi.timerId _ (h0 ▸ hp), h0]
  · simp [hi.timerId _ hp, h0, Ne.symm h0]

omit [DecidableEq τ] [DecidableEq ρ] [DecidableEq ω] in
theorem Inv.timerById_some {r : Option ω} (hi : s.Inv) (h : s.timerById fuel id = some r) :
    hashFn id < tmhashLen ∧ r = if id = 0 then some (s.tms.tmhash (hashFn id)) else none := by
  by_cases hp : hashFn id < tmhashLen
  · refine ⟨hp, ?_⟩
    have h2 := hi.timerById hp (by omega : 1 < 2)
    rw [TimerTable.timerById, if_pos hp] at h h2
    exact eq_of_extends (fun hf => chainFind_extends hf _) h h2
  · rw [TimerTable.timerById, if_neg hp] at h
    cases h

omit [DecidableEq τ] in
theorem Inv.deleteTimer_some {tms : Timers τ ρ ω} {r : Int} (hi : s.Inv) (h : s.deleteTimer fuel id = some (tms, r)) :
    hashFn id < tmhashLen ∧ (id = 0 → r = 0) ∧ (id ≠ 0 → tms = s.tms ∧ r = -1) := by
  obtain ⟨tm, htm, he⟩ := Option.map_eq_some_iff.mp h
  cases he
  obtain ⟨hp, rfl⟩ := hi.timerById_some htm
  refine ⟨hp, fun h0 => by simp [h0], fun h0 => ?_⟩
  rw [if_neg h0]
  exact ⟨rfl, rfl⟩

omit [DecidableEq τ] in
theorem Inv.deleteTimer_isSome (hi : s.Inv) (hp : hashFn id < tmhashLen) :
    ∃ tms r, s.deleteTimer 2 id = some (tms, r) := by
  unfold deleteTimer
  rw [hi.timerById hp (by omega)]
  exact ⟨_, _, rfl⟩

omit [DecidableEq τ] in
/-- A created timer is written, and the table is not. -/
theorem Inv.create {mem : Option ω} {clkid : Int} {flags : BitVec 32} {sig : Option Sigevent} {r : Except Int ω}
    (hi : s.Inv) (hm : ∀ tm, mem = some tm → ∀ i < tmhashLen, s.tms.tmhash i ≠ tm)
    (h : s.timerCreate fuel mem clkid flags sig = some (s', r)) : s'.Inv := by
  unfold timerCreate at h
  cases mem with
  | none =>
    cases h
    exact hi
  | some tm =>
    dsimp only at h
    split at h
    · cases h
      exact hi
    · obtain ⟨c, -, he⟩ := Option.map_eq_some_iff.mp h
      cases he
      have hne := hm tm rfl
      have htimer : ∀ i < tmhashLen, ((s.setTimer tm c.ret flags sig).tmhashInsert tm).timer (s.tms.tmhash i) =
          s.tms.timer (s.tms.tmhash i) := fun i hlt => by
        simp [Timers.tmhashInsert, setTimer, update_of_ne (hne i hlt)]
      refine ⟨fun i hlt => ?_, fun i hlt => ?_, fun id t ht i hlt => ?_⟩
      · exact (congrArg Timer.timerId (htimer i hlt)).trans (hi.timerId i hlt)
      · exact (congrArg Timer.next (htimer i hlt)).trans (hi.next i hlt)
      · dsimp only at ht
        rw [update_apply] at ht
        split at ht
        · exact Option.some.inj ht ▸ hne i hlt
        · exact hi.outside id t ht i hlt

omit [DecidableEq τ] in
theorem Inv.step {op : TimerOp ω} (hi : s.Inv) (hg : TimerGuard (s, op, s')) (h : TimerStep s op s') : s'.Inv := by
  cases op with
  | create mem clkid flags sig =>
    obtain ⟨hm, fuel, r, h⟩ := h
    exact hi.create (fun tm htm => (hm tm htm).1) h
  | delete id =>
    obtain ⟨h0, hp, hnone⟩ := hg
    obtain ⟨tms, r, hd⟩ := hi.deleteTimer_isSome hp
    obtain rfl := h 2 tms r hd
    obtain ⟨rfl, -⟩ := (hi.deleteTimer_some hd).2.2 h0
    refine ⟨hi.timerId, hi.next, fun id' t ht => hi.outside id' t ?_⟩
    rwa [show update s.live id none = s.live from update_eq_self_iff.mpr hnone.symm] at ht
  | lookup id =>
    obtain rfl : s' = s := h
    exact hi

omit [DecidableEq τ] in
/-- A call is right exactly if it is meant to find nothing. -/
theorem Inv.stepOk_iff {op : TimerOp ω} (hi : s.Inv) (h : TimerStep s op s') :
    TimerStepOk (s, op, s') ↔ TimerGuard (s, op, s') := by
  cases op with
  | create mem clkid flags sig => exact Iff.rfl
  | delete id =>
    constructor
    · rintro ⟨fuel, r, hd, hr, hlive⟩
      obtain ⟨hp, hres⟩ := hi.deleteTimer_some hd
      have hnone : s.live id = none := by
        cases ht : s.live id with
        | none => rfl
        | some t =>
          have hfree := (hlive t ht).2.1
          have h0 : r = 0 := hr.mpr ⟨t, ht⟩
          have := (hres.2 (by omega)).2
          omega
      refine ⟨fun h0 => ?_, hp, hnone⟩
      obtain ⟨t, ht⟩ := hr.mp (hres.1 h0)
      exact absurd (hnone.symm.trans ht) (by simp)
    · rintro ⟨h0, hp, hnone⟩
      obtain ⟨tms, r, hd⟩ := hi.deleteTimer_isSome hp
      obtain rfl := h 2 tms r hd
      obtain ⟨-, rfl⟩ := (hi.deleteTimer_some hd).2.2 h0
      have hno : ∀ t, s.live id ≠ some t := fun t ht => absurd (hnone.symm.trans ht) (by simp)
      exact ⟨2, -1, hd, by simp [hno], fun t ht => absurd ht (hno t)⟩
  | lookup id =>
    constructor
    · rintro ⟨fuel, hl⟩
      obtain ⟨hp, hlive⟩ := hi.timerById_some hl
      by_cases h0 : id = 0
      · rw [if_pos h0] at hlive
        exact absurd rfl (hi.outside id _ hlive (hashFn id) hp)
      · rw [if_neg h0] at hlive
        exact ⟨h0, hp, hlive⟩
    · rintro ⟨h0, hp, hnone⟩
      refine ⟨2, ?_⟩
      rw [hi.timerById hp (by omega), if_neg h0]
      exact congrArg some hnone.symm

end TimerTable

omit [DecidableEq τ] in
/-- From the zeroed table on, the calls of `timer_by_id` and `delete_timer` are all right exactly if all of them ask for
an id other than 0 that no timer has and that has its place in the table: a timer that was created is never found again.
-/
theorem timer_table_history {s₀ s : TimerTable τ ρ ω}
    {tr : List (TimerTable τ ρ ω × TimerOp ω × TimerTable τ ρ ω)} (h₀ : s₀.Zeroed) (hr : Run TimerStep s₀ tr s) :
    (∀ x ∈ tr, TimerStepOk x) ↔ ∀ x ∈ tr, TimerGuard x :=
  hr.forall_iff TimerTable.Inv TimerGuard TimerStepOk h₀.inv (fun _ _ _ hi hg h => hi.step hg h)
    fun _ _ _ hi h => hi.stepOk_iff h

def zeroTable : TimerTable Unit Unit (Nat ⊕ Bool) := ⟨zeroTimers, ⟨fun _ => 0, 0⟩, fun _ => none⟩

private theorem zeroTable_zeroed : zeroTable.Zeroed := ⟨fun _ _ => rfl, fun _ _ => rfl, fun _ => rfl⟩

/-- The table after `timer_create` has made a timer of `false`, with the id 1. -/
def oneTimer : TimerTable Unit Unit (Nat ⊕ Bool) :=
  ⟨(zeroTable.setTimer (.inr false) 1 tmTimer none).tmhashInsert (.inr false), ⟨Bitmap.insert (fun _ => 0) 0, 0⟩,
    update zeroTable.live 1 (some (.inr false))⟩

private theorem oneTimer_step : TimerStep zeroTable (.create (some (.inr false)) clockRealtime tmTimer none) oneTimer :=
  ⟨fun tm htm => ⟨by simp [← Option.some.inj htm, zeroTable, zeroTimers], by simp [zeroTable]⟩, 1,
    .ok (.inr false), rfl⟩

private theorem oneTimer_run : Run TimerStep zeroTable
    [(zeroTable, .create (some (.inr false)) clockRealtime tmTimer none, oneTimer)] oneTimer :=
  .snoc .nil oneTimer_step

/-- A timer is created, and the id 2, which no timer has, is looked up. -/
theorem timer_table_history_absent : ∃ (tr : List (TimerTable Unit Unit (Nat ⊕ Bool) × TimerOp (Nat ⊕ Bool) ×
    TimerTable Unit Unit (Nat ⊕ Bool))) (s : TimerTable Unit Unit (Nat ⊕ Bool)),
    Run TimerStep zeroTable tr s ∧ tr.length = 2 ∧ ∀ x ∈ tr, TimerStepOk x := by
  have hr := Run.snoc oneTimer_run (show TimerStep oneTimer (.lookup 2) oneTimer from rfl)
  refine ⟨_, _, hr, rfl, (timer_table_history zeroTable_zeroed hr).mpr fun x hx => ?_⟩
  simp only [cons_append, nil_append, mem_cons, not_mem_nil, or_false] at hx
  obtain rfl | rfl := hx
  · trivial
  · exact ⟨by decide, by decide, rfl⟩

/-- The timer that was created with the id 1 is not found, `delete_timer(1)` fails, and for 0 there is an element of the
table. -/
theorem created_timer_not_found : Run TimerStep zeroTable
    [(zeroTable, .create (some (.inr false)) clockRealtime tmTimer none, oneTimer),
      (oneTimer, .lookup 1, oneTimer)] oneTimer ∧
    oneTimer.live 1 = some (.inr false) ∧ ¬ TimerStepOk (oneTimer, .lookup 1, oneTimer) ∧
    oneTimer.timerById 2 1 = some none ∧ (oneTimer.deleteTimer 2 1).map Prod.snd = some (-1) ∧
    zeroTable.timerById 2 0 = some (some (.inl 0)) := by
  have hi : oneTimer.Inv := zeroTable_zeroed.inv.create (fun tm htm => (oneTimer_step.1 tm htm).1)
    oneTimer_step.2.choose_spec.choose_spec
  have hl : TimerStep oneTimer (.lookup 1) oneTimer := rfl
  refine ⟨.snoc oneTimer_run hl, rfl, fun h => ?_, by decide, by decide, by decide⟩
  exact absurd ((hi.stepOk_iff hl).mp h).2.2 (by decide)

end Manrix
