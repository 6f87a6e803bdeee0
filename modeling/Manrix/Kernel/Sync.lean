import Manrix.Kernel.Sleep
import Manrix.Kernel.Thread
import Manrix.Lib.Chain
import Manrix.Lib.Fuel
import Manrix.Lib.Runs

/-!
# Synchronization objects and their table (`kernel/sync.c`)

The table has one page of pointers to chains, and the index of an object is the product of the `pid` of its owner and
its number, without a bound.  `find_sync` reads the first object of a chain without a test for `NULL`, and from the
second one on it stops at an object that has the `pid` or the number, so it gives a process the object of another one.
`shash_remove` does not take out the first object of a chain, and runs into the end of the chain when it takes out the
last one.

`sync_table_history` says which calls are right: those with an index in the page for which `find_sync` meets no such
object, and the destruction of an object with one before and one behind it.
-/

namespace Manrix

open Chain Fuel Function Links List Runs

/-- What a call comes to: an access through a null pointer or outside of the table, or a result. -/
inductive Outcome (α : Type*) where
  | fault
  | ok (a : α)
  deriving DecidableEq

/-- The synchronization objects.  `syncs` is the link field of the lists of the processes, which are given by their
`pid`, and `id` is the number of their next object. -/
structure SyncTable (σ : Type*) where
  owner : σ → Int
  syncId : σ → Int
  next : σ → Option σ
  shash : Int → Option σ
  syncs : Links (Node Int σ)
  id : Int → Int

/-- The product of two `int`s.  In C one that overflows is not defined; here it is outside of the page. -/
def syncFn (owner id : Int) : Int := owner * id

/-- The page has 1024 pointers. -/
def InPage (i : Int) : Prop := 0 ≤ i ∧ i < 1024

instance (i : Int) : Decidable (InPage i) := inferInstanceAs (Decidable (_ ∧ _))

variable {σ : Type*} [DecidableEq σ] {c : Outcome (SyncTable σ × Int)}

/-! ### The functions -/

namespace SyncTable

def index (s : SyncTable σ) (o : σ) : Int := syncFn (s.owner o) (s.syncId o)

def Key (s : SyncTable σ) (pid syncId : Int) (o : σ) : Prop := s.owner o = pid ∧ s.syncId o = syncId

instance (s : SyncTable σ) (pid syncId : Int) (o : σ) : Decidable (s.Key pid syncId o) :=
  inferInstanceAs (Decidable (_ ∧ _))

def shashInsert (s : SyncTable σ) (o : σ) : Outcome (SyncTable σ) :=
  if InPage (s.index o) then
    .ok { s with
      next := update s.next o (s.shash (s.index o))
      shash := update s.shash (s.index o) (some o) }
  else .fault

/-- The loop of `shash_remove` from `link` on. -/
def unlinkSync (s : SyncTable σ) (o : σ) : Nat → Option σ → (σ → Option σ) → Option (Outcome (σ → Option σ))
  | 0, _, _ => none
  | _ + 1, none, _ => some .fault
  | fuel + 1, some link, next =>
    match next link with
    | none => some (.ok next)
    | some l =>
      let next := if s.Key (s.owner o) (s.syncId o) l then update next link (next o) else next
      s.unlinkSync o fuel (next link) next

def shashRemove (s : SyncTable σ) (fuel : Nat) (o : σ) : Option (Outcome (SyncTable σ)) :=
  if InPage (s.index o) then
    match s.shash (s.index o) with
    | none => some .fault
    | some p =>
      -- `p = s->next` only changes the local variable
      if s.Key (s.owner o) (s.syncId o) p then some (.ok s)
      else (s.unlinkSync o fuel (some p) s.next).map fun
        | .fault => .fault
        | .ok next => .ok { s with next := next }
  else some .fault

/-- The loop of `find_sync`, which goes on while both the owner and the number are different. -/
def findLink (s : SyncTable σ) (pid syncId : Int) : Nat → Option σ → Option (Outcome (Option σ))
  | 0, _ => none
  | _ + 1, none => some .fault
  | fuel + 1, some link =>
    if s.owner link ≠ pid ∧ s.syncId link ≠ syncId then
      match s.next link with
      | none => some (.ok none)
      | some l => s.findLink pid syncId fuel (some l)
    else some (.ok (some link))

def findSync (s : SyncTable σ) (fuel : Nat) (pid syncId : Int) : Option (Outcome (Option σ)) :=
  if InPage (syncFn pid syncId) then
    match s.shash (syncFn pid syncId) with
    | none => some .fault
    | some p => if s.Key pid syncId p then some (.ok (some p)) else s.findLink pid syncId fuel (s.next p)
  else some .fault

/-- `syscall_sync_create` of the process `pid`, where `mem` is what `kmem_cache_alloc` returns. -/
def syscallSyncCreate (s : SyncTable σ) (pid : Int) (mem : Option σ) : Outcome (SyncTable σ × Int) :=
  match mem with
  | none => .ok (s, -enomem)
  | some sn =>
    let syncId := s.id pid
    let s := { s with
      owner := update s.owner sn pid
      syncId := update s.syncId sn syncId
      id := update s.id pid (syncId + 1)
      next := update s.next sn none }
    match s.shashInsert sn with
    | .fault => .fault
    | .ok s => .ok ({ s with syncs := listAdd s.syncs (.head pid) (.obj sn) }, syncId)

/-- The rest of `syscall_sync_destroy`, for the object that `find_sync` has returned. -/
def destroyFound (s : SyncTable σ) (fuel : Nat) (pid : Int) (sn : σ) : Option (Outcome (SyncTable σ × Int)) :=
  (shashRemove { s with syncs := listDel s.syncs (.head pid) (.obj sn) } fuel sn).map fun
    | .fault => .fault
    | .ok s => .ok (s, 0)

def syscallSyncDestroy (s : SyncTable σ) (fuel : Nat) (pid syncId : Int) : Option (Outcome (SyncTable σ × Int)) :=
  (s.findSync fuel pid syncId).bind fun
    | .fault => some .fault
    | .ok none => some (.ok (s, -einval))
    | .ok (some sn) => s.destroyFound fuel pid sn

/-! ### The functions on chains -/

variable {s s' : SyncTable σ} {pid syncId : Int} {xs : List σ} {top : Option σ} {fuel fuel' : Nat} {o : σ}

omit [DecidableEq σ] in
private theorem findLink_extends (hf : fuel ≤ fuel') (top : Option σ) :
    Extends (s.findLink pid syncId fuel top) (s.findLink pid syncId fuel' top) := by
  refine le_rounds (R := fun n m => ∀ top, Extends (s.findLink pid syncId n top) (s.findLink pid syncId m top)) ?_ ?_
    hf top
  · exact fun m top => extends_none _
  · intro n m ih top
    cases top with
    | none => exact .refl _
    | some link =>
      unfold findLink
      refine .ite ?_ (.refl _)
      cases s.next link with
      | none => exact .refl _
      | some l => exact ih (some l)

omit [DecidableEq σ] in
private theorem findSync_extends (hf : fuel ≤ fuel') :
    Extends (s.findSync fuel pid syncId) (s.findSync fuel' pid syncId) := by
  unfold findSync
  refine .ite ?_ (.refl _)
  cases s.shash (syncFn pid syncId) with
  | none => exact .refl _
  | some p => exact .ite (.refl _) (findLink_extends hf _)

/-- The test at which the loop of `find_sync` stops. -/
def Half (s : SyncTable σ) (pid syncId : Int) (o : σ) : Prop := s.owner o = pid ∨ s.syncId o = syncId

instance (s : SyncTable σ) (pid syncId : Int) (o : σ) : Decidable (s.Half pid syncId o) :=
  inferInstanceAs (Decidable (_ ∨ _))

/-- What the loop comes to on a chain. -/
def linkOutcome (s : SyncTable σ) (pid syncId : Int) : List σ → Outcome (Option σ)
  | [] => .fault
  | x :: xs => .ok ((x :: xs).find? fun o => s.Half pid syncId o)

omit [DecidableEq σ] in
theorem findLink_eq (hc : IsChain s.next top xs) (hf : xs.length < fuel) :
    s.findLink pid syncId fuel top = some (s.linkOutcome pid syncId xs) := by
  rcases fuel with _ | fuel
  · omega
  induction xs generalizing top fuel with
  | nil =>
    rw [show top = none from hc]
    rfl
  | cons x xs ih =>
    have hxs := hc.2
    rw [hc.1, findLink, linkOutcome, find?_cons]
    by_cases hx : s.Half pid syncId x
    · rw [if_neg (fun h => hx.elim h.1 h.2), decide_eq_true hx]
    · rw [if_pos (not_or.mp hx), decide_eq_false hx]
      cases xs with
      | nil =>
        rw [show s.next x = none from hxs]
        rfl
      | cons y ys =>
        rw [length_cons] at hf
        rcases fuel with _ | fuel
        · omega
        rw [hxs.1]
        exact ih ⟨rfl, hxs.2⟩ _ (by omega)

/-- What `find_sync` comes to on the chain of its bucket. -/
def findOutcome (s : SyncTable σ) (pid syncId : Int) : List σ → Outcome (Option σ)
  | [] => .fault
  | x :: xs => if s.Key pid syncId x then .ok (some x) else s.linkOutcome pid syncId xs

omit [DecidableEq σ] in
private theorem findSync_eq (hp : InPage (syncFn pid syncId)) (hc : IsChain s.next (s.shash (syncFn pid syncId)) xs)
    (hf : xs.length < fuel) : s.findSync fuel pid syncId = some (s.findOutcome pid syncId xs) := by
  rw [findSync, if_pos hp]
  cases xs with
  | nil =>
    rw [show s.shash _ = none from hc]
    rfl
  | cons x xs =>
    rw [length_cons] at hf
    rw [hc.1, findOutcome]
    dsimp only
    split
    · rfl
    · exact findLink_eq hc.2 (by omega)

omit [DecidableEq σ] in
private theorem findSync_some {r : Outcome (Option σ)} (hp : InPage (syncFn pid syncId))
    (hc : IsChain s.next (s.shash (syncFn pid syncId)) xs) (h : s.findSync fuel pid syncId = some r) :
    r = s.findOutcome pid syncId xs :=
  eq_of_extends (fun hf => findSync_extends hf) h (findSync_eq hp hc (Nat.lt_succ_self xs.length))

/-- `find_sync` meets the object that is asked for before any other object with its owner or its number, and the chain
is long enough. -/
def LookupFits (s : SyncTable σ) (pid syncId : Int) (xs : List σ) : Prop :=
  ∃ x rest, xs = x :: rest ∧ (s.Key pid syncId x ∨
    rest ≠ [] ∧ (rest.find? fun o => s.Half pid syncId o) = rest.find? fun o => s.Key pid syncId o)

omit [DecidableEq σ] in
private theorem lookupFits_iff :
    s.LookupFits pid syncId xs ↔ s.findOutcome pid syncId xs = .ok (xs.find? fun o => s.Key pid syncId o) := by
  cases xs with
  | nil => exact iff_of_false (fun ⟨_, _, h, _⟩ => by cases h) (by simp [findOutcome])
  | cons x xs =>
    have hiff : s.LookupFits pid syncId (x :: xs) ↔ s.Key pid syncId x ∨
        xs ≠ [] ∧ (xs.find? fun o => s.Half pid syncId o) = xs.find? fun o => s.Key pid syncId o := by
      constructor
      · rintro ⟨_, _, he, h⟩
        obtain ⟨rfl, rfl⟩ := List.cons.inj he
        exact h
      · exact fun h => ⟨x, xs, rfl, h⟩
    rw [hiff, findOutcome, find?_cons]
    by_cases hx : s.Key pid syncId x
    · simp [hx]
    · rw [if_neg hx, decide_eq_false hx]
      cases xs with
      | nil => simp [linkOutcome, hx]
      | cons y ys => simp [linkOutcome, hx]

omit [DecidableEq σ] in
private theorem mem_of_findOutcome (h : s.findOutcome pid syncId xs = .ok (some o)) : o ∈ xs := by
  cases xs with
  | nil => cases h
  | cons x xs =>
    rw [findOutcome] at h
    split at h
    · cases h
      exact mem_cons_self ..
    · cases xs with
      | nil => cases h
      | cons y ys => exact mem_cons_of_mem _ (mem_of_find?_eq_some (Outcome.ok.inj h))

private theorem unlinkSync_extends (hf : fuel ≤ fuel') (top : Option σ) (next : σ → Option σ) :
    Extends (s.unlinkSync o fuel top next) (s.unlinkSync o fuel' top next) := by
  refine le_rounds (R := fun n m => ∀ top next, Extends (s.unlinkSync o n top next) (s.unlinkSync o m top next)) ?_ ?_
    hf top next
  · exact fun m top next => extends_none _
  · intro n m ih top next
    cases top with
    | none => exact .refl _
    | some link =>
      unfold unlinkSync
      cases next link with
      | none => exact .refl _
      | some l => exact ih _ _

section Unlink

variable {next : σ → Option σ} {a : σ} {us vs : List σ}

private theorem unlinkSync_of_absent (hc : IsChain next (some a) (a :: xs))
    (hk : ∀ y ∈ xs, ¬ s.Key (s.owner o) (s.syncId o) y) (hf : xs.length < fuel) :
    s.unlinkSync o fuel (some a) next = some (.ok next) := by
  rcases fuel with _ | fuel
  · omega
  induction xs generalizing a fuel with
  | nil => rw [unlinkSync, show next a = none from hc.2]
  | cons x xs ih =>
    rw [length_cons] at hf
    rcases fuel with _ | fuel
    · omega
    have hx : next a = some x := hc.2.1
    rw [unlinkSync, hx]
    simp only [if_neg (hk x (mem_cons_self ..)), hx]
    exact ih ⟨rfl, hc.2.2⟩ (fun y hy => hk y (mem_cons_of_mem _ hy)) _ (by omega)

/-- An object with one behind it is taken out of the chain. -/
private theorem unlinkSync_middle (hc : IsChain next (some a) (a :: (us ++ o :: vs))) (hvs : vs ≠ [])
    (hk : ∀ y ∈ us ++ vs, ¬ s.Key (s.owner o) (s.syncId o) y) (hf : (us ++ o :: vs).length < fuel) :
    ∃ next', s.unlinkSync o fuel (some a) next = some (.ok next') ∧ IsChain next' (some a) (a :: (us ++ vs)) ∧
      ∀ y ∉ a :: us, next' y = next y := by
  rcases fuel with _ | fuel
  · omega
  induction us generalizing a fuel with
  | nil =>
    obtain ⟨v, vs, rfl⟩ := exists_cons_of_ne_nil hvs
    rw [nil_append] at hc hk
    rw [nil_append, length_cons, length_cons] at hf
    have ho : next a = some o := hc.2.1
    have hv : next o = some v := hc.2.2.1
    have ha : a ∉ v :: vs := fun h => (nodup_cons.1 hc.nodup).1 (mem_cons_of_mem _ h)
    have hc' : IsChain (update next a (some v)) (some v) (v :: vs) := by
      have : IsChain next (some v) (v :: vs) := ⟨rfl, hc.2.2.2⟩
      exact this.congr fun y hy => update_of_ne (ne_of_mem_of_not_mem hy ha) ..
    refine ⟨update next a (some v), ?_, ⟨rfl, ?_⟩, fun y hy => ?_⟩
    · rw [unlinkSync, ho]
      simp only [hv, if_pos (show s.Key (s.owner o) (s.syncId o) o from ⟨rfl, rfl⟩), update_self]
      exact unlinkSync_of_absent hc' (fun y hy => hk y (mem_cons_of_mem _ hy)) (by omega)
    · rw [update_self]
      exact hc'
    · exact update_of_ne (ne_of_not_mem_cons hy) ..
  | cons u us ih =>
    rw [cons_append, length_cons] at hf
    rcases fuel with _ | fuel
    · omega
    have hu : next a = some u := hc.2.1
    obtain ⟨next', h', hc', hkeep⟩ := ih (a := u) ⟨rfl, hc.2.2⟩ (fun y hy => hk y (mem_cons_of_mem _ hy)) fuel
      (by omega)
    have ha : a ∉ u :: us := fun h =>
      (nodup_cons.1 hc.nodup).1 (mem_append_left (o :: vs) h)
    refine ⟨next', ?_, ⟨rfl, ?_⟩, fun y hy => hkeep y fun h => hy (mem_cons_of_mem _ h)⟩
    · rw [unlinkSync, hu]
      simp only [if_neg (hk u (mem_cons_self ..)), hu]
      exact h'
    · rw [hkeep a ha, hu]
      exact hc'

private theorem unlinkSync_last (hc : IsChain next (some a) (a :: (us ++ [o])))
    (hk : ∀ y ∈ us, ¬ s.Key (s.owner o) (s.syncId o) y) (hf : (us ++ [o]).length < fuel) :
    s.unlinkSync o fuel (some a) next = some .fault := by
  rcases fuel with _ | fuel
  · omega
  induction us generalizing a fuel with
  | nil =>
    obtain ⟨fuel, rfl⟩ := Nat.exists_eq_add_one_of_ne_zero (show fuel ≠ 0 by simp at hf; omega)
    have ho : next a = some o := hc.2.1
    have hn : next o = none := hc.2.2
    rw [unlinkSync, ho]
    simp only [hn, if_pos (show s.Key (s.owner o) (s.syncId o) o from ⟨rfl, rfl⟩), update_self]
    rfl
  | cons u us ih =>
    rw [cons_append, length_cons] at hf
    rcases fuel with _ | fuel
    · omega
    have hu : next a = some u := hc.2.1
    rw [unlinkSync, hu]
    simp only [if_neg (hk u (mem_cons_self ..)), hu]
    exact ih ⟨rfl, hc.2.2⟩ (fun y hy => hk y (mem_cons_of_mem _ hy)) fuel (by omega)

end Unlink

private theorem shashRemove_extends (hf : fuel ≤ fuel') : Extends (s.shashRemove fuel o) (s.shashRemove fuel' o) := by
  unfold shashRemove
  refine .ite ?_ (.refl _)
  cases s.shash (s.index o) with
  | none => exact .refl _
  | some p => exact .ite (.refl _) ((unlinkSync_extends hf _ _).map _)

private theorem syscallSyncDestroy_extends (hf : fuel ≤ fuel') :
    Extends (s.syscallSyncDestroy fuel pid syncId) (s.syscallSyncDestroy fuel' pid syncId) := by
  refine (findSync_extends hf).bind fun found => ?_
  match found with
  | .fault => exact .refl _
  | .ok none => exact .refl _
  | .ok (some sn) => exact (shashRemove_extends hf).map _

private theorem shashRemove_first (hp : InPage (s.index o))
    (hc : IsChain s.next (s.shash (s.index o)) (o :: xs)) (fuel : Nat) : s.shashRemove fuel o = some (.ok s) := by
  rw [shashRemove, if_pos hp, hc.1]
  exact if_pos ⟨rfl, rfl⟩

/-- The object has one before and one behind it in the chain. -/
def Between (xs : List σ) (o : σ) : Prop := ∃ us vs, xs = us ++ o :: vs ∧ us ≠ [] ∧ vs ≠ []

private theorem shashRemove_between (hp : InPage (s.index o)) (hc : IsChain s.next (s.shash (s.index o)) xs)
    (ho : Between xs o) (hk : ∀ y ∈ xs, s.Key (s.owner o) (s.syncId o) y → y = o) (hf : xs.length < fuel) :
    ∃ next', s.shashRemove fuel o = some (.ok { s with next := next' }) ∧
      IsChain next' (s.shash (s.index o)) (xs.erase o) ∧ ∀ y ∉ xs, next' y = s.next y := by
  obtain ⟨us, vs, rfl, hus, hvs⟩ := ho
  obtain ⟨a, us, rfl⟩ := exists_cons_of_ne_nil hus
  rw [cons_append] at hc
  have hnd : (a :: us ++ o :: vs).Nodup := hc.nodup
  have htop : s.shash (s.index o) = some a := hc.1
  have hnot : o ∉ a :: us := fun h => (nodup_append.mp hnd).2.2 o h o (mem_cons_self ..) rfl
  have hne : ∀ y ∈ us ++ vs, y ≠ o := by
    rintro y hy rfl
    rcases mem_append.mp hy with hy | hy
    · exact hnot (mem_cons_of_mem _ hy)
    · exact (nodup_cons.mp (nodup_append.mp hnd).2.1).1 hy
  have hsub : ∀ y ∈ us ++ vs, y ∈ a :: us ++ o :: vs := fun y hy => by
    rcases mem_append.mp hy with hy | hy <;> simp [hy]
  have hka : ¬ s.Key (s.owner o) (s.syncId o) a := fun h =>
    hnot (hk a (by simp) h ▸ mem_cons_self ..)
  rw [htop] at hc
  have hf : (us ++ o :: vs).length < fuel := by
    rw [cons_append, length_cons] at hf
    omega
  obtain ⟨next', h', hc', hkeep⟩ := unlinkSync_middle hc hvs (fun y hy h => hne y hy (hk y (hsub y hy) h)) hf
  refine ⟨next', ?_, ?_, fun y hy => hkeep y fun h => hy (mem_append_left _ h)⟩
  · rw [shashRemove, if_pos hp, htop]
    simp only [if_neg hka, h']
    rfl
  · rw [htop, erase_append_right _ hnot, erase_cons_head]
    exact hc'

private theorem shashRemove_last {us : List σ} (hp : InPage (s.index o))
    (hc : IsChain s.next (s.shash (s.index o)) (us ++ [o])) (hus : us ≠ [])
    (hk : ∀ y ∈ us, ¬ s.Key (s.owner o) (s.syncId o) y) (hf : (us ++ [o]).length < fuel) :
    s.shashRemove fuel o = some .fault := by
  obtain ⟨a, us, rfl⟩ := exists_cons_of_ne_nil hus
  have htop : s.shash (s.index o) = some a := hc.1
  rw [htop] at hc
  rw [shashRemove, if_pos hp, htop]
  simp only [if_neg (hk a (mem_cons_self ..)), unlinkSync_last hc (fun y hy => hk y (mem_cons_of_mem _ hy))
    (show (us ++ [o]).length < fuel by simp at hf ⊢; omega)]
  rfl

end SyncTable

/-- The table after `syscall_sync_create` has made an object of `sn`. -/
def SyncTable.created (s : SyncTable σ) (pid : Int) (sn : σ) : SyncTable σ where
  owner := update s.owner sn pid
  syncId := update s.syncId sn (s.id pid)
  next := update s.next sn (s.shash (syncFn pid (s.id pid)))
  shash := update s.shash (syncFn pid (s.id pid)) (some sn)
  syncs := listAdd s.syncs (.head pid) (.obj sn)
  id := update s.id pid (s.id pid + 1)

theorem SyncTable.syscallSyncCreate_some (s : SyncTable σ) (pid : Int) (sn : σ) : s.syscallSyncCreate pid (some sn) =
      if InPage (syncFn pid (s.id pid)) then .ok (s.created pid sn, s.id pid) else .fault := by
  simp only [syscallSyncCreate, shashInsert, index, update_self, update_idem, created]
  by_cases hp : InPage (syncFn pid (s.id pid))
  · simp only [if_pos hp]
  · simp only [if_neg hp]

theorem SyncTable.created_index_self (s : SyncTable σ) (pid : Int) (sn : σ) :
    (s.created pid sn).index sn = syncFn pid (s.id pid) := by
  simp [index, created]

theorem SyncTable.created_index_of_ne (s : SyncTable σ) (pid : Int) {sn o : σ} (h : o ≠ sn) :
    (s.created pid sn).index o = s.index o := by
  simp [index, created, h]

/-! ### Histories of the table -/

/-- The table, and the objects that have been created and not destroyed. -/
structure SyncHistory (σ : Type*) where
  table : SyncTable σ
  live : σ → Bool

inductive SyncOp (σ : Type*) where
  | create (pid : Int) (mem : Option σ)
  | destroy (pid syncId : Int)
  | lookup (pid syncId : Int)

/-- The objects that are left after the one that `find_sync` returns is destroyed. -/
def SyncHistory.liveAfter (s : SyncHistory σ) (fuel : Nat) (pid syncId : Int) : σ → Bool :=
  match s.table.findSync fuel pid syncId with
  | some (.ok (some sn)) => update s.live sn false
  | _ => s.live

/-- A call of a process.  The cache gives out memory that no object is in, and after a fault everything is possible. -/
def SyncStep (s : SyncHistory σ) (op : SyncOp σ) (s' : SyncHistory σ) : Prop :=
  match op with
  | .create pid none => ∀ r, s.table.syscallSyncCreate pid none = .ok r → s' = ⟨r.1, s.live⟩
  | .create pid (some sn) => s.live sn = false ∧
      ∀ r, s.table.syscallSyncCreate pid (some sn) = .ok r → s' = ⟨r.1, update s.live sn true⟩
  | .destroy pid syncId => ∃ fuel c, s.table.syscallSyncDestroy fuel pid syncId = some c ∧
      ∀ r, c = .ok r → s' = ⟨r.1, s.liveAfter fuel pid syncId⟩
  | .lookup _ _ => s' = s

namespace SyncHistory

omit [DecidableEq σ] in
/-- What `sync_init` sets up. -/
structure Initial (s : SyncHistory σ) : Prop where
  shash : ∀ i, InPage i → s.table.shash i = none
  live : ∀ o, s.live o = false

omit [DecidableEq σ] in
/-- The chains of the table end, and have the objects that have not been destroyed, each in its bucket. -/
def Holds (s : SyncHistory σ) : Prop :=
  ∀ i, InPage i → ∃ xs, IsChain s.table.next (s.table.shash i) xs ∧ ∀ o, o ∈ xs ↔ s.live o = true ∧ s.table.index o = i

omit [DecidableEq σ] in
/-- `r` is the object of the process with this number that has not been destroyed, or `NULL`. -/
def Answers (s : SyncHistory σ) (pid syncId : Int) : Option σ → Prop
  | none => ∀ o, s.live o = true → ¬ s.table.Key pid syncId o
  | some o => s.live o = true ∧ s.table.Key pid syncId o

end SyncHistory

/-- `find_sync` ends with the object of the process that has not been destroyed, if there is one; no call faults, and
after it the table has the objects that it should have. -/
def SyncStepOk (x : SyncHistory σ × SyncOp σ × SyncHistory σ) : Prop :=
  match x.2.1 with
  | .create pid mem => (∃ r, x.1.table.syscallSyncCreate pid mem = .ok r) ∧ x.2.2.Holds
  | .destroy pid syncId => ∃ fuel r, x.1.table.syscallSyncDestroy fuel pid syncId = some (.ok r) ∧
      (r.2 = 0 ↔ ∃ o, x.1.live o = true ∧ x.1.table.Key pid syncId o) ∧
      (∀ o, x.2.2.live o = true ↔ x.1.live o = true ∧ ¬ x.1.table.Key pid syncId o) ∧ x.2.2.Holds
  | .lookup pid syncId => ∃ fuel r, x.1.table.findSync fuel pid syncId = some (.ok r) ∧ x.1.Answers pid syncId r

/-- The index is in the page, the chain there is one on which `find_sync` is right, and an object is destroyed only if
it is neither the first nor the last one. -/
def SyncGuard (x : SyncHistory σ × SyncOp σ × SyncHistory σ) : Prop :=
  match x.2.1 with
  | .create _ none => True
  | .create pid (some _) => InPage (syncFn pid (x.1.table.id pid))
  | .destroy pid syncId => InPage (syncFn pid syncId) ∧
      ∃ xs, IsChain x.1.table.next (x.1.table.shash (syncFn pid syncId)) xs ∧ x.1.table.LookupFits pid syncId xs ∧
        ∀ o ∈ xs, x.1.table.Key pid syncId o → SyncTable.Between xs o
  | .lookup pid syncId => InPage (syncFn pid syncId) ∧
      ∃ xs, IsChain x.1.table.next (x.1.table.shash (syncFn pid syncId)) xs ∧ x.1.table.LookupFits pid syncId xs

namespace SyncHistory

variable {s s' s₀ : SyncHistory σ} {op : SyncOp σ} {pid syncId : Int} {xs : List σ} {o : σ} {fuel : Nat} {sn : σ}

omit [DecidableEq σ] in
/-- The table has the right objects; their owners and numbers tell them apart, and the numbers of the objects to come
are larger. -/
structure Inv (s : SyncHistory σ) : Prop where
  holds : s.Holds
  fresh : ∀ o, s.live o = true → s.table.syncId o < s.table.id (s.table.owner o)
  distinct : ∀ o u, s.live o = true → s.live u = true → s.table.owner o = s.table.owner u →
    s.table.syncId o = s.table.syncId u → o = u

omit [DecidableEq σ] in
theorem Initial.inv (h : s.Initial) : s.Inv where
  holds i hi := ⟨[], h.shash i hi, fun o => by simp [h.live]⟩
  fresh o ho := by rw [h.live] at ho; cases ho
  distinct o u ho := by rw [h.live] at ho; cases ho

omit [DecidableEq σ] in
theorem Inv.key_unique {u : σ} (hi : s.Inv) (ho : s.live o = true) (hu : s.live u = true)
    (hk : s.table.Key pid syncId o) (hku : s.table.Key pid syncId u) : u = o :=
  hi.distinct u o hu ho (hku.1.trans hk.1.symm) (hku.2.trans hk.2.symm)

omit [DecidableEq σ] in
/-- The chain of a bucket, with the answer to a search in it. -/
theorem Inv.bucket (hi : s.Inv) (hp : InPage (syncFn pid syncId)) :
    ∃ xs, IsChain s.table.next (s.table.shash (syncFn pid syncId)) xs ∧
      (∀ o ∈ xs, s.live o = true ∧ s.table.index o = syncFn pid syncId) ∧
      (∀ o, s.live o = true → s.table.Key pid syncId o → o ∈ xs) ∧
      ∀ r, s.Answers pid syncId r ↔ r = xs.find? fun o => s.table.Key pid syncId o := by
  obtain ⟨xs, hc, hmem⟩ := hi.holds _ hp
  have hkey : ∀ o, s.live o = true → s.table.Key pid syncId o → o ∈ xs := fun o ho hk => by
    refine (hmem o).mpr ⟨ho, ?_⟩
    rw [SyncTable.index, hk.1, hk.2]
  refine ⟨xs, hc, fun o ho => (hmem o).mp ho, hkey, fun r => ?_⟩
  cases r with
  | none =>
    rw [eq_comm, find?_eq_none]
    simp only [decide_eq_true_eq]
    exact ⟨fun h o ho => h o ((hmem o).mp ho).1, fun h o ho hk => h o (hkey o ho hk) hk⟩
  | some o =>
    constructor
    · rintro ⟨ho, hk⟩
      have hsome : (xs.find? fun u => s.table.Key pid syncId u).isSome :=
        find?_isSome.2 ⟨o, hkey o ho hk, decide_eq_true hk⟩
      obtain ⟨u, hu⟩ := Option.isSome_iff_exists.1 hsome
      have hku : s.table.Key pid syncId u := by simpa using find?_some hu
      rw [hu, hi.key_unique ho ((hmem u).mp (mem_of_find?_eq_some hu)).1 hk hku]
    · intro h
      exact ⟨((hmem o).mp (mem_of_find?_eq_some h.symm)).1, by simpa using find?_some h.symm⟩

theorem Inv.lookup_iff (hi : s.Inv) :
    SyncStepOk (s, .lookup pid syncId, s') ↔ SyncGuard (s, .lookup pid syncId, s') := by
  by_cases hp : InPage (syncFn pid syncId)
  · obtain ⟨xs, hc, -, -, hans⟩ := hi.bucket hp
    constructor
    · rintro ⟨fuel, r, hf, hr⟩
      refine ⟨hp, xs, hc, SyncTable.lookupFits_iff.mpr ?_⟩
      rw [← SyncTable.findSync_some hp hc hf, (hans r).mp hr]
    · rintro ⟨-, ys, hc', hfits⟩
      obtain rfl := hc'.unique hc
      refine ⟨ys.length + 1, _, ?_, (hans _).mpr rfl⟩
      rw [SyncTable.findSync_eq hp hc (Nat.lt_succ_self _), SyncTable.lookupFits_iff.mp hfits]
  · refine iff_of_false ?_ fun h => hp h.1
    rintro ⟨fuel, r, hf, -⟩
    have hfault : s.table.findSync fuel pid syncId = some .fault := if_neg hp
    rw [hfault] at hf
    cases hf

private theorem live_of_update (ho : o ≠ sn) (h : update s.live sn true o = true) : s.live o = true := by
  rwa [update_of_ne ho] at h

/-- A new object is put in front of its chain. -/
theorem Inv.create_holds (hi : s.Inv) (hsn : s.live sn = false) :
    Holds ⟨s.table.created pid sn, update s.live sn true⟩ := by
  intro i hp
  obtain ⟨xs, hc, hmem⟩ := hi.holds i hp
  have hxs : sn ∉ xs := fun hm => by
    rw [hmem, hsn] at hm
    cases hm.1
  refine ⟨_, hc.push_table hxs, fun o => ?_⟩
  by_cases ho : o = sn
  · subst ho
    simp only [update_self, true_and, SyncTable.created_index_self]
    split
    · rename_i hb
      simp [hb]
    · rename_i hb
      simp [hxs, Ne.symm hb]
  · simp only [update_of_ne ho, SyncTable.created_index_of_ne _ _ ho, ← hmem o]
    split
    · simp [ho]
    · rfl

theorem Inv.create_fresh (hi : s.Inv) (ho : update s.live sn true o = true) :
    (s.table.created pid sn).syncId o < (s.table.created pid sn).id ((s.table.created pid sn).owner o) := by
  simp only [SyncTable.created]
  by_cases hsn : o = sn
  · subst hsn
    simp
  · have := hi.fresh o (live_of_update hsn ho)
    simp only [update_of_ne hsn]
    rw [update_apply]
    split
    · rename_i hp
      rw [← hp]
      omega
    · exact this

omit [DecidableEq σ] in
theorem Inv.syncId_ne (hi : s.Inv) (ho : s.live o = true) (hp : s.table.owner o = pid) :
    s.table.syncId o ≠ s.table.id pid := by
  have := hi.fresh o ho
  rw [hp] at this
  omega

theorem Inv.create (hi : s.Inv) (hsn : s.live sn = false) : Inv ⟨s.table.created pid sn, update s.live sn true⟩ := by
  refine ⟨hi.create_holds hsn, fun o ho => hi.create_fresh ho, fun o u ho hu hown hid => ?_⟩
  simp only [SyncTable.created] at hown hid
  by_cases ho' : o = sn <;> by_cases hu' : u = sn
  · rw [ho', hu']
  · subst ho'
    rw [update_self, update_of_ne hu'] at hown hid
    exact absurd hid.symm (hi.syncId_ne (live_of_update hu' hu) hown.symm)
  · subst hu'
    rw [update_self, update_of_ne ho'] at hown hid
    exact absurd hid (hi.syncId_ne (live_of_update ho' ho) hown)
  · rw [update_of_ne ho', update_of_ne hu'] at hown hid
    exact hi.distinct o u (live_of_update ho' ho) (live_of_update hu' hu) hown hid

/-- An object with one before and one behind it is taken out of its chain. -/
theorem Inv.destroy {next' : σ → Option σ} {syncs : Links (Node Int σ)} (hi : s.Inv) (hp : InPage (s.table.index o))
    (hc : IsChain s.table.next (s.table.shash (s.table.index o)) xs)
    (hc' : IsChain next' (s.table.shash (s.table.index o)) (xs.erase o)) (hkeep : ∀ y ∉ xs, next' y = s.table.next y) :
    Inv ⟨{ s.table with syncs := syncs, next := next' }, update s.live o false⟩ := by
  have hold : ∀ u, update s.live o false u = true → u ≠ o ∧ s.live u = true := fun u hu => by
    by_cases ho : u = o
    · subst ho
      rw [update_self] at hu
      cases hu
    · rw [update_of_ne ho] at hu
      exact ⟨ho, hu⟩
  have hnew : ∀ u, u ≠ o → update s.live o false u = s.live u := fun u hu => update_of_ne hu ..
  obtain ⟨ys, hys, hmemo⟩ := hi.holds _ hp
  obtain rfl := hys.unique hc
  refine ⟨fun i hpi => ?_, fun u hu => hi.fresh u (hold u hu).2,
    fun u v hu hv => hi.distinct u v (hold u hu).2 (hold v hv).2⟩
  by_cases hio : i = s.table.index o
  · subst hio
    refine ⟨_, hc', fun u => ?_⟩
    rw [hc.nodup.mem_erase_iff]
    dsimp only
    by_cases hu : u = o
    · simp [hu]
    · rw [hnew u hu, hmemo u]
      simp [hu, SyncTable.index]
  · obtain ⟨zs, hzs, hmem⟩ := hi.holds i hpi
    have hout : ∀ y ∈ zs, y ∉ ys := fun y hy hy' => hio (((hmem y).mp hy).2.symm.trans ((hmemo y).mp hy').2)
    refine ⟨zs, hzs.congr fun y hy => hkeep y (hout y hy), fun u => ?_⟩
    by_cases hu : u = o
    · subst hu
      exact iff_of_false (fun h => hio ((hmem u).mp h).2.symm) fun h => (hold u h.1).1 rfl
    · dsimp only
      rw [hnew u hu]
      exact hmem u

private theorem destroy_cases (hp : InPage (syncFn pid syncId))
    (hc : IsChain s.table.next (s.table.shash (syncFn pid syncId)) xs)
    (h : s.table.syscallSyncDestroy fuel pid syncId = some c) :
    (s.table.findOutcome pid syncId xs = .fault ∧ c = .fault) ∨
      (s.table.findOutcome pid syncId xs = .ok none ∧ c = .ok (s.table, -einval) ∧
        s.liveAfter fuel pid syncId = s.live) ∨
      ∃ o, s.table.findOutcome pid syncId xs = .ok (some o) ∧ s.table.destroyFound fuel pid o = some c ∧
        s.liveAfter fuel pid syncId = update s.live o false := by
  obtain ⟨f, hfind, h⟩ := Option.bind_eq_some_iff.mp h
  rw [← SyncTable.findSync_some hp hc hfind]
  unfold liveAfter
  rw [hfind]
  match f, h with
  | .fault, h => exact .inl ⟨rfl, (Option.some.inj h).symm⟩
  | .ok none, h => exact .inr (.inl ⟨rfl, (Option.some.inj h).symm, rfl⟩)
  | .ok (some o), h => exact .inr (.inr ⟨o, rfl, h, rfl⟩)

end SyncHistory

/-- What the removal of an object comes to: it is taken out of its chain if it is between two others, and otherwise the
call faults or leaves the chain as it is. -/
theorem SyncTable.destroyFound_cases {s : SyncTable σ} {pid : Int} {xs : List σ} {o : σ} {fuel : Nat}
    (hp : InPage (s.index o)) (hc : IsChain s.next (s.shash (s.index o)) xs)
    (ho : o ∈ xs) (hk : ∀ y ∈ xs, s.Key (s.owner o) (s.syncId o) y → y = o) (h : s.destroyFound fuel pid o = some c) :
    ∃ syncs, (Between xs o ∧ ∃ next', c = .ok ({ s with syncs := syncs, next := next' }, 0) ∧
        IsChain next' (s.shash (s.index o)) (xs.erase o) ∧ ∀ y ∉ xs, next' y = s.next y) ∨
      ¬ Between xs o ∧ (c = .fault ∨ c = .ok ({ s with syncs := syncs }, 0)) := by
  obtain ⟨r, hr, rfl⟩ := Option.map_eq_some_iff.mp h
  have hval {n : Nat} {r' : Outcome (SyncTable σ)}
      (h' : shashRemove { s with syncs := listDel s.syncs (.head pid) (.obj o) } n o = some r') : r = r' :=
    eq_of_extends (fun hf => shashRemove_extends hf) hr h'
  have hf := Nat.lt_succ_self xs.length
  refine ⟨listDel s.syncs (.head pid) (.obj o), ?_⟩
  by_cases hb : Between xs o
  · obtain ⟨next', h', hc', hkeep⟩ :=
      shashRemove_between (s := { s with syncs := listDel s.syncs (.head pid) (.obj o) }) hp hc hb hk hf
    obtain rfl := hval h'
    exact .inl ⟨hb, next', rfl, hc', hkeep⟩
  · refine .inr ⟨hb, ?_⟩
    obtain ⟨us, vs, rfl⟩ := append_of_mem ho
    by_cases hus : us = []
    · subst hus
      obtain rfl := hval (shashRemove_first (s := { s with syncs := listDel s.syncs (.head pid) (.obj o) }) hp hc 0)
      exact .inr rfl
    · have hvs : vs = [] := by
        by_contra hvs
        exact hb ⟨us, vs, rfl, hus, hvs⟩
      subst hvs
      have hno : ∀ y ∈ us, ¬ s.Key (s.owner o) (s.syncId o) y := fun y hy hky => by
        have hyo := hk y (mem_append_left _ hy) hky
        exact (nodup_append.mp hc.nodup).2.2 y hy o (mem_singleton_self o) hyo
      obtain rfl := hval (shashRemove_last hp hc hus hno hf)
      exact .inl rfl

namespace SyncHistory

variable {s s' s₀ : SyncHistory σ} {op : SyncOp σ} {pid syncId : Int} {xs : List σ} {o : σ} {fuel : Nat}

theorem Inv.destroyFound_cases (hi : s.Inv) (hp : InPage (s.table.index o))
    (hc : IsChain s.table.next (s.table.shash (s.table.index o)) xs) (hxs : ∀ u ∈ xs, s.live u = true) (ho : o ∈ xs)
    (h : s.table.destroyFound fuel pid o = some c) :
    ∃ syncs, (SyncTable.Between xs o ∧ ∃ next', c = .ok ({ s.table with syncs := syncs, next := next' }, 0) ∧
        Inv ⟨{ s.table with syncs := syncs, next := next' }, update s.live o false⟩) ∨
      ¬ SyncTable.Between xs o ∧ (c = .fault ∨ c = .ok ({ s.table with syncs := syncs }, 0)) := by
  have huniq : ∀ y ∈ xs, s.table.Key (s.table.owner o) (s.table.syncId o) y → y = o := fun y hy hk =>
    hi.key_unique (hxs o ho) (hxs y hy) ⟨rfl, rfl⟩ hk
  obtain ⟨syncs, ⟨hb, next', he, hc', hkeep⟩ | hnb⟩ := SyncTable.destroyFound_cases hp hc ho huniq h
  · exact ⟨syncs, .inl ⟨hb, next', he, hi.destroy hp hc hc' hkeep⟩⟩
  · exact ⟨syncs, .inr hnb⟩

/-- A destruction that meets the condition is right and keeps the invariant. -/
theorem Inv.destroy_of_guard (hi : s.Inv) (hg : SyncGuard (s, .destroy pid syncId, s'))
    (h : SyncStep s (.destroy pid syncId) s') : s'.Inv ∧ SyncStepOk (s, .destroy pid syncId, s') := by
  obtain ⟨fuel, c, hcall, hs'⟩ := h
  obtain ⟨hp, ys, hys, hfits, hbetween⟩ := hg
  obtain ⟨xs, hc, hxs, hkey, hans⟩ := hi.bucket hp
  obtain rfl := hys.unique hc
  rw [SyncTable.lookupFits_iff] at hfits
  obtain ⟨hf, -⟩ | ⟨hf, rfl, hlive⟩ | ⟨o, hf, hfound, hlive⟩ := destroy_cases hp hc hcall
  · rw [hfits] at hf
    cases hf
  · obtain rfl := hs' _ rfl
    have hno : s.Answers pid syncId none := (hans none).mpr (Outcome.ok.inj (hf.symm.trans hfits))
    rw [hlive]
    refine ⟨hi, fuel, _, hcall, ?_, fun u => ?_, hi.holds⟩
    · refine iff_of_false (show ¬ -einval = 0 by decide) ?_
      rintro ⟨u, hu, hk⟩
      exact hno u hu hk
    · exact ⟨fun hu => ⟨hu, hno u hu⟩, And.left⟩
  · obtain ⟨ho, hk⟩ := (hans (some o)).mpr (Outcome.ok.inj (hf.symm.trans hfits))
    have hmem := hkey o ho hk
    have hidx := (hxs o hmem).2
    obtain ⟨syncs, ⟨-, next', rfl, hinv⟩ | ⟨hnb, -⟩⟩ :=
      hi.destroyFound_cases (hidx ▸ hp) (hidx ▸ hc) (fun u hu => (hxs u hu).1) hmem hfound
    · obtain rfl := hs' _ rfl
      rw [hlive]
      refine ⟨hinv, fuel, _, hcall, iff_of_true rfl ⟨o, ho, hk⟩, fun u => ?_, hinv.holds⟩
      dsimp only
      by_cases hu : u = o
      · subst hu
        simp [hk]
      · rw [update_of_ne hu]
        exact ⟨fun hl => ⟨hl, fun hku => hu (hi.key_unique ho hl hk hku)⟩, And.left⟩
    · exact absurd (hbetween o hmem hk) hnb

theorem Inv.between_of_destroyed {r : SyncTable σ × Int} (hi : s.Inv) (hp : InPage (s.table.index o))
    (hc : IsChain s.table.next (s.table.shash (s.table.index o)) xs) (hxs : ∀ u ∈ xs, s.live u = true) (ho : o ∈ xs)
    (h : s.table.destroyFound fuel pid o = some (.ok r)) (hholds : Holds ⟨r.1, update s.live o false⟩) :
    SyncTable.Between xs o := by
  obtain ⟨syncs, ⟨hb, -⟩ | ⟨-, he | he⟩⟩ := hi.destroyFound_cases hp hc hxs ho h
  · exact hb
  · cases he
  · -- the object is still in its chain
    obtain rfl := Outcome.ok.inj he
    obtain ⟨zs, hzs, hm⟩ := hholds _ hp
    obtain rfl := hzs.unique hc
    have hlive : update s.live o false o = true := ((hm o).mp ho).1
    rw [update_self] at hlive
    cases hlive

theorem Inv.guard_of_destroy (hi : s.Inv) (h : SyncStep s (.destroy pid syncId) s')
    (hok : SyncStepOk (s, .destroy pid syncId, s')) : SyncGuard (s, .destroy pid syncId, s') := by
  obtain ⟨f₀, c, hcall, hs'⟩ := h
  obtain ⟨fuel, r, hr, hret, hlive', hholds⟩ := hok
  -- the two calls have the same result
  obtain rfl := eq_of_extends (fun hf => SyncTable.syscallSyncDestroy_extends hf) hr hcall
  obtain rfl := hs' r rfl
  have hp : InPage (syncFn pid syncId) := by
    by_contra hp
    have hfault : s.table.findSync fuel pid syncId = some .fault := if_neg hp
    rw [SyncTable.syscallSyncDestroy, hfault] at hr
    cases hr
  obtain ⟨xs, hc, hxs, hkey, hans⟩ := hi.bucket hp
  refine ⟨hp, xs, hc, ?_⟩
  rw [SyncTable.lookupFits_iff]
  obtain ⟨-, he⟩ | ⟨hf, he, -⟩ | ⟨o, hf, hfound, hlive⟩ := destroy_cases hp hc hcall
  · cases he
  · obtain rfl := Outcome.ok.inj he
    have hno : ∀ u, s.live u = true → ¬ s.table.Key pid syncId u := fun u hu hk =>
      absurd (hret.mpr ⟨u, hu, hk⟩) (show ¬ -einval = 0 by decide)
    refine ⟨?_, fun u hu hk => absurd hk (hno u (hxs u hu).1)⟩
    rw [hf, ← (hans none).mp hno]
  · have hmem := SyncTable.mem_of_findOutcome hf
    obtain ⟨ho, hidx⟩ := hxs o hmem
    rw [hlive] at hlive' hholds
    have hk : s.table.Key pid syncId o := by
      by_contra hk
      have := (hlive' o).mpr ⟨ho, hk⟩
      simp at this
    refine ⟨?_, fun u hu hku => ?_⟩
    · rw [hf, ← (hans (some o)).mp ⟨ho, hk⟩]
    · obtain rfl : u = o := hi.key_unique ho (hxs u hu).1 hk hku
      exact hi.between_of_destroyed (hidx ▸ hp) (hidx ▸ hc) (fun v hv => (hxs v hv).1) hmem hfound hholds

theorem Inv.step (hi : s.Inv) (hg : SyncGuard (s, op, s')) (h : SyncStep s op s') : s'.Inv := by
  match op, hg, h with
  | .create pid none, _, h =>
    obtain rfl := h _ rfl
    exact hi
  | .create pid (some sn), hg, ⟨hsn, h⟩ =>
    obtain rfl := h _ ((s.table.syscallSyncCreate_some pid sn).trans (if_pos hg))
    exact hi.create hsn
  | .destroy pid syncId, hg, h => exact (hi.destroy_of_guard hg h).1
  | .lookup pid syncId, _, h =>
    obtain rfl : s' = s := h
    exact hi

theorem Inv.stepOk_iff (hi : s.Inv) (h : SyncStep s op s') : SyncStepOk (s, op, s') ↔ SyncGuard (s, op, s') := by
  match op, h with
  | .create pid none, h =>
    obtain rfl := h _ rfl
    exact iff_of_true ⟨⟨_, rfl⟩, hi.holds⟩ trivial
  | .create pid (some sn), ⟨hsn, h⟩ =>
    have hcall := s.table.syscallSyncCreate_some pid sn
    constructor
    · rintro ⟨⟨r, hr⟩, -⟩
      show InPage (syncFn pid (s.table.id pid))
      by_contra hp
      rw [hcall, if_neg hp] at hr
      cases hr
    · intro hp
      have hp' := hcall.trans (if_pos hp)
      obtain rfl := h _ hp'
      exact ⟨⟨_, hp'⟩, (hi.create hsn).holds⟩
  | .destroy pid syncId, h => exact ⟨hi.guard_of_destroy h, fun hg => (hi.destroy_of_guard hg h).2⟩
  | .lookup pid syncId, _ => exact hi.lookup_iff

end SyncHistory

/-- From the empty table on, and for any sequence of calls by any processes, all calls are right exactly if all of them
meet the condition. -/
theorem sync_table_history {s₀ s : SyncHistory σ} {tr : List (SyncHistory σ × SyncOp σ × SyncHistory σ)}
    (h₀ : s₀.Initial) (hr : Run SyncStep s₀ tr s) : (∀ x ∈ tr, SyncStepOk x) ↔ ∀ x ∈ tr, SyncGuard x :=
  hr.forall_iff SyncHistory.Inv SyncGuard SyncStepOk h₀.inv (fun _ _ _ hi hg h => hi.step hg h)
    fun _ _ _ hi h => hi.stepOk_iff h

/-- No object is in use; the next object of a process `pid` has the number `id pid`. -/
def noSyncs (id : Int → Int) : SyncHistory (Option Bool) :=
  ⟨⟨fun _ => 0, fun _ => 0, fun _ => none, fun _ => none, ⟨fun x => x, fun x => x⟩, id⟩, fun _ => false⟩

private theorem noSyncs_initial (id : Int → Int) : (noSyncs id).Initial := ⟨fun _ _ => rfl, fun _ => rfl⟩

/-- `syscall_sync_create` of the process `pid`, which makes an object of `sn`. -/
def SyncHistory.withObject (s : SyncHistory σ) (pid : Int) (sn : σ) : SyncHistory σ :=
  ⟨s.table.created pid sn, update s.live sn true⟩

theorem SyncHistory.withObject_step {s : SyncHistory σ} {pid : Int} {sn : σ} (hsn : s.live sn = false)
    (hp : InPage (syncFn pid (s.table.id pid))) : SyncStep s (.create pid (some sn)) (s.withObject pid sn) := by
  refine ⟨hsn, fun r hr => ?_⟩
  rw [SyncTable.syscallSyncCreate_some, if_pos hp] at hr
  obtain rfl := Outcome.ok.inj hr
  rfl

theorem SyncHistory.exists_destroy_step {s : SyncHistory σ} {pid syncId : Int} {fuel : Nat}
    (h : (s.table.syscallSyncDestroy fuel pid syncId).isSome) : ∃ s', SyncStep s (.destroy pid syncId) s' := by
  obtain ⟨c, hc⟩ := Option.isSome_iff_exists.mp h
  cases c with
  | fault => exact ⟨s, fuel, _, hc, fun r hr => by cases hr⟩
  | ok r => exact ⟨⟨r.1, s.liveAfter fuel pid syncId⟩, fuel, _, hc, fun r' hr => by rw [Outcome.ok.inj hr]⟩

/-- The processes 2, 3 and 4 create the objects 6, 4 and 3, which are all in the bucket 12. -/
def oneSync : SyncHistory (Option Bool) := (noSyncs fun pid => 12 / pid).withObject 2 none

def twoSyncs : SyncHistory (Option Bool) := oneSync.withObject 3 (some false)

def threeSyncs : SyncHistory (Option Bool) := twoSyncs.withObject 4 (some true)

/-- The object between the two others is found and destroyed. -/
theorem sync_table_history_three :
    ∃ (tr : List (SyncHistory (Option Bool) × SyncOp (Option Bool) × SyncHistory (Option Bool)))
      (s : SyncHistory (Option Bool)), Run SyncStep (noSyncs fun pid => 12 / pid) tr s ∧
      tr.map (·.2.1) = [.create 2 (some none), .create 3 (some (some false)), .create 4 (some (some true)),
        .lookup 3 4, .destroy 3 4] ∧ ∀ x ∈ tr, SyncStepOk x := by
  have s1 : SyncStep (noSyncs fun pid => 12 / pid) (.create 2 (some none)) oneSync :=
    SyncHistory.withObject_step rfl (by decide)
  have s2 : SyncStep oneSync (.create 3 (some (some false))) twoSyncs := SyncHistory.withObject_step rfl (by decide)
  have s3 : SyncStep twoSyncs (.create 4 (some (some true))) threeSyncs := SyncHistory.withObject_step rfl (by decide)
  have s4 : SyncStep threeSyncs (.lookup 3 4) threeSyncs := rfl
  have hfour : (threeSyncs.table.syscallSyncDestroy 4 3 4).isSome := by decide
  obtain ⟨s, s5⟩ : ∃ s, SyncStep threeSyncs (.destroy 3 4) s := SyncHistory.exists_destroy_step hfour
  have hr := ((((Run.nil.snoc s1).snoc s2).snoc s3).snoc s4).snoc s5
  refine ⟨_, _, hr, rfl, (sync_table_history (noSyncs_initial _) hr).mpr ?_⟩
  have hchain : IsChain threeSyncs.table.next (threeSyncs.table.shash 12) [some true, some false, none] :=
    ⟨rfl, rfl, rfl, rfl⟩
  have hfits : threeSyncs.table.LookupFits 3 4 [some true, some false, none] :=
    ⟨_, _, rfl, .inr ⟨by simp, by decide⟩⟩
  simp only [nil_append, cons_append, forall_mem_cons]
  have hthree : ∀ o ∈ [some true, some false, none], threeSyncs.table.Key 3 4 o → o = some false := by decide
  refine ⟨(by decide : InPage 12), (by decide : InPage 12), (by decide : InPage 12), ⟨by decide, _, hchain, hfits⟩,
    ⟨by decide, _, hchain, hfits, fun o ho hk => ?_⟩, by simp⟩
  rw [hthree o ho hk]
  exact ⟨[some true], [none], rfl, by simp, by simp⟩

/-- The processes 500, 501 and 502 create their objects 0, which are all in the bucket 0. -/
def sharedBucket : SyncHistory (Option Bool) :=
  (((noSyncs fun _ => 0).withObject 500 none).withObject 501 (some false)).withObject 502 (some true)

/-- The process 500 gets the object of the process 501.  In an empty bucket `find_sync` faults, as it does for the
object 3 of the process 500. -/
theorem find_sync_foreign_object : (∃ tr, Run SyncStep (noSyncs fun _ => 0) tr sharedBucket) ∧
    sharedBucket.live none = true ∧ sharedBucket.table.Key 500 0 none ∧
    sharedBucket.table.findSync 4 500 0 = some (.ok (some (some false))) ∧
    ¬ SyncStepOk (sharedBucket, .lookup 500 0, sharedBucket) ∧ (noSyncs fun _ => 0).table.findSync 4 1 1 = some .fault ∧
    sharedBucket.table.findSync 4 500 3 = some .fault := by
  have s1 : SyncStep (noSyncs fun _ => 0) (.create 500 (some none)) ((noSyncs fun _ => 0).withObject 500 none) :=
    SyncHistory.withObject_step rfl (by decide)
  have s2 : SyncStep ((noSyncs fun _ => 0).withObject 500 none) (.create 501 (some (some false)))
      (((noSyncs fun _ => 0).withObject 500 none).withObject 501 (some false)) :=
    SyncHistory.withObject_step rfl (by decide)
  have s3 : SyncStep (((noSyncs fun _ => 0).withObject 500 none).withObject 501 (some false))
      (.create 502 (some (some true))) sharedBucket := SyncHistory.withObject_step rfl (by decide)
  refine ⟨⟨_, ((Run.nil.snoc s1).snoc s2).snoc s3⟩, rfl, ⟨rfl, rfl⟩, by decide, ?_, by decide, by decide⟩
  rintro ⟨fuel, r, hf, hr⟩
  have hchain : IsChain sharedBucket.table.next (sharedBucket.table.shash 0) [some true, some false, none] :=
    ⟨rfl, rfl, rfl, rfl⟩
  have hp : InPage (syncFn 500 0) := by decide
  obtain rfl : r = some (some false) := Outcome.ok.inj ((SyncTable.findSync_some hp hchain hf).trans (by decide))
  exact absurd hr.2.1 (by decide)

end Manrix
