import Manrix.Kernel.Thread
import Manrix.Lib.Chain
import Manrix.Lib.Runs

/-!
# The thread table (`thash_insert`, `thash_remove`, `find_by_tid`)

The chains of the table run through the field `next` of the threads.  `find_by_tid` reads the `tid` of a thread before
it compares the pointer with `NULL`, so a `tid` that is not in the table leads it to a null pointer. `thash_remove`
walks on behind the place where it has taken the thread out.

`findByTid_kernel` connects the table with the lists that stand for its chains in the rest of the kernel.
-/

namespace Manrix

open Chain Fuel Function List Runs

variable {τ : Type*}

structure ThreadTable (τ : Type*) where
  tid : τ → Int
  next : τ → Option τ
  thash : Nat → Option τ

/-- What `find_by_tid` comes to: a read through a null pointer, or a result. -/
inductive TidLookup (τ : Type*) where
  | nullRead
  | result (t : τ)
  deriving DecidableEq

/-- The loop of `find_by_tid`; the comparison with `NULL` in its body is never met by a null pointer. -/
def ThreadTable.findTid (s : ThreadTable τ) (tid : Int) : Nat → Option τ → Option (TidLookup τ)
  | 0, _ => none
  | _ + 1, none => some .nullRead
  | fuel + 1, some link => if s.tid link = tid then some (.result link) else s.findTid tid fuel (s.next link)

def ThreadTable.findByTid (s : ThreadTable τ) (fuel : Nat) (tid : Int) : Option (TidLookup τ) :=
  match s.thash (hashFn tid) with
  | none => some .nullRead
  | some thr => if s.tid thr = tid then some (.result thr) else s.findTid tid fuel (some thr)

variable [DecidableEq τ]

def ThreadTable.thashInsert (s : ThreadTable τ) (thread : τ) : ThreadTable τ :=
  { s with
    next := update s.next thread (s.thash (hashFn (s.tid thread)))
    thash := update s.thash (hashFn (s.tid thread)) (some thread) }

/-- The loop of `thash_remove`. -/
def thashUnlink (thread : τ) : Nat → Option τ → (τ → Option τ) → Option (τ → Option τ)
  | 0, _, _ => none
  | _ + 1, none, next => some next
  | fuel + 1, some link, next =>
    let next := if next link = some thread then update next link (next thread) else next
    thashUnlink thread fuel (next link) next

def ThreadTable.thashRemove (s : ThreadTable τ) (fuel : Nat) (thread : τ) : Option (ThreadTable τ) :=
  let t := hashFn (s.tid thread)
  if s.thash t = some thread then some { s with thash := update s.thash t (s.next thread) }
  else (thashUnlink thread fuel (s.thash t) s.next).map fun next => { s with next := next }

section Chains

variable {s s' : ThreadTable τ} {next : τ → Option τ} {top : Option τ} {xs : List τ} {t : τ} {tid : Int} {fuel : Nat}
  {L : Nat → List τ}

/-- The result for a thread that has been found, or not. -/
def TidLookup.ofOption : Option τ → TidLookup τ
  | none => .nullRead
  | some t => .result t

omit [DecidableEq τ] in
theorem ThreadTable.findTid_chainFind (s : ThreadTable τ) (tid : Int) (fuel : Nat) (top : Option τ) :
    s.findTid tid fuel top = (chainFind s.next (fun t => s.tid t = tid) fuel top).map .ofOption := by
  induction fuel generalizing top with
  | zero => rfl
  | succ fuel ih =>
    cases top with
    | none => rfl
    | some x =>
      rw [findTid, chainFind]
      by_cases hx : s.tid x = tid
      · rw [if_pos hx, if_pos (decide_eq_true hx)]
        rfl
      · rw [if_neg hx, if_neg (by simpa using hx), ih]

omit [DecidableEq τ] in
theorem ThreadTable.findTid_eq (hc : IsChain s.next top xs) (hf : xs.length < fuel) :
    s.findTid tid fuel top = some (.ofOption (xs.find? fun t => s.tid t = tid)) := by
  rw [findTid_chainFind, chainFind_eq hc _ hf]
  rfl

omit [DecidableEq τ] in
theorem ThreadTable.findByTid_eq (hc : IsChain s.next (s.thash (hashFn tid)) xs) (hf : xs.length < fuel) :
    s.findByTid fuel tid = some (.ofOption (xs.find? fun t => s.tid t = tid)) := by
  unfold findByTid
  cases xs with
  | nil =>
    rw [show s.thash (hashFn tid) = none from hc]
    rfl
  | cons x xs =>
    rw [hc.1]
    dsimp only
    split
    · rename_i hx
      rw [find?_cons]
      simp [hx, TidLookup.ofOption]
    · exact findTid_eq ⟨rfl, hc.2⟩ hf

omit [DecidableEq τ] in
theorem findByTid_kernel {k : Kernel τ} (hk : ∀ b, IsChain s.next (s.thash b) (k.thash b))
    (ht : ∀ t, (k.thread t).tid = s.tid t) (hf : (k.thash (hashFn tid)).length < fuel) :
    s.findByTid fuel tid = some (.ofOption (findByTid k tid)) := by
  rw [ThreadTable.findByTid_eq (hk _) hf, Manrix.findByTid]
  simp only [ht]

private theorem thashUnlink_of_not_mem (hc : IsChain next top xs) (ht : t ∉ xs) (hf : xs.length < fuel) :
    thashUnlink t fuel top next = some next := by
  induction xs generalizing top fuel with
  | nil =>
    rcases fuel with _ | fuel
    · omega
    rw [show top = none from hc]
    rfl
  | cons a xs ih =>
    rcases fuel with _ | fuel
    · omega
    have htx : t ∉ xs := fun h => ht (mem_cons_of_mem _ h)
    have hn : next a ≠ some t := by
      intro hn
      have hxs := hc.2
      rw [hn] at hxs
      exact htx (hxs.head_eq ▸ mem_cons_self ..)
    rw [hc.1]
    unfold thashUnlink
    simp only [if_neg hn]
    exact ih hc.2 htx (by rw [length_cons] at hf; omega)

/-- The loop takes the thread out of the chain, wherever it is, and leaves other chains alone. -/
private theorem thashUnlink_spec (hc : IsChain next top xs) (htop : top ≠ some t) (hf : xs.length < fuel) :
    ∃ next', thashUnlink t fuel top next = some next' ∧ IsChain next' top (xs.erase t) ∧
      ∀ y ∉ xs, next' y = next y := by
  induction xs generalizing top fuel with
  | nil => exact ⟨next, thashUnlink_of_not_mem hc (by simp) hf, hc, fun _ _ => rfl⟩
  | cons a xs ih =>
    rcases fuel with _ | fuel
    · omega
    obtain ⟨ha, hnd⟩ := nodup_cons.1 hc.nodup
    rw [hc.1] at htop ⊢
    have hat : a ≠ t := fun h => htop (congrArg some h)
    have hf : xs.length < fuel := by rw [length_cons] at hf; omega
    rw [erase_cons_tail (by simpa using hat)]
    unfold thashUnlink
    by_cases hn : next a = some t
    · -- the thread is the next one, and the walk goes on behind it
      have hxs : IsChain next (some t) xs := hn ▸ hc.2
      obtain ⟨ys, rfl⟩ : ∃ ys, xs = t :: ys := ⟨_, hxs.head_eq⟩
      obtain ⟨hty, -⟩ := nodup_cons.1 hnd
      have hay : a ∉ ys := fun h => ha (mem_cons_of_mem _ h)
      have hys : IsChain (update next a (next t)) (next t) ys :=
        hxs.2.congr fun y hy => update_of_ne (ne_of_mem_of_not_mem hy hay) ..
      rw [erase_cons_head]
      refine ⟨update next a (next t), ?_, ⟨rfl, ?_⟩, fun y hy => ?_⟩
      · simp only [if_pos hn, update_self]
        exact thashUnlink_of_not_mem hys hty (by rw [length_cons] at hf; omega)
      · rwa [update_self]
      · exact update_of_ne (ne_of_not_mem_cons hy) ..
    · obtain ⟨next', h', hc', hkeep⟩ := ih hc.2 hn hf
      refine ⟨next', ?_, ⟨rfl, ?_⟩, fun y hy => hkeep y fun h => hy (mem_cons_of_mem _ h)⟩
      · simp only [if_neg hn]
        exact h'
      · rw [hkeep a ha]
        exact hc'

private theorem thashUnlink_extends {fuel' : Nat} (hf : fuel ≤ fuel') (top : Option τ) (next : τ → Option τ) :
    Extends (thashUnlink t fuel top next) (thashUnlink t fuel' top next) := by
  refine le_rounds (R := fun n m => ∀ top next, Extends (thashUnlink t n top next) (thashUnlink t m top next)) ?_ ?_
    hf top next
  · exact fun m top next => extends_none _
  · intro n m ih top next
    cases top with
    | none => exact .refl _
    | some link => exact ih _ _

theorem ThreadTable.thashRemove_extends {fuel' : Nat} (hf : fuel ≤ fuel') :
    Extends (s.thashRemove fuel t) (s.thashRemove fuel' t) :=
  .ite (.refl _) ((thashUnlink_extends hf _ _).map _)

end Chains

/-- The table, and the threads that have been inserted and not removed. -/
structure ThreadHistory (τ : Type*) where
  table : ThreadTable τ
  inTable : τ → Bool

/-- `thash_insert`, `thash_remove`, and a new record for a thread that is not in the table. -/
inductive ThashOp (τ : Type*) where
  | insert (t : τ)
  | remove (t : τ)
  | create (t : τ) (tid : Int) (next : Option τ)

def ThashStep (s : ThreadHistory τ) (op : ThashOp τ) (s' : ThreadHistory τ) : Prop :=
  match op with
  | .insert t => s.inTable t = false ∧ (∀ u, s.inTable u = true → s.table.tid u ≠ s.table.tid t) ∧
      s' = ⟨s.table.thashInsert t, update s.inTable t true⟩
  | .remove t => s.inTable t = true ∧ ∃ fuel table, s.table.thashRemove fuel t = some table ∧
      s' = ⟨table, update s.inTable t false⟩
  | .create t tid next => s.inTable t = false ∧
      s' = ⟨⟨update s.table.tid t tid, update s.table.next t next, s.table.thash⟩, s.inTable⟩

/-- All chains are empty. -/
structure ThreadHistory.Initial (s : ThreadHistory τ) : Prop where
  thash : ∀ b, s.table.thash b = none
  inTable : ∀ t, s.inTable t = false

/-- The chains `L` have the threads in the table, each in its bucket. -/
structure ThreadHistory.Inv (s : ThreadHistory τ) (L : Nat → List τ) : Prop where
  chain : ∀ b, IsChain s.table.next (s.table.thash b) (L b)
  mem : ∀ b t, t ∈ L b ↔ s.inTable t = true ∧ hashFn (s.table.tid t) = b
  distinct : ∀ t u, s.inTable t = true → s.inTable u = true → s.table.tid t = s.table.tid u → t = u

section Histories

variable {s s' s₀ : ThreadHistory τ} {op : ThashOp τ} {L : Nat → List τ} {t : τ} {fuel : Nat} {table : ThreadTable τ}

omit [DecidableEq τ] in
theorem ThreadHistory.Initial.inv (h : s.Initial) : s.Inv fun _ => [] where
  chain b := h.thash b
  mem b t := by simp [h.inTable]
  distinct t u ht := by rw [h.inTable] at ht; cases ht

theorem ThreadHistory.Inv.insert (hi : s.Inv L) (ht : s.inTable t = false)
    (hd : ∀ u, s.inTable u = true → s.table.tid u ≠ s.table.tid t) :
    ThreadHistory.Inv ⟨s.table.thashInsert t, update s.inTable t true⟩
      (update L (hashFn (s.table.tid t)) (t :: L (hashFn (s.table.tid t)))) := by
  have hoff : ∀ b, t ∉ L b := by
    intro b hm
    rw [hi.mem, ht] at hm
    cases hm.1
  refine ⟨isChain_push hi.chain hoff _, fun b u => ?_, distinct_update hi.distinct (fun _ _ => rfl) hd⟩
  rw [mem_push, hi.mem]
  dsimp only [ThreadTable.thashInsert]
  by_cases hut : u = t
  · subst hut
    simp [ht, eq_comm]
  · simp [hut]

/-- The thread is out of its chain, and the other chains are as before. -/
theorem ThreadHistory.Inv.erased {next : τ → Option τ} {thash : Nat → Option τ} (hi : s.Inv L)
    (hb : IsChain next (thash (hashFn (s.table.tid t))) ((L (hashFn (s.table.tid t))).erase t))
    (hother : ∀ b, b ≠ hashFn (s.table.tid t) → IsChain next (thash b) (L b)) :
    ThreadHistory.Inv ⟨⟨s.table.tid, next, thash⟩, update s.inTable t false⟩
      (update L (hashFn (s.table.tid t)) ((L (hashFn (s.table.tid t))).erase t)) := by
  refine ⟨fun b => ?_, fun b u => ?_, fun u v hu hv he => ?_⟩
  · by_cases h : b = hashFn (s.table.tid t)
    · rw [h, update_self]
      exact hb
    · rw [update_of_ne h]
      exact hother b h
  · dsimp only
    by_cases h : b = hashFn (s.table.tid t)
    · rw [h, update_self, (hi.chain _).nodup.mem_erase_iff, hi.mem]
      by_cases hut : u = t <;> simp [hut]
    · rw [update_of_ne h, hi.mem]
      by_cases hut : u = t
      · simp [hut, Ne.symm h]
      · simp [hut]
  · dsimp only at hu hv he
    have hold : ∀ u, update s.inTable t false u = true → s.inTable u = true := by
      intro u hu
      rw [update_apply] at hu
      split at hu
      · cases hu
      · exact hu
    exact hi.distinct u v (hold u hu) (hold v hv) he

theorem ThreadHistory.Inv.remove (hi : s.Inv L) (hf : (L (hashFn (s.table.tid t))).length < fuel) :
    ∃ table, s.table.thashRemove fuel t = some table ∧ ThreadHistory.Inv ⟨table, update s.inTable t false⟩
      (update L (hashFn (s.table.tid t)) ((L (hashFn (s.table.tid t))).erase t)) := by
  have hc := hi.chain (hashFn (s.table.tid t))
  unfold ThreadTable.thashRemove
  dsimp only
  split
  · rename_i htop
    rw [htop] at hc
    refine ⟨_, rfl, hi.erased ?_ fun b hb => ?_⟩
    · rw [update_self, hc.head_eq, erase_cons_head]
      exact hc.tail
    · rw [update_of_ne hb]
      exact hi.chain b
  · rename_i htop
    obtain ⟨next, hn, hc', hkeep⟩ := thashUnlink_spec hc htop hf
    refine ⟨_, by rw [hn]; rfl, hi.erased hc' fun b hb => (hi.chain b).congr fun y hy => hkeep y fun hy' => hb ?_⟩
    rw [← ((hi.mem _ _).1 hy).2, ((hi.mem _ _).1 hy').2]

theorem ThreadHistory.Inv.create {tid : Int} {next : Option τ} (hi : s.Inv L) (ht : s.inTable t = false) :
    ThreadHistory.Inv ⟨⟨update s.table.tid t tid, update s.table.next t next, s.table.thash⟩, s.inTable⟩ L := by
  have hne : ∀ u, s.inTable u = true → u ≠ t := by
    rintro u hu rfl
    rw [ht] at hu
    cases hu
  refine ⟨fun b => (hi.chain b).congr fun y hy => ?_, fun b u => ?_, fun u v hu hv he => ?_⟩
  · exact update_of_ne (hne y ((hi.mem b y).1 hy).1) ..
  · rw [hi.mem]
    refine and_congr_right fun hu => ?_
    dsimp only
    rw [update_of_ne (hne u hu)]
  · dsimp only at he
    rw [update_of_ne (hne u hu), update_of_ne (hne v hv)] at he
    exact hi.distinct u v hu hv he

theorem ThreadHistory.Inv.step (hi : s.Inv L) (h : ThashStep s op s') : ∃ L', s'.Inv L' := by
  cases op with
  | insert t =>
    obtain ⟨ht, hd, rfl⟩ := h
    exact ⟨_, hi.insert ht hd⟩
  | remove t =>
    obtain ⟨-, fuel, table, hr, rfl⟩ := h
    obtain ⟨table', hr', hi'⟩ := hi.remove (t := t) (Nat.lt_succ_self _)
    obtain rfl := eq_of_extends (fun hf => ThreadTable.thashRemove_extends hf) hr hr'
    exact ⟨_, hi'⟩
  | create t tid next =>
    obtain ⟨ht, rfl⟩ := h
    exact ⟨L, hi.create ht⟩

omit [DecidableEq τ] in
theorem ThreadHistory.Inv.find (hi : s.Inv L) (ht : s.inTable t = true) :
    (L (hashFn (s.table.tid t))).find? (fun u => s.table.tid u = s.table.tid t) = some t := by
  have hm : t ∈ L (hashFn (s.table.tid t)) := (hi.mem _ _).2 ⟨ht, rfl⟩
  have hsome : ((L (hashFn (s.table.tid t))).find? fun u => s.table.tid u = s.table.tid t).isSome :=
    find?_isSome.2 ⟨t, hm, decide_eq_true rfl⟩
  obtain ⟨u, hu⟩ := Option.isSome_iff_exists.1 hsome
  have huin := ((hi.mem _ _).1 (mem_of_find?_eq_some hu)).1
  have htid : s.table.tid u = s.table.tid t := by simpa using find?_some hu
  rw [hu, hi.distinct u t huin ht htid]

/-- In every state that a history leads to, every thread in the table is found, every chain ends, the chains have no
other threads, and every thread in the table can be removed. -/
theorem thread_table {tr : List (ThreadHistory τ × ThashOp τ × ThreadHistory τ)} (h₀ : s₀.Initial)
    (hr : Run ThashStep s₀ tr s) : (∀ t, s.inTable t = true →
      ∃ n, ∀ fuel, n < fuel → s.table.findByTid fuel (s.table.tid t) = some (.result t)) ∧
    (∀ b, ∃ xs, IsChain s.table.next (s.table.thash b) xs) ∧
    (∀ t, s.inTable t = false → ∀ b xs, IsChain s.table.next (s.table.thash b) xs → t ∉ xs) ∧
    ∀ t, s.inTable t = true → ∃ n, ∀ fuel, n < fuel → (s.table.thashRemove fuel t).isSome := by
  obtain ⟨L, hi⟩ : ∃ L, s.Inv L :=
    hr.inv (fun s => ∃ L, s.Inv L) ⟨_, h₀.inv⟩ fun s op s' ⟨L, hi⟩ h => hi.step h
  refine ⟨fun t ht => ⟨(L (hashFn (s.table.tid t))).length, fun fuel hf => ?_⟩, fun b => ⟨L b, hi.chain b⟩,
    fun t ht b xs hc hm => ?_, fun t _ => ⟨(L (hashFn (s.table.tid t))).length, fun fuel hf => ?_⟩⟩
  · rw [ThreadTable.findByTid_eq (hi.chain _) hf, hi.find ht]
    rfl
  · rw [hc.unique (hi.chain b), hi.mem, ht] at hm
    cases hm.1
  · obtain ⟨table, h, -⟩ := hi.remove hf
    rw [h]
    rfl

end Histories

/-- Two threads of one bucket, not yet in the table. -/
def twoTids : ThreadHistory Bool :=
  ⟨⟨fun t => if t then 1029 else 1, fun _ => none, fun _ => none⟩, fun _ => false⟩

/-- The two threads are inserted. -/
def twoTidsIn : ThreadHistory Bool :=
  ⟨(twoTids.table.thashInsert false).thashInsert true, update (update twoTids.inTable false true) true true⟩

/-- The thread at the end of the chain is removed, and the other one is found. -/
theorem thread_table_two : hashFn 1 = hashFn 1029 ∧
    ∃ (tr : List (ThreadHistory Bool × ThashOp Bool × ThreadHistory Bool)) (s : ThreadHistory Bool),
      Run ThashStep twoTids tr s ∧ tr.map (·.2.1) = [.insert false, .insert true, .remove false] ∧
      (∃ n, ∀ fuel, n < fuel → s.table.findByTid fuel 1029 = some (.result true)) ∧
      ∀ b xs, IsChain s.table.next (s.table.thash b) xs → false ∉ xs := by
  have s1 : ThashStep twoTids (.insert false) ⟨twoTids.table.thashInsert false, update twoTids.inTable false true⟩ :=
    ⟨rfl, by decide, rfl⟩
  have s2 : ThashStep ⟨twoTids.table.thashInsert false, update twoTids.inTable false true⟩ (.insert true)
      twoTidsIn := ⟨rfl, by decide, rfl⟩
  have s3 : ThashStep twoTidsIn (.remove false)
      ⟨(twoTidsIn.table.thashRemove 3 false).get rfl, update twoTidsIn.inTable false false⟩ :=
    ⟨rfl, 3, _, rfl, rfl⟩
  have hr := ((Run.nil.snoc s1).snoc s2).snoc s3
  obtain ⟨hfind, -, hout, -⟩ := thread_table ⟨fun _ => rfl, fun _ => rfl⟩ hr
  exact ⟨by decide, _, _, hr, rfl, hfind true rfl, hout false rfl⟩

end Manrix
