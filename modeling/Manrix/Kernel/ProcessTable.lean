import Manrix.Kernel.Credentials
import Manrix.Kernel.ExitWait
import Manrix.Lib.Chain

/-!
# The process table (`phash_insert`, `phash_remove`, `find_by_pid`, `change_pid`)

`phash_remove` changes nothing when the process is the first of its bucket, and follows the chain through the null
pointer at its end when it is not.  `change_pid` does not take the process out of the bucket of its old `pid`: the
process is put in front of the bucket of the new one, and so the old chain goes on into the new one.  Then the processes
behind it on the old chain are lost, and if it was on the new chain already, the chain becomes a circle. `find_by_pid`
for a `pid` that is not there ends well only if the bucket has a second process.
-/

namespace Manrix

open Chain Function List Runs

variable {ρ : Type*}

def ProcMem.next (s : ProcMem ρ) (p : ρ) : Option ρ := (s.proc p).next

def ProcMem.pid (s : ProcMem ρ) (p : ρ) : BitVec 32 := (s.proc p).pid

/-- The bucket of a `pid`. -/
def pidHash (pid : BitVec 32) : Nat := hashFn pid.toInt

/-- The chain of the bucket `b`. -/
def ProcMem.ChainOf (s : ProcMem ρ) (b : Nat) (xs : List ρ) : Prop := IsChain s.next (s.phash b) xs

def ProcMem.OnChain (s : ProcMem ρ) (b : Nat) (p : ρ) : Prop := ∃ xs, s.ChainOf b xs ∧ p ∈ xs

/-- The process `q` is behind `p` on the chain of the bucket `b`. -/
def ProcMem.Behind (s : ProcMem ρ) (b : Nat) (p q : ρ) : Prop :=
  ∃ us vs, s.ChainOf b (us ++ p :: vs) ∧ q ∈ vs

/-- `change_pid`, without the bitmap of the identifiers. -/
def changePid [DecidableEq ρ] (s : ProcMem ρ) (p : ρ) (new : BitVec 32) : ProcMem ρ :=
  phashInsert (s.modProc p fun r => { r with pid := new }) p

section Chains

variable {s : ProcMem ρ} {p q : ρ} {pid new : BitVec 32} {fuel b : Nat} {xs : List ρ} {top : Option ρ}

section Fields

variable [DecidableEq ρ]

private theorem modProc_next (f : Proc ρ → Proc ρ) : (s.modProc p f).next = update s.next p (f (s.proc p)).next := by
  funext q
  simp only [ProcMem.modProc, ProcMem.next, update_apply]
  split <;> rfl

private theorem modProc_pid (f : Proc ρ → Proc ρ) : (s.modProc p f).pid = update s.pid p (f (s.proc p)).pid := by
  funext q
  simp only [ProcMem.modProc, ProcMem.pid, update_apply]
  split <;> rfl

private theorem phashInsert_next : (phashInsert s p).next = update s.next p (s.phash (pidHash (s.pid p))) :=
  modProc_next fun r => { r with next := s.phash (pidHash (s.pid p)) }

private theorem phashInsert_pid : (phashInsert s p).pid = s.pid :=
  (modProc_pid fun r => { r with next := s.phash (pidHash (s.pid p)) }).trans (update_eq_self ..)

private theorem changePid_pid : (changePid s p new).pid = update s.pid p new := by
  rw [changePid, phashInsert_pid, modProc_pid]

private theorem changePid_next : (changePid s p new).next = update s.next p (s.phash (pidHash new)) := by
  rw [changePid, phashInsert_next, modProc_pid, modProc_next, update_idem, update_self]
  rfl

private theorem changePid_phash : (changePid s p new).phash = update s.phash (pidHash new) (some p) := by
  have hpid : (s.modProc p fun r => { r with pid := new }).pid p = new := by rw [modProc_pid, update_self]
  change update s.phash (pidHash ((s.modProc p fun r => { r with pid := new }).pid p)) (some p) = _
  rw [hpid]

end Fields

/-- A walk has found a process, or it has come to the end of its chain. -/
def PidLookup.ofWalk (found : Option ρ) (atEnd : PidLookup ρ) : PidLookup ρ :=
  match found with
  | some p => .result (some p)
  | none => atEnd

private theorem findPid_succ {x : ρ} : findPid s pid (fuel + 1) (some x) =
    if s.pid x = pid then some (.result (some x))
    else if (s.next x).isNone then some (.result none) else findPid s pid fuel (s.next x) := rfl

private theorem findPid_eq (hc : IsChain s.next top xs) (hf : xs.length < fuel) :
    findPid s pid fuel top = some (.ofWalk (xs.find? fun p => s.pid p = pid)
      (if xs.isEmpty then .nullRead else .result none)) := by
  induction xs generalizing top fuel with
  | nil =>
    rcases fuel with _ | fuel
    · omega
    rw [show top = none from hc]
    rfl
  | cons x xs ih =>
    rcases fuel with _ | fuel
    · omega
    rw [hc.1, find?_cons, findPid_succ]
    by_cases hx : s.pid x = pid
    · simp [hx, PidLookup.ofWalk]
    · have hnext : (s.next x).isNone = true ↔ xs = [] := by
        rw [Option.isNone_iff_eq_none]
        exact hc.2.nil_iff
      rw [if_neg hx]
      by_cases hxs : xs = []
      · rw [if_pos (hnext.2 hxs)]
        simp [hx, hxs, PidLookup.ofWalk]
      · rw [if_neg fun h => hxs (hnext.1 h), ih hc.2 (by rw [length_cons] at hf; omega)]
        simp [hx, hxs]

private theorem findByPid_eq (hc : s.ChainOf (pidHash pid) xs) (hf : xs.length < fuel) :
    findByPid s fuel pid = some (.ofWalk (xs.find? fun p => s.pid p = pid)
      (if xs.tail.isEmpty then .nullRead else .result none)) := by
  unfold findByPid
  cases xs with
  | nil =>
    rw [show s.phash (hashFn pid.toInt) = none from hc]
    rfl
  | cons x xs =>
    rw [show s.phash (hashFn pid.toInt) = some x from hc.1, find?_cons]
    change (if s.pid x = pid then some (.result (some x)) else findPid s pid fuel (s.next x)) = _
    by_cases hx : s.pid x = pid
    · simp [hx, PidLookup.ofWalk]
    · rw [if_neg hx, findPid_eq hc.2 (by rw [length_cons] at hf; omega)]
      simp [hx]

private theorem findPid_ends {r : PidLookup ρ} (h : findPid s pid fuel top = some r) (hr : ∀ p, r ≠ .result (some p)) :
    ∃ xs, IsChain s.next top xs := by
  induction fuel generalizing top with
  | zero => cases h
  | succ fuel ih =>
    cases top with
    | none => exact ⟨[], rfl⟩
    | some x =>
      unfold findPid at h
      split at h
      · exact absurd (Option.some.inj h).symm (hr x)
      · split at h
        · rename_i hn
          exact ⟨[x], rfl, Option.isNone_iff_eq_none.1 hn⟩
        · obtain ⟨xs, hxs⟩ := ih h
          exact ⟨x :: xs, rfl, hxs⟩

private theorem findByPid_ends {r : PidLookup ρ} (h : findByPid s fuel pid = some r) (hr : ∀ p, r ≠ .result (some p)) :
    ∃ xs, s.ChainOf (pidHash pid) xs := by
  unfold findByPid at h
  unfold ProcMem.ChainOf pidHash
  split at h
  · rename_i hb
    exact ⟨[], hb⟩
  · rename_i x hb
    split at h
    · exact absurd (Option.some.inj h).symm (hr x)
    · obtain ⟨xs, hxs⟩ := findPid_ends h hr
      exact ⟨x :: xs, hb, hxs⟩

section Change

variable [DecidableEq ρ] {ns us vs : List ρ}

private theorem changePid_chainOf_new (hn : s.ChainOf (pidHash new) ns) (hp : p ∉ ns) :
    (changePid s p new).ChainOf (pidHash new) (p :: ns) := by
  unfold ProcMem.ChainOf
  rw [changePid_next, changePid_phash, update_self]
  exact hn.push hp

private theorem changePid_chainOf_of_not_mem (hc : s.ChainOf b xs) (hb : b ≠ pidHash new) (hp : p ∉ xs) :
    (changePid s p new).ChainOf b xs := by
  unfold ProcMem.ChainOf
  rw [changePid_next, changePid_phash, update_of_ne hb]
  exact hc.congr fun y hy => update_of_ne (ne_of_mem_of_not_mem hy hp) ..

private theorem changePid_chainOf_of_mem (hc : s.ChainOf b (us ++ p :: vs)) (hn : s.ChainOf (pidHash new) ns)
    (hp : p ∉ ns) (hb : b ≠ pidHash new) : (changePid s p new).ChainOf b (us ++ p :: ns) := by
  unfold ProcMem.ChainOf
  rw [changePid_next, changePid_phash, update_of_ne hb]
  have hnd := hc.nodup
  rw [nodup_append] at hnd
  exact hc.redirect (fun h => hnd.2.2 p h p (mem_cons_self ..) rfl) hn hp

/-- If the process is on the chain of its new `pid` already, a chain that leads to it has no end. -/
private theorem changePid_not_chainOf (hc : s.ChainOf b xs) (hp : p ∈ xs) (hn : s.OnChain (pidHash new) p) :
    ¬ ∃ ys, (changePid s p new).ChainOf b ys := by
  rintro ⟨ys, hys⟩
  obtain ⟨ns, hns, hpn⟩ := hn
  unfold ProcMem.ChainOf at hc hys hns
  rw [changePid_next, changePid_phash] at hys
  have agree : ∀ {us vs : List ρ} {t : Option ρ}, IsChain s.next t (us ++ p :: vs) →
      ∀ u ∈ us, update s.next p (s.phash (pidHash new)) u = s.next u := by
    intro us vs t h u hu
    have hnd := h.nodup
    rw [nodup_append] at hnd
    exact update_of_ne (hnd.2.2 u hu p (mem_cons_self ..)) ..
  -- the chain leads to the process
  have hmem : p ∈ ys := by
    by_cases hb : b = pidHash new
    · rw [hb, update_self] at hys
      rw [hys.head_eq]
      exact mem_cons_self ..
    · rw [update_of_ne hb] at hys
      obtain ⟨us, vs, rfl⟩ := append_of_mem hp
      exact hc.mem_of_agree hys (agree hc)
  -- and from there to the process again
  obtain ⟨us, vs, rfl⟩ := append_of_mem hmem
  have hbehind := hys.behind
  rw [update_self] at hbehind
  obtain ⟨us', vs', rfl⟩ := append_of_mem hpn
  have hagain : p ∈ vs := hns.mem_of_agree hbehind (agree hns)
  have hnd := hys.nodup
  rw [nodup_append] at hnd
  exact (nodup_cons.1 hnd.2.1).1 hagain

end Change

end Chains

/-- The processes, and which of them are in the table. -/
structure ProcHistory (ρ : Type*) where
  mem : ProcMem ρ
  inTable : ρ → Bool

inductive PhashOp (ρ : Type*) where
  | create (p : ρ) (record : Proc ρ)
  | insert (p : ρ)
  | remove (p : ρ)
  | change (p : ρ) (new : BitVec 32)
  | find (pid : BitVec 32)

variable [DecidableEq ρ]

/-- A call of `phash_remove` that does not come to its end leaves the memory as it is. -/
def PhashStep (s : ProcHistory ρ) (op : PhashOp ρ) (s' : ProcHistory ρ) : Prop :=
  match op with
  | .create p record => s.inTable p = false ∧ s' = ⟨s.mem.modProc p fun _ => record, s.inTable⟩
  | .insert p => s.inTable p = false ∧ (∀ q, s.inTable q = true → s.mem.pid q ≠ s.mem.pid p) ∧
      s' = ⟨phashInsert s.mem p, update s.inTable p true⟩
  | .remove p => s.inTable p = true ∧ s'.inTable = update s.inTable p false ∧
      ((∃ fuel, phashRemove s.mem fuel p = some (some s'.mem)) ∨
        (∀ fuel mem, phashRemove s.mem fuel p ≠ some (some mem)) ∧ s'.mem = s.mem)
  | .change p new => (∀ q, s.inTable q = true → s.mem.pid q ≠ new) ∧
      s' = ⟨changePid s.mem p new, update s.inTable p true⟩
  | .find _ => s' = s

omit [DecidableEq ρ] in
structure ProcHistory.Initial (s : ProcHistory ρ) : Prop where
  phash : ∀ b, s.mem.phash b = none
  inTable : ∀ p, s.inTable p = false

omit [DecidableEq ρ] in
/-- `find_by_pid` finds every process in the table, and no other one; it always ends. -/
structure ProcHistory.Found (s : ProcHistory ρ) : Prop where
  present : ∀ p, s.inTable p = true → ∃ fuel, findByPid s.mem fuel (s.mem.pid p) = some (.result (some p))
  absent : ∀ pid, (∀ p, s.inTable p = true → s.mem.pid p ≠ pid) →
    ∃ fuel r, findByPid s.mem fuel pid = some r ∧ ∀ p, r ≠ .result (some p)

/-- The calls end without a read through a null pointer, with the right result, and leave a table in which every process
is found. -/
def PhashOk (x : ProcHistory ρ × PhashOp ρ × ProcHistory ρ) : Prop :=
  x.2.2.Found ∧
  match x.2.1 with
  | .remove p => ∃ fuel mem, phashRemove x.1.mem fuel p = some (some mem)
  | .find pid => ∃ fuel r, findByPid x.1.mem fuel pid = some (.result r) ∧
      ∀ p, r = some p ↔ x.1.inTable p = true ∧ x.1.mem.pid p = pid
  | _ => True

omit [DecidableEq ρ] in
/-- No process is removed; a process whose `pid` is changed is not on the chain of the new one, which has all processes
behind it that belong to their chain; a `pid` that is looked up is there, or its bucket has two processes. -/
def PhashGuard (x : ProcHistory ρ × PhashOp ρ × ProcHistory ρ) : Prop :=
  match x.2.1 with
  | .remove _ => False
  | .change p new => ¬ x.1.mem.OnChain (pidHash new) p ∧
      ∀ b q, x.1.mem.Behind b p q → pidHash (x.1.mem.pid q) = b → x.1.mem.OnChain (pidHash new) q
  | .find pid => (∃ p, x.1.inTable p = true ∧ x.1.mem.pid p = pid) ∨
      ∃ p, x.1.mem.phash (pidHash pid) = some p ∧ x.1.mem.next p ≠ none
  | _ => True

omit [DecidableEq ρ] in
/-- The chains end and have processes of the table only, and every process is on the chain of its `pid`. -/
structure ProcHistory.Inv (s : ProcHistory ρ) : Prop where
  chain : ∀ b, ∃ xs, s.mem.ChainOf b xs ∧ ∀ q ∈ xs, s.inTable q = true
  onChain : ∀ p, s.inTable p = true → s.mem.OnChain (pidHash (s.mem.pid p)) p
  distinct : ∀ p q, s.inTable p = true → s.inTable q = true → s.mem.pid p = s.mem.pid q → p = q

section Histories

variable {s s' s₀ : ProcHistory ρ} {op : PhashOp ρ} {p : ρ} {new pid : BitVec 32}

omit [DecidableEq ρ] in
theorem ProcHistory.Initial.inv (h : s.Initial) : s.Inv where
  chain b := ⟨[], h.phash b, by simp⟩
  onChain p hp := by rw [h.inTable] at hp; cases hp
  distinct p q hp := by rw [h.inTable] at hp; cases hp

omit [DecidableEq ρ] in
theorem ProcHistory.Inv.inTable_of_mem (hi : s.Inv) {b : Nat} {xs : List ρ} (hc : s.mem.ChainOf b xs) (hm : p ∈ xs) :
    s.inTable p = true := by
  obtain ⟨xs', hc', hin⟩ := hi.chain b
  exact hin p (hc.unique hc' ▸ hm)

omit [DecidableEq ρ] in
theorem ProcHistory.Inv.mem_chain (hi : s.Inv) (hp : s.inTable p = true) {xs : List ρ}
    (hc : s.mem.ChainOf (pidHash (s.mem.pid p)) xs) : p ∈ xs := by
  obtain ⟨ys, hys, hm⟩ := hi.onChain p hp
  exact hc.unique hys ▸ hm

omit [DecidableEq ρ] in
theorem ProcHistory.Inv.find_iff (hi : s.Inv) {xs : List ρ} (hc : s.mem.ChainOf (pidHash pid) xs) :
    (xs.find? fun q => s.mem.pid q = pid) = some p ↔ s.inTable p = true ∧ s.mem.pid p = pid := by
  constructor
  · intro h
    exact ⟨hi.inTable_of_mem hc (mem_of_find?_eq_some h), by simpa using find?_some h⟩
  · rintro ⟨hp, rfl⟩
    have hsome : (xs.find? fun q => s.mem.pid q = s.mem.pid p).isSome :=
      find?_isSome.2 ⟨p, hi.mem_chain hp hc, decide_eq_true rfl⟩
    obtain ⟨q, hq⟩ := Option.isSome_iff_exists.1 hsome
    have hpid : s.mem.pid q = s.mem.pid p := by simpa using find?_some hq
    rw [hq, hi.distinct q p (hi.inTable_of_mem hc (mem_of_find?_eq_some hq)) hp hpid]

omit [DecidableEq ρ] in
theorem ProcHistory.Inv.found (hi : s.Inv) : s.Found := by
  refine ⟨fun p hp => ?_, fun pid hnone => ?_⟩
  · obtain ⟨xs, hc, -⟩ := hi.chain (pidHash (s.mem.pid p))
    refine ⟨xs.length + 1, ?_⟩
    rw [findByPid_eq hc (Nat.lt_succ_self _), (hi.find_iff hc).2 ⟨hp, rfl⟩]
    rfl
  · obtain ⟨xs, hc, -⟩ := hi.chain (pidHash pid)
    refine ⟨_, _, findByPid_eq hc (Nat.lt_succ_self _), fun p => ?_⟩
    have hfind : (xs.find? fun q => s.mem.pid q = pid) = none := by
      refine Option.eq_none_iff_forall_ne_some.2 fun p hp => ?_
      obtain ⟨hp, hpid⟩ := (hi.find_iff hc).1 hp
      exact hnone p hp hpid
    rw [hfind]
    dsimp only [PidLookup.ofWalk]
    split <;> simp

omit [DecidableEq ρ] in
theorem ProcHistory.Inv.not_mem (hi : s.Inv) (hp : s.inTable p = false) {b : Nat} {xs : List ρ}
    (hc : s.mem.ChainOf b xs) : p ∉ xs := by
  intro hm
  rw [hi.inTable_of_mem hc hm] at hp
  cases hp

theorem ProcHistory.Inv.create {record : Proc ρ} (hi : s.Inv) (hp : s.inTable p = false) :
    ProcHistory.Inv ⟨s.mem.modProc p fun _ => record, s.inTable⟩ := by
  have hne : ∀ q, s.inTable q = true → q ≠ p := by
    rintro q hq rfl
    rw [hp] at hq
    cases hq
  have hchain : ∀ b xs, s.mem.ChainOf b xs → (s.mem.modProc p fun _ => record).ChainOf b xs := by
    intro b xs hc
    unfold ProcMem.ChainOf
    rw [modProc_next]
    exact hc.congr fun y hy => update_of_ne (ne_of_mem_of_not_mem hy (hi.not_mem hp hc)) ..
  have hpid : ∀ q, s.inTable q = true → (s.mem.modProc p fun _ => record).pid q = s.mem.pid q := by
    intro q hq
    rw [modProc_pid, update_of_ne (hne q hq)]
  refine ⟨fun b => ?_, fun q hq => ?_, fun q r hq hr he => ?_⟩
  · obtain ⟨xs, hc, hin⟩ := hi.chain b
    exact ⟨xs, hchain b xs hc, hin⟩
  · obtain ⟨xs, hc, hm⟩ := hi.onChain q hq
    refine ⟨xs, ?_, hm⟩
    dsimp only
    rw [hpid q hq]
    exact hchain _ _ hc
  · dsimp only at he
    rw [hpid q hq, hpid r hr] at he
    exact hi.distinct q r hq hr he

theorem ProcHistory.Inv.insert (hi : s.Inv) (hp : s.inTable p = false)
    (hd : ∀ q, s.inTable q = true → s.mem.pid q ≠ s.mem.pid p) :
    ProcHistory.Inv ⟨phashInsert s.mem p, update s.inTable p true⟩ := by
  have hchain : ∀ b xs, s.mem.ChainOf b xs →
      (phashInsert s.mem p).ChainOf b (if b = pidHash (s.mem.pid p) then p :: xs else xs) := by
    intro b xs hc
    unfold ProcMem.ChainOf
    rw [phashInsert_next]
    exact hc.push_table (hi.not_mem hp hc)
  refine ⟨fun b => ?_, fun q hq => ?_, fun q r hq hr he => ?_⟩
  · obtain ⟨xs, hc, hin⟩ := hi.chain b
    refine ⟨_, hchain b xs hc, fun q hq => ?_⟩
    dsimp only
    rw [update_apply]
    split
    · rfl
    · rename_i hqp
      split at hq
      · exact hin q (mem_of_ne_of_mem hqp hq)
      · exact hin q hq
  · dsimp only at hq ⊢
    rw [phashInsert_pid]
    by_cases hqp : q = p
    · subst hqp
      obtain ⟨xs, hc, -⟩ := hi.chain (pidHash (s.mem.pid q))
      refine ⟨_, hchain _ xs hc, ?_⟩
      rw [if_pos rfl]
      exact mem_cons_self ..
    · rw [update_of_ne hqp] at hq
      obtain ⟨xs, hc, hm⟩ := hi.onChain q hq
      refine ⟨_, hchain _ xs hc, ?_⟩
      split
      · exact mem_cons_of_mem _ hm
      · exact hm
  · dsimp only at he
    rw [phashInsert_pid] at he
    exact distinct_update hi.distinct (fun _ _ => rfl) hd q r hq hr he

/-- `change_pid` when the process is not on the chain of the new `pid`, and that chain has the processes behind it. -/
theorem ProcHistory.Inv.change (hi : s.Inv) (hd : ∀ q, s.inTable q = true → s.mem.pid q ≠ new)
    (hoff : ¬ s.mem.OnChain (pidHash new) p)
    (hbehind : ∀ b q, s.mem.Behind b p q → pidHash (s.mem.pid q) = b → s.mem.OnChain (pidHash new) q) :
    ProcHistory.Inv ⟨changePid s.mem p new, update s.inTable p true⟩ := by
  obtain ⟨ns, hns, hinn⟩ := hi.chain (pidHash new)
  have hpn : p ∉ ns := fun h => hoff ⟨ns, hns, h⟩
  have hin' : ∀ q, s.inTable q = true → update s.inTable p true q = true := by
    intro q hq
    rw [update_apply]
    split
    · rfl
    · exact hq
  refine ⟨fun b => ?_, fun q hq => ?_, fun q r hq hr he => ?_⟩
  · by_cases hb : b = pidHash new
    · refine ⟨p :: ns, hb ▸ changePid_chainOf_new hns hpn, fun q hq => ?_⟩
      rcases mem_cons.1 hq with rfl | hq
      · exact update_self ..
      · exact hin' q (hinn q hq)
    · obtain ⟨xs, hc, hin⟩ := hi.chain b
      by_cases hp : p ∈ xs
      · obtain ⟨us, vs, rfl⟩ := append_of_mem hp
        refine ⟨us ++ p :: ns, changePid_chainOf_of_mem hc hns hpn hb, fun q hq => ?_⟩
        rcases mem_append.1 hq with hq | hq
        · exact hin' q (hin q (mem_append_left _ hq))
        · rcases mem_cons.1 hq with rfl | hq
          · exact update_self ..
          · exact hin' q (hinn q hq)
      · exact ⟨xs, changePid_chainOf_of_not_mem hc hb hp, fun q hq => hin' q (hin q hq)⟩
  · dsimp only at hq ⊢
    rw [changePid_pid]
    by_cases hqp : q = p
    · subst hqp
      rw [update_self]
      exact ⟨q :: ns, changePid_chainOf_new hns hpn, mem_cons_self ..⟩
    · rw [update_of_ne hqp] at hq ⊢
      obtain ⟨xs, hc, hm⟩ := hi.onChain q hq
      by_cases hb : pidHash (s.mem.pid q) = pidHash new
      · rw [hb] at hc ⊢
        obtain rfl := hc.unique hns
        exact ⟨_, changePid_chainOf_new hns hpn, mem_cons_of_mem _ hm⟩
      · by_cases hp : p ∈ xs
        · obtain ⟨us, vs, rfl⟩ := append_of_mem hp
          refine ⟨us ++ p :: ns, changePid_chainOf_of_mem hc hns hpn hb, ?_⟩
          rcases mem_append.1 hm with hm | hm
          · exact mem_append_left _ hm
          · obtain ⟨ns', hns', hm'⟩ := hbehind _ q ⟨us, vs, hc, mem_of_ne_of_mem hqp hm⟩ rfl
            obtain rfl := hns.unique hns'
            exact mem_append_right _ (mem_cons_of_mem _ hm')
        · exact ⟨xs, changePid_chainOf_of_not_mem hc hb hp, hm⟩
  · dsimp only at he
    rw [changePid_pid] at he
    refine distinct_update hi.distinct (fun y hy => update_of_ne hy ..) (fun y hy => ?_) q r hq hr he
    rw [update_self]
    exact hd y hy

/-- Otherwise a process is not found any more, or a search does not end. -/
theorem ProcHistory.Inv.guard_of_found (hi : s.Inv) (hd : ∀ q, s.inTable q = true → s.mem.pid q ≠ new)
    (hf : ProcHistory.Found ⟨changePid s.mem p new, update s.inTable p true⟩) : ¬ s.mem.OnChain (pidHash new) p ∧
      ∀ b q, s.mem.Behind b p q → pidHash (s.mem.pid q) = b → s.mem.OnChain (pidHash new) q := by
  obtain ⟨ns, hns, hinn⟩ := hi.chain (pidHash new)
  have hoff : ¬ s.mem.OnChain (pidHash new) p := by
    intro hon
    -- the old `pid` of the process is not in use any more, and the search for it goes around for ever
    have hp : s.inTable p = true := by
      obtain ⟨xs, hc, hm⟩ := hon
      exact hi.inTable_of_mem hc hm
    obtain ⟨xs, hc, hm⟩ := hi.onChain p hp
    obtain ⟨fuel, r, hr, hr'⟩ := hf.absent (s.mem.pid p) fun q hq he => by
      dsimp only at hq he
      rw [changePid_pid] at he
      by_cases hqp : q = p
      · rw [hqp, update_self] at he
        exact hd p hp he.symm
      · rw [update_of_ne hqp] at hq he
        exact hqp (hi.distinct q p hq hp he)
    exact changePid_not_chainOf hc hm hon (findByPid_ends hr hr')
  refine ⟨hoff, ?_⟩
  rintro b q ⟨us, vs, hc, hq⟩ rfl
  by_contra hqn
  have hpn : p ∉ ns := fun h => hoff ⟨ns, hns, h⟩
  have hb : pidHash (s.mem.pid q) ≠ pidHash new := by
    intro hb
    exact hoff ⟨_, hb ▸ hc, by simp⟩
  -- the chain of `q` does not have it any more
  have hnd := hc.nodup
  rw [nodup_append, nodup_cons] at hnd
  have hqp : q ≠ p := ne_of_mem_of_not_mem hq hnd.2.1.1
  have hnot : q ∉ us ++ p :: ns := by
    intro h
    rcases mem_append.1 h with h | h
    · exact hnd.2.2 q h q (mem_cons_of_mem _ hq) rfl
    · exact hqn ⟨ns, hns, mem_of_ne_of_mem hqp h⟩
  have hqin : s.inTable q = true := hi.inTable_of_mem hc (by simp [hq])
  obtain ⟨fuel, hr⟩ := hf.present q (by dsimp only; rwa [update_of_ne hqp])
  dsimp only at hr
  rw [changePid_pid, update_of_ne hqp] at hr
  have hr' := findByPid_eq (changePid_chainOf_of_mem hc hns hpn hb) (Nat.lt_succ_self _)
  have hres := findByPid_det hr hr'
  have hfind : ((us ++ p :: ns).find? fun x => (changePid s.mem p new).pid x = s.mem.pid q) = some q := by
    cases hx : (us ++ p :: ns).find? fun x => (changePid s.mem p new).pid x = s.mem.pid q with
    | some x =>
      rw [hx] at hres
      rw [← Option.some.inj (PidLookup.result.inj hres)]
    | none =>
      rw [hx] at hres
      dsimp only [PidLookup.ofWalk] at hres
      split at hres <;> simp at hres
  exact hnot (mem_of_find?_eq_some hfind)

omit [DecidableEq ρ] in
/-- `find_by_pid` has the right result if the `pid` is there or if the bucket has two processes. -/
theorem ProcHistory.Inv.find_ok_iff (hi : s.Inv) : (∃ fuel r, findByPid s.mem fuel pid = some (.result r) ∧
      ∀ p, r = some p ↔ s.inTable p = true ∧ s.mem.pid p = pid) ↔ (∃ p, s.inTable p = true ∧ s.mem.pid p = pid) ∨
      ∃ p, s.mem.phash (pidHash pid) = some p ∧ s.mem.next p ≠ none := by
  obtain ⟨xs, hc, -⟩ := hi.chain (pidHash pid)
  have hwalk := findByPid_eq hc (Nat.lt_succ_self xs.length)
  have hfind := fun p => hi.find_iff (p := p) hc
  cases hx : xs.find? fun q => s.mem.pid q = pid with
  | some p =>
    rw [hx] at hwalk
    simp only [hx] at hfind
    exact iff_of_true ⟨_, _, hwalk, hfind⟩ (.inl ⟨p, (hfind p).1 rfl⟩)
  | none =>
    rw [hx] at hwalk
    simp only [hx] at hfind
    have hnone : ¬ ∃ p, s.inTable p = true ∧ s.mem.pid p = pid := fun ⟨p, hp⟩ => by simpa using (hfind p).2 hp
    rw [or_iff_right hnone]
    have htail : (∃ p, s.mem.phash (pidHash pid) = some p ∧ s.mem.next p ≠ none) ↔ xs.tail ≠ [] := by
      constructor
      · rintro ⟨p, hp, hn⟩
        have hc' : IsChain s.mem.next (some p) xs := hp ▸ hc
        exact fun h => hn (hc'.tail.nil_iff.2 h)
      · intro h
        cases xs with
        | nil => exact absurd rfl h
        | cons x xs => exact ⟨x, hc.1, fun hn => h (hc.2.nil_iff.1 hn)⟩
    rw [htail]
    constructor
    · rintro ⟨fuel, r, hr, -⟩ h
      rw [h] at hwalk
      cases findByPid_det hr hwalk
    · intro h
      refine ⟨xs.length + 1, none, ?_, hfind⟩
      rw [hwalk, if_neg (by simpa using h)]
      rfl

theorem ProcHistory.Inv.not_remove_ok (hi : s.Inv) (h : PhashStep s (.remove p) s') : ¬ PhashOk (s, .remove p, s') := by
  rintro ⟨hf, -⟩
  obtain ⟨hp, htab, hmem⟩ := h
  have hmem : s'.mem = s.mem := by
    rcases hmem with ⟨fuel, hr⟩ | ⟨-, hm⟩
    · exact (phashRemove_eq_some.1 hr).2
    · exact hm
  obtain ⟨fuel, hr⟩ := hi.found.present p hp
  obtain ⟨fuel', r, hr', hne⟩ := hf.absent (s.mem.pid p) fun q hq he => by
    dsimp only at hq he
    rw [hmem] at he
    rw [htab, update_apply] at hq
    split at hq
    · cases hq
    · rename_i hqp
      exact hqp (hi.distinct q p hq hp he)
  dsimp only at hr'
  rw [hmem] at hr'
  exact hne p (findByPid_det hr hr').symm

theorem ProcHistory.Inv.step (hi : s.Inv) (hg : PhashGuard (s, op, s')) (h : PhashStep s op s') : s'.Inv := by
  cases op with
  | create p record =>
    obtain ⟨hp, rfl⟩ := h
    exact hi.create hp
  | insert p =>
    obtain ⟨hp, hd, rfl⟩ := h
    exact hi.insert hp hd
  | remove p => exact hg.elim
  | change p new =>
    obtain ⟨hd, rfl⟩ := h
    exact hi.change hd hg.1 hg.2
  | find pid =>
    obtain rfl : s' = s := h
    exact hi

theorem ProcHistory.Inv.stepOk_iff (hi : s.Inv) (h : PhashStep s op s') :
    PhashOk (s, op, s') ↔ PhashGuard (s, op, s') := by
  cases op with
  | create p record =>
    obtain ⟨hp, rfl⟩ := h
    exact iff_of_true ⟨(hi.create hp).found, trivial⟩ trivial
  | insert p =>
    obtain ⟨hp, hd, rfl⟩ := h
    exact iff_of_true ⟨(hi.insert hp hd).found, trivial⟩ trivial
  | remove p => exact iff_of_false (hi.not_remove_ok h) id
  | change p new =>
    refine ⟨fun hok => ?_, fun hg => ⟨(hi.step hg h).found, trivial⟩⟩
    obtain ⟨hd, rfl⟩ := h
    exact hi.guard_of_found hd hok.1
  | find pid =>
    refine ⟨fun hok => hi.find_ok_iff.1 hok.2, fun hg => ⟨(hi.step hg h).found, hi.find_ok_iff.2 hg⟩⟩

/-- The calls of a history from the empty table are right if and only if none of them removes a process, every
`change_pid` finds the new chain with the processes that it needs and without its own, and every `find_by_pid` is for a
`pid` that is there or for a bucket with two processes. -/
theorem process_table {tr : List (ProcHistory ρ × PhashOp ρ × ProcHistory ρ)} (h₀ : s₀.Initial)
    (hr : Run PhashStep s₀ tr s) : (∀ x ∈ tr, PhashOk x) ↔ ∀ x ∈ tr, PhashGuard x :=
  hr.forall_iff ProcHistory.Inv _ _ h₀.inv (fun _ _ _ hi hg h => hi.step hg h) fun _ _ _ hi h => hi.stepOk_iff h

end Histories

/-- Two processes of one bucket, not yet in the table. -/
def twoPids : ProcHistory Bool where
  mem :=
    { kernel := false
      proc := fun p => ⟨if p then 1029 else 1, 0, 0, 0, 0, 0, false, none, 0, 0, 0, 0, 0, 0⟩
      live := []
      links := ⟨fun _ => .head .sysinfo, fun _ => .head .sysinfo⟩
      phash := fun _ => none }
  inTable _ := false

private theorem twoPids_initial : twoPids.Initial := ⟨fun _ => rfl, fun _ => rfl⟩

/-- The process with the `pid` 1 is inserted. -/
def onePidIn : ProcHistory Bool := ⟨phashInsert twoPids.mem false, update twoPids.inTable false true⟩

private theorem onePidIn_step : PhashStep twoPids (.insert false) onePidIn := ⟨rfl, by decide, rfl⟩

/-- With two processes in the bucket a third `pid` is looked up. -/
theorem process_table_two : ∃ (tr : List (ProcHistory Bool × PhashOp Bool × ProcHistory Bool)) (s : ProcHistory Bool),
    Run PhashStep twoPids tr s ∧ tr.map (·.2.1) = [.insert false, .insert true, .find 2057] ∧ ∀ x ∈ tr, PhashOk x := by
  have s2 : PhashStep onePidIn (.insert true)
      ⟨phashInsert onePidIn.mem true, update onePidIn.inTable true true⟩ := ⟨rfl, by decide, rfl⟩
  have s3 : PhashStep ⟨phashInsert onePidIn.mem true, update onePidIn.inTable true true⟩ (.find 2057)
      ⟨phashInsert onePidIn.mem true, update onePidIn.inTable true true⟩ := rfl
  have hr := ((Run.nil.snoc onePidIn_step).snoc s2).snoc s3
  refine ⟨_, _, hr, rfl, (process_table twoPids_initial hr).2 fun x hx => ?_⟩
  simp only [nil_append, cons_append, mem_cons, not_mem_nil, or_false] at hx
  rcases hx with rfl | rfl | rfl
  · exact trivial
  · exact trivial
  · exact .inr ⟨true, by decide, by decide⟩

/-- The process is inserted and removed, and `find_by_pid(1)` still returns it; in the empty table the same call reads
through a null pointer. -/
theorem removed_process_is_found : twoPids.Initial ∧ findByPid twoPids.mem 1 1 = some .nullRead ∧
    ∃ (tr : List (ProcHistory Bool × PhashOp Bool × ProcHistory Bool)) (s : ProcHistory Bool),
      Run PhashStep twoPids tr s ∧ tr.map (·.2.1) = [.insert false, .remove false] ∧ (∀ p, s.inTable p = false) ∧
      findByPid s.mem 1 1 = some (.result (some false)) ∧ ∃ x ∈ tr, ¬ PhashOk x := by
  have s2 : PhashStep onePidIn (.remove false) ⟨onePidIn.mem, update onePidIn.inTable false false⟩ :=
    ⟨rfl, rfl, .inl ⟨1, rfl⟩⟩
  have hi : onePidIn.Inv := twoPids_initial.inv.insert rfl (by decide)
  refine ⟨twoPids_initial, rfl, _, _, (Run.nil.snoc onePidIn_step).snoc s2, rfl, by decide, rfl, _,
    mem_append_right _ (mem_singleton_self _), hi.not_remove_ok s2⟩

end Manrix
