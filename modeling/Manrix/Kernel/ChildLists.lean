import Manrix.Kernel.Process
import Manrix.Lib.Runs

/-!
# The lists of the children

A process has one field `child` for two lists, the one of its own children and the one that it is on itself.  So the
list of a new process is not empty from the start: its `child.next` leads on along the list of its parent.  A child of
the child is put between the two, and the loops over the children of the kernel process meet all processes that there
are.  The loops over the children of any other process miss their end, `&p->child`, and go on from `&kernel->child`,
which is no process.

So the lists are right only as long as no process has been created: `child_lists`.
-/

namespace Manrix

open Function Links List Runs

variable {ρ : Type*} [DecidableEq ρ]

omit [DecidableEq ρ] in
/-- One round of the loops over the children, from a process. -/
def ProcLinks.childNext (l : ProcLinks ρ) : ProcPtr ρ → ProcPtr ρ
  | .proc p => l.next (.child p)
  | .head h => .head h

omit [DecidableEq ρ] in
/-- Following `child.next` from `p->child` visits the processes `xs` and arrives at `&p->child`. -/
def Visits (s : ProcMem ρ) (p : ρ) (xs : List ρ) : Prop :=
  Path s.links.childNext (.proc p) (xs.map .proc) (.head (.child p))

omit [DecidableEq ρ] in
/-- The kernel process is its own `parent`, and not one of its children. -/
def IsChild (s : ProcMem ρ) (p q : ρ) : Prop := q ∈ s.live ∧ q ≠ s.kernel ∧ (s.proc q).parent = p

/-- The list of `p` has the children of `p`, and so `get_childs_utime` adds their times. -/
structure ChildListOk (s : ProcMem ρ) (p : ρ) : Prop where
  nonempty : haveChildren s p = true ↔ ∃ q, IsChild s p q
  visits : ∃ xs : List ρ, Visits s p xs ∧ xs.Nodup ∧ (∀ q, q ∈ xs ↔ IsChild s p q) ∧
    ∀ fuel, xs.length < fuel → getChildsUtime s fuel p = some (xs.map fun q => (s.proc q).userTime).sum

section Loops

variable {s : ProcMem ρ} {p : ρ} {xs : List ρ} {time : Proc ρ → BitVec 32} {fuel : Nat}

private theorem sumChilds_eq (time : Proc ρ → BitVec 32) (total : BitVec 32) {v : ProcPtr ρ}
    (hv : Path s.links.childNext v (xs.map .proc) (.head (.child p))) (hf : xs.length < fuel) :
    sumChilds s p time fuel total (s.links.childNext v) = some (total + (xs.map fun q => time (s.proc q)).sum) := by
  induction xs generalizing v total fuel with
  | nil =>
    obtain ⟨fuel, rfl⟩ := Nat.exists_eq_succ_of_ne_zero (Nat.ne_of_gt hf)
    rw [show s.links.childNext v = .head (.child p) from hv]
    simp [sumChilds]
  | cons q xs ih =>
    obtain ⟨fuel, rfl⟩ := Nat.exists_eq_succ_of_ne_zero (Nat.ne_of_gt (Nat.zero_lt_of_lt hf))
    obtain ⟨hq, hrest⟩ := hv
    rw [hq]
    have := ih (total + time (s.proc q)) hrest (Nat.lt_of_succ_lt_succ hf)
    simpa [sumChilds, ProcLinks.childNext, BitVec.add_assoc] using this

theorem Visits.getChildsTime (hv : Visits s p xs) (hf : xs.length < fuel) :
    getChildsTime s time fuel p = some (xs.map fun q => time (s.proc q)).sum := by
  unfold Manrix.getChildsTime
  split
  · rename_i he
    cases xs with
    | nil => rfl
    | cons q xs =>
      have hne : s.links.next (.child p) = .proc q := hv.1
      simp [ProcLinks.listIsempty, hne] at he
  · have := sumChilds_eq time 0 hv hf
    simpa [ProcLinks.childNext] using this

theorem Visits.haveChildren_iff (hv : Visits s p xs) : haveChildren s p = true ↔ xs ≠ [] := by
  cases xs with
  | nil =>
    have : s.links.next (.child p) = .head (.child p) := hv
    simp [haveChildren, ProcLinks.listIsempty, this]
  | cons q xs =>
    have : s.links.next (.child p) = .proc q := hv.1
    simp [haveChildren, ProcLinks.listIsempty, this]

omit [DecidableEq ρ] in
theorem Visits.unique {ys : List ρ} (hx : Visits s p xs) (hy : Visits s p ys) : xs = ys :=
  (List.map_inj_right fun _ _ => ProcPtr.proc.inj).1 (Path.unique hx hy (by simp) (by simp))

theorem Visits.childListOk_iff (hv : Visits s p xs) (hnd : xs.Nodup) :
    ChildListOk s p ↔ ∀ q, q ∈ xs ↔ IsChild s p q := by
  constructor
  · rintro ⟨-, ys, hy, -, hmem, -⟩
    rw [hv.unique hy]
    exact hmem
  · intro hmem
    refine ⟨?_, xs, hv, hnd, hmem, fun fuel hf => hv.getChildsTime hf⟩
    rw [hv.haveChildren_iff, ne_eq, eq_nil_iff_forall_not_mem]
    simp [hmem]

end Loops

omit [DecidableEq ρ] in
private theorem path_end {l : ProcLinks ρ} {v : ProcPtr ρ} {xs ys : List ρ} {h h' : ProcHead ρ}
    (hx : Path l.childNext v (xs.map .proc) (.head h)) (hy : Path l.childNext v (ys.map .proc) (.head h')) :
    h = h' := by
  induction xs generalizing v ys with
  | nil =>
    have hx : l.childNext v = .head h := hx
    cases ys with
    | nil => exact ProcPtr.head.inj (hx.symm.trans hy)
    | cons y ys => cases hx.symm.trans hy.1
  | cons x xs ih =>
    cases ys with
    | nil =>
      have hy : l.childNext v = .head h' := hy
      cases hy.symm.trans hx.1
    | cons y ys =>
      obtain rfl : x = y := ProcPtr.proc.inj (hx.1.symm.trans hy.1)
      exact ih hx.2 hy.2

section Create

variable {l l' : ProcLinks ρ} {head field : ProcHead ρ} {parent new p : ρ} {s s' : ProcMem ρ} {op : CreateOp ρ}

private theorem listAdd_next {member : ProcPtr ρ → Option (ProcHead ρ)} (hm : member (.proc new) = some field)
    (h : l.listAdd member head new = some l') :
    l'.next = update (update l.next head (.proc new)) field (l.next head) := by
  unfold ProcLinks.listAdd at h
  rw [hm] at h
  dsimp only [Option.bind_some] at h
  split at h
  · cases h
    rfl
  · obtain ⟨field', -, rfl⟩ := Option.map_eq_some_iff.1 h
    rfl

private theorem addProcess_sysinfo (h : l.addProcess parent new = some l') : l'.next .sysinfo = .proc new := by
  obtain ⟨l₁, -, h₂⟩ := Option.bind_eq_some_iff.1 h
  simp [listAdd_next rfl h₂]

private theorem addProcess_childNext (h : l.addProcess parent new = some l') (hne : new ≠ parent) :
    l'.childNext = update (update l.childNext (.proc parent) (.proc new)) (.proc new) (l.childNext (.proc parent)) := by
  obtain ⟨l₁, h₁, h₂⟩ := Option.bind_eq_some_iff.1 h
  have hn₁ := listAdd_next rfl h₁
  have hn₂ := listAdd_next rfl h₂
  funext v
  cases v with
  | head h => simp [ProcLinks.childNext]
  | proc p =>
    simp only [ProcLinks.childNext, hn₂, hn₁, ProcLinks.listInit, ProcLinks.setNext, ProcLinks.setPrev,
      update_apply, ProcHead.child.injEq, ProcPtr.proc.injEq, reduceCtorEq, if_false, hne.symm]
    split <;> rfl

variable {xs : List ρ}

omit [DecidableEq ρ] in
private theorem getLast_proc {q : ρ} {us : List ρ} (h : (p :: us).getLast (by simp) = q) :
    (ProcPtr.proc p :: us.map ProcPtr.proc).getLast (by simp) = .proc q := by
  rw [← h, ← getLast_map (f := ProcPtr.proc) (by simp)]
  rfl

/-- The loop over the children of the kernel process visits the processes `xs`, which are all but this. -/
structure TreeInv (s : ProcMem ρ) (xs : List ρ) : Prop where
  visits : Visits s s.kernel xs
  nodup : (s.kernel :: xs).Nodup
  live : ∀ q, q ∈ s.live ↔ q ∈ s.kernel :: xs
  sysinfo : s.links.next .sysinfo = .head .sysinfo ∨ ∃ q, s.links.next .sysinfo = .proc q

private theorem processInit_treeInv (kernel : ρ) (proc : ρ → Proc ρ) (links : ProcLinks ρ) :
    TreeInv (processInit kernel proc links) [] := by
  refine ⟨?_, by simp, by simp [processInit], .inl ?_⟩
  · simp [Visits, processInit, ProcLinks.childNext, ProcLinks.listInit, ProcLinks.setNext, ProcLinks.setPrev]
  · simp [processInit, ProcLinks.listInit, ProcLinks.setNext, ProcLinks.setPrev]

theorem TreeInv.created (hi : TreeInv s xs) (hparent : op.parent ∈ s.live) (hnew : new ∉ s.live)
    (h : Created s op new s') (hk : op.keeps = true) : ∃ xs', TreeInv s' xs' := by
  have hne : new ≠ op.parent := fun he => hnew (he ▸ hparent)
  rw [hi.live] at hparent hnew
  obtain ⟨us, vs, rfl, hlast⟩ := exists_split hparent
  have hnd : (ProcPtr.proc s.kernel :: (us.map .proc ++ vs.map .proc)).Nodup := by
    simpa using hi.nodup.map fun _ _ => ProcPtr.proc.inj
  have hoff : ProcPtr.proc new ∉ ProcPtr.proc s.kernel :: (us.map .proc ++ vs.map .proc) := by simpa using hnew
  have hv := hi.visits
  rw [Visits, map_append] at hv
  have hins := hv.insert hnd hoff
  rw [getLast_proc hlast, ← addProcess_childNext h.links hne] at hins
  refine ⟨us ++ new :: vs, ?_, ?_, ?_, .inr ⟨new, addProcess_sysinfo h.links⟩⟩
  · rw [Visits, h.kernel, map_append, map_cons]
    exact hins
  · rw [h.kernel]
    have hp : (s.kernel :: (us ++ new :: vs)).Perm (new :: s.kernel :: (us ++ vs)) :=
      (List.Perm.cons _ perm_middle).trans (List.Perm.swap ..)
    exact hp.nodup_iff.2 (nodup_cons.2 ⟨hnew, hi.nodup⟩)
  · intro q
    rw [h.live, if_pos hk, h.kernel, mem_cons, hi.live]
    simp only [mem_cons, mem_append]
    tauto

private theorem listAdd_isSome (member : ProcPtr ρ → Option (ProcHead ρ)) (hm : (member (.proc new)).isSome)
    (hn : l.next head = .head head ∨ (member (l.next head)).isSome) : (l.listAdd member head new).isSome := by
  obtain ⟨field, hf⟩ := Option.isSome_iff_exists.1 hm
  unfold ProcLinks.listAdd
  rw [hf]
  dsimp only [Option.bind_some]
  split
  · rfl
  · rename_i hne
    rw [Option.isSome_map]
    exact hn.resolve_left hne

omit [DecidableEq ρ] in
theorem TreeInv.child_isSome (hi : TreeInv s xs) (hp : p ∈ s.live) : (s.links.next (.child p)).child.isSome := by
  rw [hi.live] at hp
  obtain ⟨us, vs, rfl, hlast⟩ := exists_split hp
  have hv := hi.visits
  rw [Visits, map_append] at hv
  have hstep := hv.apply_split
  rw [getLast_proc hlast] at hstep
  have hnext : s.links.next (.child p) = (vs.map ProcPtr.proc ++ [ProcPtr.head (.child s.kernel)]).head
      (by simp) := hstep
  rw [hnext]
  cases vs with
  | nil => rfl
  | cons v vs => rfl

/-- So the macros write to lists only, and the calls return. -/
theorem TreeInv.run_isSome (hi : TreeInv s xs) (hparent : op.parent ∈ s.live)
    (hnew : ∀ new, op.new = some new → new ∉ s.live) : (op.run s).isSome := by
  have hadd : ∀ new, op.new = some new → (s.links.addProcess op.parent new).isSome := by
    intro new hn
    have hne : op.parent ≠ new := fun he => hnew new hn (he ▸ hparent)
    have hnext : (s.links.listInit (.child new)).next (.child op.parent) = s.links.next (.child op.parent) := by
      simp [ProcLinks.listInit, ProcLinks.setNext, ProcLinks.setPrev, hne]
    have hfirst : ((s.links.listInit (.child new)).listAdd ProcPtr.child (.child op.parent) new).isSome := by
      refine listAdd_isSome _ rfl (.inr ?_)
      rw [hnext]
      exact hi.child_isSome hparent
    obtain ⟨l, hl⟩ := Option.isSome_iff_exists.1 hfirst
    have hsys : l.next .sysinfo = s.links.next .sysinfo := by
      simp [listAdd_next rfl hl, ProcLinks.listInit, ProcLinks.setNext, ProcLinks.setPrev]
    rw [ProcLinks.addProcess, hl, Option.bind_some]
    refine listAdd_isSome _ rfl ?_
    rw [hsys]
    refine hi.sysinfo.imp_right ?_
    rintro ⟨q, hq⟩
    rw [hq]
    rfl
  cases op with
  | fork parent flag new pid fdFork mapFork =>
    cases new with
    | none => rfl
    | some new =>
      simp only [CreateOp.run, doFork, ProcMem.addProcess, Option.isSome_map]
      exact hadd new rfl
  | spawn parent new pid mapFork =>
    cases new with
    | none => rfl
    | some new =>
      simp only [CreateOp.run, doSpawn, ProcMem.addProcess, Option.isSome_map]
      exact hadd new rfl

theorem TreeInv.step (hi : TreeInv s xs) (h : CreateStep s op s') (hk : op.new = none ∨ op.keeps = true) :
    ∃ xs', TreeInv s' xs' := by
  rcases createStep_cases h with ⟨-, rfl⟩ | ⟨new, hn, hnew, hc⟩
  · exact ⟨xs, hi⟩
  · refine hi.created h.1 hnew hc (hk.resolve_left ?_)
    rw [hn]
    simp

theorem TreeInv.kernel_iff (hi : TreeInv s xs) :
    ChildListOk s s.kernel ↔ ∀ q ∈ s.live, q ≠ s.kernel → (s.proc q).parent = s.kernel := by
  rw [hi.visits.childListOk_iff (nodup_cons.1 hi.nodup).2]
  have hmem : ∀ q, q ∈ xs ↔ q ∈ s.live ∧ q ≠ s.kernel := by
    intro q
    rw [hi.live, mem_cons]
    have hq : q ∈ xs → q ≠ s.kernel := by
      rintro hq rfl
      exact (nodup_cons.1 hi.nodup).1 hq
    tauto
  simp only [hmem, IsChild]
  constructor
  · intro h q hq hne
    exact ((h q).1 ⟨hq, hne⟩).2.2
  · exact fun h q => ⟨fun hq => ⟨hq.1, hq.2, h q hq.1 hq.2⟩, fun hq => ⟨hq.1, hq.2.1⟩⟩

theorem TreeInv.not_ok (hi : TreeInv s xs) (hp : p ∈ s.live) (hne : p ≠ s.kernel) : ¬ ChildListOk s p := by
  rintro ⟨-, ys, hy, -⟩
  rw [hi.live] at hp
  obtain ⟨us, vs, rfl⟩ := append_of_mem ((mem_cons.1 hp).resolve_left hne)
  have hv := hi.visits
  rw [Visits, map_append, map_cons, path_append_cons] at hv
  have hend := path_end hv.2 hy
  exact hne (ProcHead.child.inj hend).symm

/-- After the first new record the lists are wrong, whatever becomes of it. -/
private theorem boot_step_iff {kernel : ρ} {proc : ρ → Proc ρ} {links : ProcLinks ρ}
    (h : CreateStep (processInit kernel proc links) op s') : (∀ p ∈ s'.live, ChildListOk s' p) ↔ op.new = none := by
  have h₀ := processInit_treeInv kernel proc links
  rcases createStep_cases h with ⟨hn, rfl⟩ | ⟨new, hn, hnew, hc⟩
  · refine iff_of_true ?_ hn
    intro p hp
    obtain rfl : p = kernel := mem_singleton.1 hp
    refine h₀.kernel_iff.2 ?_
    intro q hq hne
    exact absurd (mem_singleton.1 hq) hne
  · refine iff_of_false ?_ (by simp [hn])
    intro hall
    have hparent : op.parent = kernel := mem_singleton.1 h.1
    have hne : new ≠ kernel := fun he => hnew (he ▸ mem_singleton_self _)
    by_cases hk : op.keeps = true
    · obtain ⟨xs, hi⟩ := h₀.created h.1 hnew hc hk
      have hlive : new ∈ s'.live := by
        rw [hc.live, if_pos hk]
        exact mem_cons_self ..
      refine hi.not_ok hlive ?_ (hall new hlive)
      rwa [hc.kernel]
    · -- the record is free again, and on the list of the kernel process
      have hlive : s'.live = [kernel] := by
        rw [hc.live, if_neg hk]
        rfl
      have hok := hall kernel (by simp [hlive])
      have hnext := addProcess_childNext hc.links (hparent ▸ hne)
      have hhave : haveChildren s' kernel = true := by
        have := congrFun hnext (.proc kernel)
        rw [hparent, update_of_ne (by simpa using hne.symm), update_self] at this
        have hn' : s'.links.next (.child kernel) = .proc new := this
        simp [haveChildren, ProcLinks.listIsempty, hn']
      obtain ⟨q, hq, hqk, -⟩ := hok.nonempty.1 hhave
      rw [hlive, mem_singleton] at hq
      rw [hc.kernel] at hqk
      exact hqk hq

end Create

/-- The lists are right as long as no record is taken for a new process.  The list of the kernel process stays right as
long as all processes are its children; the one of another process never is. -/
theorem child_lists (kernel : ρ) (proc : ρ → Proc ρ) (links : ProcLinks ρ)
    {tr : List (ProcMem ρ × CreateOp ρ × ProcMem ρ)} {s : ProcMem ρ}
    (hr : Run CreateStep (processInit kernel proc links) tr s) :
    ((∀ x ∈ tr, ∀ p ∈ x.2.2.live, ChildListOk x.2.2 p) ↔ ∀ x ∈ tr, x.2.1.new = none) ∧
    ((∀ x ∈ tr, x.2.1.new = none ∨ x.2.1.keeps = true) →
      (ChildListOk s s.kernel ↔ ∀ q ∈ s.live, q ≠ s.kernel → (s.proc q).parent = s.kernel) ∧
      (∀ p ∈ s.live, p ≠ s.kernel → ¬ ChildListOk s p) ∧
      ∀ op : CreateOp ρ, op.parent ∈ s.live → (∀ new, op.new = some new → new ∉ s.live) → (op.run s).isSome) := by
  constructor
  · refine hr.forall_iff (fun s => s = processInit kernel proc links) (fun x => x.2.1.new = none)
      (fun x => ∀ p ∈ x.2.2.live, ChildListOk x.2.2 p) rfl ?_ ?_
    · rintro s op s' rfl hn h
      rcases createStep_cases h with ⟨-, rfl⟩ | ⟨new, hn', -⟩
      · rfl
      · rw [hn'] at hn
        cases hn
    · rintro s op s' rfl h
      exact boot_step_iff h
  · intro hk
    obtain ⟨xs, hi⟩ := hr.inv_of_guard (fun s => ∃ xs, TreeInv s xs) (fun x => x.2.1.new = none ∨ x.2.1.keeps = true)
      ⟨[], processInit_treeInv kernel proc links⟩ (fun s op s' ⟨xs, hi⟩ hk h => hi.step h hk) hk
    exact ⟨hi.kernel_iff, fun p hp hne => hi.not_ok hp hne, fun op => hi.run_isSome⟩

/-- The kernel process, `false`, and the memory of another process. -/
def kernelOnly : ProcMem Bool :=
  processInit false (fun _ => ⟨0, 0, 0, 0, 0, 0, false, none, 0, 0, 0, 0, 0, 0⟩) ⟨.head, .head⟩

def oneSpawned : ProcMem Bool := ((doSpawn kernelOnly false (some true) 500 true).map (·.1)).getD kernelOnly

private theorem oneSpawned_run :
    Run CreateStep kernelOnly [(kernelOnly, .spawn false (some true) 500 true, oneSpawned)] oneSpawned :=
  .snoc .nil ⟨by decide, by simp [CreateOp.new, kernelOnly, processInit], .ok true, rfl⟩

theorem child_lists_one_spawned : ChildListOk oneSpawned false ∧ ¬ ChildListOk oneSpawned true := by
  obtain ⟨hkernel, hothers, -⟩ := (child_lists _ _ _ oneSpawned_run).2 (by simp [CreateOp.keeps])
  exact ⟨hkernel.2 (by decide), hothers true (by decide) (by decide)⟩

/-- The kernel process spawns a process: it has no children, but its list is not empty. -/
theorem spawned_have_children :
    Run CreateStep kernelOnly [(kernelOnly, .spawn false (some true) 500 true, oneSpawned)] oneSpawned ∧
    haveChildren oneSpawned true = true ∧ ¬ ∃ q, IsChild oneSpawned true q := by
  refine ⟨oneSpawned_run, by decide, ?_⟩
  rintro ⟨q, hq⟩
  cases q with
  | false => exact hq.2.1 rfl
  | true => exact absurd hq.2.2 (by decide)

end Manrix
