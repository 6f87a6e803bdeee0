import Manrix.Mm.PmapCopy

/-!
# One kernel half for all processes

The directories of the processes have their own copies of the entries of `kernel_map` for the kernel half.
`kernel_map_update` writes a new entry to the directories of all processes on `sysinfo.proclist`, and a new map gets the
entries when it is created.  The steps are the calls of `pmap_enter`, the creation of maps in `vm_map_fork`, and the
changes of the list of processes by `do_fork`, `do_spawn`, `exec` and `exit`.

Before each step other parts of the kernel may have changed the list of free frames; all that is assumed is that the
frames on it are fresh.
-/

namespace Manrix

open Frames Function Runs

variable {π κ : Type*}

/-- The map is the map of a process on `sysinfo.proclist`. -/
def PmapState.OnList (s : PmapState π κ) (p : π) : Prop := ∃ c ∈ s.proclist, s.pmapOf c = p

def PmapState.setProcs (s : PmapState π κ) (proclist : List κ) (pmapOf : κ → π) : PmapState π κ :=
  { s with proclist, pmapOf }

/-- `vm_map_fork` has returned the new map of the process, which is on the list or is put there. -/
def PmapState.install [DecidableEq κ] (s : PmapState π κ) (c : κ) (p : π) : PmapState π κ :=
  s.setProcs (if c ∈ s.proclist then s.proclist else c :: s.proclist) (update s.pmapOf c p)

def sysinfoAddProcess (s : PmapState π κ) (c : κ) : PmapState π κ := s.setProcs (c :: s.proclist) s.pmapOf

def sysinfoDelProcess [DecidableEq κ] (s : PmapState π κ) (c : κ) : PmapState π κ :=
  s.setProcs (s.proclist.filter (· ≠ c)) s.pmapOf

/-- The frames are none of those that the kernel map and the maps of the processes have. -/
structure PmapState.Fresh (s : PmapState π κ) (free : List Frame) : Prop where
  nodup : free.Nodup
  unused : ∀ x ∈ free, s.Unused x
  ne_dir : ∀ x ∈ free, ∀ p, s.OnList p → x ≠ s.udir p
  not_table : ∀ x ∈ free, ∀ p, s.OnList p → ¬ s.UTable p x

inductive ShareOp (π κ : Type*) where
  | enterKernel (paddr vaddr protection : BitVec 32)
  | enterUser (c : κ) (paddr vaddr protection : BitVec 32)
  /-- A process is added that has the map of its parent as yet. -/
  | add (c parent : κ)
  | copy (c : κ) (map : π) (parent : κ)
  | share (c : κ) (map : π)
  | del (c : κ)

/-- A step from a state whose list of free frames is `free` by now. -/
def ShareStep [DecidableEq π] [DecidableEq κ] (s₀ : PmapState π κ) :
    List Frame × ShareOp π κ → PmapState π κ → Prop
  | (free, op), s' => s₀.Fresh free ∧
    let s := { s₀ with freePageList := free }
    match op with
    | .enterKernel paddr vaddr protection => kernelBase ≤ vaddr ∧ protection < 0x1000 ∧
        pmapEnter .kernelMap paddr vaddr protection s = some s'
    | .enterUser c paddr vaddr protection => c ∈ s.proclist ∧ vaddr < kernelBase ∧ protection < 0x1000 ∧
        pmapEnter (.user (s.pmapOf c)) paddr vaddr protection s = some s'
    | .add c parent => c ∉ s.proclist ∧ parent ∈ s.proclist ∧
        s' = sysinfoAddProcess { s with pmapOf := update s.pmapOf c (s.pmapOf parent) } c
    | .copy c map parent => ¬ s.OnList map ∧ parent ∈ s.proclist ∧
        ∃ s₁, pmapCopy map (s.pmapOf parent) s = some s₁ ∧ s' = s₁.install c map
    | .share c map => ¬ s.OnList map ∧ ∃ s₁, pmapShareKernel map s = some s₁ ∧ s' = s₁.install c map
    | .del c => s' = sysinfoDelProcess s c

/-- The kernel map and the maps of the processes are in order, and the latter have the kernel half of the former. -/
structure PmapState.SharedWf (s : PmapState π κ) : Prop where
  kernelWf : s.KernelWf
  userWf : s.UserWf s.OnList
  coherent : ∀ c ∈ s.proclist, s.Coherent (s.pmapOf c)

section Steps

variable {s s' : PmapState π κ} {P : π → Prop} {free : List Frame}

theorem PmapState.SharedWf.setFree (h : s.SharedWf) (hf : s.Fresh free) :
    PmapState.SharedWf { s with freePageList := free } where
  kernelWf :=
    ⟨h.kernelWf.kdir_ne_zero, h.kernelWf.kdir_not_table, h.kernelWf.kdir_not_proc, h.kernelWf.table_inj,
      h.kernelWf.table_not_proc, hf.nodup, fun x hx =>
        ⟨(hf.unused x hx).ne_zero, (hf.unused x hx).reachable, (hf.unused x hx).ne_kdir, (hf.unused x hx).not_table,
          (hf.unused x hx).not_proc⟩⟩
  userWf :=
    { h.userWf with
      dir_not_free := fun p hp hm => hf.ne_dir _ hm p hp rfl
      table_not_free := fun p x hp hx hm => hf.not_table x hm p hp hx }
  coherent := h.coherent

theorem PmapState.SharedWf.fresh (h : s.SharedWf) : s.Fresh s.freePageList where
  nodup := h.kernelWf.free_nodup
  unused := h.kernelWf.free_unused
  ne_dir _ hx p hp hd := h.userWf.dir_not_free p hp (hd ▸ hx)
  not_table x hx p hp ht := h.userWf.table_not_free p x hp ht hx

theorem PmapState.KernelWf.setProcs (hw : s.KernelWf) (hu : s.UserWf P) {l : List κ} {f : κ → π}
    (h : ∀ c ∈ l, P (f c)) : (s.setProcs l f).KernelWf ∧ (s.setProcs l f).UserWf P := by
  have hproc : ∀ x ∈ (s.setProcs l f).procDirs, ∃ p, P p ∧ s.udir p = x := by
    intro x hx
    obtain ⟨c, hc, rfl⟩ := List.mem_map.1 hx
    exact ⟨f c, h c hc, rfl⟩
  refine ⟨⟨hw.kdir_ne_zero, hw.kdir_not_table, fun hx => ?_, hw.table_inj, fun x hx hm => ?_, hw.free_nodup,
    fun x hx => ?_⟩, { hu with table_not_proc := fun p x hp hx hm => ?_ }⟩
  · obtain ⟨p, hp, hd⟩ := hproc _ hx
    exact hu.dir_ne_kdir p hp hd
  · obtain ⟨p, hp, rfl⟩ := hproc x hm
    exact hu.dir_not_table p hp hx
  · have hux := hw.free_unused x hx
    refine ⟨hux.ne_zero, hux.reachable, hux.ne_kdir, hux.not_table, fun hm => ?_⟩
    obtain ⟨p, hp, rfl⟩ := hproc x hm
    exact hu.dir_not_free p hp hx
  · obtain ⟨q, hq, rfl⟩ := hproc x hm
    exact hu.table_ne_dir p q _ hp hq hx rfl

theorem PmapState.SharedWf.setProcs (hw : s.KernelWf) (hu : s.UserWf P) {l : List κ} {f : κ → π}
    (h : ∀ c ∈ l, P (f c)) (hc : ∀ c ∈ l, s.Coherent (f c)) : (s.setProcs l f).SharedWf := by
  have hwf := hw.setProcs hu h
  refine ⟨hwf.1, hwf.2.anti ?_, hc⟩
  rintro q ⟨c, hc, rfl⟩
  exact h c hc

theorem Grown.sharedWf {taken : List Frame} {W : BitVec 10 → BitVec 10 → Prop} (h : Grown s s' taken W)
    (hs : s.SharedWf) (hw : s'.KernelWf) : s'.SharedWf := by
  have hlist : ∀ p, s'.OnList p ↔ s.OnList p := by
    intro p
    unfold PmapState.OnList
    rw [h.proclist, h.pmapOf]
  refine ⟨hw, (h.userWf hs.userWf).anti fun p => (hlist p).1, fun c hc => ?_⟩
  rw [h.proclist] at hc
  rw [h.pmapOf]
  exact h.coherent hc rfl (hs.coherent c hc)

variable [DecidableEq π]

theorem TableFor.sharedWf {s₁ : PmapState π κ} {p : π} {i : BitVec 10} {e : BitVec 32} {taken : List Frame}
    {row : BitVec 10 → BitVec 32} (h : TableFor s s₁ p i e taken) (hs : s.SharedWf) (hp : s.OnList p)
    (hi : i < ktableStart) : (withTable s₁ p i e row).SharedWf := by
  have hlist : ∀ q, (withTable s₁ p i e row).OnList q ↔ s.OnList q := by
    intro q
    unfold PmapState.OnList withTable
    rw [h.grown.proclist, h.grown.pmapOf]
  refine ⟨h.write_kernelWf hs.kernelWf hs.userWf hp hi, (h.write_userWf hs.userWf hp hi).anti fun q => (hlist q).1,
    fun c hc => ?_⟩
  have hc' : c ∈ s.proclist := h.grown.proclist ▸ hc
  have hpmap : (withTable s₁ p i e row).pmapOf c = s.pmapOf c := congrFun h.grown.pmapOf c
  rw [hpmap]
  exact h.write_coherent hs.userWf hp hi ⟨c, hc', rfl⟩ hc' rfl (hs.coherent c hc')

omit [DecidableEq π] in
/-- A new map that is installed in a process. -/
theorem NewMap.sharedWf [DecidableEq κ] {s₁ : PmapState π κ} {p : π} {c : κ} (h : NewMap s s₁ s.OnList p)
    (hs : s.SharedWf) : (s₁.install c p).SharedWf := by
  have hmaps : ∀ d ∈ s₁.proclist, s.OnList (s₁.pmapOf d) := by
    intro d hd
    rw [h.proclist] at hd
    rw [h.pmapOf]
    exact ⟨d, hd, rfl⟩
  have hcoh : ∀ d ∈ s₁.proclist, s₁.Coherent (s₁.pmapOf d) := by
    intro d hd
    have ho := hmaps d hd
    rw [h.proclist] at hd
    rw [h.pmapOf] at ho ⊢
    exact h.coherent d hd ho (hs.coherent d hd)
  have hold : ∀ d, d ≠ c → d ∈ (if c ∈ s₁.proclist then s₁.proclist else c :: s₁.proclist) → d ∈ s₁.proclist := by
    intro d hdc hd
    split at hd
    · exact hd
    · exact (List.mem_cons.1 hd).resolve_left hdc
  refine PmapState.SharedWf.setProcs h.kernelWf h.userWf ?_ ?_
  · intro d hd
    by_cases hdc : d = c
    · subst hdc
      rw [update_self]
      exact .inl rfl
    · rw [update_of_ne hdc]
      exact .inr (hmaps d (hold d hdc hd))
  · intro d hd
    by_cases hdc : d = c
    · subst hdc
      rw [update_self]
      exact h.self
    · rw [update_of_ne hdc]
      exact hcoh d (hold d hdc hd)

theorem ShareStep.sharedWf [DecidableEq κ] {op : ShareOp π κ} (h : ShareStep s (free, op) s') (hs : s.SharedWf) :
    s'.SharedWf := by
  obtain ⟨hf, h⟩ := h
  have hs₀ := hs.setFree hf
  cases op with
  | enterKernel paddr vaddr protection =>
    obtain ⟨hv, hp, h⟩ := h
    have hv' : ktableStart ≤ addrToPdenum vaddr := by
      have := (addrToPdenum_lt_iff vaddr).1
      bv_omega
    obtain ⟨taken, hg, hw, -⟩ := pmapEnterWith_kernel pageTableAllocate_ok hs₀.kernelWf hv' hp h
    exact hg.sharedWf hs₀ hw
  | enterUser c paddr vaddr protection =>
    obtain ⟨hc, hv, hp, h⟩ := h
    obtain ⟨s₁, taken, e, ht, rfl, -⟩ :=
      pmapEnterWith_user pageTableAllocate_ok hs₀.kernelWf hs₀.userWf ⟨c, hc, rfl⟩ hp h
    exact ht.sharedWf hs₀ ⟨c, hc, rfl⟩ ((addrToPdenum_lt_iff vaddr).2 hv)
  | add c parent =>
    obtain ⟨hc, hparent, rfl⟩ := h
    have hmap : ∀ d ∈ c :: s.proclist, ∃ d' ∈ s.proclist,
        update s.pmapOf c (s.pmapOf parent) d = s.pmapOf d' := by
      intro d hd
      by_cases hdc : d = c
      · subst hdc
        exact ⟨parent, hparent, update_self ..⟩
      · exact ⟨d, (List.mem_cons.1 hd).resolve_left hdc, update_of_ne hdc ..⟩
    refine PmapState.SharedWf.setProcs hs₀.kernelWf hs₀.userWf (fun d hd => ?_) fun d hd => ?_
    · obtain ⟨d', hd', he⟩ := hmap d hd
      exact ⟨d', hd', he.symm⟩
    · obtain ⟨d', hd', he⟩ := hmap d hd
      change PmapState.Coherent _ (update s.pmapOf c (s.pmapOf parent) d)
      rw [he]
      exact hs₀.coherent d' hd'
  | copy c map parent =>
    obtain ⟨hmap, hparent, s₁, h, rfl⟩ := h
    exact (pmapCopy_ok hs₀.kernelWf hs₀.userWf ⟨parent, hparent, rfl⟩ hmap h).1.sharedWf hs₀
  | share c map =>
    obtain ⟨hmap, s₁, h, rfl⟩ := h
    exact (pmapShareKernel_ok hs₀.kernelWf hs₀.userWf hmap h).sharedWf hs₀
  | del c =>
    rw [h]
    have hmem : ∀ d ∈ s.proclist.filter (· ≠ c), d ∈ s.proclist := fun d hd => (List.mem_filter.1 hd).1
    exact PmapState.SharedWf.setProcs hs₀.kernelWf hs₀.userWf (fun d hd => ⟨d, hmem d hd, rfl⟩)
      fun d hd => hs₀.coherent d (hmem d hd)

/-- The processes on the list have the directory entries of `kernel_map` in the kernel half. -/
theorem kernel_half_shared [DecidableEq κ] {tr : List (PmapState π κ × (List Frame × ShareOp π κ) × PmapState π κ)}
    (h : s.SharedWf) (hr : Run ShareStep s tr s') :
    ∀ c ∈ s'.proclist, ∀ i, ktableStart ≤ i → s'.upde (s'.pmapOf c) i = s'.kpde i := by
  have hs' := hr.inv PmapState.SharedWf h fun _ _ _ hs hst => hst.sharedWf hs
  exact hs'.coherent

private theorem twoPmaps_sharedWf : twoPmaps.SharedWf := by
  refine ⟨twoPmaps_kernelWf, (twoPmaps_apart.userWf twoPmaps_distinct (by decide)).anti ?_, fun c _ i hi => ?_⟩
  · rintro q ⟨c, -, rfl⟩
    rfl
  · have hi0 : i ≠ 0 := by
      rintro rfl
      exact absurd hi (by decide)
    change twoPmaps.mem 3 i = twoPmaps.mem 1 i
    simp only [twoPmaps]
    rw [if_neg fun h => hi0 h.2]
    simp

/-- The kernel map gets a table, and then the process gets a new map. -/
theorem kernel_half_shared_exec : ∃ tr s', Run ShareStep twoPmaps tr s' ∧ () ∈ s'.proclist ∧ s'.pmapOf () = true ∧
    s'.upde true 897 = s'.kpde 897 ∧ s'.kpde 897 = 0x10003 := by
  obtain ⟨s₁, hs₁⟩ : ∃ s₁, pmapEnter .kernelMap 0x400000 0xE0400000 2 twoPmaps = some s₁ :=
    Option.isSome_iff_exists.1 (by decide)
  have h₁ : ShareStep twoPmaps (twoPmaps.freePageList, .enterKernel 0x400000 0xE0400000 2) s₁ :=
    ⟨twoPmaps_sharedWf.fresh, by decide, by decide, hs₁⟩
  have hboth : ((pmapEnter .kernelMap 0x400000 0xE0400000 2 twoPmaps).bind (pmapShareKernel true)).map
      (fun s => (s.kpde 897, s.proclist)) = some (0x10003, [()]) := by decide +kernel
  rw [hs₁, Option.bind_some] at hboth
  obtain ⟨s₂, hs₂, hpair⟩ := Option.map_eq_some_iff.1 hboth
  obtain ⟨hkpde, hlist⟩ := Prod.mk.inj hpair
  have hmap : ¬ s₁.OnList true := by
    rintro ⟨c, -, hc⟩
    have hpmap : (pmapEnter .kernelMap 0x400000 0xE0400000 2 twoPmaps).map (fun s => s.pmapOf ()) = some false := by
      decide
    rw [hs₁, Option.map_some] at hpmap
    exact absurd (hc.symm.trans (Option.some.inj hpmap)) (by decide)
  have h₂ : ShareStep s₁ (s₁.freePageList, .share () true) (s₂.install () true) :=
    ⟨(h₁.sharedWf twoPmaps_sharedWf).fresh, hmap, s₂, hs₂, rfl⟩
  have hr := (Run.nil.snoc h₁).snoc h₂
  have hmem : () ∈ (s₂.install () true).proclist := by simp [PmapState.install, PmapState.setProcs, hlist]
  have hpmap : (s₂.install () true).pmapOf () = true := by simp [PmapState.install, PmapState.setProcs]
  have hshared := kernel_half_shared twoPmaps_sharedWf hr () hmem 897 (by decide)
  rw [hpmap] at hshared
  exact ⟨_, _, hr, hmem, hpmap, hshared, hkpde⟩

end Steps

end Manrix
