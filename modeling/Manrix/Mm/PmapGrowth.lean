import Manrix.Mm.Pmap

/-!
# The growth of the kernel map

What `page_table_allocate`, and `pmap_enter` on `kernel_map`, do to the memory: they take frames off the free list, use
some of them for new kernel tables, whose directory entries they also write to the directories of the processes, and
change words of kernel tables only for the pages they enter.  `Grown` says this in one piece; it is proved for the
recursion of the two functions, and all later results about page maps rest on it.
-/

namespace Manrix

open Frames List

variable {π κ : Type*}

abbrev PmapState.kdir (s : PmapState π κ) : Frame := s.pdbr .kernelMap

/-- The directory entry of `kernel_map`. -/
abbrev PmapState.kpde (s : PmapState π κ) (i : BitVec 10) : BitVec 32 := s.mem s.kdir i

/-- The frame is a table of the kernel half of `kernel_map`. -/
def PmapState.KTable (s : PmapState π κ) (x : Frame) : Prop :=
  ∃ i, ktableStart ≤ i ∧ s.kpde i ≠ 0 ∧ frameOf (s.kpde i) = x

/-- The frame is a frame that the kernel reaches, and none of those that the growth of the kernel map writes. -/
structure PmapState.Unused (s : PmapState π κ) (x : Frame) : Prop where
  ne_zero : x ≠ 0
  reachable : x.Reachable
  ne_kdir : x ≠ s.kdir
  not_table : ¬ s.KTable x
  not_proc : x ∉ s.procDirs

/-- The kernel half has distinct tables, apart from the directories, and the free frames are unused. -/
structure PmapState.KernelWf (s : PmapState π κ) : Prop where
  kdir_ne_zero : s.kdir ≠ 0
  kdir_not_table : ¬ s.KTable s.kdir
  kdir_not_proc : s.kdir ∉ s.procDirs
  table_inj : ∀ i j, ktableStart ≤ i → ktableStart ≤ j → s.kpde i ≠ 0 → s.kpde j ≠ 0 →
    frameOf (s.kpde i) = frameOf (s.kpde j) → i = j
  table_not_proc : ∀ x, s.KTable x → x ∉ s.procDirs
  free_nodup : s.freePageList.Nodup
  free_unused : ∀ x ∈ s.freePageList, s.Unused x

/-- The pages at which the kernel reaches the given frames. -/
def KernelPages (xs : List Frame) (i j : BitVec 10) : Prop :=
  ∃ x ∈ xs, addrToPdenum x.kernelAddr = i ∧ addrToPtenum x.kernelAddr = j

/-- The kernel map has grown by the frames `taken`, and entries were written for the pages `W`. -/
structure Grown (s s' : PmapState π κ) (taken : List Frame) (W : BitVec 10 → BitVec 10 → Prop) : Prop where
  free : s.freePageList = taken ++ s'.freePageList
  pdbr : s'.pdbr = s.pdbr
  proclist : s'.proclist = s.proclist
  pmapOf : s'.pmapOf = s.pmapOf
  keep : ∀ i, s.kpde i ≠ 0 → s'.kpde i = s.kpde i
  new : ∀ i, s.kpde i = 0 → s'.kpde i ≠ 0 → ktableStart ≤ i ∧ frameOf (s'.kpde i) ∈ taken ∧
    ∀ j, s'.mem (frameOf (s'.kpde i)) j ≠ 0 → W i j
  table : ∀ i, ktableStart ≤ i → s.kpde i ≠ 0 → ∀ j, ¬ W i j →
    s'.mem (frameOf (s.kpde i)) j = s.mem (frameOf (s.kpde i)) j
  proc : ∀ x ∈ s.procDirs, ∀ i, s'.mem x i = if s.kpde i = 0 ∧ s'.kpde i ≠ 0 then s'.kpde i else s.mem x i
  other : ∀ x, x ∉ taken → x ≠ s.kdir → ¬ s.KTable x → x ∉ s.procDirs → s'.mem x = s.mem x

section Grown

variable {s s' : PmapState π κ} {taken : List Frame} {W W' : BitVec 10 → BitVec 10 → Prop}

theorem Grown.refl (s : PmapState π κ) (W : BitVec 10 → BitVec 10 → Prop) : Grown s s [] W where
  free := rfl
  pdbr := rfl
  proclist := rfl
  pmapOf := rfl
  keep _ _ := rfl
  new _ h h' := absurd h h'
  table _ _ _ _ _ := rfl
  proc x _ i := by
    rw [if_neg]
    rintro ⟨h, h'⟩
    exact h' h
  other _ _ _ _ _ := rfl

theorem Grown.mono (h : Grown s s' taken W) (hW : ∀ i j, W i j → W' i j) : Grown s s' taken W' where
  free := h.free
  pdbr := h.pdbr
  proclist := h.proclist
  pmapOf := h.pmapOf
  keep := h.keep
  new i h0 h1 := ⟨(h.new i h0 h1).1, (h.new i h0 h1).2.1, fun j hj => hW i j ((h.new i h0 h1).2.2 j hj)⟩
  table i hi h0 j hj := h.table i hi h0 j fun hw => hj (hW i j hw)
  proc := h.proc
  other := h.other

theorem Grown.kdir (h : Grown s s' taken W) : s'.kdir = s.kdir := congrFun h.pdbr _

theorem Grown.procDirs (h : Grown s s' taken W) : s'.procDirs = s.procDirs := by
  unfold PmapState.procDirs
  rw [h.proclist, h.pdbr, h.pmapOf]

theorem Grown.table_or_taken (h : Grown s s' taken W) {x : Frame} (hx : s'.KTable x) : s.KTable x ∨ x ∈ taken := by
  obtain ⟨i, hi, h0, rfl⟩ := hx
  by_cases hs : s.kpde i = 0
  · exact .inr (h.new i hs h0).2.1
  · rw [h.keep i hs]
    exact .inl ⟨i, hi, hs, rfl⟩

theorem Grown.unused (h : Grown s s' taken W) {x : Frame} (hx : s.Unused x) (ht : x ∉ taken) : s'.Unused x where
  ne_zero := hx.ne_zero
  reachable := hx.reachable
  ne_kdir := h.kdir ▸ hx.ne_kdir
  not_table hk := (h.table_or_taken hk).elim hx.not_table ht
  not_proc := h.procDirs ▸ hx.not_proc

end Grown

/-- The kernel map is well formed as long as the entries of its directory are the same. -/
theorem PmapState.KernelWf.congr {s s' : PmapState π κ} (hw : s.KernelWf) (hp : s'.pdbr = s.pdbr)
    (hl : s'.procDirs = s.procDirs) (hk : ∀ i, s'.kpde i = s.kpde i)
    (hf : s'.freePageList.Sublist s.freePageList) : s'.KernelWf := by
  have hkdir : s'.kdir = s.kdir := congrFun hp _
  have htable : ∀ x, s'.KTable x ↔ s.KTable x := by
    intro x
    unfold PmapState.KTable
    simp only [hk]
  refine ⟨?_, ?_, ?_, ?_, ?_, ?_, ?_⟩
  · rw [hkdir]
    exact hw.kdir_ne_zero
  · rw [htable, hkdir]
    exact hw.kdir_not_table
  · rw [hkdir, hl]
    exact hw.kdir_not_proc
  · simp only [hk]
    exact hw.table_inj
  · intro x hx
    rw [hl]
    exact hw.table_not_proc x ((htable x).1 hx)
  · exact hf.nodup hw.free_nodup
  · intro x hx
    have hu := hw.free_unused x (hf.subset hx)
    exact ⟨hu.ne_zero, hu.reachable, hkdir ▸ hu.ne_kdir, fun h => hu.not_table ((htable x).1 h), hl ▸ hu.not_proc⟩

section Steps

variable {s s₁ : PmapState π κ} {taken : List Frame} {W : BitVec 10 → BitVec 10 → Prop} {t : Frame}
  {i j : BitVec 10} {e : BitVec 32}

/-- The end of the branch of `pmap_enter` for a missing table of `kernel_map`. -/
def installTable (s : PmapState π κ) (i : BitVec 10) (e : BitVec 32) : PmapState π κ :=
  { s with mem := setWord (kernelMapUpdate s e i).mem s.kdir i e }

private theorem installTable_mem (s : PmapState π κ) (i : BitVec 10) (e : BitVec 32) (x : Frame) (j : BitVec 10) :
    (installTable s i e).mem x j = if j = i ∧ (x = s.kdir ∨ x ∈ s.procDirs) then e else s.mem x j := by
  simp only [installTable, kernelMapUpdate, setWord_apply, setWords_apply]
  by_cases hj : j = i <;> by_cases hx : x = s.kdir <;> by_cases hp : x ∈ s.procDirs <;> simp [hj, hx, hp]

theorem installTable_kpde (s : PmapState π κ) (i : BitVec 10) (e : BitVec 32) (j : BitVec 10) :
    (installTable s i e).kpde j = if j = i then e else s.kpde j := by
  change (installTable s i e).mem s.kdir j = _
  simp [installTable_mem]

private theorem installTable_table {x : Frame} : (installTable s i e).KTable x → x = frameOf e ∨ s.KTable x := by
  rintro ⟨k, hk, h0, rfl⟩
  rw [installTable_kpde] at h0 ⊢
  by_cases hki : k = i
  · simp [hki]
  · rw [if_neg hki] at h0 ⊢
    exact .inr ⟨k, hk, h0, rfl⟩

theorem installTable_mem_of_ne {x : Frame} (hk : x ≠ s.kdir) (hp : x ∉ s.procDirs) :
    (installTable s i e).mem x = s.mem x := by
  funext k
  rw [installTable_mem, if_neg]
  rintro ⟨-, h | h⟩
  · exact hk h
  · exact hp h

theorem PmapState.KernelWf.install (hw : s.KernelWf) (ht : s.Unused (frameOf e))
    (hf : frameOf e ∉ s.freePageList) : (installTable s i e).KernelWf where
  kdir_ne_zero := hw.kdir_ne_zero
  kdir_not_table h := (installTable_table h).elim (fun h => ht.ne_kdir h.symm) hw.kdir_not_table
  kdir_not_proc := hw.kdir_not_proc
  table_inj a b ha hb ha0 hb0 hab := by
    rw [installTable_kpde] at ha0 hb0 hab
    rw [installTable_kpde] at hab
    by_cases hai : a = i <;> by_cases hbi : b = i
    · rw [hai, hbi]
    · rw [if_pos hai, if_neg hbi] at hab
      rw [if_neg hbi] at hb0
      exact absurd ⟨b, hb, hb0, hab.symm⟩ ht.not_table
    · rw [if_neg hai, if_pos hbi] at hab
      rw [if_neg hai] at ha0
      exact absurd ⟨a, ha, ha0, hab⟩ ht.not_table
    · rw [if_neg hai, if_neg hbi] at hab
      rw [if_neg hai] at ha0
      rw [if_neg hbi] at hb0
      exact hw.table_inj a b ha hb ha0 hb0 hab
  table_not_proc x hx := by
    rcases installTable_table hx with rfl | h
    · exact ht.not_proc
    · exact hw.table_not_proc x h
  free_nodup := hw.free_nodup
  free_unused x hx := by
    have hu := hw.free_unused x hx
    refine ⟨hu.ne_zero, hu.reachable, hu.ne_kdir, fun h => ?_, hu.not_proc⟩
    rcases installTable_table h with rfl | h
    · exact hf hx
    · exact hu.not_table h

/-- The table `t`, which was taken and is still empty, is installed where there was none. -/
theorem Grown.install (hw : s.KernelWf) (hw₁ : s₁.KernelWf) (h : Grown s s₁ taken W) (h0 : s.kpde i = 0)
    (hi : ktableStart ≤ i)
    (he : e ≠ 0) (ht : frameOf e ∈ taken) (hu : s₁.Unused (frameOf e)) (hz : ∀ j, s₁.mem (frameOf e) j = 0) :
    Grown s (installTable s₁ i e) taken W where
  free := h.free
  pdbr := h.pdbr
  proclist := h.proclist
  pmapOf := h.pmapOf
  keep k hk := by
    have hki : k ≠ i := by
      rintro rfl
      exact hk h0
    rw [installTable_kpde, if_neg hki]
    exact h.keep k hk
  new k hk0 hk := by
    rw [installTable_kpde] at hk ⊢
    by_cases hki : k = i
    · rw [if_pos hki]
      refine ⟨hki ▸ hi, ht, fun j hj => absurd ?_ hj⟩
      rw [installTable_mem_of_ne hu.ne_kdir hu.not_proc, hz]
    · rw [if_neg hki] at hk ⊢
      obtain ⟨hstart, htaken, hW⟩ := h.new k hk0 hk
      have htable : s₁.KTable (frameOf (s₁.kpde k)) := ⟨k, hstart, hk, rfl⟩
      refine ⟨hstart, htaken, fun j hj => hW j ?_⟩
      rwa [installTable_mem_of_ne _ (hw₁.table_not_proc _ htable)] at hj
      intro hkd
      exact hw₁.kdir_not_table (hkd ▸ htable)
  table k hk hk0 j hj := by
    rw [installTable_mem_of_ne, h.table k hk hk0 j hj]
    · rw [h.kdir]
      intro hkd
      exact hw.kdir_not_table (hkd ▸ ⟨k, hk, hk0, rfl⟩)
    · rw [h.procDirs]
      exact hw.table_not_proc _ ⟨k, hk, hk0, rfl⟩
  proc x hx k := by
    rw [installTable_kpde, installTable_mem]
    by_cases hki : k = i
    · rw [if_pos hki, if_pos ⟨hki, .inr (h.procDirs ▸ hx)⟩, if_pos ⟨hki ▸ h0, he⟩]
    · rw [if_neg hki, if_neg fun hk => hki hk.1]
      exact h.proc x hx k
  other x hx hk hkt hp := by
    rw [installTable_mem_of_ne (h.kdir ▸ hk) (h.procDirs ▸ hp)]
    exact h.other x hx hk hkt hp

/-- An entry of a kernel table is written. -/
def setEntry (s : PmapState π κ) (i j : BitVec 10) (w : BitVec 32) : PmapState π κ :=
  { s with mem := setWord s.mem (frameOf (s.kpde i)) j w }

theorem PmapState.KernelWf.ne_table (hw : s.KernelWf) (hi : ktableStart ≤ i) (h0 : s.kpde i ≠ 0) :
    s.kdir ≠ frameOf (s.kpde i) := by
  intro hk
  exact hw.kdir_not_table (hk ▸ ⟨i, hi, h0, rfl⟩)

theorem PmapState.KernelWf.setEntry (hw : s.KernelWf) (hi : ktableStart ≤ i) (h0 : s.kpde i ≠ 0) (w : BitVec 32) :
    (setEntry s i j w).KernelWf := by
  refine hw.congr rfl rfl (fun k => ?_) (List.Sublist.refl _)
  exact congrFun (setWord_of_ne_frame (hw.ne_table hi h0)) k

theorem Grown.setEntry (hw₁ : s₁.KernelWf) (h : Grown s s₁ taken W) (hi : ktableStart ≤ i) (h0 : s₁.kpde i ≠ 0)
    (w : BitVec 32) : Grown s (setEntry s₁ i j w) taken fun a b => W a b ∨ a = i ∧ b = j := by
  have htable : s₁.KTable (frameOf (s₁.kpde i)) := ⟨i, hi, h0, rfl⟩
  have hkpde : ∀ k, (Manrix.setEntry s₁ i j w).kpde k = s₁.kpde k :=
    fun k => congrFun (setWord_of_ne_frame (hw₁.ne_table hi h0)) k
  have hmem : ∀ x, x ≠ frameOf (s₁.kpde i) → (Manrix.setEntry s₁ i j w).mem x = s₁.mem x :=
    fun x hx => setWord_of_ne_frame hx
  -- a word of a table that is not the one written
  have hword : ∀ k l, ktableStart ≤ k → s₁.kpde k ≠ 0 → ¬ (k = i ∧ l = j) →
      (Manrix.setEntry s₁ i j w).mem (frameOf (s₁.kpde k)) l = s₁.mem (frameOf (s₁.kpde k)) l := by
    intro k l hk hk0 hkl
    by_cases hx : frameOf (s₁.kpde k) = frameOf (s₁.kpde i)
    · have hki := hw₁.table_inj k i hk hi hk0 h0 hx
      exact setWord_of_ne_index fun hl => hkl ⟨hki, hl⟩
    · rw [hmem _ hx]
  refine ⟨h.free, h.pdbr, h.proclist, h.pmapOf, fun k hk => ?_, fun k hk0 hk => ?_, fun k hk hk0 l hl => ?_,
    fun x hx k => ?_, fun x hx hk hkt hp => ?_⟩
  · rw [hkpde]
    exact h.keep k hk
  · rw [hkpde] at hk ⊢
    obtain ⟨hstart, htaken, hW⟩ := h.new k hk0 hk
    refine ⟨hstart, htaken, fun l hl => ?_⟩
    by_cases hkl : k = i ∧ l = j
    · exact .inr hkl
    · rw [hword k l hstart hk hkl] at hl
      exact .inl (hW l hl)
  · have hkeep := h.keep k hk0
    have := hword k l hk (hkeep ▸ hk0) fun hkl => hl (.inr hkl)
    rw [hkeep] at this
    rw [this]
    exact h.table k hk hk0 l fun hw => hl (.inl hw)
  · rw [hkpde, hmem x]
    · exact h.proc x hx k
    · rintro rfl
      exact hw₁.table_not_proc _ htable (h.procDirs ▸ hx)
  · rw [hmem x]
    · exact h.other x hx hk hkt hp
    · rintro rfl
      exact (h.table_or_taken htable).elim hkt hx

end Steps

/-- What `page_table_allocate` does: the frame it returns is one of those taken, it is clear, and nothing uses it. -/
structure Allocated (s s' : PmapState π κ) (t : Frame) (taken : List Frame) : Prop where
  grown : Grown s s' taken (KernelPages taken)
  wf : s'.KernelWf
  mem_taken : t ∈ taken
  unused : s'.Unused t
  not_free : t ∉ s'.freePageList
  zero : ∀ j, s'.mem t j = 0

def AllocatesTable (alloc : PmapState π κ → Option (PmapState π κ × Frame)) : Prop :=
  ∀ s s' t, s.KernelWf → alloc s = some (s', t) → ∃ taken, Allocated s s' t taken

/-- The pages of the taken frames and the page of the address. -/
def KernelPagesOr (taken : List Frame) (va : BitVec 32) (i j : BitVec 10) : Prop :=
  KernelPages taken i j ∨ i = addrToPdenum va ∧ j = addrToPtenum va

section Recursion

variable [DecidableEq π] {alloc : PmapState π κ → Option (PmapState π κ × Frame)} {s s' : PmapState π κ}
  {paddr va protection : BitVec 32} {x : Frame} {page : Frame}

theorem enterDirectory_of_ne_zero {map : Pmap π} (h : s.pdbr map ≠ 0) :
    enterDirectory alloc map s = some (s, s.pdbr map) :=
  if_neg h

private theorem enterTable_kernel {i : BitVec 10} {pte : Frame} (ha : AllocatesTable alloc) (hw : s.KernelWf)
    (hi : ktableStart ≤ i) (hp : protection < 0x1000)
    (h : enterTable alloc .kernelMap s.kdir i protection s = some (s', pte)) :
    ∃ taken, Grown s s' taken (KernelPages taken) ∧ s'.KernelWf ∧ s'.kpde i ≠ 0 ∧ frameOf (s'.kpde i) = pte := by
  unfold enterTable at h
  by_cases h0 : s.kpde i = 0
  · rw [if_pos h0] at h
    cases hal : alloc s with
    | none => simp [hal] at h
    | some r =>
      obtain ⟨s₁, t⟩ := r
      obtain ⟨taken, ht⟩ := ha s s₁ t hw hal
      simp only [hal, if_true, Option.some.injEq, Prod.mk.injEq] at h
      obtain ⟨hs, rfl⟩ := h
      have hs' : s' = installTable s₁ i (addrToPte t.base ||| pagePresent ||| protection) := by
        rw [← hs, ← ht.grown.kdir]
        rfl
      have hframe := frameOf_base_entry t hp
      have hne := entry_ne_zero t.base protection
      refine ⟨taken, ?_, ?_, ?_, ?_⟩
      · rw [hs']
        exact ht.grown.install hw ht.wf h0 hi hne (hframe.symm ▸ ht.mem_taken) (hframe.symm ▸ ht.unused)
          (hframe.symm ▸ ht.zero)
      · rw [hs']
        exact ht.wf.install (hframe.symm ▸ ht.unused) (hframe.symm ▸ ht.not_free)
      · rw [hs', installTable_kpde, if_pos rfl]
        exact hne
      · rw [hs', installTable_kpde, if_pos rfl]
        exact hframe
  · rw [if_neg h0] at h
    cases h
    exact ⟨[], Grown.refl s _, hw, h0, rfl⟩

/-- Entering a page in `kernel_map`. -/
theorem pmapEnterWith_kernel (ha : AllocatesTable alloc) (hw : s.KernelWf) (hv : ktableStart ≤ addrToPdenum va)
    (hp : protection < 0x1000) (h : pmapEnterWith alloc .kernelMap paddr va protection s = some s') :
    ∃ taken, Grown s s' taken (KernelPagesOr taken va) ∧ s'.KernelWf ∧
      s'.walk .kernelMap va = some (addrToPte paddr ||| pagePresent ||| protection) := by
  unfold pmapEnterWith at h
  rw [enterDirectory_of_ne_zero hw.kdir_ne_zero] at h
  simp only at h
  split at h
  · cases h
  · rename_i s₁ pte ht
    obtain ⟨taken, hg, hw₁, h0, hpte⟩ := enterTable_kernel ha hw hv hp ht
    have hs' : s' = setEntry s₁ (addrToPdenum va) (addrToPtenum va)
        (addrToPte paddr ||| pagePresent ||| protection) := by
      rw [← Option.some.inj h, setEntry, hpte]
    have hkpde : s'.kpde (addrToPdenum va) = s₁.kpde (addrToPdenum va) := by
      rw [hs']
      exact congrFun (setWord_of_ne_frame (hw₁.ne_table hv h0)) _
    refine ⟨taken, ?_, ?_, ?_⟩
    · rw [hs']
      exact hg.setEntry hw₁ hv h0 _
    · rw [hs']
      exact hw₁.setEntry hv h0 _
    · have hk0 : s'.pdbr .kernelMap ≠ 0 := by
        rw [hs']
        exact hw₁.kdir_ne_zero
      rw [PmapState.walk_eq hk0 hkpde h0, hs']
      simp [setEntry]

omit [DecidableEq π] in
theorem Grown.cons_free {rest taken : List Frame} {s₁ : PmapState π κ}
    {W : BitVec 10 → BitVec 10 → Prop} (hfree : s.freePageList = page :: rest)
    (h : Grown (s.takePage page rest) s₁ taken W) : Grown s s₁ (page :: taken) W where
  free := by
    rw [hfree, cons_append]
    exact congrArg (page :: ·) h.free
  pdbr := h.pdbr
  proclist := h.proclist
  pmapOf := h.pmapOf
  keep := h.keep
  new i h0 h1 := ⟨(h.new i h0 h1).1, mem_cons_of_mem _ (h.new i h0 h1).2.1, (h.new i h0 h1).2.2⟩
  table := h.table
  proc := h.proc
  other x hx := h.other x fun hm => hx (mem_cons_of_mem _ hm)

omit [DecidableEq π] in
theorem PmapState.Unused.clear_kpde (hu : s.Unused x) (i : BitVec 10) : (s.clear x).kpde i = s.kpde i :=
  congrFun (PmapState.clear_mem_of_ne hu.ne_kdir.symm) i

omit [DecidableEq π] in
theorem PmapState.KernelWf.clear (hw : s.KernelWf) (hu : s.Unused x) : (s.clear x).KernelWf :=
  hw.congr rfl rfl hu.clear_kpde (List.Sublist.refl _)

omit [DecidableEq π] in
theorem PmapState.Unused.clear (hu : s.Unused x) : (s.clear x).Unused x := by
  refine ⟨hu.1, hu.2, hu.3, ?_, hu.5⟩
  rintro ⟨i, hi, h0, hx⟩
  rw [hu.clear_kpde] at h0 hx
  exact hu.not_table ⟨i, hi, h0, hx⟩

omit [DecidableEq π] in
/-- A frame that was taken, and is unused, is cleared. -/
theorem Grown.clear {taken : List Frame} {s₁ : PmapState π κ} {W : BitVec 10 → BitVec 10 → Prop}
    (hw : s.KernelWf) (h : Grown s s₁ taken W) (hx : x ∈ taken) (hu : s₁.Unused x) : Grown s (s₁.clear x) taken W := by
  have hkpde := hu.clear_kpde
  have hfree : s.Unused x := hw.free_unused x (h.free ▸ mem_append_left _ hx)
  refine ⟨h.free, h.pdbr, h.proclist, h.pmapOf, fun i hi => ?_, fun i h0 h1 => ?_, fun i hi h0 j hj => ?_,
    fun y hy i => ?_, fun y hy hk ht hp => ?_⟩
  · rw [hkpde]
    exact h.keep i hi
  · rw [hkpde] at h1 ⊢
    obtain ⟨hi, ht, hW⟩ := h.new i h0 h1
    refine ⟨hi, ht, fun j hj => hW j ?_⟩
    have hne : frameOf (s₁.kpde i) ≠ x := fun he => hu.not_table (he ▸ ⟨i, hi, h1, rfl⟩)
    rwa [PmapState.clear_mem_of_ne hne] at hj
  · have hne : frameOf (s.kpde i) ≠ x := fun he => hfree.not_table (he ▸ ⟨i, hi, h0, rfl⟩)
    rw [PmapState.clear_mem_of_ne hne]
    exact h.table i hi h0 j hj
  · have hne : y ≠ x := by
      rintro rfl
      exact hfree.not_proc hy
    rw [hkpde, PmapState.clear_mem_of_ne hne]
    exact h.proc y hy i
  · have hne : y ≠ x := by
      rintro rfl
      exact hy hx
    rw [PmapState.clear_mem_of_ne hne]
    exact h.other y hy hk ht hp

theorem kernelPagesOr_iff {taken : List Frame} {i j : BitVec 10} :
    KernelPagesOr taken page.kernelAddr i j ↔ KernelPages (page :: taken) i j := by
  unfold KernelPagesOr KernelPages
  rw [exists_mem_cons_iff, or_comm]
  simp only [eq_comm]

theorem pageTableAllocateUpTo_ok (n : Nat) : AllocatesTable (pageTableAllocateUpTo n : PmapState π κ → _) := by
  induction n with
  | zero =>
    intro s s' t _ h
    cases h
  | succ n ih =>
    intro s s' t hw h
    unfold pageTableAllocateUpTo at h
    split at h
    · cases h
    · rename_i page rest hfree
      have hu := hw.free_unused page (by simp [hfree])
      have hnd := hw.free_nodup
      rw [hfree, nodup_cons] at hnd
      dsimp only at h
      split at h
      · cases h
      · rename_i s₁ hs₁
        obtain ⟨rfl, rfl⟩ := Prod.mk.inj (Option.some.inj h)
        have hw₀ : (s.takePage page rest).KernelWf :=
          hw.congr rfl rfl (fun _ => rfl) (hfree ▸ sublist_cons_self page rest)
        obtain ⟨taken, hg, hw₁, -⟩ := pmapEnterWith_kernel ih hw₀ (kernelAddr_pdenum hu.reachable)
          (show pageRw < 0x1000 by decide) hs₁
        have hrest : rest = taken ++ s₁.freePageList := hg.free
        rw [hrest, mem_append, not_or] at hnd
        have hu₁ : s₁.Unused page := hg.unused ⟨hu.1, hu.2, hu.3, hu.4, hu.5⟩ hnd.1.1
        have hg' := (hg.cons_free hfree).mono fun i j => kernelPagesOr_iff.1
        exact ⟨page :: taken, hg'.clear hw (mem_cons_self ..) hu₁, hw₁.clear hu₁, mem_cons_self ..,
          hu₁.clear, hnd.1.2, fun j => fill_self⟩

theorem pageTableAllocate_ok : AllocatesTable (pageTableAllocate : PmapState π κ → _) :=
  fun s _ _ hw h => pageTableAllocateUpTo_ok _ s _ _ hw h

theorem pageTableAllocate_of_mapped {rest : List Frame} (hw : s.KernelWf)
    (hfree : s.freePageList = page :: rest) (hm : s.kpde (addrToPdenum page.kernelAddr) ≠ 0) :
    ∃ s', pageTableAllocate s = some (s', page) ∧ s'.freePageList = rest := by
  have hdir : (s.takePage page rest).pdbr .kernelMap ≠ 0 := hw.kdir_ne_zero
  have hm' : ¬ (s.takePage page rest).mem ((s.takePage page rest).pdbr .kernelMap)
      (addrToPdenum page.kernelAddr) = 0 := hm
  have hlen : s.freePageList.length = rest.length + 1 := by rw [hfree, length_cons]
  rw [pageTableAllocate, hlen, pageTableAllocateUpTo, hfree]
  dsimp only
  rw [pmapEnterWith, enterDirectory_of_ne_zero hdir]
  dsimp only
  rw [enterTable, if_neg hm']
  exact ⟨_, rfl, rfl⟩

end Recursion

end Manrix
