import Mathlib.Data.List.TakeWhile
import Manrix.Mm.PmapCopy

/-!
# Mapping frames in the kernel map

The kernel maps each frame `f` that it uses at `f + KERNEL_BASE`.  If the 4 MB region of this address has no page table,
`page_table_allocate` takes a frame, and maps this one first; so the frames of the free list are taken until one of them
is in a region with a table.  The directory entries are installed on the way back.  Nothing prevents two frames of this
chain from being in one region, which then gets two tables, the first of which is lost together with the mapping in it:
all is well exactly if the regions of the chain are distinct (`kernel_map_growth`).
-/

namespace Manrix

open Frames List

variable {π κ : Type*} {free : List Frame}

/-- The 4 MB region in which the kernel reaches the frame. -/
def Frame.region (x : Frame) : BitVec 10 := addrToPdenum x.kernelAddr

/-- The entry with which the frame is mapped. -/
def Frame.entry (x : Frame) : BitVec 32 := addrToPte x.base ||| pagePresent ||| pageRw

theorem Frame.frameOf_entry (x : Frame) : frameOf x.entry = x := by
  rw [Frame.entry, frameOf_base_entry _ (by decide)]

theorem Frame.entry_ne_zero (x : Frame) : x.entry ≠ 0 := Manrix.entry_ne_zero _ _

theorem Frame.entry_present (x : Frame) : x.entry &&& pagePresent ≠ 0 := by
  intro h
  have := congrArg (fun w => w.getLsbD 0) h
  simp [Frame.entry, pagePresent] at this

/-- The frames that are taken one for the other, up to one whose region has a table. -/
def PmapState.chain (s : PmapState π κ) (f : Frame) : List Frame :=
  (f :: s.freePageList).takeWhile fun x => s.kpde x.region = 0

/-- The entry of the page table for the frame is written. -/
def mapFrame (s : PmapState π κ) (x : Frame) : PmapState π κ :=
  setEntry s x.region (addrToPtenum x.kernelAddr) x.entry

section Chain

variable {s s₁ s' : PmapState π κ} {x y f : Frame} {rest : List Frame} {n : Nat} {va : BitVec 32} {i : BitVec 10}

private theorem chain_of_table (h : s.kpde x.region ≠ 0) : s.chain x = [] :=
  takeWhile_cons_of_neg (by simpa using h)

private theorem chain_cons (h : s.kpde x.region = 0) (hfree : s.freePageList = y :: rest) :
    s.chain x = x :: (s.takePage y rest).chain y := by
  unfold PmapState.chain
  rw [takeWhile_cons_of_pos (by simpa using h), hfree]
  rfl

private theorem mem_takeWhile_of_mem_take {α : Type*} {p : α → Bool} {l : List α} {z : α}
    (h : z ∈ l.take ((l.takeWhile p).length + 1)) (hz : p z) : z ∈ l.takeWhile p := by
  induction l with
  | nil => simp at h
  | cons a l ih =>
    by_cases ha : p a
    · rw [takeWhile_cons_of_pos ha] at h ⊢
      rw [length_cons, take_succ_cons, mem_cons] at h
      exact mem_cons.2 (h.imp_right ih)
    · rw [takeWhile_cons_of_neg ha] at h
      obtain rfl : z = a := by simpa using h
      exact absurd hz ha

theorem mem_chain (h : y ∈ s.chain x) : s.kpde y.region = 0 := by
  simpa using mem_takeWhile_imp h

variable [DecidableEq π]

/-- `pmap_enter` for the page of the frame, with at most `n` frames for tables. -/
def enterFrame (n : Nat) (s : PmapState π κ) (x : Frame) : Option (PmapState π κ) :=
  pmapEnterWith (pageTableAllocateUpTo n) .kernelMap x.base x.kernelAddr pageRw s

private theorem enterFrame_of_table (hw : s.KernelWf) (h : s.kpde x.region ≠ 0) :
    enterFrame n s x = some (mapFrame s x) := by
  have h' : ¬ s.mem (s.pdbr .kernelMap) (addrToPdenum x.kernelAddr) = 0 := h
  rw [enterFrame, pmapEnterWith, enterDirectory_of_ne_zero hw.kdir_ne_zero]
  dsimp only
  rw [enterTable, if_neg h']
  rfl

private theorem enterFrame_zero (hw : s.KernelWf) (h : s.kpde x.region = 0) : enterFrame 0 s x = none := by
  have h' : s.mem (s.pdbr .kernelMap) (addrToPdenum x.kernelAddr) = 0 := h
  rw [enterFrame, pmapEnterWith, enterDirectory_of_ne_zero hw.kdir_ne_zero]
  dsimp only
  rw [enterTable, if_pos h']
  rfl

private theorem enterFrame_nil (hw : s.KernelWf) (h : s.kpde x.region = 0) (hfree : s.freePageList = []) :
    enterFrame n s x = none := by
  cases n with
  | zero => exact enterFrame_zero hw h
  | succ n =>
    have h' : s.mem (s.pdbr .kernelMap) (addrToPdenum x.kernelAddr) = 0 := h
    rw [enterFrame, pmapEnterWith, enterDirectory_of_ne_zero hw.kdir_ne_zero]
    dsimp only
    rw [enterTable, if_pos h', pageTableAllocateUpTo, hfree]

private theorem enterFrame_grown (hw : s.KernelWf) (hx : x.Reachable) (h : enterFrame n s x = some s') :
    ∃ taken, Grown s s' taken (KernelPagesOr taken x.kernelAddr) ∧ s'.KernelWf ∧
      s'.walk .kernelMap x.kernelAddr = some x.entry :=
  pmapEnterWith_kernel (pageTableAllocateUpTo_ok n) hw (kernelAddr_pdenum hx) (by decide) h

omit [DecidableEq π] in
theorem PmapState.KernelWf.takePage (hw : s.KernelWf) (hfree : s.freePageList = y :: rest) :
    (s.takePage y rest).KernelWf :=
  hw.congr rfl rfl (fun _ => rfl) (hfree ▸ sublist_cons_self y rest)

/-- The table `y` is installed in the region of `x`, and `x` is mapped by it. -/
def installFor (s : PmapState π κ) (x y : Frame) : PmapState π κ :=
  mapFrame (installTable (s.clear y) x.region y.entry) x

private theorem enterFrame_succ (hw : s.KernelWf) (h : s.kpde x.region = 0) (hfree : s.freePageList = y :: rest) :
    enterFrame (n + 1) s x = (enterFrame n (s.takePage y rest) y).map fun s₁ => installFor s₁ x y := by
  have h' : s.mem (s.pdbr .kernelMap) (addrToPdenum x.kernelAddr) = 0 := h
  have hy := (hw.free_unused y (by simp [hfree])).reachable
  rw [enterFrame, pmapEnterWith, enterDirectory_of_ne_zero hw.kdir_ne_zero]
  dsimp only
  rw [enterTable, if_pos h', pageTableAllocateUpTo, hfree]
  dsimp only
  cases hs₁ : enterFrame n (s.takePage y rest) y with
  | none =>
    rw [enterFrame] at hs₁
    rw [hs₁]
    rfl
  | some s₁ =>
    obtain ⟨taken, hg, -, -⟩ := enterFrame_grown (hw.takePage hfree) hy hs₁
    have hkdir : s.pdbr .kernelMap = s₁.kdir := hg.kdir.symm
    have htable : frameOf ((installTable (s₁.clear y) x.region y.entry).kpde x.region) = y := by
      rw [installTable_kpde, if_pos rfl, y.frameOf_entry]
    rw [enterFrame] at hs₁
    rw [hs₁]
    dsimp only
    rw [if_pos rfl, hkdir]
    change some _ = some (installFor s₁ x y)
    rw [installFor, mapFrame, setEntry, htable]
    rfl

private theorem enterFrame_unused (hw : s.KernelWf) (hfree : s.freePageList = y :: rest)
    (h : enterFrame n (s.takePage y rest) y = some s₁) : s₁.KernelWf ∧ s₁.Unused y ∧ y ∉ s₁.freePageList := by
  have hu := hw.free_unused y (by simp [hfree])
  have hnd := hw.free_nodup
  obtain ⟨taken, hg, hw₁, -⟩ := enterFrame_grown (hw.takePage hfree) hu.reachable h
  have hrest : rest = taken ++ s₁.freePageList := hg.free
  rw [hfree, nodup_cons, hrest, mem_append, not_or] at hnd
  exact ⟨hw₁, hg.unused ⟨hu.1, hu.2, hu.3, hu.4, hu.5⟩ hnd.1.1, hnd.1.2⟩

section Install

variable (hw : s₁.KernelWf) (hu : s₁.Unused y) (hf : y ∉ s₁.freePageList) (hx : x.Reachable)

include hw hu hf hx in
omit [DecidableEq π] in
private theorem installFor_kpde (r : BitVec 10) :
    (installFor s₁ x y).kpde r = if r = x.region then y.entry else s₁.kpde r := by
  have hw' : (installTable (s₁.clear y) x.region y.entry).KernelWf :=
    (hw.clear hu).install (y.frameOf_entry.symm ▸ hu.clear) (y.frameOf_entry.symm ▸ hf)
  have h0 : (installTable (s₁.clear y) x.region y.entry).kpde x.region ≠ 0 := by
    rw [installTable_kpde, if_pos rfl]
    exact y.entry_ne_zero
  rw [← hu.clear_kpde, ← installTable_kpde]
  exact congrFun (setWord_of_ne_frame (hw'.ne_table (kernelAddr_pdenum hx) h0)) r

include hw hu hf hx in
omit [DecidableEq π] in
private theorem installFor_walk (hva : ktableStart ≤ addrToPdenum va) (hne : addrToPdenum va ≠ x.region) :
    (installFor s₁ x y).walk .kernelMap va = s₁.walk .kernelMap va := by
  have hpde : (installFor s₁ x y).kpde (addrToPdenum va) = s₁.kpde (addrToPdenum va) := by
    rw [installFor_kpde hw hu hf hx, if_neg hne]
  by_cases h0 : s₁.kpde (addrToPdenum va) = 0
  · rw [PmapState.walk_eq_none (.inr h0), PmapState.walk_eq_none (.inr (hpde.trans h0))]
  · have ht : s₁.KTable (frameOf (s₁.kpde (addrToPdenum va))) := ⟨_, hva, h0, rfl⟩
    have hd : (installFor s₁ x y).pdbr .kernelMap ≠ 0 := hw.kdir_ne_zero
    have hy : frameOf (s₁.kpde (addrToPdenum va)) ≠ y := fun he => hu.not_table (he ▸ ht)
    have htable : frameOf ((installTable (s₁.clear y) x.region y.entry).kpde x.region) = y := by
      rw [installTable_kpde, if_pos rfl, y.frameOf_entry]
    have hmem : (installTable (s₁.clear y) x.region y.entry).mem (frameOf (s₁.kpde (addrToPdenum va))) =
        (s₁.clear y).mem (frameOf (s₁.kpde (addrToPdenum va))) :=
      installTable_mem_of_ne (fun he => hw.kdir_not_table (he ▸ ht)) (hw.table_not_proc _ ht)
    rw [PmapState.walk_eq hd hpde h0, PmapState.walk_eq hw.kdir_ne_zero rfl h0, installFor, mapFrame, setEntry, htable]
    dsimp only
    rw [setWord_of_ne_frame hy, hmem, PmapState.clear_mem_of_ne hy]

end Install

omit [DecidableEq π] in
private theorem mapFrame_kpde (hw : s.KernelWf) (hx : x.Reachable) (h0 : s.kpde x.region ≠ 0) (r : BitVec 10) :
    (mapFrame s x).kpde r = s.kpde r :=
  congrFun (setWord_of_ne_frame (hw.ne_table (kernelAddr_pdenum hx) h0)) r

/-- The frames that are taken, and the regions that get tables. -/
theorem enterFrame_chain (hw : s.KernelWf) (hx : x.Reachable) (h : enterFrame n s x = some s') :
    (s.chain x).length ≤ s.freePageList.length ∧ s'.freePageList = s.freePageList.drop (s.chain x).length ∧
      ∀ r, s.kpde r = 0 → (s'.kpde r ≠ 0 ↔ r ∈ (s.chain x).map Frame.region) := by
  induction n generalizing s s' x with
  | zero =>
    have h0 : s.kpde x.region ≠ 0 := by
      intro h0
      rw [enterFrame_zero hw h0] at h
      cases h
    rw [enterFrame_of_table hw h0] at h
    rw [← Option.some.inj h, chain_of_table h0]
    refine ⟨Nat.zero_le _, rfl, fun r hr => ?_⟩
    rw [mapFrame_kpde hw hx h0]
    simp [hr]
  | succ n ih =>
    by_cases h0 : s.kpde x.region = 0
    · cases hfree : s.freePageList with
      | nil =>
        rw [enterFrame_nil hw h0 hfree] at h
        cases h
      | cons y rest =>
        rw [enterFrame_succ hw h0 hfree] at h
        obtain ⟨s₁, hs₁, rfl⟩ := Option.map_eq_some_iff.1 h
        have hy := (hw.free_unused y (by simp [hfree])).reachable
        obtain ⟨hw₁, hu, hf⟩ := enterFrame_unused hw hfree hs₁
        obtain ⟨hlen, hdrop, hnew⟩ := ih (hw.takePage hfree) hy hs₁
        rw [chain_cons h0 hfree, length_cons, length_cons, drop_succ_cons]
        refine ⟨Nat.succ_le_succ hlen, hdrop, fun r hr => ?_⟩
        rw [installFor_kpde hw₁ hu hf hx, map_cons, mem_cons]
        by_cases hrx : r = x.region
        · rw [if_pos hrx]
          exact iff_of_true y.entry_ne_zero (.inl hrx)
        · rw [if_neg hrx, hnew r hr]
          simp [hrx]
    · rw [enterFrame_of_table hw h0] at h
      rw [← Option.some.inj h, chain_of_table h0]
      refine ⟨Nat.zero_le _, rfl, fun r hr => ?_⟩
      rw [mapFrame_kpde hw hx h0]
      simp [hr]

private theorem enterFrame_mapped_of_table (hw : s.KernelWf) (hx : x.Reachable) (h0 : s.kpde x.region ≠ 0) :
    ∃ s', enterFrame n s x = some s' ∧ ∀ y ∈ x :: s.freePageList.take (s.chain x).length,
      s'.walk .kernelMap y.kernelAddr = some y.entry := by
  have h := enterFrame_of_table (n := n) hw h0
  refine ⟨_, h, fun y hy => ?_⟩
  rw [chain_of_table h0] at hy
  obtain rfl : y = x := by simpa using hy
  obtain ⟨taken, -, -, hself⟩ := enterFrame_grown hw hx h
  exact hself

/-- If the regions of the chain are distinct, all its frames, and the one after it, are mapped. -/
private theorem enterFrame_mapped (hw : s.KernelWf) (hx : x.Reachable) (hn : (s.chain x).length ≤ n)
    (hlen : (s.chain x).length ≤ s.freePageList.length) (hnd : ((s.chain x).map Frame.region).Nodup) :
    ∃ s', enterFrame n s x = some s' ∧ ∀ y ∈ x :: s.freePageList.take (s.chain x).length,
      s'.walk .kernelMap y.kernelAddr = some y.entry := by
  -- by induction on the chain; the mappings made further down stay, because they are in other regions
  induction n generalizing s x with
  | zero =>
    by_cases h0 : s.kpde x.region = 0
    · rw [PmapState.chain, takeWhile_cons_of_pos (by simpa using h0), length_cons] at hn
      omega
    · exact enterFrame_mapped_of_table hw hx h0
  | succ n ih =>
    by_cases h0 : s.kpde x.region = 0
    · cases hfree : s.freePageList with
      | nil =>
        rw [PmapState.chain, takeWhile_cons_of_pos (by simpa using h0), length_cons, hfree] at hlen
        exact absurd hlen (by simp)
      | cons y rest =>
        rw [chain_cons h0 hfree, length_cons, hfree, length_cons] at hlen
        rw [chain_cons h0 hfree, length_cons] at hn
        rw [chain_cons h0 hfree, map_cons, nodup_cons] at hnd
        have hy := (hw.free_unused y (by simp [hfree])).reachable
        obtain ⟨s₁, hs₁, hwalk⟩ := ih (hw.takePage hfree) hy (by omega) (Nat.le_of_succ_le_succ hlen) hnd.2
        obtain ⟨hw₁, hu, hf⟩ := enterFrame_unused hw hfree hs₁
        have hs' : enterFrame (n + 1) s x = some (installFor s₁ x y) := by
          rw [enterFrame_succ hw h0 hfree, hs₁, Option.map_some]
        refine ⟨_, hs', fun z hz => ?_⟩
        rw [chain_cons h0 hfree, length_cons, take_succ_cons] at hz
        rcases mem_cons.1 hz with rfl | hz
        · obtain ⟨taken, -, -, hself⟩ := enterFrame_grown hw hx hs'
          exact hself
        · have hzfree : z ∈ s.freePageList := by
            rw [hfree]
            exact (mem_cons.1 hz).elim (fun h => h ▸ mem_cons_self ..)
              fun h => mem_cons_of_mem _ (mem_of_mem_take h)
          have hne : z.region ≠ x.region := by
            intro hzx
            refine hnd.1 (mem_map.2 ⟨z, mem_takeWhile_of_mem_take ?_ ?_, hzx⟩)
            · rw [take_succ_cons]
              exact hz
            · change decide (s.kpde z.region = 0) = true
              rw [hzx]
              exact decide_eq_true h0
          rw [installFor_walk hw₁ hu hf hx (kernelAddr_pdenum (hw.free_unused z hzfree).reachable) hne]
          exact hwalk z hz
    · exact enterFrame_mapped_of_table hw hx h0

theorem pmapEnter_eq_enterFrame (hw : s.KernelWf) :
    pmapEnter .kernelMap f.base f.kernelAddr pageRw s = enterFrame s.freePageList.length s f := by
  rw [pmapEnter, enterFrame, pmapEnterWith, pmapEnterWith, enterDirectory_of_ne_zero hw.kdir_ne_zero,
    enterDirectory_of_ne_zero hw.kdir_ne_zero]
  rfl

end Chain

/-- In the kernel map the address is mapped to the frame. -/
def PmapState.MapsTo (s : PmapState π κ) (va : BitVec 32) (g : Frame) : Prop :=
  ∃ e, s.walk .kernelMap va = some e ∧ e &&& pagePresent ≠ 0 ∧ frameOf e = g

def PmapState.emptyRegions (s : PmapState π κ) : List (BitVec 10) :=
  (indices 896 128).filter fun r => s.kpde r = 0

def newRegions (s s' : PmapState π κ) : List (BitVec 10) :=
  (indices 896 128).filter fun r => s.kpde r = 0 ∧ s'.kpde r ≠ 0

/-- The frames `taken` were taken off the list, one for each region that has got a page table; they are mapped, and so
is `f`, and the addresses that were mapped before still are as before. -/
structure GrowthGood (s s' : PmapState π κ) (f : Frame) (taken : List Frame) : Prop where
  free : s.freePageList = taken ++ s'.freePageList
  count : taken.length ≤ (newRegions s s').length
  self : s'.MapsTo f.kernelAddr f
  tables : ∀ x ∈ taken, s'.MapsTo x.kernelAddr x
  old : ∀ va g, kernelBase ≤ va → s.MapsTo va g → s'.MapsTo va g

/-- The frames of the chain are in distinct regions, and the pages that are going to be entered are not in use for other
frames. -/
def GrowthOk (s : PmapState π κ) (f : Frame) : Prop :=
  ((s.chain f).map Frame.region).Nodup ∧
    ∀ x ∈ f :: s.freePageList.take (s.chain f).length, ∀ g, s.MapsTo x.kernelAddr g → g = x

section Good

variable {s s' : PmapState π κ} {f g x : Frame} {va va' : BitVec 32} {taken : List Frame}

theorem PmapState.MapsTo.unique (h : s.MapsTo va f) (h' : s.MapsTo va g) : f = g := by
  obtain ⟨e, he, -, rfl⟩ := h
  obtain ⟨e', he', -, rfl⟩ := h'
  rw [Option.some.inj (he.symm.trans he')]

theorem PmapState.mapsTo_congr (h : SamePage va va') : s.MapsTo va g ↔ s.MapsTo va' g := by
  unfold PmapState.MapsTo PmapState.walk
  rw [h.1, h.2]

private theorem mapsTo_of_entry (h : s.walk .kernelMap x.kernelAddr = some x.entry) : s.MapsTo x.kernelAddr x :=
  ⟨x.entry, h, x.entry_present, x.frameOf_entry⟩

theorem Grown.mapsTo {W : BitVec 10 → BitVec 10 → Prop} (h : Grown s s' taken W) (hd : s.kdir ≠ 0)
    (hva : kernelBase ≤ va) (hW : ¬ W (addrToPdenum va) (addrToPtenum va)) (hm : s.MapsTo va g) : s'.MapsTo va g := by
  obtain ⟨e, he, hp, hg⟩ := hm
  have h0 : s.kpde (addrToPdenum va) ≠ 0 := by
    intro h0
    rw [PmapState.walk_eq_none (.inr h0)] at he
    cases he
  have hi : ktableStart ≤ addrToPdenum va := by
    have := (addrToPdenum_lt_iff va).1
    bv_omega
  have hd' : s'.pdbr .kernelMap ≠ 0 := by
    rw [h.pdbr]
    exact hd
  refine ⟨e, ?_, hp, hg⟩
  rw [PmapState.walk_eq hd' (h.keep _ h0) h0, h.table _ hi h0 _ hW, ← he, PmapState.walk_eq hd rfl h0]

private theorem mem_newRegions {r : BitVec 10} :
    r ∈ newRegions s s' ↔ ktableStart ≤ r ∧ s.kpde r = 0 ∧ s'.kpde r ≠ 0 := by
  simp [newRegions, mem_kernel_indices]

private theorem mem_emptyRegions {r : BitVec 10} : r ∈ s.emptyRegions ↔ ktableStart ≤ r ∧ s.kpde r = 0 := by
  simp [PmapState.emptyRegions, mem_kernel_indices]

private theorem newRegions_nodup : (newRegions s s').Nodup := (indices_nodup (by omega)).filter _

private theorem kernelBase_le_kernelAddr (hf : f.Reachable) : kernelBase ≤ f.kernelAddr := by
  have := (addrToPdenum_lt_iff f.kernelAddr).2
  have := kernelAddr_pdenum hf
  bv_omega

private theorem reachable_of_mem_chain (hw : s.KernelWf) (hf : f.Reachable) (h : x ∈ s.chain f) : x.Reachable := by
  rcases mem_cons.1 ((takeWhile_sublist _).subset h) with rfl | h
  · exact hf
  · exact (hw.free_unused x h).reachable

private theorem chain_length_le (hw : s.KernelWf) (hf : f.Reachable) (hnd : ((s.chain f).map Frame.region).Nodup) :
    (s.chain f).length ≤ s.emptyRegions.length := by
  have hsub : (s.chain f).map Frame.region ⊆ s.emptyRegions := by
    intro r hr
    obtain ⟨x, hx, rfl⟩ := mem_map.1 hr
    exact mem_emptyRegions.2 ⟨kernelAddr_pdenum (reachable_of_mem_chain hw hf hx), mem_chain hx⟩
  have := (hnd.subperm hsub).length_le
  rwa [length_map] at this

private theorem taken_eq_take {n : Nat} (h : s.freePageList = taken ++ s'.freePageList)
    (hdrop : s'.freePageList = s.freePageList.drop n) : taken = s.freePageList.take n := by
  have := take_append_drop n s.freePageList
  rw [← hdrop, h] at this
  rw [h]
  exact (append_cancel_right this).symm

variable [DecidableEq π]

theorem GrowthGood.ok (hw : s.KernelWf) (hf : f.Reachable)
    (h : pmapEnter .kernelMap f.base f.kernelAddr pageRw s = some s') (hg : GrowthGood s s' f taken) :
    GrowthOk s f := by
  rw [pmapEnter_eq_enterFrame hw] at h
  obtain ⟨hlen, hdrop, hnew⟩ := enterFrame_chain hw hf h
  have htaken := taken_eq_take hg.free hdrop
  refine ⟨?_, fun x hx g hm => ?_⟩
  · have hsub : newRegions s s' ⊆ (s.chain f).map Frame.region := by
      intro r hr
      obtain ⟨-, h0, h1⟩ := mem_newRegions.1 hr
      exact (hnew r h0).1 h1
    have hcount := hg.count
    rw [htaken, length_take, Nat.min_eq_left hlen] at hcount
    have hperm := (newRegions_nodup.subperm hsub).perm_of_length_le (by rwa [length_map])
    exact hperm.nodup_iff.1 newRegions_nodup
  · rw [← htaken] at hx
    rcases mem_cons.1 hx with rfl | hx
    · exact (hg.old _ g (kernelBase_le_kernelAddr hf) hm).unique hg.self
    · have hfree : x ∈ s.freePageList := hg.free ▸ mem_append_left _ hx
      exact (hg.old _ g (kernelBase_le_kernelAddr (hw.free_unused x hfree).reachable) hm).unique (hg.tables x hx)

theorem GrowthOk.good (hw : s.KernelWf) (hf : f.Reachable) (hlen : s.emptyRegions.length ≤ s.freePageList.length)
    (h : GrowthOk s f) : ∃ s' taken, pmapEnter .kernelMap f.base f.kernelAddr pageRw s = some s' ∧
      GrowthGood s s' f taken := by
  obtain ⟨hnd, hpage⟩ := h
  have hle := (chain_length_le hw hf hnd).trans hlen
  obtain ⟨s', hs', hwalk⟩ := enterFrame_mapped hw hf hle hle hnd
  obtain ⟨taken, hgrown, -, -⟩ := enterFrame_grown hw hf hs'
  obtain ⟨-, hdrop, hnew⟩ := enterFrame_chain hw hf hs'
  have htaken := taken_eq_take hgrown.free hdrop
  refine ⟨s', taken, by rw [pmapEnter_eq_enterFrame hw, hs'], hgrown.free, ?_, ?_, ?_, ?_⟩
  · have hsub : (s.chain f).map Frame.region ⊆ newRegions s s' := by
      intro r hr
      obtain ⟨x, hx, rfl⟩ := mem_map.1 hr
      exact mem_newRegions.2 ⟨kernelAddr_pdenum (reachable_of_mem_chain hw hf hx), mem_chain hx,
        (hnew _ (mem_chain hx)).2 hr⟩
    have := (hnd.subperm hsub).length_le
    rw [length_map] at this
    rwa [htaken, length_take, Nat.min_eq_left hle]
  · exact mapsTo_of_entry (hwalk f (mem_cons_self ..))
  · intro x hx
    rw [htaken] at hx
    exact mapsTo_of_entry (hwalk x (mem_cons_of_mem _ hx))
  · intro va g hva hm
    by_cases hW : KernelPagesOr taken f.kernelAddr (addrToPdenum va) (addrToPtenum va)
    · -- the page of a frame that was mapped
      obtain ⟨x, hx, hsame⟩ : ∃ x ∈ f :: taken, SamePage va x.kernelAddr := by
        obtain ⟨x, hx, hi, hj⟩ := kernelPagesOr_iff.1 hW
        exact ⟨x, hx, hi.symm, hj.symm⟩
      rw [htaken] at hx
      rw [PmapState.mapsTo_congr hsame] at hm ⊢
      rw [hpage x hx g hm]
      exact mapsTo_of_entry (hwalk x hx)
    · exact hgrown.mapsTo hw.kdir_ne_zero hva hW hm

/-- Mapping a frame in the kernel map does what it should exactly if the frames of the chain are in distinct regions,
and no page to be entered is mapped to another frame. -/
theorem kernel_map_growth (hw : s.KernelWf) (hf : f.Reachable) (hlen : s.emptyRegions.length ≤ s.freePageList.length) :
    (∃ s' taken, pmapEnter .kernelMap f.base f.kernelAddr pageRw s = some s' ∧ GrowthGood s s' f taken) ↔
      GrowthOk s f := by
  constructor
  · rintro ⟨s', taken, h, hg⟩
    exact hg.ok hw hf h
  · exact fun h => h.good hw hf hlen

end Good

/-- The kernel map has a page table for the first 4 MB only, all of which is mapped. -/
def startKernel (free : List Frame) : PmapState Unit Unit where
  mem := fun x i => if x = 1 ∧ i = ktableStart then 0x2003 else if x = 2 then Frame.entry (i.setWidth 20) else 0
  pdbr := fun
    | .kernelMap => 1
    | .user _ => 0
  pages := ⟨fun _ => ⟨none, 0, 0, 0⟩, fun _ => none⟩
  freePageList := free
  pmapObject := 0
  proclist := []
  pmapOf := fun _ => ()

/-- 127 frames of the first 4 MB. -/
def lowFrames : List Frame := (List.range' 0x10 127).map (BitVec.ofNat 20)

private theorem startKernel_kpde {i : BitVec 10} (h : (startKernel free).kpde i ≠ 0) :
    i = ktableStart ∧ frameOf ((startKernel free).kpde i) = 2 := by
  have hk : (startKernel free).kpde i = if i = ktableStart then 0x2003 else 0 := by
    change (startKernel free).mem 1 i = _
    simp [startKernel]
  rw [hk] at h ⊢
  split at h
  · rename_i hi
    rw [if_pos hi]
    exact ⟨hi, by decide⟩
  · exact absurd rfl h

private theorem startKernel_kernelWf (hnd : free.Nodup) (hfree : ∀ x ∈ free, 2 < x ∧ x < 0x20000) :
    (startKernel free).KernelWf := by
  have htable : ∀ x, (startKernel free).KTable x → x = 2 := by
    rintro x ⟨i, -, h0, rfl⟩
    exact (startKernel_kpde h0).2
  have hproc : (startKernel free).procDirs = [] := rfl
  refine ⟨(by decide : (1 : Frame) ≠ 0), fun h => absurd (htable _ h) (by decide : (1 : Frame) ≠ 2), by simp [hproc],
    fun i j _ _ hi hj _ => (startKernel_kpde hi).1.trans (startKernel_kpde hj).1.symm,
    fun x _ => by simp [hproc], hnd, fun x hx => ?_⟩
  obtain ⟨h2, hr⟩ := hfree x hx
  refine ⟨?_, hr, ?_, fun h => ?_, by simp [hproc]⟩
  · rintro rfl
    exact absurd h2 (by decide)
  · change x ≠ 1
    rintro rfl
    exact absurd h2 (by decide)
  · rw [htable x h] at h2
    exact absurd h2 (by decide)

private theorem startKernel_first {x : Frame} (h : x < 0x400) : (startKernel free).MapsTo x.kernelAddr x := by
  have hlt : x.toNat < 0x400 := h
  have hr : x.Reachable := Nat.lt_trans hlt (by decide)
  have hi : addrToPdenum x.kernelAddr = ktableStart := by
    apply BitVec.eq_of_toNat_eq
    have : ktableStart.toNat = 896 := rfl
    rw [toNat_addrToPdenum, toNat_kernelAddr hr]
    omega
  have hj : (addrToPtenum x.kernelAddr).setWidth 20 = x := by
    apply BitVec.eq_of_toNat_eq
    rw [BitVec.toNat_setWidth, toNat_addrToPtenum, toNat_kernelAddr hr]
    omega
  refine mapsTo_of_entry ?_
  have hk : (startKernel free).mem ((startKernel free).pdbr .kernelMap) (addrToPdenum x.kernelAddr) = 0x2003 := by
    rw [hi]
    simp [startKernel]
  rw [PmapState.walk_eq (by simp [startKernel]) hk (by decide)]
  have h2 : frameOf 0x2003 = 2 := by decide
  rw [h2]
  simp [startKernel, hj]

private theorem lowFrames_lt {x : Frame} (hx : x ∈ lowFrames) : 2 < x ∧ x < 0x400 := by
  obtain ⟨n, hn, rfl⟩ := mem_map.1 hx
  rw [mem_range'_1] at hn
  rw [BitVec.lt_def, BitVec.lt_def, BitVec.toNat_ofNat]
  have h2 : (2 : Frame).toNat = 2 := rfl
  have h400 : (0x400 : Frame).toNat = 0x400 := rfl
  omega

private theorem lowFrames_nodup : lowFrames.Nodup := nodup_map_ofNat (by decide)

private theorem lowFrames_length : lowFrames.length = 127 := by simp [lowFrames]

private theorem startKernel_emptyRegions (free : List Frame) : (startKernel free).emptyRegions.length ≤ 127 := by
  have hsub : (startKernel free).emptyRegions ⊆ indices 897 127 := by
    intro r hr
    obtain ⟨hr, h0⟩ := mem_emptyRegions.1 hr
    have hne : r ≠ ktableStart := by
      rintro rfl
      have h1 : (startKernel free).kpde ktableStart = 0x2003 := by
        change (startKernel free).mem 1 ktableStart = _
        simp [startKernel]
      exact absurd (h1.symm.trans h0) (by decide)
    have hk : ktableStart.toNat = 896 := rfl
    have hne' : r.toNat ≠ 896 := fun h => hne (BitVec.eq_of_toNat_eq h)
    have := BitVec.le_def.1 hr
    have := r.isLt
    rw [mem_indices (by omega)]
    omega
  have hlen : (indices 897 127).length = 127 := by simp [indices]
  have hnd : (startKernel free).emptyRegions.Nodup := (indices_nodup (by omega)).filter _
  exact hlen ▸ (hnd.subperm hsub).length_le

/-- The first frame beyond the first 4 MB is mapped with a table out of the first 4 MB. -/
theorem kernel_map_growth_low : ∃ s' taken,
    pmapEnter .kernelMap (0x400 : Frame).base (0x400 : Frame).kernelAddr pageRw (startKernel lowFrames) = some s' ∧
      GrowthGood (startKernel lowFrames) s' 0x400 taken := by
  have hw : (startKernel lowFrames).KernelWf :=
    startKernel_kernelWf lowFrames_nodup fun x hx => ⟨(lowFrames_lt hx).1, Nat.lt_trans (lowFrames_lt hx).2 (by decide)⟩
  refine (kernel_map_growth hw (by unfold Frame.Reachable; decide)
    ((startKernel_emptyRegions _).trans (Nat.le_of_eq lowFrames_length.symm))).2 ⟨by decide +kernel, ?_⟩
  have hchain : (0x400 : Frame) :: (startKernel lowFrames).freePageList.take
    ((startKernel lowFrames).chain 0x400).length =
      [0x400, 0x10] := by decide +kernel
  rw [hchain]
  intro x hx g hm
  have hx' : x = 0x400 ∨ x = 0x10 := by simpa using hx
  rcases hx' with rfl | rfl
  · obtain ⟨e, he, -⟩ := hm
    have hnone : (startKernel lowFrames).walk .kernelMap (0x400 : Frame).kernelAddr = none := by decide +kernel
    rw [hnone] at he
    cases he
  · exact hm.unique (startKernel_first (by decide))

/-- Two frames of one region in the chain: the region gets two tables, and the second frame is not mapped. -/
theorem growth_loses_table : (startKernel (0x401 :: lowFrames)).KernelWf ∧
    (∀ x : Frame, x < 0x400 → (startKernel (0x401 :: lowFrames)).MapsTo x.kernelAddr x) ∧
    (startKernel (0x401 :: lowFrames)).emptyRegions.length ≤ (startKernel (0x401 :: lowFrames)).freePageList.length ∧
    ∃ s', pmapEnter .kernelMap (0x400 : Frame).base (0x400 : Frame).kernelAddr pageRw
        (startKernel (0x401 :: lowFrames)) = some s' ∧
      (startKernel (0x401 :: lowFrames)).freePageList = [0x401, 0x10] ++ s'.freePageList ∧
      newRegions (startKernel (0x401 :: lowFrames)) s' = [897] ∧
      s'.walk .kernelMap (0x401 : Frame).kernelAddr = some 0 := by
  have hnd : (0x401 :: lowFrames).Nodup := nodup_cons.2 ⟨fun h => absurd (lowFrames_lt h).2 (by decide),
    lowFrames_nodup⟩
  have hlen : 127 ≤ (0x401 :: lowFrames).length := by
    rw [length_cons, lowFrames_length]
    omega
  refine ⟨startKernel_kernelWf hnd ?_, fun x hx => startKernel_first hx, (startKernel_emptyRegions _).trans hlen, ?_⟩
  · intro x hx
    rcases mem_cons.1 hx with rfl | hx
    · decide
    · exact ⟨(lowFrames_lt hx).1, Nat.lt_trans (lowFrames_lt hx).2 (by decide)⟩
  · have hrun : (pmapEnter .kernelMap (0x400 : Frame).base (0x400 : Frame).kernelAddr pageRw
        (startKernel (0x401 :: lowFrames))).map
          (fun s' => ([0x401, 0x10] ++ s'.freePageList, newRegions (startKernel (0x401 :: lowFrames)) s',
            s'.walk .kernelMap (0x401 : Frame).kernelAddr)) = some (0x401 :: lowFrames, [897], some 0) := by
      decide +kernel
    obtain ⟨s', hs', hres⟩ := Option.map_eq_some_iff.1 hrun
    simp only [Prod.mk.injEq] at hres
    exact ⟨s', hs', hres.1.symm, hres.2⟩

end Manrix
