import Manrix.Lib.Frames
import Manrix.Mm.PageHash
import Manrix.Mm.VmParam

/-!
# Page maps (`arch/i386/pmap.c`)

A page map is a directory of 1024 words, which name the frames with the page tables; a null pointer for a directory is
the frame 0.  Frames, directories and tables are given by the upper 20 bits of their physical addresses.  The kernel
reaches a frame at its physical address plus `KERNEL_BASE`, where the kernel segment begins, so its pointers are
physical addresses; a frame of the physical memory is also the name of its `struct vm_page`.

`pmap_enter` obtains a frame for a missing table from `page_table_allocate`, and this one maps the frame in `kernel_map`
by `pmap_enter` before it clears and returns it.  The recursion is structural on the list of free frames. When the list
is empty there is no result: `get_page` returns a null pointer, which is not tested.

The field `plist`, in which a map keeps its frames until it is destroyed, is not modelled, nor are the locks and the
statistics.  For `kernel_map` nothing initialises this list, and what `list_add` stores through its null pointers is
left out here.  `invlpg` reloads the page directory base register, so no old translations are used.
-/

namespace Manrix

open Frames Function

variable {π κ : Type*}

/-- A pointer to a map: `kernel_map` or one of the maps of the processes. -/
inductive Pmap (π : Type*) where
  | kernelMap
  | user (p : π)
  deriving DecidableEq

structure PmapState (π κ : Type*) where
  mem : Frame → BitVec 10 → BitVec 32
  pdbr : Pmap π → Frame
  pages : PageHash Frame
  freePageList : List Frame
  /-- The address of `pmap_object`. -/
  pmapObject : BitVec 32
  proclist : List κ
  /-- `p->map->pmap` for a process. -/
  pmapOf : κ → π

/-- The directories of the processes on `sysinfo.proclist`. -/
def PmapState.procDirs (s : PmapState π κ) : List Frame := s.proclist.map fun p => s.pdbr (.user (s.pmapOf p))

def kernelMapUpdate (s : PmapState π κ) (pte : BitVec 32) (idx : BitVec 10) : PmapState π κ :=
  { s with mem := setWords s.mem s.procDirs idx pte }

/-- `memset((char *)page->base, 0, PAGE_SIZE)`. -/
def PmapState.clear (s : PmapState π κ) (page : Frame) : PmapState π κ := { s with mem := fill s.mem page 0 }

theorem PmapState.clear_mem_of_ne {s : PmapState π κ} {x page : Frame} (h : x ≠ page) :
    (s.clear page).mem x = s.mem x :=
  fill_of_ne h

variable [DecidableEq π]

section Enter

variable (alloc : PmapState π κ → Option (PmapState π κ × Frame)) (map : Pmap π)

/-- The directory of the map, for which `alloc` obtains a frame if there is none. -/
def enterDirectory (s : PmapState π κ) : Option (PmapState π κ × Frame) :=
  if s.pdbr map = 0 then
    match alloc s with
    | none => none
    | some (s, pde) => some ({ s with pdbr := update s.pdbr map pde }, pde)
  else some (s, s.pdbr map)

/-- The table that the directory `pde` has at `idx`, for which `alloc` obtains a frame if there is none. -/
def enterTable (pde : Frame) (idx : BitVec 10) (protection : BitVec 32) (s : PmapState π κ) :
    Option (PmapState π κ × Frame) :=
  if s.mem pde idx = 0 then
    match alloc s with
    | none => none
    | some (s, pte) =>
      let newpte := addrToPte pte.base ||| pagePresent ||| protection
      let s := if map = .kernelMap then kernelMapUpdate s newpte idx else s
      some ({ s with mem := setWord s.mem pde idx newpte }, pte)
  else some (s, frameOf (s.mem pde idx))

/-- `pmap_enter`, with the function that obtains a frame. -/
def pmapEnterWith (paddr vaddr protection : BitVec 32) (s : PmapState π κ) : Option (PmapState π κ) :=
  match enterDirectory alloc map s with
  | none => none
  | some (s, pde) =>
    match enterTable alloc map pde (addrToPdenum vaddr) protection s with
    | none => none
    | some (s, pte) => some { s with
        mem := setWord s.mem pte (addrToPtenum vaddr) (addrToPte paddr ||| pagePresent ||| protection) }

end Enter

omit [DecidableEq π] in
/-- The page that `get_page` returns becomes one of the pages of `pmap_object`. -/
def PmapState.takePage (s : PmapState π κ) (page : Frame) (rest : List Frame) : PmapState π κ :=
  let pages := s.pages.modPage page fun p => { p with next := none, count := 1 }
  { s with freePageList := rest, pages := vmPageInsert pages page s.pmapObject page.base }

/-- `page_table_allocate`, on no more than the given number of frames. -/
def pageTableAllocateUpTo : Nat → PmapState π κ → Option (PmapState π κ × Frame)
  | 0, _ => none
  | n + 1, s =>
    match s.freePageList with
    | [] => none
    | page :: rest =>
      let s := s.takePage page rest
      match pmapEnterWith (pageTableAllocateUpTo n) .kernelMap page.base page.kernelAddr pageRw s with
      | none => none
      | some s => some (s.clear page, page)

def pageTableAllocate (s : PmapState π κ) : Option (PmapState π κ × Frame) :=
  pageTableAllocateUpTo s.freePageList.length s

def pmapEnter (map : Pmap π) (paddr vaddr protection : BitVec 32) (s : PmapState π κ) : Option (PmapState π κ) :=
  pmapEnterWith pageTableAllocate map paddr vaddr protection s

/-- The indices of a loop over a part of a directory or of a table. -/
@[irreducible] def indices (start count : Nat) : List (BitVec 10) := (List.range' start count).map (BitVec.ofNat 10)

/-- The loop of `pmap_copy` over the directory entries below `KTABLE_START`. -/
def copyTables (srcPde destPde : Frame) : List (BitVec 10) → PmapState π κ → Option (PmapState π κ)
  | [], s => some s
  | pde :: rest, s =>
    if s.mem srcPde pde = 0 then copyTables srcPde destPde rest s
    else
      match pageTableAllocate s with
      | none => none
      | some (s, destPte) =>
        let srcPte := frameOf (s.mem srcPde pde)
        let s := { s with mem := copyWords 0 srcPte destPte (indices 0 1024) s.mem }
        let e := addrToPte destPte.base ||| (s.mem srcPde pde &&& 0xFFF)
        copyTables srcPde destPde rest { s with mem := setWord s.mem destPde pde e }

omit [DecidableEq π] in
/-- The loop over the directory entries of the kernel. -/
def shareKernelTables (destPde : Frame) (s : PmapState π κ) : PmapState π κ :=
  { s with mem := copyWords 0 (s.pdbr .kernelMap) destPde (indices 896 128) s.mem }

/-- `map` is the map that `pmap_create` returns. -/
def pmapCopy (map src : π) (s : PmapState π κ) : Option (PmapState π κ) :=
  match pageTableAllocate s with
  | none => none
  | some (s, destPde) =>
    let s := { s with pdbr := update s.pdbr (.user map) destPde }
    match copyTables (s.pdbr (.user src)) destPde (indices 0 896) s with
    | none => none
    | some s => some (shareKernelTables destPde s)

def pmapShareKernel (nmap : π) (s : PmapState π κ) : Option (PmapState π κ) :=
  match pageTableAllocate s with
  | none => none
  | some (s, dest) =>
    let s := { s with pdbr := update s.pdbr (.user nmap) dest }
    some (shareKernelTables dest s)

/-- The page table entry of an address, if there is a table for it. -/
def PmapState.walk (s : PmapState π κ) (map : Pmap π) (va : BitVec 32) : Option (BitVec 32) :=
  if s.pdbr map = 0 then none
  else
    let pde := s.mem (s.pdbr map) (addrToPdenum va)
    if pde = 0 then none else some (s.mem (frameOf pde) (addrToPtenum va))

omit [DecidableEq π] in
theorem PmapState.walk_eq {s : PmapState π κ} {map : Pmap π} {va e : BitVec 32} (hd : s.pdbr map ≠ 0)
    (he : s.mem (s.pdbr map) (addrToPdenum va) = e) (h0 : e ≠ 0) :
    s.walk map va = some (s.mem (frameOf e) (addrToPtenum va)) := by
  unfold PmapState.walk
  rw [if_neg hd, he]
  exact if_neg h0

omit [DecidableEq π] in
theorem PmapState.walk_eq_none {s : PmapState π κ} {map : Pmap π} {va : BitVec 32}
    (h : s.pdbr map = 0 ∨ s.mem (s.pdbr map) (addrToPdenum va) = 0) : s.walk map va = none := by
  unfold PmapState.walk
  by_cases hd : s.pdbr map = 0
  · rw [if_pos hd]
  · rw [if_neg hd]
    exact if_pos (h.resolve_left hd)

theorem pmapEnter_of_walk {s : PmapState π κ} {map : Pmap π} {va : BitVec 32} (paddr protection : BitVec 32)
    (h : (s.walk map va).isSome) : ∃ mem, pmapEnter map paddr va protection s = some { s with mem := mem } := by
  have hd : ¬ s.pdbr map = 0 := fun hd => by simp [PmapState.walk_eq_none (.inl hd)] at h
  have he : ¬ s.mem (s.pdbr map) (addrToPdenum va) = 0 := fun he => by simp [PmapState.walk_eq_none (.inr he)] at h
  rw [pmapEnter, pmapEnterWith, enterDirectory, if_neg hd]
  dsimp only
  rw [enterTable, if_neg he]
  exact ⟨_, rfl⟩

theorem pmapEnter_isSome {s : PmapState π κ} {map : Pmap π} {paddr va protection : BitVec 32}
    (h : (s.walk map va).isSome) : (pmapEnter map paddr va protection s).isSome := by
  obtain ⟨mem, hmem⟩ := pmapEnter_of_walk paddr protection h
  rw [hmem]
  rfl

end Manrix
