import Manrix.Mm.KmemBlocks
import Manrix.Mm.PageFault

/-!
# The free pages as a list and as links

The page maps and the page faults take the free pages from a list, in the order in which `get_page` returns them;
`PageMem` has the links of this list and of the lists of the objects.  Both have the same hash.  `PageLists` relates the
two, and here it is kept by the functions that are given for both: `page_alloc`, the round of `kmem_alloc`, and what
`page_table_allocate` does before it maps the page.
-/

namespace Manrix

open Function Links List

variable {μ ε ω π κ : Type*} {t t' : PageMem} {pm : PmapState π κ} {s : Machine μ ε ω π κ}
  {q : PageHead → List Frame} {page : Frame} {rest : List Frame} {flag : PageFlag}

/-- The links `t`, with the members `q`, and the list of `pm` are of the same free pages. -/
structure PageLists (t : PageMem) (pm : PmapState π κ) (q : PageHead → List Frame) : Prop where
  queues : Queues UsedHead t.pagelist q
  free : (q freeList).reverse = pm.freePageList
  pages : t.pages = pm.pages

/-- In addition the members of the lists of the objects are the same. -/
structure ObjectLists (t : PageMem) (s : Machine μ ε ω π κ) (q : PageHead → List Frame) : Prop
    extends PageLists t s.pm q where
  object : ∀ o, q (.object (s.objectAddr o)) = s.page o

private theorem PageLists.free_eq (h : PageLists t pm q) (hf : pm.freePageList = page :: rest) :
    q freeList = rest.reverse ++ [page] := by
  rw [← reverse_reverse (q freeList), h.free, hf, reverse_cons]

/-- `get_page` returns the first page of the list. -/
private theorem PageLists.first (h : PageLists t pm q) (hf : pm.freePageList = page :: rest) (flag : PageFlag) :
    ∃ t', getPage t flag = some (t', some page) ∧ Queues UsedHead t'.pagelist (update q freeList rest.reverse) ∧
      t'.pages = pm.pages.modPage page (fun p => { p with next := none }) ∧ t'.kernelObject = t.kernelObject := by
  obtain ⟨t', page', hg, -⟩ := getPage_of_ne_nil h.queues (by simp [h.free_eq hf]) flag
  obtain ⟨rest', hq', hqs⟩ := (getPage_took h.queues hg).lists
  obtain ⟨rfl, hp⟩ := append_inj' (hq'.symm.trans (h.free_eq hf)) rfl
  obtain rfl := singleton_injective hp
  refine ⟨t', hg, hqs, ?_, getPage_kernelObject hg⟩
  rw [← h.pages]
  unfold getPage at hg
  split at hg
  split at hg
  · split at hg <;> cases hg
  · obtain ⟨rfl, hp⟩ := Prod.mk.inj (Option.some.inj hg)
    cases hp
    rfl

private theorem PageLists.empty (h : PageLists t pm q) (hf : pm.freePageList = []) (flag : PageFlag)
    (t' : PageMem) (page : Frame) : getPage t flag ≠ some (t', some page) := by
  intro hg
  obtain ⟨rest, hq, -⟩ := (getPage_took h.queues hg).lists
  have := h.free
  rw [hq, hf] at this
  simp at this

/-- The page is put on the list of an object. -/
private theorem PageLists.listAdd (h : PageLists t pm q) (hf : pm.freePageList = page :: rest)
    (hq : Queues UsedHead t'.pagelist (update q freeList rest.reverse)) (object : BitVec 32) :
    Queues UsedHead (Manrix.listAdd t'.pagelist (.head (.object object)) (.obj page))
      (update (update q freeList rest.reverse) (.object object) (page :: q (.object object))) := by
  have hmem : page ∈ q freeList := by simp [h.free_eq hf]
  have hnd := h.queues.nodup freeList
  rw [h.free_eq hf] at hnd
  have hoff : ∀ h', page ∉ update q freeList rest.reverse h' := by
    intro h' hm
    rw [← erase_concat hnd, ← h.free_eq hf] at hm
    exact ((h.queues.exists_mem_update_erase hmem).1 ⟨h', hm⟩).1 rfl
  have hs := hq.splice (h := .object object) (by trivial) hoff
  rw [update_of_ne object_ne_freeList] at hs
  rw [Manrix.listAdd, listEnqueue_eq]
  exact hs

theorem takePage_lists (h : PageLists t pm q) (hf : pm.freePageList = page :: rest) :
    ∃ t' q', getPage t .ker = some (t', some page) ∧
      PageLists { t' with pages := vmPageInsert (t'.setCount page 1).pages page pm.pmapObject page.base }
        (pm.takePage page rest) q' := by
  obtain ⟨t', hg, hq, hp, -⟩ := h.first hf .ker
  refine ⟨t', _, hg, hq, ?_, ?_⟩
  · rw [update_self, reverse_reverse]
    rfl
  · simp only [PageMem.setCount, PmapState.takePage, hp, PageHash.modPage, update_self, update_idem]

/-- The round of `kmem_alloc`, if it takes no page table. -/
theorem kmemAllocPage_lists [DecidableEq π] (h : PageLists t pm q)
    (htable : ∀ page ∈ pm.freePageList.head?, (pm.walk .kernelMap page.kernelAddr).isSome) :
    Option.Rel (fun r r' => r.2 = r'.2 ∧ ∃ q', PageLists r.1 r'.1 q')
      (t.takeKernelPage false) (pm.kmemAllocPage t.kernelObject) := by
  unfold PageMem.takeKernelPage PmapState.kmemAllocPage
  cases hf : pm.freePageList with
  | nil =>
    dsimp only
    split
    · exact absurd ‹_› (h.empty hf .ker _ _)
    · exact .none
  | cons page rest =>
    obtain ⟨t', hg, hq, hp, hk⟩ := h.first hf .ker
    dsimp only
    obtain ⟨mem, hmem⟩ := pmapEnter_of_walk page.base pageRw
      (s := { pm with
        freePageList := rest
        pages := vmPageInsert (pm.pages.modPage page fun p => { p with next := none }) page t.kernelObject page.base })
      (htable page (by simp [hf]))
    rw [hmem, hg]
    refine .some ⟨rfl, _, h.listAdd hf hq t'.kernelObject, ?_, ?_⟩
    · rw [update_of_ne object_ne_freeList.symm, update_self, reverse_reverse]
    · simp only [PageMem.assign, hp, hk]

/-- `page_alloc` for an object. -/
theorem pageAlloc_lists [DecidableEq ω] (h : ObjectLists t s q) (hinj : Injective s.objectAddr) (object : ω)
    (offset : BitVec 32) : Option.Rel (fun r r' => r.2 = r'.2 ∧ ∃ q', ObjectLists r.1 r'.1 q')
      (t.pageAlloc (s.objectAddr object) offset) (pageAlloc s object offset) := by
  unfold PageMem.pageAlloc pageAlloc
  cases hf : s.freePageList with
  | nil =>
    dsimp only
    split
    · exact absurd ‹_› (h.empty hf .oth _ _)
    · exact .none
  | cons page rest =>
    obtain ⟨t', hg, hq, hp, hk⟩ := h.first hf .oth
    rw [hg]
    refine .some ⟨rfl, _, ⟨h.listAdd hf hq (s.objectAddr object), ?_, ?_⟩, fun o => ?_⟩
    · rw [update_of_ne object_ne_freeList.symm, update_self, reverse_reverse]
      rfl
    · simp only [PageMem.assign, PageMem.setCount, hp, PageHash.modPage, update_self, update_idem]
      rfl
    · change _ = update s.page object (page :: s.page object) o
      by_cases ho : o = object
      · rw [ho, update_self, update_self, h.object]
      · rw [update_of_ne ho, update_of_ne, update_of_ne object_ne_freeList, h.object]
        exact fun he => ho (hinj (PageHead.object.inj he))

end Manrix
