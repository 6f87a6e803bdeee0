import Manrix.LinkedList
import Manrix.Lib.Queues
import Manrix.Mm.PageHash
import Manrix.Mm.VmMap
import Manrix.Mm.VmParam

/-!
# Allocation of pages (`mm/vm_page.c`)

The field `pagelist` links a page into the list of the free pages or into the list `page` of an object.  Objects are
given by their addresses.  `put_to_free_list` and `get_from_free_list` use the list for `PAGE_ALLOC_KER` alone, the rest
of them is in comments.

A page table that `pmap_enter` takes when a page of the kernel is mapped is put on `kernel_map.plist`.  Nothing
initialises this list: `list_add` stores the address of the first one through a null pointer, where the hash of the
pages is.  The functions have no result then.  Whether a table is needed depends on the directory of `kernel_map`, which
is not part of the state here, and is an argument.  The entries of `kernel_vmmap` do not change; `entryObject` gives the
object of the entry at an address.
-/

namespace Manrix

open Chain Function Links List

/-- `PAGE_ALLOC_OTH`, `PAGE_ALLOC_KER` and `PAGE_ALLOC_DMA`. -/
inductive PageFlag where
  | oth
  | ker
  | dma
  deriving DecidableEq

/-- The lists that pages are on. -/
inductive PageHead where
  | free (flag : PageFlag)
  | object (object : BitVec 32)
  deriving DecidableEq

structure PageMem where
  pagelist : Links (Node PageHead Frame)
  pages : PageHash Frame
  nfreePages : Int
  kernelObject : BitVec 32
  entryObject : BitVec 32 → Option (BitVec 32)

/-- The list that all free pages are on. -/
def freeList : PageHead := .free .ker

def putToFreeList (s : PageMem) (page : Frame) : PageMem :=
  { s with pagelist := listEnqueue s.pagelist (.head freeList) (.obj page) }

/-- `put_page`, without the counters of `sysinfo`. -/
def putPage (s : PageMem) (pg : Frame) : PageMem := putToFreeList s pg

/-- The loop of `vm_page_init`, over the frames that `get_next_frame` returns. -/
def initPages : List Frame → PageMem → PageMem
  | [], s => s
  | page :: rest, s =>
    let s := { s with pages := s.pages.modPage page fun p => { p with count := 0 } }
    let s := putToFreeList s page
    initPages rest { s with nfreePages := s.nfreePages + 1 }

/-- `vm_page_init`, from the pages as they are in the memory. -/
def vmPageInit (frames : List Frame) (page : Frame → VmPage Frame) (kernelObject : BitVec 32)
    (entryObject : BitVec 32 → Option (BitVec 32)) : PageMem :=
  initPages frames ⟨⟨id, id⟩, ⟨page, fun _ => none⟩, 0, kernelObject, entryObject⟩

/-- `get_page`; without a free page it returns a null pointer if the list is the one for `flag`, and otherwise takes the
head of the list for a page, which is not modelled. -/
def getPage (s : PageMem) (flag : PageFlag) : Option (PageMem × Option Frame) :=
  let (pagelist, page) := listDequeue s.pagelist (.head freeList)
  match page with
  | .head h => if h = .free flag then some ({ s with pagelist := pagelist }, none) else none
  | .obj page =>
    some ({ s with
      pagelist := listInit pagelist (.obj page), nfreePages := s.nfreePages - 1
      pages := s.pages.modPage page fun p => { p with next := none } }, some page)

/-- `vm_page_insert` and `list_add` for a new page. -/
def PageMem.assign (s : PageMem) (page : Frame) (object offset : BitVec 32) (list : PageHead) : PageMem :=
  { s with
    pages := vmPageInsert s.pages page object offset
    pagelist := listAdd s.pagelist (.head list) (.obj page) }

def PageMem.setCount (s : PageMem) (page : Frame) (count : BitVec 32) : PageMem :=
  { s with pages := s.pages.modPage page fun p => { p with count := count } }

/-- `page_alloc`; a null pointer for the object is the address of the one that is created. -/
def PageMem.pageAlloc (s : PageMem) (object offset : BitVec 32) : Option (PageMem × Frame) :=
  match getPage s .oth with
  | some (s, some page) => some ((s.setCount page 1).assign page object (addrToPte offset) (.object object), page)
  | _ => none -- a null pointer

/-- A round of `kmem_alloc`, which does not set the count of the page; `table` says that `pmap_enter` takes a page
table. -/
def PageMem.takeKernelPage (s : PageMem) (table : Bool) : Option (PageMem × Frame) :=
  match getPage s .ker with
  | some (s, some page) =>
    if table then none -- a store through the null pointer in `kernel_map.plist`
    else some (s.assign page s.kernelObject page.base (.object s.kernelObject), page)
  | _ => none -- a null pointer

/-- The loop of `kmem_alloc`. -/
def PageMem.takeKernelPages : List Bool → PageMem → Option PageMem
  | [], s => some s
  | table :: rest, s => (s.takeKernelPage table).bind fun r => takeKernelPages rest r.1

/-- `kmem_alloc`; `tables index` says that `pmap_enter` takes a page table for the page `index`. -/
def PageMem.kmemAlloc (s : PageMem) (size : BitVec 32) (tables : Nat → Bool) : Option (PageMem × BitVec 32) :=
  let npages := (alignPage size).toNat / 0x1000
  (s.takeKernelPage (tables 0)).bind fun r =>
    (takeKernelPages ((List.range' 1 (npages - 1)).map tables) r.1).map (·, r.2.base)

/-- Whether page tables are taken, for the pages of `kmem_alloc`. -/
def kmemTables (size : BitVec 32) (tables : Nat → Bool) : List Bool :=
  tables 0 :: (List.range' 1 ((alignPage size).toNat / 0x1000 - 1)).map tables

/-- `page_free`. -/
def PageMem.pageFree (s : PageMem) (fuel : Nat) (page : Frame) : Option PageMem :=
  match vmPageRemove s.pages fuel page with
  | none => none
  | some pages =>
    some (putPage { s with
      pages := pages, pagelist := listDel s.pagelist (.head (.object (pages.page page).object)) (.obj page) } page)

/-- `page_dealloc`; the lookup may have read through a null pointer. -/
def PageMem.pageDealloc (s : PageMem) (fuel : Nat) (object offset : BitVec 32) : Option (PageMem × Int) :=
  match vmPageLookup s.pages fuel object offset with
  | some (.result none) => some (s, -1)
  | some (.result (some page)) =>
    let s := s.setCount page ((s.pages.page page).count - 1)
    if (s.pages.page page).count ≠ 0 then some (s, 0)
    else
      match vmPageRemove s.pages fuel page with
      | none => none
      | some pages =>
        some (putPage { s with
          pages := pages, pagelist := listDel s.pagelist (.head (.object object)) (.obj page) } page, 0)
  | _ => none

/-- `free_pages`, which returns at a page that is still counted, with the page off the list. -/
def PageMem.freePages : Nat → PageMem → BitVec 32 → Option PageMem
  | 0, _, _ => none
  | fuel + 1, s, object =>
    if listIsempty s.pagelist (.head (.object object)) then some s
    else
      let (pagelist, page) := listRemove s.pagelist (.head (.object object))
      match page with
      | .head _ => none
      | .obj page =>
        let s := { s with pagelist := pagelist }.setCount page ((s.pages.page page).count - 1)
        -- the loop ends with the first page that is still counted, which is off its list by now
        if (s.pages.page page).count ≠ 0 then some s
        else
          match vmPageRemove s.pages fuel page with
          | none => none
          | some pages => (putPage { s with pages := pages } page).freePages fuel object

/-- `kmem_free`, with `kmem_dealloc`; the `shadow` of an object is a null pointer. -/
def PageMem.kmemFree (s : PageMem) (fuel : Nat) (va : BitVec 32) : Option PageMem :=
  match s.entryObject va with
  | none => some s
  | some object =>
    match vmPageLookup s.pages fuel object va with
    | some (.result none) => some s
    | some (.result (some page)) => s.pageFree fuel page
    | _ => none

section Hash

variable {ρ : Type*} {h h' : PageHash ρ} {B B' : ρ → Prop} {page p : ρ} {object offset : BitVec 32} {fuel : Nat}

/-- The pages that the chains lead to are among `B`. -/
def HashIn (h : PageHash ρ) (B : ρ → Prop) : Prop :=
  ∃ A : ρ → Prop, (∀ b p, h.pagehash b = some p → A p) ∧ (∀ p p', A p → (h.page p).next = some p' → A p') ∧
    ∀ p, A p → B p

theorem HashIn.mono (hh : HashIn h B) (hB : ∀ p, B p → B' p) : HashIn h B' := by
  obtain ⟨A, h1, h2, h3⟩ := hh
  exact ⟨A, h1, h2, fun p hp => hB p (h3 p hp)⟩

theorem HashIn.lookup (hh : HashIn h B) (hl : vmPageLookup h fuel object offset = some (.result (some p))) : B p := by
  obtain ⟨A, h1, h2, h3⟩ := hh
  unfold vmPageLookup at hl
  split at hl
  · cases hl
  · rename_i first hb
    split at hl
    · cases hl
      exact h3 _ (h1 _ _ hb)
    · obtain ⟨r, hr, he⟩ := Option.map_eq_some_iff.1 hl
      obtain rfl := PageLookup.result.inj he
      refine h3 p (chainFind_mem h2 (fun p' hp' => ?_) hr).1
      rw [← Option.some.inj hp']
      exact h1 _ _ hb

variable [DecidableEq ρ]

theorem HashIn.modPage {f : VmPage ρ → VmPage ρ} (hh : HashIn h B)
    (hf : (f (h.page page)).next = (h.page page).next ∨ (f (h.page page)).next = none) :
    HashIn (h.modPage page f) B := by
  obtain ⟨A, h1, h2, h3⟩ := hh
  refine ⟨A, h1, ?_, h3⟩
  intro p p' hp hn
  unfold PageHash.modPage at hn
  dsimp only at hn
  by_cases he : p = page
  · subst he
    rw [update_self] at hn
    rcases hf with hk | hk
    · exact h2 p p' hp (hk ▸ hn)
    · rw [hk] at hn
      cases hn
  · rw [update_of_ne he] at hn
    exact h2 p p' hp hn

theorem HashIn.insert (hh : HashIn h B) (hp : B page) : HashIn (vmPageInsert h page object offset) B := by
  obtain ⟨A, h1, h2, h3⟩ := hh
  refine ⟨fun x => A x ∨ x = page, ?_, ?_, ?_⟩
  · intro b p hb
    simp only [vmPageInsert, PageHash.setBucket, PageHash.modPage, update_apply] at hb
    split at hb
    · exact .inr (Option.some.inj hb).symm
    · exact .inl (h1 b p hb)
  · intro p p' hx hn
    simp only [vmPageInsert, PageHash.setBucket, PageHash.modPage, update_apply] at hn
    split at hn
    · exact .inl (h1 _ _ hn)
    · rename_i hne
      exact .inl (h2 p p' (hx.resolve_right hne) hn)
  · rintro x (hx | rfl)
    · exact h3 x hx
    · exact hp

theorem HashIn.remove (hh : HashIn h B) (hr : vmPageRemove h fuel page = some h') : HashIn h' B := by
  obtain ⟨A, h1, h2, h3⟩ := hh
  unfold vmPageRemove at hr
  dsimp only at hr
  split at hr
  · rename_i hb
    cases hr
    refine ⟨A, ?_, h2, h3⟩
    intro b p hp
    simp only [PageHash.setBucket, update_apply] at hp
    split at hp
    · exact h2 page p (h1 _ _ hb) hp
    · exact h1 b p hp
  · split at hr
    · cases hr
    · cases hr
      exact ⟨A, h1, h2, h3⟩
    · rename_i new hf
      cases hr
      -- the page found is `page` itself
      obtain ⟨-, ht⟩ := chainFind_mem h2 (h1 _) hf
      obtain rfl : new = page := by simpa using ht
      exact HashIn.modPage ⟨A, h1, h2, h3⟩ (.inl rfl)

omit [DecidableEq ρ] in
theorem hashIn_of_empty (hb : ∀ b, h.pagehash b = none) : HashIn h B := by
  refine ⟨fun _ => False, ?_, fun _ _ h _ => h, fun _ h => h.elim⟩
  intro b p hp
  rw [hb b] at hp
  cases hp

end Hash

section Lists

variable {M : List Frame} {s s₁ s' : PageMem} {q : PageHead → List Frame} {page x : Frame} {flag : PageFlag}
  {object offset : BitVec 32} {list : PageHead} {fuel : Nat}

/-- The list is one that pages are put on. -/
def UsedHead : PageHead → Prop
  | .free flag => flag = .ker
  | _ => True

/-- The lists have the pages `q`; these are the pages `M`, each once, and the chains of the hash lead to no others. -/
structure PageInv (M : List Frame) (s : PageMem) (q : PageHead → List Frame) : Prop where
  queues : Queues UsedHead s.pagelist q
  mem : ∀ x, (∃ h, x ∈ q h) ↔ x ∈ M
  hash : HashIn s.pages (· ∈ M)

/-- The page is on a list, but not free. -/
def Assigned (q : PageHead → List Frame) (x : Frame) : Prop := ∃ h, h ≠ freeList ∧ x ∈ q h

/-- The free pages that `nfree_pages` does not count. -/
def shortfall (s : PageMem) (q : PageHead → List Frame) : Int := (q freeList).length - s.nfreePages

/-- The page has been taken off the list of the free pages. -/
structure Took (s s₁ : PageMem) (q : PageHead → List Frame) (page : Frame) : Prop where
  lists : ∃ rest, q freeList = rest ++ [page] ∧ Queues UsedHead s₁.pagelist (update q freeList rest)
  nfree : s₁.nfreePages = s.nfreePages - 1
  hash : ∀ B, HashIn s.pages B → HashIn s₁.pages B

theorem getPage_took (hq : Queues UsedHead s.pagelist q) (h : getPage s flag = some (s₁, some page)) :
    Took s s₁ q page := by
  have hr := hq.ring freeList rfl
  unfold getPage at h
  rcases eq_nil_or_concat (q freeList) with he | ⟨rest, y, he⟩
  · -- the list is empty, and the head is its own predecessor
    rw [he] at hr
    have hp : s.pagelist.prev (.head freeList) = .head freeList := hr.prev
    simp only [listDequeue, hp] at h
    split at h
    · obtain ⟨-, h⟩ := Prod.mk.inj (Option.some.inj h)
      cases h
    · cases h
  · rw [concat_eq_append] at he
    rw [he, map_append, map_singleton] at hr
    rw [listDequeue_concat hr] at h
    obtain ⟨rfl, hy⟩ := Prod.mk.inj (Option.some.inj h)
    obtain rfl := Option.some.inj hy
    have hmem : y ∈ q freeList := by
      rw [he]
      simp
    have hq' := hq.unlink_last he
    have hnd := hq.nodup freeList
    rw [he] at hnd
    have hhash : ∀ B, HashIn s.pages B → HashIn (s.pages.modPage y fun p => { p with next := none }) B :=
      fun B hB => hB.modPage (.inr rfl)
    refine ⟨⟨rest, he, hq'.congr fun c hc => ?_⟩, rfl, hhash⟩
    -- `list_init` writes the links of the page only, and it is on no list now
    have hne : c ≠ .obj y := by
      rintro rfl
      obtain ⟨h', hm⟩ := hc
      have := (hq.exists_mem_update_erase hmem (u := y)).1 ⟨h', by
        rw [he, erase_concat hnd]
        exact hm⟩
      exact this.1 rfl
    simp [listInit, hne]

theorem HashIn.setCount {B : Frame → Prop} {count : BitVec 32} (h : HashIn s.pages B) :
    HashIn (s.setCount page count).pages B := by
  change HashIn (s.pages.modPage page fun p => { p with count := count }) B
  exact h.modPage (.inl rfl)

theorem Took.setCount {count : BitVec 32} (h : Took s s₁ q page) : Took s (s₁.setCount page count) q page :=
  ⟨h.lists, h.nfree, fun B hB => (h.hash B hB).setCount⟩

/-- A page is taken off the list of the free pages and put on another one. -/
theorem Took.assign_lists (object offset : BitVec 32) (hi : PageInv M s q) (h : Took s s₁ q page) (hu : UsedHead list)
    (hl : list ≠ freeList) :
    ∃ q', PageInv M (s₁.assign page object offset list) q' ∧ q freeList = q' freeList ++ [page] ∧
      (∀ h, h ≠ freeList → q' h = if h = list then page :: q h else q h) ∧
      shortfall (s₁.assign page object offset list) q' = shortfall s q ∧
      (HashIn s.pages (Assigned q) → HashIn (s₁.assign page object offset list).pages (Assigned q')) := by
  obtain ⟨rest, hfree, hq⟩ := h.lists
  have hmem : page ∈ q freeList := by
    rw [hfree]
    simp
  have hnd := hi.queues.nodup freeList
  rw [hfree] at hnd
  have herase : update q freeList rest = update q freeList ((q freeList).erase page) := by
    rw [hfree, erase_concat hnd]
  have hoff : ∀ h', page ∉ update q freeList rest h' := by
    intro h' hm
    rw [herase] at hm
    exact ((hi.queues.exists_mem_update_erase hmem).1 ⟨h', hm⟩).1 rfl
  have hM : page ∈ M := (hi.mem page).1 ⟨_, hmem⟩
  refine ⟨update (update q freeList rest) list (page :: update q freeList rest list),
    ⟨?_, ?_, (h.hash _ hi.hash).insert hM⟩, ?_, ?_, ?_, ?_⟩
  · change Queues _ (listAdd s₁.pagelist (.head list) (.obj page)) _
    rw [listAdd, listEnqueue_eq]
    exact hq.splice hu hoff
  · intro y
    rw [exists_mem_update_cons, herase, hi.queues.exists_mem_update_erase hmem, hi.mem]
    constructor
    · rintro (rfl | ⟨-, hy⟩)
      · exact hM
      · exact hy
    · intro hy
      by_cases he : y = page
      · exact .inl he
      · exact .inr ⟨he, hy⟩
  · rw [update_of_ne hl.symm, update_self, hfree]
  · intro h' hne
    split
    · rename_i he
      rw [he, update_self, update_of_ne hl]
    · rename_i he
      rw [update_of_ne he, update_of_ne hne]
  · have hn : (s₁.assign page object offset list).nfreePages = s.nfreePages - 1 := h.nfree
    unfold shortfall
    rw [update_of_ne hl.symm, update_self, hn, hfree, length_append, length_singleton]
    omega
  · intro hh
    refine HashIn.insert ((h.hash _ hh).mono ?_) ?_
    · rintro y ⟨h', hne, hy⟩
      refine ⟨h', hne, ?_⟩
      by_cases he : h' = list
      · subst he
        rw [update_self, update_of_ne hne]
        exact mem_cons_of_mem _ hy
      · rw [update_of_ne he, update_of_ne hne]
        exact hy
    · exact ⟨list, hl, by rw [update_self]; exact mem_cons_self ..⟩

theorem Took.assign (hi : PageInv M s q) (h : Took s s₁ q page) (hu : UsedHead list) (hl : list ≠ freeList) :
    ∃ q', PageInv M (s₁.assign page object offset list) q' ∧
      shortfall (s₁.assign page object offset list) q' = shortfall s q ∧
      (HashIn s.pages (Assigned q) → HashIn (s₁.assign page object offset list).pages (Assigned q')) := by
  obtain ⟨q', hi', -, -, hs, hh⟩ := h.assign_lists object offset hi hu hl
  exact ⟨q', hi', hs, hh⟩

/-- A page is taken off its list and put on the list of the free pages, without `nfree_pages`. -/
theorem PageInv.release {pages : PageHash Frame} (hi : PageInv M s q) (hx : x ∈ M) (hh : HashIn pages (· ∈ M)) :
    ∃ q', PageInv M (putPage { s with pages := pages, pagelist := s.pagelist.unlink (.obj x) } x) q' ∧
      (∀ h, h ≠ freeList → q' h = (q h).erase x) ∧
      (Assigned q x →
        shortfall (putPage { s with pages := pages, pagelist := s.pagelist.unlink (.obj x) } x) q' =
          shortfall s q + 1) := by
  obtain ⟨h₀, hmem⟩ := (hi.mem x).2 hx
  have hq := hi.queues.unlink hmem
  have hoff : ∀ h', x ∉ update q h₀ ((q h₀).erase x) h' := fun h' hm =>
    ((hi.queues.exists_mem_update_erase hmem).1 ⟨h', hm⟩).1 rfl
  refine ⟨update (update q h₀ ((q h₀).erase x)) freeList
    (x :: update q h₀ ((q h₀).erase x) freeList), ⟨?_, ?_, hh⟩, ?_, ?_⟩
  · change Queues _ (listEnqueue (s.pagelist.unlink (.obj x)) (.head freeList) (.obj x)) _
    rw [listEnqueue_eq]
    exact hq.splice rfl hoff
  · intro y
    rw [exists_mem_update_cons, hi.queues.exists_mem_update_erase hmem, hi.mem]
    constructor
    · rintro (rfl | ⟨-, hy⟩)
      · exact hx
      · exact hy
    · intro hy
      by_cases he : y = x
      · exact .inl he
      · exact .inr ⟨he, hy⟩
  · intro h hne
    rw [update_of_ne hne]
    by_cases he : h = h₀
    · subst he
      rw [update_self]
    · rw [update_of_ne he, erase_of_not_mem]
      exact fun hm => he (hi.queues.disjoint h h₀ x hm hmem)
  · rintro ⟨h', hne, hy⟩
    obtain rfl := hi.queues.disjoint h' h₀ x hy hmem
    unfold shortfall
    rw [update_self, update_of_ne hne.symm]
    change ((x :: q freeList).length : Int) - s.nfreePages = _
    rw [length_cons]
    omega

end Lists

end Manrix
