import Manrix.Mm.FrameAccounts
import Manrix.Mm.PageFinds

/-!
# Pages for the kernel (`get_page`, `kmem_alloc`, `kmem_free`)

`get_page` takes the page from the list for `PAGE_ALLOC_KER` whatever its flag, and finds out that this list was empty
by comparing the page with the head of the list for the flag.

`kmem_alloc` takes the pages of a block one by one, in the order of the list of the free pages, and returns the address
of the first one.  The block is contiguous only if the list happens to have the pages in this order, or in another one
with the lowest page in front.  If the kernel needs a page table on the way, the memory is overwritten.  `kmem_free`
looks up the first page of the block and frees it, whatever the size.
-/

namespace Manrix

open Function Links List Runs

variable {M : List Frame} {s s' : PageMem} {q : PageHead → List Frame} {page : Frame} {flag : PageFlag}

/-- The pointer that `get_page` returns. -/
def getPageRet (s : PageMem) (flag : PageFlag) : Option (Node PageHead Frame) :=
  let page := (listDequeue s.pagelist (.head freeList)).2
  if page = .head (.free flag) then none else some page

/-- A null pointer and nothing changed if there is no free page, and one of the free pages otherwise, which is off the
list then.  The pointer is not that of the head of a list. -/
structure GetsPage (s : PageMem) (q : PageHead → List Frame) (flag : PageFlag) : Prop where
  null : getPageRet s flag = none ↔ q freeList = []
  notHead : ∀ h, getPageRet s flag ≠ some (.head h)
  empty : q freeList = [] →
    ∃ s', getPage s flag = some (s', none) ∧ s'.pagelist = s.pagelist ∧ s'.nfreePages = s.nfreePages
  taken : q freeList ≠ [] →
    ∃ s' page, getPage s flag = some (s', some page) ∧ getPageRet s flag = some (.obj page) ∧ page ∈ q freeList ∧
      Queues UsedHead s'.pagelist (update q freeList ((q freeList).erase page))

private theorem listDequeue_free_empty (hq : Queues UsedHead s.pagelist q) (he : q freeList = []) :
    listDequeue s.pagelist (.head freeList) = (s.pagelist, .head freeList) := by
  have hr := hq.ring freeList rfl
  rw [he] at hr
  have hn : s.pagelist.next (.head freeList) = .head freeList := hr.next
  have hp : s.pagelist.prev (.head freeList) = .head freeList := hr.prev
  simp only [listDequeue, hp, if_true, setNext, setPrev]
  rw [update_eq_self_iff.2 hn.symm, update_eq_self_iff.2 hp.symm]

theorem getPage_of_ne_nil (hq : Queues UsedHead s.pagelist q) (hne : q freeList ≠ []) (flag : PageFlag) :
    ∃ s' page, getPage s flag = some (s', some page) ∧ getPageRet s flag = some (.obj page) := by
  have hr := hq.ring freeList rfl
  obtain ⟨rest, y, he⟩ := (eq_nil_or_concat (q freeList)).resolve_left hne
  rw [concat_eq_append] at he
  rw [he, map_append, map_singleton] at hr
  unfold getPage getPageRet
  rw [listDequeue_concat hr]
  exact ⟨_, y, rfl, rfl⟩

/-- `get_page` is right if it is asked for the memory of the kernel or if there is a free page. -/
theorem get_page_exhaustion (hq : Queues UsedHead s.pagelist q) :
    GetsPage s q flag ↔ flag = .ker ∨ q freeList ≠ [] := by
  by_cases he : q freeList = []
  · have hd := listDequeue_free_empty hq he
    have hret : getPageRet s flag = if flag = .ker then none else some (.head freeList) := by
      unfold getPageRet
      rw [hd]
      cases flag <;> rfl
    rw [or_iff_left (fun h => h he)]
    constructor
    · intro h
      by_contra hf
      rw [if_neg hf] at hret
      exact h.notHead _ hret
    · rintro rfl
      rw [if_pos rfl] at hret
      refine ⟨iff_of_true hret he, by simp [hret], fun _ => ⟨s, ?_, rfl, rfl⟩, fun h => absurd he h⟩
      unfold getPage
      rw [hd]
      rfl
  · refine iff_of_true ?_ (.inr he)
    obtain ⟨s', page, hg, hret⟩ := getPage_of_ne_nil hq he flag
    obtain ⟨rest, hrest, hq'⟩ := (getPage_took hq hg).lists
    have hnd := hq.nodup freeList
    refine ⟨iff_of_false (by simp [hret]) he, by simp [hret], fun h => absurd h he, fun _ => ⟨s', page, hg, hret, ?_⟩⟩
    rw [hrest] at hnd ⊢
    rw [erase_concat hnd]
    exact ⟨by simp, hq'⟩

/-- A page for a user while there is one. -/
theorem get_page_exhaustion_one_page : ∃ q, Queues UsedHead onePage.pagelist q ∧ GetsPage onePage q .oth := by
  obtain ⟨q, ha⟩ := vmPageInit_inv (fun _ => ⟨none, 0, 0, 0⟩) 0x1000 (fun _ => none) (nodup_singleton 2)
  have hne : q freeList ≠ [] := by
    intro h
    have hs := ha.counted
    rw [shortfall, h] at hs
    exact absurd hs (by decide)
  exact ⟨q, ha.inv.queues, (get_page_exhaustion ha.inv.queues).2 (.inr hne)⟩

/-- When the only page has been taken, `get_page(PAGE_ALLOC_OTH)` returns the address of
`free_page_list[PAGE_ALLOC_KER]`. -/
theorem get_page_returns_head : FrameStep onePage (.pageAlloc 0x3000 0) onePageTaken ∧
    getPageRet onePageTaken .oth = some (.head (.free .ker)) ∧ ∀ q, ¬ GetsPage onePageTaken q .oth := by
  have hret : getPageRet onePageTaken .oth = some (.head (.free .ker)) := rfl
  exact ⟨onePage_step, hret, fun q h => h.notHead _ hret⟩

/-- The order in which `get_page` returns the free pages. -/
def FreeOrder (s : PageMem) (pages : List Frame) : Prop :=
  IsRing s.pagelist (.head freeList) (pages.reverse.map .obj)

/-- The first `n` free pages have been taken, and are pages of the kernel object now. -/
structure TakesFrom (M : List Frame) (s s' : PageMem) (q q' : PageHead → List Frame) (n : Nat) : Prop where
  inv : PageInv M s' q'
  free : (q' freeList).reverse = (q freeList).reverse.drop n
  kernel : ∀ x, x ∈ q' (.object s.kernelObject) ↔ x ∈ (q freeList).reverse.take n ∨ x ∈ q (.object s.kernelObject)
  object : s'.kernelObject = s.kernelObject

section Alloc

variable {s₁ : PageMem} {q₁ q' : PageHead → List Frame} {n m : Nat} {ts : List Bool}

theorem TakesFrom.trans (h : TakesFrom M s s₁ q q₁ n) (h' : TakesFrom M s₁ s' q₁ q' m) :
    TakesFrom M s s' q q' (n + m) where
  inv := h'.inv
  free := by rw [h'.free, h.free, drop_drop]
  kernel x := by
    have hk := h'.kernel x
    rw [h.object, h.free] at hk
    rw [hk, h.kernel x, take_add, mem_append]
    tauto
  object := h'.object.trans h.object

theorem getPage_kernelObject {r : Option Frame} (h : getPage s flag = some (s', r)) :
    s'.kernelObject = s.kernelObject := by
  unfold getPage at h
  split at h
  split at h
  · split at h
    · rw [← (Prod.mk.inj (Option.some.inj h)).1]
    · cases h
  · rw [← (Prod.mk.inj (Option.some.inj h)).1]

private theorem reverse_of_concat {l : List Frame} (h : q freeList = l ++ [page]) :
    (q freeList).reverse = page :: l.reverse ∧ l.reverse = (q freeList).reverse.drop 1 := by
  rw [h]
  simp

private theorem takeKernelPage_from {table : Bool} (hi : PageInv M s q) (h : s.takeKernelPage table = some (s', page)) :
    ∃ q' rest, (q freeList).reverse = page :: rest ∧ TakesFrom M s s' q q' 1 := by
  unfold PageMem.takeKernelPage at h
  split at h
  · rename_i s₁ page' hg
    split at h
    · cases h
    · obtain ⟨rfl, rfl⟩ := Prod.mk.inj (Option.some.inj h)
      have hobj := getPage_kernelObject hg
      have hne : PageHead.object s₁.kernelObject ≠ freeList := object_ne_freeList
      obtain ⟨q₁, hi₁, hfree, hlists, -⟩ :=
        (getPage_took hi.queues hg).assign_lists s₁.kernelObject page'.base hi (by trivial) hne
      obtain ⟨hrev, hdrop⟩ := reverse_of_concat hfree
      refine ⟨q₁, _, hrev, hi₁, hdrop, fun x => ?_, hobj⟩
      rw [hlists _ object_ne_freeList, hobj, if_pos rfl, hrev]
      simp
  · cases h

private theorem takeKernelPages_from (hi : PageInv M s q) (h : s.takeKernelPages ts = some s') :
    ∃ q', TakesFrom M s s' q q' ts.length := by
  induction ts generalizing s q with
  | nil =>
    cases h
    exact ⟨q, hi, rfl, by simp, rfl⟩
  | cons t ts ih =>
    obtain ⟨⟨s₁, page⟩, h₁, h₂⟩ := Option.bind_eq_some_iff.1 h
    obtain ⟨q₁, -, -, hq₁⟩ := takeKernelPage_from hi h₁
    obtain ⟨q', hq'⟩ := ih hq₁.inv h₂
    rw [length_cons, Nat.add_comm]
    exact ⟨q', hq₁.trans hq'⟩

private theorem kmemAlloc_from {size start : BitVec 32} {tables : Nat → Bool} (hi : PageInv M s q)
    (h : s.kmemAlloc size tables = some (s', start)) :
    ∃ q' page rest, (q freeList).reverse = page :: rest ∧ start = page.base ∧
      TakesFrom M s s' q q' (kmemTables size tables).length := by
  have hall := kmemAlloc_pages s size tables
  rw [h] at hall
  obtain ⟨⟨s₁, page⟩, h₁, h₂⟩ := Option.bind_eq_some_iff.1 h
  obtain ⟨s₂, hs₂, he⟩ := Option.map_eq_some_iff.1 h₂
  obtain ⟨q₁, rest, hrev, -⟩ := takeKernelPage_from hi h₁
  obtain ⟨q', hq'⟩ := takeKernelPages_from hi hall.symm
  exact ⟨q', page, rest, hrev, (Prod.mk.inj he).2.symm, hq'⟩

end Alloc

/-- A block that `kmem_alloc` has returned. -/
structure KBlock where
  start : BitVec 32
  size : BitVec 32
  deriving DecidableEq

/-- The number of pages that have bytes of a block. -/
def blockPages (size : BitVec 32) : Nat := (size.toNat + 0xFFF) / 0x1000

/-- All pages of the block are such. -/
def KBlock.All (b : KBlock) (P : Frame → Prop) : Prop :=
  ∀ k < blockPages b.size, ∃ x : Frame, x.toNat = (frameOf b.start).toNat + k ∧ P x

def KBlock.Disjoint (b c : KBlock) : Prop :=
  ∀ k l, k < blockPages b.size → l < blockPages c.size →
    (frameOf b.start).toNat + k ≠ (frameOf c.start).toNat + l

/-- The pages, and the blocks that have not been freed. -/
structure KmemState where
  mem : PageMem
  blocks : List KBlock

inductive KmemOp where
  | alloc (size : BitVec 32) (tables : Nat → Bool)
  | free (b : KBlock)

/-- There are enough free pages.  If `kmem_alloc` takes a page table, the state after it can be any; a call of
`kmem_free` that does not come to its end leaves the memory as it is. -/
def KmemStep (s : KmemState) (op : KmemOp) (s' : KmemState) : Prop :=
  match op with
  | .alloc size tables => 1 ≤ size.toNat ∧ (true ∈ kmemTables size tables ∨
      ∃ start, s.mem.kmemAlloc size tables = some (s'.mem, start) ∧ s'.blocks = ⟨start, size⟩ :: s.blocks)
  | .free b => b ∈ s.blocks ∧ s'.blocks = s.blocks.erase b ∧
      ((∃ fuel, s.mem.kmemFree fuel b.start = some s'.mem) ∨
        (∀ fuel, s.mem.kmemFree fuel b.start = none) ∧ s'.mem = s.mem)

/-- The pages of a new block were free and are pages of the kernel now, and no other block has one of them; the pages of
a block that is freed are free then. -/
def KmemOk (x : KmemState × KmemOp × KmemState) : Prop :=
  match x.2.1 with
  | .alloc size tables => ∃ start, x.1.mem.kmemAlloc size tables = some (x.2.2.mem, start) ∧
      KBlock.All ⟨start, size⟩ (fun p => Threaded x.1.mem.pagelist freeList p ∧
        Threaded x.2.2.mem.pagelist (.object x.1.mem.kernelObject) p) ∧
      ∀ c ∈ x.1.blocks, KBlock.Disjoint ⟨start, size⟩ c
  | .free b => (∃ fuel, x.1.mem.kmemFree fuel b.start = some x.2.2.mem) ∧
      b.All fun p => Threaded x.2.2.mem.pagelist freeList p

/-- No page table is taken, and the list of the free pages gives pages that lie behind the first one without a gap; a
block that is freed has one page, which the lookup finds. -/
def KmemGuard (x : KmemState × KmemOp × KmemState) : Prop :=
  match x.2.1 with
  | .alloc size tables => true ∉ kmemTables size tables ∧
      ∀ page rest, FreeOrder x.1.mem (page :: rest) → ∀ k < blockPages size,
        ∃ p ∈ (page :: rest).take (kmemTables size tables).length, p.toNat = page.toNat + k
  | .free b => b.size.toNat ≤ 0x1000 ∧ ∃ object, x.1.mem.entryObject b.start = some object ∧
      x.1.mem.pages.Finds object b.start (frameOf b.start)

/-- The pages of the blocks are pages of the kernel, and no two blocks have one of them. -/
structure KmemInv (M : List Frame) (s : KmemState) (q : PageHead → List Frame) : Prop where
  pages : PageInv M s.mem q
  kernel : ∀ b ∈ s.blocks, b.All (· ∈ q (.object s.mem.kernelObject))
  nonempty : ∀ b ∈ s.blocks, 1 ≤ b.size.toNat
  disjoint : s.blocks.Pairwise KBlock.Disjoint

section Histories

variable {t t' t₀ : KmemState} {op : KmemOp} {b : KBlock} {size : BitVec 32} {tables : Nat → Bool} {fuel : Nat}
  {x : Frame}

theorem KBlock.Disjoint.symm {b c : KBlock} (h : b.Disjoint c) : c.Disjoint b :=
  fun k l hk hl he => h l k hl hk he.symm

theorem PageInv.freeOrder_iff {F : List Frame} (hi : PageInv M s q) : FreeOrder s F ↔ F = (q freeList).reverse := by
  have hr := hi.queues.ring freeList rfl
  constructor
  · intro h
    have hnot : ∀ l : List Frame, Node.head freeList ∉ l.map (Node.obj : Frame → Node PageHead Frame) := by simp
    have hl := Path.unique h.next hr.next (hnot _) (hnot _)
    have hinj : Injective (Node.obj : Frame → Node PageHead Frame) := fun _ _ h => Node.obj.inj h
    rw [← map_injective_iff.2 hinj hl, reverse_reverse]
  · rintro rfl
    unfold FreeOrder
    rwa [reverse_reverse]

theorem PageInv.free_iff (hi : PageInv M s q) : Threaded s.pagelist freeList x ↔ x ∈ q freeList :=
  hi.queues.threaded_iff rfl

theorem PageInv.not_kernel (hi : PageInv M s q) (h : x ∈ q freeList) {object : BitVec 32} : x ∉ q (.object object) :=
  fun h' => object_ne_freeList (hi.queues.disjoint _ _ x h' h)

theorem TakesFrom.taken_iff {q' : PageHead → List Frame} {n : Nat} (hi : PageInv M s q) (h : TakesFrom M s s' q q' n) :
    (Threaded s.pagelist freeList x ∧ Threaded s'.pagelist (.object s.kernelObject) x) ↔
      x ∈ (q freeList).reverse.take n := by
  have hker : Threaded s'.pagelist (.object s.kernelObject) x ↔ x ∈ q' (.object s.kernelObject) :=
    h.inv.queues.threaded_iff trivial
  rw [hi.free_iff, hker, h.kernel]
  constructor
  · rintro ⟨hx, hg | hk⟩
    · exact hg
    · exact absurd hk (hi.not_kernel hx)
  · intro hg
    exact ⟨mem_reverse.1 (mem_of_mem_take hg), .inl hg⟩

theorem KBlock.All.mono {P Q : Frame → Prop} (h : b.All P) (hPQ : ∀ x, P x → Q x) : b.All Q := by
  intro k hk
  obtain ⟨x, hx, hP⟩ := h k hk
  exact ⟨x, hx, hPQ x hP⟩

theorem KmemInv.disjoint_of_free (hi : KmemInv M t q) (h : b.All (· ∈ q freeList)) : ∀ c ∈ t.blocks, b.Disjoint c := by
  intro c hc k l hk hl he
  obtain ⟨x, hx, hxf⟩ := h k hk
  obtain ⟨y, hy, hyk⟩ := hi.kernel c hc l hl
  obtain rfl : x = y := BitVec.eq_of_toNat_eq (by omega)
  exact hi.pages.not_kernel hxf hyk

theorem KmemInv.guard_iff {rest : List Frame} (hi : KmemInv M t q) (hrev : (q freeList).reverse = page :: rest) :
    KmemGuard (t, .alloc size tables, t') ↔ true ∉ kmemTables size tables ∧
      KBlock.All ⟨page.base, size⟩ (· ∈ (q freeList).reverse.take (kmemTables size tables).length) := by
  refine and_congr Iff.rfl ?_
  unfold KBlock.All
  simp only [frameOf_base, hrev]
  constructor
  · intro hg k hk
    obtain ⟨p, hp, hpk⟩ := hg page rest (hi.pages.freeOrder_iff.2 hrev.symm) k hk
    exact ⟨p, hpk, hp⟩
  · intro hg page' rest' hF k hk
    obtain ⟨rfl, rfl⟩ := List.cons.inj ((hi.pages.freeOrder_iff.1 hF).trans hrev)
    obtain ⟨p, hpk, hp⟩ := hg k hk
    exact ⟨p, hp, hpk⟩

theorem KmemInv.block_free {n : Nat} (h : b.All (· ∈ (q freeList).reverse.take n)) : b.All (· ∈ q freeList) :=
  h.mono fun _ hx => mem_reverse.1 (mem_of_mem_take hx)

theorem KmemInv.alloc_iff (hi : KmemInv M t q) (h : KmemStep t (.alloc size tables) t') :
    KmemOk (t, .alloc size tables, t') ↔ KmemGuard (t, .alloc size tables, t') := by
  obtain ⟨hsize, ht | ⟨start, halloc, hblocks⟩⟩ := h
  · refine iff_of_false ?_ fun hg => hg.1 ht
    rintro ⟨start, halloc, -⟩
    rw [show t.mem.kmemAlloc size tables = none from kmemAlloc_table ht] at halloc
    cases halloc
  · obtain ⟨q', page, rest, hrev, rfl, hT⟩ := kmemAlloc_from hi.pages halloc
    rw [hi.guard_iff hrev]
    constructor
    · rintro ⟨start, halloc', hall, -⟩
      obtain ⟨-, rfl⟩ := Prod.mk.inj (Option.some.inj (halloc.symm.trans halloc'))
      refine ⟨fun ht => ?_, hall.mono fun x hx => (hT.taken_iff hi.pages).1 hx⟩
      rw [kmemAlloc_table ht] at halloc
      cases halloc
    · rintro ⟨-, hall⟩
      exact ⟨page.base, halloc, hall.mono fun x hx => (hT.taken_iff hi.pages).2 hx,
        hi.disjoint_of_free (KmemInv.block_free hall)⟩

theorem KmemInv.alloc (hi : KmemInv M t q) (h : KmemStep t (.alloc size tables) t')
    (hg : KmemGuard (t, .alloc size tables, t')) : ∃ q', KmemInv M t' q' := by
  obtain ⟨hsize, ht | ⟨start, halloc, hblocks⟩⟩ := h
  · exact absurd ht hg.1
  · obtain ⟨q', page, rest, hrev, rfl, hT⟩ := kmemAlloc_from hi.pages halloc
    have hall := ((hi.guard_iff hrev).1 hg).2
    refine ⟨q', hT.inv, fun b hb => ?_, fun b hb => ?_, ?_⟩
    · rw [hblocks, mem_cons] at hb
      rw [hT.object]
      rcases hb with rfl | hb
      · exact hall.mono fun x hx => (hT.kernel x).2 (.inl hx)
      · exact (hi.kernel b hb).mono fun x hx => (hT.kernel x).2 (.inr hx)
    · rw [hblocks, mem_cons] at hb
      rcases hb with rfl | hb
      · exact hsize
      · exact hi.nonempty b hb
    · rw [hblocks, pairwise_cons]
      exact ⟨hi.disjoint_of_free (KmemInv.block_free hall), hi.disjoint⟩

private theorem pageFree_lists (hi : PageInv M s q) (hp : page ∈ M) (h : s.pageFree fuel page = some s') :
    ∃ q', PageInv M s' q' ∧ (∀ h, h ≠ freeList → q' h = (q h).erase page) ∧ page ∈ q' freeList ∧
      s'.kernelObject = s.kernelObject := by
  obtain ⟨q', hi', -, hlists, hobject⟩ := pageFree_release hi hp h
  refine ⟨q', hi', hlists, ?_, hobject⟩
  obtain ⟨h', hm⟩ := (hi'.mem page).2 hp
  by_cases hf : h' = freeList
  · exact hf ▸ hm
  · rw [hlists h' hf] at hm
    exact absurd hm (List.Nodup.not_mem_erase (hi.queues.nodup h'))

private theorem vmPageRemove_isSome {h : PageHash Frame} {object offset : BitVec 32}
    (hl : vmPageLookup h fuel object offset = some (.result (some x))) : (vmPageRemove h fuel x).isSome := by
  -- both look into the same bucket
  have hbucket : (h.page x).has object offset = true → pageIndex (h.page x).object (h.page x).offset =
      pageIndex object offset := by
    intro hx
    unfold VmPage.has at hx
    simp only [Bool.and_eq_true, decide_eq_true_eq] at hx
    rw [hx.1, hx.2]
  unfold vmPageLookup at hl
  split at hl
  · cases hl
  · rename_i first hfirst
    split at hl
    · rename_i hx
      cases hl
      unfold vmPageRemove
      dsimp only
      rw [hbucket hx, if_pos hfirst]
      rfl
    · obtain ⟨r, hr, he⟩ := Option.map_eq_some_iff.1 hl
      obtain rfl := PageLookup.result.inj he
      have htest := Chain.chainFind_test hr
      have hx : (h.page x).has object offset = true := htest
      unfold vmPageRemove
      dsimp only
      rw [hbucket hx, hfirst, Chain.chainFind_self hr]
      split <;> rfl

private theorem kmemFree_lists {va : BitVec 32} (hi : PageInv M s q) (h : s.kmemFree fuel va = some s') :
    (s' = s ∧ ∀ object p, s.entryObject va = some object → ¬ s.pages.Finds object va p) ∨
    ∃ object p q', s.entryObject va = some object ∧ s.pages.Finds object va p ∧ PageInv M s' q' ∧
      (∀ h, h ≠ freeList → q' h = (q h).erase p) ∧ p ∈ q' freeList ∧ s'.kernelObject = s.kernelObject := by
  rcases kmemFree_cases h with ⟨rfl, hn⟩ | ⟨object, p, ho, hl, hf⟩
  · exact .inl ⟨rfl, fun object p ho ⟨fuel, hl⟩ => hn fuel object p ho hl⟩
  · obtain ⟨q', hq'⟩ := pageFree_lists hi (hi.hash.lookup hl) hf
    exact .inr ⟨object, p, q', ho, ⟨fuel, hl⟩, hq'⟩

theorem PageHash.Finds.unique {h : PageHash Frame} {object offset : BitVec 32} {p p' : Frame}
    (hp : h.Finds object offset p) (hp' : h.Finds object offset p') : p = p' := by
  obtain ⟨fuel, hl⟩ := hp
  obtain ⟨fuel', hl'⟩ := hp'
  exact Option.some.inj (PageLookup.result.inj (vmPageLookup_det hl hl'))

private theorem kmemFree_isSome {va object : BitVec 32} (ho : s.entryObject va = some object)
    (hf : s.pages.Finds object va x) : ∃ fuel, (s.kmemFree fuel va).isSome := by
  obtain ⟨fuel, hl⟩ := hf
  obtain ⟨pages, hr⟩ := Option.isSome_iff_exists.1 (vmPageRemove_isSome hl)
  refine ⟨fuel, ?_⟩
  simp only [PageMem.kmemFree, ho, hl, PageMem.pageFree, hr, Option.isSome_some]

theorem KmemInv.first (hi : KmemInv M t q) (hb : b ∈ t.blocks) :
    0 < blockPages b.size ∧ frameOf b.start ∈ q (.object t.mem.kernelObject) := by
  have hone : 0 < blockPages b.size := by
    have := hi.nonempty b hb
    unfold blockPages
    omega
  obtain ⟨x, hx, hk⟩ := hi.kernel b hb 0 hone
  obtain rfl : x = frameOf b.start := BitVec.eq_of_toNat_eq hx
  exact ⟨hone, hk⟩

/-- A block is freed as a whole exactly if it has one page, which the lookup finds. -/
theorem KmemInv.free_iff (hi : KmemInv M t q) (h : KmemStep t (.free b) t') :
    KmemOk (t, .free b, t') ↔ KmemGuard (t, .free b, t') := by
  obtain ⟨hb, hblocks, hend⟩ := h
  obtain ⟨hone, hk₀⟩ := hi.first hb
  constructor
  · rintro ⟨⟨fuel, hf⟩, hall⟩
    rcases kmemFree_lists hi.pages hf with ⟨hs, -⟩ | ⟨object, p, q', ho, hl, hi', hlists, hp, -⟩
    · -- nothing has been freed, so the first page still belongs to the kernel
      obtain ⟨x, hx, hfree⟩ := hall 0 hone
      obtain rfl : x = frameOf b.start := BitVec.eq_of_toNat_eq hx
      rw [show t'.mem = t.mem from hs] at hfree
      exact absurd hk₀ (hi.pages.not_kernel (hi.pages.free_iff.1 hfree))
    · -- the pages that were not found still belong to the kernel
      have hfound : ∀ k < blockPages b.size, p.toNat = (frameOf b.start).toNat + k := by
        intro k hk
        obtain ⟨x, hx, hxk⟩ := hi.kernel b hb k hk
        obtain ⟨y, hy, hfree⟩ := hall k hk
        obtain rfl : x = y := BitVec.eq_of_toNat_eq (by omega)
        by_contra hne
        have hxp : x ≠ p := fun he => hne (he ▸ hx)
        have hkept : x ∈ q' (.object t.mem.kernelObject) := by
          rw [hlists _ object_ne_freeList]
          exact (mem_erase_of_ne hxp).2 hxk
        exact hi'.not_kernel (hi'.free_iff.1 hfree) hkept
      have hp₀ : p = frameOf b.start := BitVec.eq_of_toNat_eq (hfound 0 hone)
      refine ⟨?_, object, ho, hp₀ ▸ hl⟩
      show b.size.toNat ≤ 0x1000
      by_contra hlarge
      have h₁ := hfound 1 (by unfold blockPages; omega)
      have h₀ := hfound 0 hone
      omega
  · rintro ⟨hsize, object, ho, hl⟩
    change b.size.toNat ≤ 0x1000 at hsize
    have hf : ∃ fuel, t.mem.kmemFree fuel b.start = some t'.mem := by
      rcases hend with hf | ⟨hnone, -⟩
      · exact hf
      · obtain ⟨fuel, hsome⟩ := kmemFree_isSome ho hl
        rw [hnone fuel] at hsome
        cases hsome
    refine ⟨hf, fun k hk => ⟨frameOf b.start, ?_, ?_⟩⟩
    · unfold blockPages at hk
      omega
    · obtain ⟨fuel, hf⟩ := hf
      rcases kmemFree_lists hi.pages hf with ⟨-, hn⟩ | ⟨object', p, q', ho', hl', hi', -, hp, -⟩
      · exact absurd hl (hn object _ ho)
      · cases ho.symm.trans ho'
        obtain rfl := hl.unique hl'
        exact hi'.free_iff.2 hp

theorem KmemInv.free (hi : KmemInv M t q) (h : KmemStep t (.free b) t') (hg : KmemGuard (t, .free b, t')) :
    ∃ q', KmemInv M t' q' := by
  obtain ⟨⟨fuel, hf⟩, -⟩ := (hi.free_iff h).2 hg
  obtain ⟨hb, hblocks, -⟩ := h
  obtain ⟨-, object, ho, hl⟩ := hg
  have hrest : ∀ c ∈ t.blocks.erase b, c ∈ t.blocks := fun c hc => mem_of_mem_erase hc
  have hpair := (perm_cons_erase hb).pairwise hi.disjoint fun h => h.symm
  obtain ⟨hdisj, hpair⟩ := pairwise_cons.1 hpair
  rcases kmemFree_lists hi.pages hf with ⟨-, hn⟩ | ⟨object', p, q', ho', hl', hi', hlists, -, hobj⟩
  · exact absurd hl (hn object _ ho)
  · cases ho.symm.trans ho'
    obtain rfl := hl.unique hl'
    refine ⟨q', hi', fun c hc k hk => ?_, fun c hc => ?_, hblocks ▸ hpair⟩
    · rw [hblocks] at hc
      obtain ⟨x, hx, hxk⟩ := hi.kernel c (hrest c hc) k hk
      refine ⟨x, hx, ?_⟩
      show x ∈ q' (.object t'.mem.kernelObject)
      rw [show t'.mem.kernelObject = t.mem.kernelObject from hobj, hlists _ object_ne_freeList]
      refine (mem_erase_of_ne ?_).2 hxk
      rintro rfl
      exact hdisj c hc 0 k (hi.first hb).1 hk (by omega)
    · rw [hblocks] at hc
      exact hi.nonempty c (hrest c hc)

end Histories

/-- In a history of `kmem_alloc` and `kmem_free` every block has pages of its own and every block that is freed is free
exactly if every call of `kmem_alloc` takes no page table and finds pages in a row at the end of the list and every
block that is freed has one page, which the lookup finds. -/
theorem kmem_contiguous (t₀ t : KmemState) (tr : List (KmemState × KmemOp × KmemState))
    (hi : PageInv M t₀.mem q) (hb : t₀.blocks = []) (hr : Run KmemStep t₀ tr t) :
    (∀ x ∈ tr, KmemOk x) ↔ ∀ x ∈ tr, KmemGuard x := by
  have h₀ : ∃ q, KmemInv M t₀ q := ⟨q, hi, by simp [hb], by simp [hb], by simp [hb]⟩
  refine hr.forall_iff (fun t => ∃ q, KmemInv M t q) _ _ h₀ ?_ ?_
  · rintro t op t' ⟨q, hi⟩ hg h
    cases op with
    | alloc size tables => exact hi.alloc h hg
    | free b => exact hi.free h hg
  · rintro t op t' ⟨q, hi⟩ h
    cases op with
    | alloc size tables => exact hi.alloc_iff h
    | free b => exact hi.free_iff h

/-- A machine with the frames 2, 3 and 4. -/
def threeFrames : KmemState := ⟨vmPageInit [2, 3, 4] (fun _ => ⟨none, 0, 0, 0⟩) 0x1000 fun _ => some 0x1000, []⟩

def KmemState.alloc (t : KmemState) (size : BitVec 32) : KmemState :=
  match t.mem.kmemAlloc size fun _ => false with
  | some (mem, start) => ⟨mem, ⟨start, size⟩ :: t.blocks⟩
  | none => t

def threeFramesTaken : KmemState := threeFrames.alloc 0x2000

def threeFramesFreed : KmemState := ⟨(threeFramesTaken.mem.kmemFree 1 0x2000).getD threeFramesTaken.mem, []⟩

private theorem threeFrames_step : KmemStep threeFrames (.alloc 0x2000 fun _ => false) threeFramesTaken :=
  ⟨by decide, .inr ⟨0x2000, rfl, rfl⟩⟩

private theorem threeFramesTaken_step : KmemStep threeFramesTaken (.free ⟨0x2000, 0x2000⟩) threeFramesFreed :=
  ⟨mem_singleton_self _, rfl, .inl ⟨1, rfl⟩⟩

private theorem threeFramesFreed_step :
    KmemStep threeFramesFreed (.alloc 0x2000 fun _ => false) (threeFramesFreed.alloc 0x2000) :=
  ⟨by decide, .inr ⟨0x4000, rfl, rfl⟩⟩

private theorem threeFrames_inv : ∃ q, PageInv [2, 3, 4] threeFrames.mem q := by
  have hnd : [(2 : Frame), 3, 4].Nodup := by decide
  obtain ⟨q, ha⟩ := vmPageInit_inv (fun _ => ⟨none, 0, 0, 0⟩) 0x1000 (fun _ => some 0x1000) hnd
  exact ⟨q, ha.inv⟩

private theorem threeFrames_guard : KmemGuard (threeFrames, .alloc 0x2000 fun _ => false, threeFramesTaken) := by
  obtain ⟨q, hi⟩ := threeFrames_inv
  have horder : FreeOrder threeFrames.mem [2, 3, 4] := ⟨by decide, by decide, by decide⟩
  refine ⟨by decide, fun page rest hF k hk => ?_⟩
  obtain ⟨rfl, rfl⟩ := List.cons.inj ((hi.freeOrder_iff.1 hF).trans (hi.freeOrder_iff.1 horder).symm)
  change k < 2 at hk
  obtain rfl | rfl : k = 0 ∨ k = 1 := by omega
  · exact ⟨2, by decide, rfl⟩
  · exact ⟨3, by decide, rfl⟩

/-- The first block has the frames 2 and 3. -/
theorem kmem_contiguous_three_frames : Run KmemStep threeFrames
      [(threeFrames, .alloc 0x2000 fun _ => false, threeFramesTaken)] threeFramesTaken ∧
    KmemOk (threeFrames, .alloc 0x2000 fun _ => false, threeFramesTaken) := by
  obtain ⟨q, hi⟩ := threeFrames_inv
  have hr := Run.nil.snoc threeFrames_step
  refine ⟨hr, (kmem_contiguous _ _ _ hi rfl hr).2 ?_ _ (mem_singleton_self _)⟩
  intro x hx
  rw [mem_singleton.1 hx]
  exact threeFrames_guard

/-- A block of the frames 2 and 3 is freed: the frame 3 stays with the kernel.  The next block of two pages starts at
the frame 4 and has the frame 2, but not the frame 5. -/
theorem freed_block_keeps_page : Run KmemStep threeFrames
      [(threeFrames, .alloc 0x2000 fun _ => false, threeFramesTaken),
        (threeFramesTaken, .free ⟨0x2000, 0x2000⟩, threeFramesFreed),
        (threeFramesFreed, .alloc 0x2000 fun _ => false, threeFramesFreed.alloc 0x2000)]
      (threeFramesFreed.alloc 0x2000) ∧ ¬ KmemOk (threeFramesTaken, .free ⟨0x2000, 0x2000⟩, threeFramesFreed) ∧
    ¬ KmemOk (threeFramesFreed, .alloc 0x2000 fun _ => false, threeFramesFreed.alloc 0x2000) := by
  obtain ⟨q, hp⟩ := threeFrames_inv
  have hi : KmemInv [2, 3, 4] threeFrames q := ⟨hp, nofun, by decide, .nil⟩
  obtain ⟨q₁, hi₁⟩ := hi.alloc threeFrames_step threeFrames_guard
  refine ⟨((Run.nil.snoc threeFrames_step).snoc threeFramesTaken_step).snoc threeFramesFreed_step, ?_, ?_⟩
  · rw [hi₁.free_iff threeFramesTaken_step]
    rintro ⟨hsize, -⟩
    exact absurd hsize (by decide)
  · have hfree : threeFramesTaken.mem.kmemFree 1 0x2000 = some threeFramesFreed.mem := rfl
    have hi₂ : ∃ q₂, PageInv [2, 3, 4] threeFramesFreed.mem q₂ := by
      rcases kmemFree_lists hi₁.pages hfree with ⟨he, -⟩ | ⟨-, -, q₂, -, -, hi₂, -⟩
      · exact ⟨q₁, he ▸ hi₁.pages⟩
      · exact ⟨q₂, hi₂⟩
    obtain ⟨q₂, hi₂⟩ := hi₂
    rintro ⟨start, halloc, hall, -⟩
    obtain rfl : 0x4000 = start := (Prod.mk.inj (Option.some.inj halloc)).2
    obtain ⟨x, hx, hf, -⟩ := hall 1 (by decide)
    obtain rfl : x = 5 := BitVec.eq_of_toNat_eq hx
    exact absurd ((hi₂.mem 5).1 ⟨_, hi₂.free_iff.1 hf⟩) (by decide)

end Manrix
