import Manrix.Lib.Runs
import Manrix.Mm.BootMemory
import Manrix.Mm.PageAlloc

/-!
# The accounts of the frames

`vm_page_init` puts every page on the list of the free pages and counts it in `nfree_pages`.  From then on `get_page`
counts down, but `put_page` does not count up.  So it is the length of the list as long as no page is given back, and no
longer.

A page that is given back is on the list of the free pages again, and on no other one, with one exception: `free_pages`
takes a page off the list of its object before it looks at the count, and when the page is still counted it is on no
list at all.  This also happens to the pages of the kernel, whose count `kmem_alloc` does not set.  A page table that is
taken for the kernel is on no list of an object either, and the memory is overwritten.  `frame_accounts` has all these
conditions.
-/

namespace Manrix

open Fuel Function Links List Runs

inductive FrameOp where
  | pageAlloc (object offset : BitVec 32)
  | pageDealloc (object offset : BitVec 32)
  | pageFree (page : Frame)
  | freePages (object : BitVec 32)
  | kmemAlloc (size : BitVec 32) (tables : Nat → Bool)
  | kmemFree (va size : BitVec 32)

/-- There are enough free pages, and the page for `page_free` is on the list of an object.  If `kmem_alloc` takes a page
table, the state after it can be any. -/
def FrameStep (s : PageMem) (op : FrameOp) (s' : PageMem) : Prop :=
  match op with
  | .pageAlloc object offset => ∃ page, s.pageAlloc object offset = some (s', page)
  | .pageDealloc object offset => ∃ fuel r, s.pageDealloc fuel object offset = some (s', r)
  | .pageFree page =>
    (∃ object, Threaded s.pagelist (.object object) page) ∧ ∃ fuel, s.pageFree fuel page = some s'
  | .freePages object => ∃ fuel, s.freePages fuel object = some s'
  | .kmemAlloc size tables => true ∈ kmemTables size tables ∨ ∃ start, s.kmemAlloc size tables = some (s', start)
  | .kmemFree va _ => ∃ fuel, s.kmemFree fuel va = some s'

/-- Every page of `M` is on one list, once: on the list of the free pages or that of an object. -/
def Partitioned (M : List Frame) (s : PageMem) : Prop :=
  ∃ q, Queues UsedHead s.pagelist q ∧ ∀ x ∈ M, ∃ h, x ∈ q h

/-- Besides, `nfree_pages` is the number of the free pages. -/
def Accounted (M : List Frame) (s : PageMem) : Prop :=
  ∃ q, Queues UsedHead s.pagelist q ∧ (∀ x ∈ M, ∃ h, x ∈ q h) ∧ s.nfreePages = (q freeList).length

/-- The call does not write through a null pointer. -/
def Returns (x : PageMem × FrameOp × PageMem) : Prop :=
  match x.2.1 with
  | .kmemAlloc size tables => (x.1.kmemAlloc size tables).isSome
  | _ => True

/-- `free_pages` is called for an object whose pages have the count 1, and `kmem_alloc` takes no page table. -/
def CountsOne (x : PageMem × FrameOp × PageMem) : Prop :=
  match x.2.1 with
  | .freePages object => ∀ p, Threaded x.1.pagelist (.object object) p → (x.1.pages.page p).count = 1
  | .kmemAlloc size tables => true ∉ kmemTables size tables
  | _ => True

/-- No page is given back, and `kmem_alloc` takes no page table. -/
def GivesNoneBack (x : PageMem × FrameOp × PageMem) : Prop :=
  match x.2.1 with
  | .pageAlloc _ _ => True
  | .kmemAlloc size tables => true ∉ kmemTables size tables
  | .pageDealloc object offset =>
    ∀ fuel p, vmPageLookup x.1.pages fuel object offset = some (.result (some p)) → (x.1.pages.page p).count ≠ 1
  | .pageFree _ => False
  | .freePages object => ∀ p, ¬ Threaded x.1.pagelist (.object object) p
  | .kmemFree va _ =>
    ∀ fuel object p, x.1.entryObject va = some object →
      vmPageLookup x.1.pages fuel object va ≠ some (.result (some p))

section Steps

variable {M : List Frame} {s s₁ s' : PageMem} {q : PageHead → List Frame} {op : FrameOp} {object offset : BitVec 32}
  {fuel : Nat} {p x : Frame} {tables : Nat → Bool}

theorem vmPageLookup_det {h : PageHash Frame} {fuel fuel' : Nat} {r r' : PageLookup Frame}
    (h₁ : vmPageLookup h fuel object offset = some r) (h₂ : vmPageLookup h fuel' object offset = some r') : r = r' :=
  eq_of_extends (fun hf => vmPageLookup_extends h hf) h₁ h₂

theorem object_ne_freeList : PageHead.object object ≠ freeList := PageHead.noConfusion

theorem sub_one_eq_zero_iff (x : BitVec 32) : x - 1 = 0 ↔ x = 1 := by
  constructor <;> intro h <;> bv_omega

/-- Pages are taken off the list of the free pages and counted. -/
def Takes (M : List Frame) (s s' : PageMem) : Prop :=
  ∀ q, PageInv M s q → ∃ q', PageInv M s' q' ∧ shortfall s' q' = shortfall s q ∧
    (HashIn s.pages (Assigned q) → HashIn s'.pages (Assigned q'))

theorem Takes.refl : Takes M s s := fun q hi => ⟨q, hi, rfl, id⟩

theorem Takes.trans (h₁ : Takes M s s₁) (h₂ : Takes M s₁ s') : Takes M s s' := by
  intro q hi
  obtain ⟨q₁, hi₁, hs₁, hh₁⟩ := h₁ q hi
  obtain ⟨q₂, hi₂, hs₂, hh₂⟩ := h₂ q₁ hi₁
  exact ⟨q₂, hi₂, hs₂.trans hs₁, hh₂ ∘ hh₁⟩

private theorem pageAlloc_takes (h : s.pageAlloc object offset = some (s', p)) : Takes M s s' := by
  intro q hi
  unfold PageMem.pageAlloc at h
  split at h
  · rename_i s₁ page hg
    cases h
    exact (getPage_took hi.queues hg).setCount.assign hi trivial object_ne_freeList
  · cases h

private theorem takeKernelPage_takes {table : Bool} (h : s.takeKernelPage table = some (s', p)) : Takes M s s' := by
  intro q hi
  unfold PageMem.takeKernelPage at h
  split at h
  · rename_i s₁ page hg
    split at h
    · cases h
    · cases h
      exact (getPage_took hi.queues hg).assign hi trivial object_ne_freeList
  · cases h

private theorem takeKernelPages_takes {ts : List Bool} (h : s.takeKernelPages ts = some s') : Takes M s s' := by
  induction ts generalizing s with
  | nil =>
    cases h
    exact .refl
  | cons table ts ih =>
    obtain ⟨⟨s₁, page⟩, h₁, h₂⟩ := Option.bind_eq_some_iff.1 h
    exact (takeKernelPage_takes h₁).trans (ih h₂)

private theorem takeKernelPage_true : s.takeKernelPage true = none := by
  unfold PageMem.takeKernelPage
  split <;> rfl

private theorem takeKernelPages_table {ts : List Bool} (ht : true ∈ ts) : s.takeKernelPages ts = none := by
  induction ts generalizing s with
  | nil => cases ht
  | cons table ts ih =>
    rw [PageMem.takeKernelPages]
    rcases mem_cons.1 ht with rfl | ht
    · rw [takeKernelPage_true]
      rfl
    · exact Option.bind_eq_none_iff.2 fun r _ => ih ht

theorem kmemAlloc_pages (s : PageMem) (size : BitVec 32) (tables : Nat → Bool) :
    (s.kmemAlloc size tables).map Prod.fst = s.takeKernelPages (kmemTables size tables) := by
  unfold PageMem.kmemAlloc kmemTables
  rw [PageMem.takeKernelPages, Option.map_bind]
  congr 1
  funext r
  rw [Function.comp_apply, Option.map_map]
  exact Option.map_id' ..

private theorem kmemAlloc_takes {size start : BitVec 32}
    (h : s.kmemAlloc size tables = some (s', start)) : Takes M s s' := by
  have hp := kmemAlloc_pages s size tables
  rw [h] at hp
  exact takeKernelPages_takes hp.symm

theorem kmemAlloc_table {size : BitVec 32} (ht : true ∈ kmemTables size tables) : s.kmemAlloc size tables = none :=
  Option.map_eq_none_iff.1 ((kmemAlloc_pages s size tables).trans (takeKernelPages_table ht))

theorem pageFree_release (hi : PageInv M s q) (hp : p ∈ M) (h : s.pageFree fuel p = some s') :
    ∃ q', PageInv M s' q' ∧ (Assigned q p → shortfall s' q' = shortfall s q + 1) ∧
      (∀ h, h ≠ freeList → q' h = (q h).erase p) ∧ s'.kernelObject = s.kernelObject := by
  unfold PageMem.pageFree at h
  split at h
  · cases h
  · rename_i pages hr
    cases h
    rw [listDel_eq]
    obtain ⟨q', hi', hlists, hs⟩ := hi.release hp (hi.hash.remove hr)
    exact ⟨q', hi', hs, hlists, rfl⟩

theorem PageInv.setCount (count : BitVec 32) (hi : PageInv M s q) : PageInv M (s.setCount p count) q :=
  ⟨hi.queues, hi.mem, hi.hash.setCount⟩

private theorem setCount_count {count : BitVec 32} : ((s.setCount p count).pages.page p).count = count := by
  simp [PageMem.setCount, PageHash.modPage]

private theorem setCount_count_of_ne {count : BitVec 32} (h : x ≠ p) :
    ((s.setCount p count).pages.page x).count = (s.pages.page x).count := by
  simp [PageMem.setCount, PageHash.modPage, h]

private theorem pageDealloc_found {r : Int} (hi : PageInv M s q)
    (hl : vmPageLookup s.pages fuel object offset = some (.result (some p)))
    (h : s.pageDealloc fuel object offset = some (s', r)) :
    ((s.pages.page p).count ≠ 1 → s' = s.setCount p ((s.pages.page p).count - 1)) ∧ ((s.pages.page p).count = 1 →
      ∃ q', PageInv M s' q' ∧ (Assigned q p → shortfall s' q' = shortfall s q + 1)) := by
  unfold PageMem.pageDealloc at h
  rw [hl] at h
  simp only [setCount_count, ne_eq, sub_one_eq_zero_iff] at h
  constructor
  · intro hc
    rw [if_pos hc] at h
    exact (Prod.mk.inj (Option.some.inj h)).1.symm
  · intro hc
    rw [if_neg (not_not.2 hc)] at h
    split at h
    · cases h
    · rename_i pages hr
      cases h
      rw [listDel_eq]
      obtain ⟨q', hi', -, hs⟩ :=
        (hi.setCount (p := p) ((s.pages.page p).count - 1)).release (hi.hash.lookup hl) (hi.hash.setCount.remove hr)
      exact ⟨q', hi', hs⟩

private theorem vmPageRemove_count {h h' : PageHash Frame} (hr : vmPageRemove h fuel p = some h') :
    (h'.page x).count = (h.page x).count := by
  unfold vmPageRemove at hr
  dsimp only at hr
  split at hr
  · cases hr
    rfl
  · split at hr
    · cases hr
    · cases hr
      rfl
    · rename_i new _
      cases hr
      by_cases he : x = new
      · subst he
        simp [PageHash.modPage]
      · simp [PageHash.modPage, he]

private theorem not_partitioned (hq : Queues UsedHead s.pagelist q) (hx : x ∈ M) (hoff : ∀ h, x ∉ q h) :
    ¬ Partitioned M s := by
  rintro ⟨q', hq', hM⟩
  obtain ⟨h, hm⟩ := hM x hx
  exact hoff h ((hq.mem_iff hq').2 hm)

/-- `free_pages` gives back all pages of the object, or it loses one that is still counted. -/
private theorem freePages_effect (hi : PageInv M s q) (h : s.freePages fuel object = some s') :
    ((∀ p ∈ q (.object object), (s.pages.page p).count = 1) →
      ∃ q', PageInv M s' q' ∧ shortfall s' q' = shortfall s q + (q (.object object)).length) ∧
    ((∃ p ∈ q (.object object), (s.pages.page p).count ≠ 1) → ¬ Partitioned M s') := by
  induction fuel generalizing s q with
  | zero => cases h
  | succ fuel ih =>
    have hr := hi.queues.ring (.object object) trivial
    unfold PageMem.freePages at h
    cases hl : q (.object object) with
    | nil =>
      rw [hl] at hr
      rw [if_pos ((listIsempty_iff hr).2 rfl)] at h
      cases h
      exact ⟨fun _ => ⟨q, hi, by simp⟩, by simp⟩
    | cons p rest =>
      have hmem : p ∈ q (.object object) := by
        rw [hl]
        exact mem_cons_self ..
      have hM : p ∈ M := (hi.mem p).1 ⟨_, hmem⟩
      rw [hl, map_cons] at hr
      have hne : ¬ listIsempty s.pagelist (.head (.object object)) = true := by
        rw [listIsempty_iff hr]
        simp
      rw [if_neg hne, listRemove_cons hr] at h
      simp only [setCount_count, ne_eq, sub_one_eq_zero_iff] at h
      split at h
      · -- the page is off the list of the object, and on no other one
        rename_i hc
        cases h
        refine ⟨fun hall => absurd (hall p (mem_cons_self ..)) hc, fun _ => ?_⟩
        exact not_partitioned (hi.queues.unlink hmem) hM fun h' hm =>
          ((hi.queues.exists_mem_update_erase hmem).1 ⟨h', hm⟩).1 rfl
      · rename_i hc
        rw [not_not] at hc
        split at h
        · cases h
        · rename_i pages hrem
          obtain ⟨q₁, hi₁, hq₁, hs₁⟩ := (hi.setCount (p := p) ((s.pages.page p).count - 1)).release hM
            (hi.hash.setCount.remove hrem)
          have hrest : q₁ (.object object) = rest := by
            rw [hq₁ _ object_ne_freeList, hl, erase_cons_head]
          have hcount : ∀ x ∈ rest, (pages.page x).count = (s.pages.page x).count := by
            intro x hx
            have hxp : x ≠ p := by
              rintro rfl
              have := hi.queues.nodup (.object object)
              rw [hl] at this
              exact (nodup_cons.1 this).1 hx
            rw [vmPageRemove_count hrem, setCount_count_of_ne hxp]
          obtain ⟨hall, hsome⟩ := ih hi₁ h
          rw [hrest] at hall hsome
          constructor
          · intro hcs
            obtain ⟨q', hi', hs'⟩ := hall fun x hx => (hcount x hx).trans (hcs x (mem_cons_of_mem _ hx))
            refine ⟨q', hi', ?_⟩
            have := hs₁ ⟨.object object, object_ne_freeList, hmem⟩
            have hsc : shortfall (s.setCount p ((s.pages.page p).count - 1)) q = shortfall s q := rfl
            rw [length_cons, Nat.cast_add]
            omega
          · rintro ⟨x, hx, hxc⟩
            rcases mem_cons.1 hx with rfl | hx
            · exact absurd hc hxc
            · exact hsome ⟨x, hx, (hcount x hx).symm ▸ hxc⟩

theorem PageInv.threaded_iff (hi : PageInv M s q) : Threaded s.pagelist (.object object) x ↔ x ∈ q (.object object) :=
  hi.queues.threaded_iff (h := PageHead.object object) trivial

private theorem pageDealloc_cases {r : Int} (hi : PageInv M s q) (h : s.pageDealloc fuel object offset = some (s', r)) :
    (s' = s ∧ vmPageLookup s.pages fuel object offset = some (.result none)) ∨
    ∃ p, vmPageLookup s.pages fuel object offset = some (.result (some p)) ∧
      (((s.pages.page p).count ≠ 1 ∧ s' = s.setCount p ((s.pages.page p).count - 1)) ∨ ((s.pages.page p).count = 1 ∧
          ∃ q', PageInv M s' q' ∧ (Assigned q p → shortfall s' q' = shortfall s q + 1))) := by
  cases hl : vmPageLookup s.pages fuel object offset with
  | none => simp [PageMem.pageDealloc, hl] at h
  | some l =>
    cases l with
    | nullRead => simp [PageMem.pageDealloc, hl] at h
    | result o =>
      cases o with
      | none =>
        simp only [PageMem.pageDealloc, hl] at h
        exact .inl ⟨(Prod.mk.inj (Option.some.inj h)).1.symm, rfl⟩
      | some p =>
        obtain ⟨h1, h2⟩ := pageDealloc_found hi hl h
        refine .inr ⟨p, rfl, ?_⟩
        by_cases hc : (s.pages.page p).count = 1
        · exact .inr ⟨hc, h2 hc⟩
        · exact .inl ⟨hc, h1 hc⟩

theorem kmemFree_cases {va : BitVec 32} (h : s.kmemFree fuel va = some s') :
    (s' = s ∧ ∀ fuel object p, s.entryObject va = some object →
      vmPageLookup s.pages fuel object va ≠ some (.result (some p))) ∨
    ∃ object p, s.entryObject va = some object ∧ vmPageLookup s.pages fuel object va = some (.result (some p)) ∧
      s.pageFree fuel p = some s' := by
  unfold PageMem.kmemFree at h
  split at h
  · rename_i ho
    refine .inl ⟨(Option.some.inj h).symm, ?_⟩
    intro fuel object p he
    rw [ho] at he
    cases he
  · rename_i object ho
    split at h
    · rename_i hl
      refine .inl ⟨(Option.some.inj h).symm, ?_⟩
      intro fuel object' p he hl'
      rw [ho] at he
      cases he
      cases vmPageLookup_det hl hl'
    · rename_i p hl
      exact .inr ⟨object, p, ho, hl, h⟩
    · cases h

private theorem kmemAlloc_step {size : BitVec 32} (h : FrameStep s (.kmemAlloc size tables) s') :
    (true ∉ kmemTables size tables → Takes M s s') ∧
      (Returns (s, .kmemAlloc size tables, s') ↔ true ∉ kmemTables size tables) := by
  have hreturns : true ∈ kmemTables size tables → ¬ Returns (s, .kmemAlloc size tables, s') := by
    intro ht hr
    change (s.kmemAlloc size tables).isSome at hr
    rw [kmemAlloc_table ht] at hr
    cases hr
  rcases h with ht | ⟨start, h⟩
  · exact ⟨fun hn => absurd ht hn, iff_of_false (hreturns ht) (not_not.2 ht)⟩
  · have hr : Returns (s, .kmemAlloc size tables, s') := Option.isSome_iff_exists.2 ⟨_, h⟩
    exact ⟨fun _ => kmemAlloc_takes h, iff_of_true hr fun ht => hreturns ht hr⟩

private theorem frameStep_partitioned (hi : PageInv M s q) (h : FrameStep s op s') :
    (CountsOne (s, op, s') → Returns (s, op, s') ∧ ∃ q', PageInv M s' q') ∧
      (¬ CountsOne (s, op, s') → ¬ (Returns (s, op, s') ∧ Partitioned M s')) := by
  have of_inv : (∃ q', PageInv M s' q') → Returns (s, op, s') → CountsOne (s, op, s') →
      (CountsOne (s, op, s') → Returns (s, op, s') ∧ ∃ q', PageInv M s' q') ∧
      (¬ CountsOne (s, op, s') → ¬ (Returns (s, op, s') ∧ Partitioned M s')) :=
    fun h1 hr h2 => ⟨fun _ => ⟨hr, h1⟩, fun hn => absurd h2 hn⟩
  have of_takes : Takes M s s' → ∃ q', PageInv M s' q' := by
    intro ht
    obtain ⟨q', hi', -⟩ := ht q hi
    exact ⟨q', hi'⟩
  cases op with
  | pageAlloc object offset =>
    obtain ⟨page, h⟩ := h
    exact of_inv (of_takes (pageAlloc_takes h)) trivial trivial
  | kmemAlloc size tables =>
    obtain ⟨htakes, hreturns⟩ := kmemAlloc_step (M := M) h
    exact ⟨fun hc => ⟨hreturns.2 hc, of_takes (htakes hc)⟩, fun hc hr => hc (hreturns.1 hr.1)⟩
  | pageDealloc object offset =>
    obtain ⟨fuel, r, h⟩ := h
    refine of_inv ?_ trivial trivial
    rcases pageDealloc_cases hi h with ⟨rfl, -⟩ | ⟨p, -, ⟨-, rfl⟩ | ⟨-, q', hi', -⟩⟩
    · exact ⟨q, hi⟩
    · exact ⟨q, hi.setCount _⟩
    · exact ⟨q', hi'⟩
  | pageFree page =>
    obtain ⟨⟨object, ht⟩, fuel, h⟩ := h
    obtain ⟨q', hi', -⟩ := pageFree_release hi ((hi.mem page).1 ⟨_, hi.threaded_iff.1 ht⟩) h
    exact of_inv ⟨q', hi'⟩ trivial trivial
  | kmemFree va size =>
    obtain ⟨fuel, h⟩ := h
    refine of_inv ?_ trivial trivial
    rcases kmemFree_cases h with ⟨rfl, -⟩ | ⟨object, p, -, hl, h⟩
    · exact ⟨q, hi⟩
    · obtain ⟨q', hi', -⟩ := pageFree_release hi (hi.hash.lookup hl) h
      exact ⟨q', hi'⟩
  | freePages object =>
    obtain ⟨fuel, h⟩ := h
    obtain ⟨hall, hsome⟩ := freePages_effect hi h
    simp only [CountsOne, hi.threaded_iff]
    constructor
    · intro hc
      obtain ⟨q', hi', -⟩ := hall hc
      exact ⟨trivial, q', hi'⟩
    · intro hc hp
      push Not at hc
      exact hsome hc hp.2

theorem PageInv.partitioned (hi : PageInv M s q) : Partitioned M s :=
  ⟨q, hi.queues, fun x hx => (hi.mem x).2 hx⟩

private theorem not_accounted (hi : PageInv M s q) (h : shortfall s q ≠ 0) : ¬ Accounted M s := by
  rintro ⟨q', hq', -, hn⟩
  apply h
  unfold shortfall
  rw [hn, (hi.queues.perm hq' freeList).length_eq, sub_self]

theorem Accounted.partitioned (h : Accounted M s) : Partitioned M s := by
  obtain ⟨q, hq, hM, -⟩ := h
  exact ⟨q, hq, hM⟩

/-- All pages in use are on a list, the hash leads to them only, and the free pages are counted. -/
structure AccountsInv (M : List Frame) (s : PageMem) (q : PageHead → List Frame) : Prop where
  inv : PageInv M s q
  counted : shortfall s q = 0
  allocated : HashIn s.pages (Assigned q)

theorem AccountsInv.accounted (ha : AccountsInv M s q) : Accounted M s := by
  refine ⟨q, ha.inv.queues, fun x hx => (ha.inv.mem x).2 hx, ?_⟩
  have := ha.counted
  unfold shortfall at this
  omega

private theorem freePages_accounted (ha : AccountsInv M s q) (h : s.freePages fuel object = some s') :
    ((∀ p, p ∉ q (.object object)) → ∃ q', AccountsInv M s' q') ∧
      (¬ (∀ p, p ∉ q (.object object)) → ¬ Accounted M s') := by
  obtain ⟨hi, h0, hh⟩ := ha
  obtain ⟨hall, hsome⟩ := freePages_effect hi h
  constructor
  · intro hg
    have hnil : q (.object object) = [] := eq_nil_iff_forall_not_mem.2 hg
    have hr := hi.queues.ring (.object object) trivial
    rw [hnil] at hr
    cases fuel with
    | zero => cases h
    | succ fuel =>
      rw [PageMem.freePages, if_pos ((listIsempty_iff hr).2 rfl)] at h
      cases h
      exact ⟨q, hi, h0, hh⟩
  · intro hg hacc
    push Not at hg
    obtain ⟨p, hp⟩ := hg
    -- the pages are given back and not counted, or one of them is lost
    by_cases hc : ∀ p ∈ q (.object object), (s.pages.page p).count = 1
    · obtain ⟨q', hi', hs'⟩ := hall hc
      have hpos := length_pos_of_mem hp
      exact not_accounted hi' (by omega) hacc
    · push Not at hc
      exact hsome hc hacc.partitioned

private theorem frameStep_accounted (ha : AccountsInv M s q) (h : FrameStep s op s') :
    (GivesNoneBack (s, op, s') → Returns (s, op, s') ∧ ∃ q', AccountsInv M s' q') ∧
      (¬ GivesNoneBack (s, op, s') → ¬ (Returns (s, op, s') ∧ Accounted M s')) := by
  obtain ⟨hi, h0, hh⟩ := ha
  have of_takes : Takes M s s' → ∃ q', AccountsInv M s' q' := by
    intro ht
    obtain ⟨q', hi', hs', hh'⟩ := ht q hi
    exact ⟨q', hi', hs'.trans h0, hh' hh⟩
  have of_release : ∀ {p q'}, PageInv M s' q' → (Assigned q p → shortfall s' q' = shortfall s q + 1) →
      Assigned q p → ¬ (Returns (s, op, s') ∧ Accounted M s') := by
    rintro p q' hi' hs hp ⟨-, hacc⟩
    refine not_accounted hi' ?_ hacc
    have := hs hp
    omega
  cases op with
  | pageAlloc object offset =>
    obtain ⟨page, h⟩ := h
    exact ⟨fun _ => ⟨trivial, of_takes (pageAlloc_takes h)⟩, fun hn => absurd trivial hn⟩
  | kmemAlloc size tables =>
    obtain ⟨htakes, hreturns⟩ := kmemAlloc_step (M := M) h
    exact ⟨fun hc => ⟨hreturns.2 hc, of_takes (htakes hc)⟩, fun hc hr => hc (hreturns.1 hr.1)⟩
  | pageDealloc object offset =>
    obtain ⟨fuel, r, h⟩ := h
    rcases pageDealloc_cases hi h with ⟨rfl, hl⟩ | ⟨p, hl, ⟨hc, rfl⟩ | ⟨hc, q', hi', hs⟩⟩
    · refine ⟨fun _ => ⟨trivial, q, hi, h0, hh⟩, fun hn => absurd ?_ hn⟩
      intro fuel' p hl'
      cases vmPageLookup_det hl hl'
    · refine ⟨fun _ => ⟨trivial, q, hi.setCount _, h0, hh.setCount⟩, fun hn => absurd ?_ hn⟩
      intro fuel' p' hl'
      cases vmPageLookup_det hl hl'
      exact hc
    · exact ⟨fun hg => absurd hc (hg fuel p hl), fun _ => of_release hi' hs (hh.lookup hl)⟩
  | pageFree page =>
    obtain ⟨⟨object, ht⟩, fuel, h⟩ := h
    have hmem : page ∈ q (.object object) := hi.threaded_iff.1 ht
    obtain ⟨q', hi', hs, -⟩ := pageFree_release hi ((hi.mem page).1 ⟨_, hmem⟩) h
    exact ⟨fun hg => hg.elim, fun _ => of_release hi' hs ⟨_, object_ne_freeList, hmem⟩⟩
  | kmemFree va size =>
    obtain ⟨fuel, h⟩ := h
    rcases kmemFree_cases h with ⟨rfl, hl⟩ | ⟨object, p, ho, hl, h⟩
    · exact ⟨fun _ => ⟨trivial, q, hi, h0, hh⟩, fun hn => absurd hl hn⟩
    · obtain ⟨q', hi', hs, -⟩ := pageFree_release hi (hi.hash.lookup hl) h
      exact ⟨fun hg => absurd hl (hg fuel object p ho), fun _ => of_release hi' hs (hh.lookup hl)⟩
  | freePages object =>
    obtain ⟨fuel, h⟩ := h
    simp only [GivesNoneBack, hi.threaded_iff]
    obtain ⟨hall, hsome⟩ := freePages_accounted ⟨hi, h0, hh⟩ h
    exact ⟨fun hg => ⟨trivial, hall hg⟩, fun hg hacc => hsome hg hacc.2⟩

private theorem initPages_lists {frames : List Frame} (hq : Queues UsedHead s.pagelist q) (hnd : frames.Nodup)
    (hoff : ∀ x ∈ frames, ∀ h, x ∉ q h) : ∃ q', Queues UsedHead (initPages frames s).pagelist q' ∧
      (∀ x, (∃ h, x ∈ q' h) ↔ x ∈ frames ∨ ∃ h, x ∈ q h) ∧ shortfall (initPages frames s) q' = shortfall s q ∧
      (initPages frames s).pages.pagehash = s.pages.pagehash := by
  induction frames generalizing s q with
  | nil => exact ⟨q, hq, by simp, rfl, rfl⟩
  | cons page rest ih =>
    obtain ⟨hpage, hrest⟩ := nodup_cons.1 hnd
    have hq₁ := hq.splice (h := freeList) rfl (hoff page (mem_cons_self ..))
    rw [← listEnqueue_eq] at hq₁
    have hoff₁ : ∀ x ∈ rest, ∀ h, x ∉ update q freeList (page :: q freeList) h := by
      intro x hx h hm
      rcases exists_mem_update_cons.1 ⟨h, hm⟩ with rfl | ⟨h', hm⟩
      · exact hpage hx
      · exact hoff x (mem_cons_of_mem _ hx) h' hm
    obtain ⟨q', hq', hmem, hs, hb⟩ := ih (s := { s with
      pages := s.pages.modPage page fun p => { p with count := 0 }
      pagelist := listEnqueue s.pagelist (.head freeList) (.obj page)
      nfreePages := s.nfreePages + 1 }) hq₁ hrest hoff₁
    refine ⟨q', hq', ?_, hs.trans ?_, hb⟩
    · intro x
      rw [hmem, exists_mem_update_cons, mem_cons]
      tauto
    · unfold shortfall
      rw [update_self, length_cons]
      push_cast
      omega

theorem vmPageInit_inv {frames : List Frame} (page : Frame → VmPage Frame) (kernelObject : BitVec 32)
    (entryObject : BitVec 32 → Option (BitVec 32)) (hnd : frames.Nodup) :
    ∃ q, AccountsInv frames (vmPageInit frames page kernelObject entryObject) q := by
  obtain ⟨q, hq, hmem, hs, hb⟩ := initPages_lists (q := fun _ => [])
    (s := ⟨⟨id, id⟩, ⟨page, fun _ => none⟩, 0, kernelObject, entryObject⟩) queues_empty hnd (by simp)
  have hempty := congrFun hb
  exact ⟨q, ⟨hq, by simpa using hmem, hashIn_of_empty hempty⟩, hs, hashIn_of_empty hempty⟩

end Steps

theorem FramesSoFar.nodup {b₀ b : BootMem} {rs : List (BitVec 32)} (h : FramesSoFar b₀ b rs) :
    ((rs.filter (· ≠ 0)).map frameOf).Nodup := by
  refine List.Nodup.map_on ?_ (h.increasing.imp fun hlt => (BitVec.ne_of_lt hlt))
  intro x hx y hy he
  obtain ⟨hx, hx0⟩ := mem_filter.1 hx
  obtain ⟨hy, hy0⟩ := mem_filter.1 hy
  have hxa := (h.frame x hx (by simpa using hx0)).1
  have hya := (h.frame y hy (by simpa using hy0)).1
  have he := congrArg BitVec.toNat he
  rw [toNat_frameOf, toNat_frameOf] at he
  apply BitVec.eq_of_toNat_eq
  omega

/-- The counter is right as long as no page is given back, and no page is lost as long as `free_pages` meets none that
is still counted; in both cases no page table may be taken. -/
theorem frame_accounts {frames : List Frame} (page : Frame → VmPage Frame) (kernelObject : BitVec 32)
    (entryObject : BitVec 32 → Option (BitVec 32)) {tr : List (PageMem × FrameOp × PageMem)} {s : PageMem}
    (hf : frames.Nodup) (hr : Run FrameStep (vmPageInit frames page kernelObject entryObject) tr s) :
    Accounted frames (vmPageInit frames page kernelObject entryObject) ∧
    ((∀ x ∈ tr, Returns x ∧ Accounted frames x.2.2) ↔ ∀ x ∈ tr, GivesNoneBack x) ∧
    ((∀ x ∈ tr, Returns x ∧ Partitioned frames x.2.2) ↔ ∀ x ∈ tr, CountsOne x) := by
  obtain ⟨q₀, h₀⟩ := vmPageInit_inv page kernelObject entryObject hf
  refine ⟨h₀.accounted, ?_, ?_⟩
  · refine hr.forall_iff (fun s => ∃ q, AccountsInv frames s q) GivesNoneBack
      (fun x => Returns x ∧ Accounted frames x.2.2) ⟨q₀, h₀⟩ ?_ ?_
    · rintro s op s' ⟨q, ha⟩ hg hst
      exact ((frameStep_accounted ha hst).1 hg).2
    · rintro s op s' ⟨q, ha⟩ hst
      refine ⟨fun hacc => ?_, fun hg => ?_⟩
      · by_contra hg
        exact (frameStep_accounted ha hst).2 hg hacc
      · obtain ⟨hret, q', ha'⟩ := (frameStep_accounted ha hst).1 hg
        exact ⟨hret, ha'.accounted⟩
  · refine hr.forall_iff (fun s => ∃ q, PageInv frames s q) CountsOne
      (fun x => Returns x ∧ Partitioned frames x.2.2) ⟨q₀, h₀.inv⟩ ?_ ?_
    · rintro s op s' ⟨q, hi⟩ hg hst
      exact ((frameStep_partitioned hi hst).1 hg).2
    · rintro s op s' ⟨q, hi⟩ hst
      refine ⟨fun hp => ?_, fun hg => ?_⟩
      · by_contra hg
        exact (frameStep_partitioned hi hst).2 hg hp
      · obtain ⟨hret, q', hi'⟩ := (frameStep_partitioned hi hst).1 hg
        exact ⟨hret, hi'.partitioned⟩

/-- A machine with the frame 2. -/
def onePage : PageMem := vmPageInit [2] (fun _ => ⟨none, 0, 0, 0⟩) 0x1000 fun _ => none

def onePageTaken : PageMem := ((onePage.pageAlloc 0x3000 0).map (·.1)).getD onePage

def onePageFreed : PageMem := (onePageTaken.pageFree 1 2).getD onePageTaken

theorem onePage_step : FrameStep onePage (.pageAlloc 0x3000 0) onePageTaken := ⟨2, rfl⟩

private theorem onePageTaken_step : FrameStep onePageTaken (.pageFree 2) onePageFreed :=
  ⟨⟨0x3000, [], rfl⟩, 1, by rfl⟩

theorem frame_accounts_one_page :
    Run FrameStep onePage [(onePage, .pageAlloc 0x3000 0, onePageTaken)] onePageTaken ∧ Accounted [2] onePageTaken :=
  ⟨.snoc .nil onePage_step, ((frame_accounts _ _ _ (by decide) (.snoc .nil onePage_step)).2.1.2
    (by simp [GivesNoneBack]) _ (mem_singleton_self _)).2⟩

/-- A page is allocated and given back: it is free, but not counted. -/
theorem freed_page_not_counted :
    Run FrameStep onePage [(onePage, .pageAlloc 0x3000 0, onePageTaken), (onePageTaken, .pageFree 2, onePageFreed)]
      onePageFreed ∧
    Threaded onePageFreed.pagelist freeList 2 ∧ onePageFreed.nfreePages = 0 ∧ ¬ Accounted [2] onePageFreed := by
  refine ⟨.snoc (.snoc .nil onePage_step) onePageTaken_step, ⟨[], rfl⟩, rfl, ?_⟩
  have hnd : [(2 : Frame)].Nodup := by decide
  obtain ⟨q, ha⟩ := vmPageInit_inv (fun _ => ⟨none, 0, 0, 0⟩) 0x1000 (fun _ => none) hnd
  obtain ⟨-, q', ha'⟩ := (frameStep_accounted ha onePage_step).1 trivial
  exact fun hacc => (frameStep_accounted ha' onePageTaken_step).2 id ⟨trivial, hacc⟩

end Manrix
