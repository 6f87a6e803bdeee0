import Mathlib.Data.List.Find
import Manrix.Mm.Pmap

/-!
# What page lookups find while page maps are changed

A page table is a page of `pmap_object` in a frame that was free.  So `pmap_enter`, which may allocate one and then one
for the kernel's map of it, puts pages into the page hash, but a lookup for any other object finds what it found before.
-/

namespace Manrix

open Chain Function List

variable {ρ π κ : Type*}

/-- `vm_page_lookup` returns the page. -/
def PageHash.Finds (h : PageHash ρ) (object offset : BitVec 32) (page : ρ) : Prop :=
  ∃ fuel, vmPageLookup h fuel object offset = some (.result (some page))

theorem PageHash.finds_iff {h : PageHash ρ} {object offset : BitVec 32} {xs : List ρ} {x : ρ}
    (hc : IsChain (fun p => (h.page p).next) (h.pagehash (pageIndex object offset)) xs) :
    h.Finds object offset x ↔ xs.find? (fun p => (h.page p).has object offset) = some x := by
  unfold PageHash.Finds vmPageLookup
  cases xs with
  | nil => simp [show h.pagehash (pageIndex object offset) = none from hc]
  | cons first xs =>
    have hb : h.pagehash (pageIndex object offset) = some first := hc.1
    rw [hb] at hc
    simp only [hb]
    by_cases hf : (h.page first).has object offset = true
    · simp [hf]
    · simp only [hf, Bool.false_eq_true, if_false, Option.map_eq_some_iff, PageLookup.result.injEq,
        exists_eq_right]
      constructor
      · rintro ⟨fuel, hfuel⟩
        exact (chainFind_some hc hfuel).symm
      · intro hx
        exact ⟨_, (chainFind_eq hc _ (Nat.lt_succ_self _)).trans (congrArg some hx)⟩

section Insert

variable [DecidableEq ρ] {h : PageHash ρ} {b object offset : BitVec 32} {page : ρ} {xs : List ρ}

private theorem modPage_chain (f : VmPage ρ → VmPage ρ) (hc : IsChain (fun p => (h.page p).next) (h.pagehash b) xs)
    (hp : page ∉ xs) : IsChain (fun p => ((h.modPage page f).page p).next) ((h.modPage page f).pagehash b) xs := by
  refine hc.congr fun y hy => congrArg VmPage.next (update_of_ne ?_ _ _)
  rintro rfl
  exact hp hy

private theorem modPage_finds {x : ρ} (f : VmPage ρ → VmPage ρ)
    (hc : IsChain (fun p => (h.page p).next) (h.pagehash (pageIndex object offset)) xs) (hp : page ∉ xs) :
    (h.modPage page f).Finds object offset x ↔ h.Finds object offset x := by
  rw [PageHash.finds_iff hc, PageHash.finds_iff (modPage_chain f hc hp)]
  rw [find?_congr fun y hy => ?_]
  refine congrArg (VmPage.has · object offset) (update_of_ne ?_ _ _)
  rintro rfl
  exact hp hy

theorem vmPageInsert_chain (hc : IsChain (fun p => (h.page p).next) (h.pagehash b) xs) (hp : page ∉ xs) :
    IsChain (fun p => ((vmPageInsert h page object offset).page p).next)
      ((vmPageInsert h page object offset).pagehash b) (if b = pageIndex object offset then page :: xs else xs) := by
  rw [vmPageInsert_next, vmPageInsert_pagehash]
  exact hc.push_table hp

private theorem vmPageInsert_finds {object' offset' : BitVec 32} {x : ρ}
    (hc : IsChain (fun p => (h.page p).next) (h.pagehash (pageIndex object' offset')) xs) (hp : page ∉ xs)
    (hne : object' ≠ object) :
    (vmPageInsert h page object offset).Finds object' offset' x ↔ h.Finds object' offset' x := by
  rw [PageHash.finds_iff hc, PageHash.finds_iff (vmPageInsert_chain hc hp)]
  have hself : ((vmPageInsert h page object offset).page page).has object' offset' = false := by
    rw [vmPageInsert_page_self]
    simp [VmPage.has, Ne.symm hne]
  have hsame : xs.find? (fun p => ((vmPageInsert h page object offset).page p).has object' offset') =
      xs.find? (fun p => (h.page p).has object' offset') := by
    refine find?_congr fun y hy => ?_
    rw [vmPageInsert_page_of_ne]
    rintro rfl
    exact hp hy
  split
  · rw [find?_cons, hself, hsame]
  · rw [hsame]

end Insert

/-- The chains of the page hash end, and no free frame is on them. -/
structure PmapState.Hashed (s : PmapState π κ) : Prop where
  nodup : s.freePageList.Nodup
  chain : ∀ b, ∃ xs, IsChain (fun p => (s.pages.page p).next) (s.pages.pagehash b) xs ∧ ∀ x ∈ xs, x ∉ s.freePageList

/-- The pages of the objects, but for those of `pmap_object`, are found as before. -/
structure SameFinds (s s' : PmapState π κ) : Prop where
  hashed : s'.Hashed
  pmapObject : s'.pmapObject = s.pmapObject
  finds : ∀ object offset x, object ≠ s.pmapObject → (s'.pages.Finds object offset x ↔ s.pages.Finds object offset x)

theorem SameFinds.refl {s : PmapState π κ} (h : s.Hashed) : SameFinds s s := ⟨h, rfl, fun _ _ _ _ => Iff.rfl⟩

theorem SameFinds.trans {s₁ s₂ s₃ : PmapState π κ} (h : SameFinds s₁ s₂) (h' : SameFinds s₂ s₃) : SameFinds s₁ s₃ :=
  ⟨h'.hashed, h'.pmapObject.trans h.pmapObject, fun object offset x hne =>
    (h'.finds object offset x (h.pmapObject ▸ hne)).trans (h.finds object offset x hne)⟩

theorem SameFinds.congr {s s₁ s₂ : PmapState π κ} (h : SameFinds s s₁) (hp : s₂.pages = s₁.pages)
    (hf : s₂.freePageList = s₁.freePageList) (ho : s₂.pmapObject = s₁.pmapObject) : SameFinds s s₂ := by
  refine ⟨⟨hf ▸ h.hashed.nodup, ?_⟩, ho.trans h.pmapObject, ?_⟩
  · rw [hp, hf]
    exact h.hashed.chain
  · rw [hp]
    exact h.finds

/-- A free frame becomes a page of `pmap_object`. -/
theorem PmapState.Hashed.takePage {s : PmapState π κ} {page : Frame} {rest : List Frame} (h : s.Hashed)
    (hfree : s.freePageList = page :: rest) : SameFinds s (s.takePage page rest) := by
  have hnd := h.nodup
  rw [hfree, nodup_cons] at hnd
  have hchain : ∀ b, ∃ xs, IsChain (fun p => (s.pages.page p).next) (s.pages.pagehash b) xs ∧
      (∀ x ∈ xs, x ∉ s.freePageList) ∧ page ∉ xs := by
    intro b
    obtain ⟨xs, hc, hx⟩ := h.chain b
    exact ⟨xs, hc, hx, fun hm => hx page hm (hfree ▸ mem_cons_self ..)⟩
  refine ⟨⟨hnd.2, fun b => ?_⟩, rfl, fun object offset x hne => ?_⟩
  · obtain ⟨xs, hc, hx, hp⟩ := hchain b
    refine ⟨_, vmPageInsert_chain (modPage_chain _ hc hp) hp, fun y hy hm => ?_⟩
    have hm' : y ∈ s.freePageList := hfree ▸ mem_cons_of_mem _ hm
    split at hy
    · rcases mem_cons.mp hy with rfl | hy
      · exact hnd.1 hm
      · exact hx y hy hm'
    · exact hx y hy hm'
  · obtain ⟨xs, hc, -, hp⟩ := hchain (pageIndex object offset)
    exact (vmPageInsert_finds (modPage_chain _ hc hp) hp hne).trans (modPage_finds _ hc hp)

variable [DecidableEq π] {s s' : PmapState π κ} {alloc : PmapState π κ → Option (PmapState π κ × Frame)}

private theorem enterDirectory_sameFinds (ha : ∀ s s' t, s.Hashed → alloc s = some (s', t) → SameFinds s s')
    {map : Pmap π}
    {pde : Frame} (hs : s.Hashed) (h : enterDirectory alloc map s = some (s', pde)) : SameFinds s s' := by
  unfold enterDirectory at h
  split at h
  · split at h
    · cases h
    · rename_i s₁ t hal
      obtain ⟨rfl, -⟩ := Prod.mk.inj (Option.some.inj h)
      exact (ha s s₁ t hs hal).congr rfl rfl rfl
  · cases h
    exact .refl hs

private theorem enterTable_sameFinds (ha : ∀ s s' t, s.Hashed → alloc s = some (s', t) → SameFinds s s') {map : Pmap π}
    {pde pte : Frame} {idx : BitVec 10} {protection : BitVec 32} (hs : s.Hashed)
    (h : enterTable alloc map pde idx protection s = some (s', pte)) : SameFinds s s' := by
  unfold enterTable at h
  split at h
  · split at h
    · cases h
    · rename_i s₁ t hal
      obtain ⟨rfl, -⟩ := Prod.mk.inj (Option.some.inj h)
      refine (ha s s₁ t hs hal).congr ?_ ?_ ?_ <;> dsimp only <;> split <;> rfl
  · cases h
    exact .refl hs

private theorem pmapEnterWith_sameFinds (ha : ∀ s s' t, s.Hashed → alloc s = some (s', t) → SameFinds s s')
    {map : Pmap π} {paddr vaddr protection : BitVec 32} (hs : s.Hashed)
    (h : pmapEnterWith alloc map paddr vaddr protection s = some s') : SameFinds s s' := by
  unfold pmapEnterWith at h
  split at h
  · cases h
  · rename_i s₁ pde hd
    have h₁ := enterDirectory_sameFinds ha hs hd
    split at h
    · cases h
    · rename_i s₂ pte ht
      rw [← Option.some.inj h]
      exact (h₁.trans (enterTable_sameFinds ha h₁.hashed ht)).congr rfl rfl rfl

private theorem pageTableAllocateUpTo_sameFinds (n : Nat) (s s' : PmapState π κ) (t : Frame) (hs : s.Hashed)
    (h : pageTableAllocateUpTo n s = some (s', t)) : SameFinds s s' := by
  induction n generalizing s s' t with
  | zero => cases h
  | succ n ih =>
    unfold pageTableAllocateUpTo at h
    split at h
    · cases h
    · rename_i page rest hfree
      have h₁ := hs.takePage hfree
      simp only at h
      split at h
      · cases h
      · rename_i s₂ he
        cases h
        exact (h₁.trans (pmapEnterWith_sameFinds ih h₁.hashed he)).congr rfl rfl rfl

theorem pmapEnter_sameFinds {map : Pmap π} {paddr vaddr protection : BitVec 32} (hs : s.Hashed)
    (h : pmapEnter map paddr vaddr protection s = some s') : SameFinds s s' :=
  pmapEnterWith_sameFinds (fun s _ t => pageTableAllocateUpTo_sameFinds s.freePageList.length s _ t) hs h

private theorem copyTables_sameFinds {srcPde destPde : Frame} {is : List (BitVec 10)} (hs : s.Hashed)
    (h : copyTables srcPde destPde is s = some s') : SameFinds s s' := by
  induction is generalizing s with
  | nil =>
    cases h
    exact .refl hs
  | cons i is ih =>
    rw [copyTables] at h
    split at h
    · exact ih hs h
    · split at h
      · cases h
      · rename_i s₁ t hal
        have h₁ := pageTableAllocateUpTo_sameFinds _ s s₁ t hs hal
        refine SameFinds.trans ?_ (ih ?_ h)
        · exact h₁.congr rfl rfl rfl
        · exact SameFinds.hashed (s := s) (h₁.congr rfl rfl rfl)

theorem pmapCopy_sameFinds {map src : π} (hs : s.Hashed) (h : pmapCopy map src s = some s') : SameFinds s s' := by
  unfold pmapCopy at h
  split at h
  · cases h
  · rename_i s₁ t hal
    have h₁ : SameFinds s { s₁ with pdbr := update s₁.pdbr (.user map) t } :=
      (pageTableAllocateUpTo_sameFinds _ s s₁ t hs hal).congr rfl rfl rfl
    dsimp only at h
    split at h
    · cases h
    · rename_i s₂ hs₂
      cases h
      exact (h₁.trans (copyTables_sameFinds h₁.hashed hs₂)).congr rfl rfl rfl

end Manrix
