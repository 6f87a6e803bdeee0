import Manrix.Mm.PmapUser

/-!
# Entering pages in the maps of processes

For the whole address space `pmap_enter` is a point update but for the pages at which the kernel reaches the frames that
`page_table_allocate` has taken: these are mapped in the tables of the kernel, which all maps share
(`pmap_enter_point_update`).
-/

namespace Manrix

open Frames Function

variable {π κ : Type*} {i : BitVec 10} {x : Frame}

/-- The directory entries name distinct tables, none of which is the directory. -/
structure PmapState.TablesDistinct (s : PmapState π κ) (p : π) : Prop where
  inj : s.udir p ≠ 0 → ∀ i j, s.upde p i ≠ 0 → s.upde p j ≠ 0 →
    frameOf (s.upde p i) = frameOf (s.upde p j) → i = j
  ne_dir : s.udir p ≠ 0 → ∀ i, s.upde p i ≠ 0 → frameOf (s.upde p i) ≠ s.udir p

/-- The directory of the map, and its tables for user addresses, are frames that neither the kernel map nor the free
list has; in the kernel half the map has the tables of the kernel map. -/
structure PmapState.Apart (s : PmapState π κ) (p : π) : Prop where
  dir_ne_kdir : s.udir p ≠ 0 → s.udir p ≠ s.kdir
  dir_not_table : s.udir p ≠ 0 → ¬ s.KTable (s.udir p)
  dir_not_free : s.udir p ≠ 0 → s.udir p ∉ s.freePageList
  table_ne_kdir : s.udir p ≠ 0 → ∀ x, s.UTable p x → x ≠ s.kdir
  table_not_table : s.udir p ≠ 0 → ∀ x, s.UTable p x → ¬ s.KTable x
  table_not_proc : s.udir p ≠ 0 → ∀ x, s.UTable p x → x ∉ s.procDirs
  table_not_free : s.udir p ≠ 0 → ∀ x, s.UTable p x → x ∉ s.freePageList
  kernelHalf : s.udir p ≠ 0 → s.KernelHalf p

/-- Two walks, where a missing table is taken for an entry 0. -/
def SameWalk (a b : Option (BitVec 32)) : Prop := a.getD 0 = b.getD 0

section Point

variable {s s₁ s' : PmapState π κ} {taken : List Frame} {W : BitVec 10 → BitVec 10 → Prop} {p : π}
  {e paddr va protection : BitVec 32}

theorem PmapState.Apart.userWf (ha : s.Apart p) (hd : s.TablesDistinct p) (h0 : s.udir p ≠ 0) : s.UserWf (· = p) where
  dir_ne_zero := by
    rintro q rfl
    exact h0
  dir_ne_kdir := by
    rintro q rfl
    exact ha.dir_ne_kdir h0
  dir_not_table := by
    rintro q rfl
    exact ha.dir_not_table h0
  dir_not_free := by
    rintro q rfl
    exact ha.dir_not_free h0
  dir_inj := by
    rintro q r rfl rfl -
    rfl
  table_ne_kdir := by
    rintro q x rfl
    exact ha.table_ne_kdir h0 x
  table_not_table := by
    rintro q x rfl
    exact ha.table_not_table h0 x
  table_not_proc := by
    rintro q x rfl
    exact ha.table_not_proc h0 x
  table_not_free := by
    rintro q x rfl
    exact ha.table_not_free h0 x
  table_ne_dir := by
    rintro q r x rfl rfl ⟨i, -, hi, rfl⟩
    exact hd.ne_dir h0 i hi
  table_inj := by
    rintro q r i j rfl rfl - - hi hj hij
    exact ⟨rfl, hd.inj h0 i j hi hj hij⟩

theorem PmapState.UserWf.apart (hu : s.UserWf (· = p)) (hk : s.KernelHalf p) : s.Apart p where
  dir_ne_kdir _ := hu.dir_ne_kdir p rfl
  dir_not_table _ := hu.dir_not_table p rfl
  dir_not_free _ := hu.dir_not_free p rfl
  table_ne_kdir _ x := hu.table_ne_kdir p x rfl
  table_not_table _ x := hu.table_not_table p x rfl
  table_not_proc _ x := hu.table_not_proc p x rfl
  table_not_free _ x := hu.table_not_free p x rfl
  kernelHalf _ := hk

theorem PmapState.UserWf.tablesDistinct (hw : s.KernelWf) (hu : s.UserWf (· = p)) (hk : s.KernelHalf p) :
    s.TablesDistinct p := by
  have hlow : ∀ i, ¬ ktableStart ≤ i → i < ktableStart := fun i hi => by bv_omega
  have hktable : ∀ i, ktableStart ≤ i → s.upde p i ≠ 0 → s.KTable (frameOf (s.upde p i)) := by
    intro i hi h0
    have he := hk.eq hi h0
    exact ⟨i, hi, he ▸ h0, by rw [he]⟩
  refine ⟨fun _ i j hi hj hij => ?_, fun _ i hi hd => ?_⟩
  · by_cases hik : ktableStart ≤ i <;> by_cases hjk : ktableStart ≤ j
    · rw [hk.eq hik hi, hk.eq hjk hj] at hij
      exact hw.table_inj i j hik hjk (hk.eq hik hi ▸ hi) (hk.eq hjk hj ▸ hj) hij
    · exact absurd (hij ▸ hktable i hik hi) (hu.table_not_table p _ rfl ⟨j, hlow j hjk, hj, rfl⟩)
    · exact absurd (hij ▸ hktable j hjk hj) (hu.table_not_table p _ rfl ⟨i, hlow i hik, hi, rfl⟩)
    · exact (hu.table_inj p p i j rfl rfl (hlow i hik) (hlow j hjk) hi hj hij).2
  · by_cases hik : ktableStart ≤ i
    · exact hu.dir_not_table p rfl (hd ▸ hktable i hik hi)
    · exact hu.table_ne_dir p p _ rfl rfl ⟨i, hlow i hik, hi, rfl⟩ hd

/-- The walk of a kernel address that the growth has not entered. -/
theorem Grown.walk_kernel (h : Grown s s₁ taken W) (hu : s.UserWf (· = p)) (hk : s.KernelHalf p)
    (hv : ktableStart ≤ addrToPdenum va) (hW : ¬ W (addrToPdenum va) (addrToPtenum va)) :
    SameWalk (s₁.walk (.user p) va) (s.walk (.user p) va) := by
  have hd := hu.dir_ne_zero p rfl
  have hd₁ := (h.userWf hu).dir_ne_zero p rfl
  rcases h.upde_kernel hu rfl (addrToPdenum va) with ⟨h0, h1, hnew⟩ | hold
  · have hnone : s.upde p (addrToPdenum va) = 0 := (hk _ hv).elim id fun he => he.trans h0
    rw [PmapState.walk_eq_none (.inr hnone), PmapState.walk_eq hd₁ hnew h1]
    have hz : s₁.mem (frameOf (s₁.kpde (addrToPdenum va))) (addrToPtenum va) = 0 := by
      by_contra hne
      exact hW ((h.new _ h0 h1).2.2 _ hne)
    exact hz
  · by_cases h0 : s.upde p (addrToPdenum va) = 0
    · rw [PmapState.walk_eq_none (.inr h0), PmapState.walk_eq_none (.inr (hold.trans h0))]
      rfl
    · have he := hk.eq hv h0
      rw [PmapState.walk_eq hd rfl h0, PmapState.walk_eq hd₁ hold h0]
      have hkeep := h.table _ hv (he ▸ h0) _ hW
      rw [← he] at hkeep
      rw [hkeep]
      rfl

/-- The walk of an address that has another table. -/
theorem withTable_walk_other [DecidableEq π] {row : BitVec 10 → BitVec 32} (hu : s.UserWf (· = p)) (hk : s.KernelHalf p)
    (hown : OwnTable s (· = p) (frameOf e)) (hv : addrToPdenum va ≠ i)
    (hone : ∀ k, k < ktableStart → s.upde p k ≠ 0 → frameOf (s.upde p k) = frameOf e → k = i) :
    (withTable s p i e row).walk (.user p) va = s.walk (.user p) va := by
  have hd : (withTable s p i e row).pdbr (.user p) ≠ 0 := hu.dir_ne_zero p rfl
  have hpde : (withTable s p i e row).upde p (addrToPdenum va) = s.upde p (addrToPdenum va) :=
    (withTable_upde hu rfl rfl hown _).trans (if_neg fun h => hv h.2)
  by_cases h0 : s.upde p (addrToPdenum va) = 0
  · rw [PmapState.walk_eq_none (.inr h0), PmapState.walk_eq_none (.inr (hpde.trans h0))]
  · rw [PmapState.walk_eq hd hpde h0, PmapState.walk_eq (hu.dir_ne_zero p rfl) rfl h0, withTable_mem]
    by_cases hstart : ktableStart ≤ addrToPdenum va
    · -- a table of the kernel map
      have he := hk.eq hstart h0
      have htable : s.KTable (frameOf (s.upde p (addrToPdenum va))) :=
        ⟨_, hstart, he ▸ h0, congrArg frameOf he.symm⟩
      rw [if_neg, if_neg]
      · rintro ⟨hx, -⟩
        exact hu.dir_not_table p rfl (hx ▸ htable)
      · intro hx
        exact hown.not_table (hx ▸ htable)
    · have hlow : addrToPdenum va < ktableStart := by bv_omega
      rw [if_neg, if_neg]
      · rintro ⟨hx, -⟩
        exact hu.table_ne_dir p p _ rfl rfl ⟨_, hlow, h0, rfl⟩ hx
      · intro hx
        exact hv (hone _ hlow h0 hx)

theorem TableFor.walk_other [DecidableEq π] {row : BitVec 10 → BitVec 32}
    (ht : TableFor s s₁ p i e taken) (hu : s.UserWf (· = p)) (hown : OwnTable s₁ (· = p) (frameOf e))
    (hv : addrToPdenum va = i) (hrow : row (addrToPtenum va) = s₁.mem (frameOf e) (addrToPtenum va)) :
    SameWalk ((withTable s₁ p i e row).walk (.user p) va) (s.walk (.user p) va) := by
  rw [withTable_walk_self (ht.grown.userWf hu) rfl hown ht.ne_zero hv, hrow]
  rcases ht with ⟨rfl, -, he, h0⟩ | ⟨h0, -, ht⟩
  · rw [PmapState.walk_eq (hu.dir_ne_zero p rfl) ((congrArg _ hv).trans he) h0]
    rfl
  · rw [PmapState.walk_eq_none (.inr ((congrArg _ hv).trans h0)), ht.zero]
    rfl

private theorem pmapEnter_point [DecidableEq π] (hw : s.KernelWf) (hu : s.UserWf (· = p)) (hk : s.KernelHalf p)
    (hv : va < kernelBase) (hp : protection < 0x1000) (h : pmapEnter (.user p) paddr va protection s = some s') :
    ∃ taken, s.freePageList = taken ++ s'.freePageList ∧ s'.KernelWf ∧ s'.UserWf (· = p) ∧ s'.KernelHalf p ∧
      s'.walk (.user p) va = some (addrToPte paddr ||| pagePresent ||| protection) ∧
      ∀ va', ¬ SamePage va' va → (∀ x ∈ taken, ¬ SamePage va' x.kernelAddr) →
        SameWalk (s'.walk (.user p) va') (s.walk (.user p) va') := by
  have hi := (addrToPdenum_lt_iff va).2 hv
  obtain ⟨s₁, taken, e, ht, rfl, -⟩ := pmapEnterWith_user pageTableAllocate_ok hw hu rfl hp h
  have hu₁ := ht.grown.userWf hu
  have hown := ht.own hu rfl hi
  have hone : ∀ q k, q = p → k < ktableStart → s₁.upde q k ≠ 0 → frameOf (s₁.upde q k) = frameOf e →
      q = p ∧ k = addrToPdenum va := fun q k hq hk' => ht.table_eq hu rfl hi hq hk'
  refine ⟨taken, ht.grown.free, ht.write_kernelWf hw hu rfl hi, ht.write_userWf hu rfl hi,
    ht.write_kernelHalf hu rfl hi rfl hk, ?_, ?_⟩
  · rw [withTable_walk_self hu₁ rfl hown ht.ne_zero rfl, update_self]
  · intro va' hne htaken
    by_cases hpd : addrToPdenum va' = addrToPdenum va
    · exact ht.walk_other hu hown hpd (update_of_ne (fun hpt => hne ⟨hpd, hpt⟩) _ _)
    · rw [withTable_walk_other hu₁ (ht.grown.kernelHalf hu rfl hk) hown hpd fun k hk' h0 he =>
        (hone p k rfl hk' h0 he).2]
      by_cases hstart : ktableStart ≤ addrToPdenum va'
      · refine ht.grown.walk_kernel hu hk hstart ?_
        rintro ⟨x, hx, hxi, hxj⟩
        exact htaken x hx ⟨hxi.symm, hxj.symm⟩
      · rw [ht.grown.walk_user hu rfl ((addrToPdenum_lt_iff va').1 (by bv_omega))]
        rfl

/-- A page in a map that may have no directory. -/
theorem pmapEnter_point_of_apart [DecidableEq π] (hw : s.KernelWf) (hd : s.TablesDistinct p) (ha : s.Apart p)
    (hv : va < kernelBase) (hp : protection < 0x1000) (h : pmapEnter (.user p) paddr va protection s = some s') :
    ∃ taken, s.freePageList = taken ++ s'.freePageList ∧ s'.KernelWf ∧ s'.UserWf (· = p) ∧ s'.KernelHalf p ∧
      s'.walk (.user p) va = some (addrToPte paddr ||| pagePresent ||| protection) ∧
      ∀ va', ¬ SamePage va' va → (∀ x ∈ taken, ¬ SamePage va' x.kernelAddr) →
        SameWalk (s'.walk (.user p) va') (s.walk (.user p) va') := by
  by_cases h0 : s.udir p = 0
  · unfold pmapEnter pmapEnterWith enterDirectory at h
    rw [if_pos h0] at h
    cases hal : pageTableAllocate s with
    | none => simp [hal] at h
    | some r =>
      obtain ⟨s₁, t⟩ := r
      obtain ⟨taken₁, hg⟩ := pageTableAllocate_ok s s₁ t hw hal
      obtain ⟨hw₂, hu₂, hz⟩ := hg.setDir (p := p) (.of_false s) id
      replace hu₂ := hu₂.anti fun q (hq : q = p) => .inl hq
      have h' : pmapEnter (.user p) paddr va protection (s₁.setDir p t) = some s' := by
        unfold pmapEnter pmapEnterWith
        rw [enterDirectory_of_ne_zero (hu₂.dir_ne_zero p rfl)]
        simpa [hal, PmapState.setDir] using h
      obtain ⟨taken₂, hf, hw', hu', hk', hself, hother⟩ :=
        pmapEnter_point hw₂ hu₂ (fun i _ => .inl (hz i)) hv hp h'
      refine ⟨taken₁ ++ taken₂, ?_, hw', hu', hk', hself, fun va' hne htaken => ?_⟩
      · rw [hg.grown.free, List.append_assoc, ← hf]
        rfl
      · have hw₀ := hother va' hne fun x hx => htaken x (List.mem_append_right _ hx)
        rw [PmapState.walk_eq_none (.inr (hz _))] at hw₀
        rw [PmapState.walk_eq_none (.inl h0)]
        exact hw₀
  · exact pmapEnter_point hw (ha.userWf hd h0) (ha.kernelHalf h0) hv hp h

/-- The walk of the address is the new entry.  The walks of the addresses on other pages stay, but for the pages at
which the kernel reaches the frames that were taken for a directory or for tables, and the map is in order again. -/
theorem pmap_enter_point_update [DecidableEq π] (hw : s.KernelWf) (hd : s.TablesDistinct p) (ha : s.Apart p)
    (hv : va < kernelBase) (hp : protection < 0x1000) (h : pmapEnter (.user p) paddr va protection s = some s') :
    s'.walk (.user p) va = some (addrToPte paddr ||| pagePresent ||| protection) ∧
    (∃ taken, s.freePageList = taken ++ s'.freePageList ∧
      ∀ va', ¬ SamePage va' va → (∀ x ∈ taken, ¬ SamePage va' x.kernelAddr) →
        SameWalk (s'.walk (.user p) va') (s.walk (.user p) va')) ∧ s'.TablesDistinct p ∧ s'.Apart p ∧ s'.KernelWf := by
  obtain ⟨taken, hf, hw', hu', hk', hself, hother⟩ := pmapEnter_point_of_apart hw hd ha hv hp h
  exact ⟨hself, ⟨taken, hf, hother⟩, hu'.tablesDistinct hw' hk', hu'.apart hk', hw'⟩

end Point

/-- The map `false` has a table for the first 4 MB, with a page in it; the map `true` is to be created. -/
def twoPmaps : PmapState Bool Unit where
  mem := fun x i =>
    if x = 3 ∧ i = 0 then 0x4007 else if x = 4 ∧ i = 5 then 0x20007
    else if (x = 1 ∨ x = 3) ∧ i = ktableStart then 0x2003 else 0
  pdbr := fun
    | .kernelMap => 1
    | .user b => if b then 0 else 3
  pages := ⟨fun _ => ⟨none, 0, 0, 0⟩, fun _ => none⟩
  freePageList := [0x10, 0x11, 0x12]
  pmapObject := 0
  proclist := [()]
  pmapOf := fun _ => false

theorem twoPmaps_entry (h : twoPmaps.mem x i ≠ 0) : x = 3 ∧ i = 0 ∧ twoPmaps.mem x i = 0x4007 ∨ x = 4 ∧ i = 5 ∨
      (x = 1 ∨ x = 3) ∧ i = ktableStart ∧ twoPmaps.mem x i = 0x2003 := by
  simp only [twoPmaps] at h ⊢
  split
  · rename_i hx
    exact .inl ⟨hx.1, hx.2, rfl⟩
  · rename_i hx
    rw [if_neg hx] at h
    split
    · rename_i hy
      exact .inr (.inl hy)
    · rename_i hy
      rw [if_neg hy] at h
      split at h
      · rename_i hz
        exact .inr (.inr ⟨hz.1, hz.2, if_pos hz⟩)
      · exact absurd rfl h

private theorem twoPmaps_kpde (h : twoPmaps.kpde i ≠ 0) : i = ktableStart ∧ frameOf (twoPmaps.kpde i) = 2 := by
  rcases twoPmaps_entry h with ⟨hx, -⟩ | ⟨hx, -⟩ | ⟨-, hi, he⟩
  · exact absurd hx (by decide)
  · exact absurd hx (by decide)
  · exact ⟨hi, congrArg frameOf he⟩

theorem twoPmaps_upde (h : twoPmaps.upde false i ≠ 0) :
    i = 0 ∧ frameOf (twoPmaps.upde false i) = 4 ∨ i = ktableStart ∧ frameOf (twoPmaps.upde false i) = 2 := by
  rcases twoPmaps_entry h with ⟨-, hi, he⟩ | ⟨hx, -⟩ | ⟨-, hi, he⟩
  · exact .inl ⟨hi, congrArg frameOf he⟩
  · exact absurd hx (by decide)
  · exact .inr ⟨hi, congrArg frameOf he⟩

theorem twoPmaps_ktable (h : twoPmaps.KTable x) : x = 2 := by
  obtain ⟨i, -, h0, rfl⟩ := h
  exact (twoPmaps_kpde h0).2

theorem twoPmaps_utable (h : twoPmaps.UTable false x) : x = 4 := by
  obtain ⟨i, hi, h0, rfl⟩ := h
  rcases twoPmaps_upde h0 with ⟨-, hx⟩ | ⟨rfl, -⟩
  · exact hx
  · exact absurd hi (by decide)

theorem twoPmaps_free (h : x ∈ twoPmaps.freePageList) : x = 0x10 ∨ x = 0x11 ∨ x = 0x12 := by
  simpa [twoPmaps] using h

theorem twoPmaps_kernelWf : twoPmaps.KernelWf where
  kdir_ne_zero := by decide
  kdir_not_table h := absurd (twoPmaps_ktable h) (by decide)
  kdir_not_proc := by decide
  table_inj i j _ _ hi hj _ := (twoPmaps_kpde hi).1.trans (twoPmaps_kpde hj).1.symm
  table_not_proc x hx := by
    rw [twoPmaps_ktable hx]
    decide
  free_nodup := by decide
  free_unused x hx := by
    have hx' := twoPmaps_free hx
    refine ⟨?_, ?_, ?_, fun h => ?_, ?_⟩
    · rcases hx' with rfl | rfl | rfl <;> decide
    · unfold Frame.Reachable
      rcases hx' with rfl | rfl | rfl <;> decide
    · rcases hx' with rfl | rfl | rfl <;> decide
    · rw [twoPmaps_ktable h] at hx'
      exact absurd hx' (by decide)
    · rcases hx' with rfl | rfl | rfl <;> decide

theorem twoPmaps_distinct : twoPmaps.TablesDistinct false where
  inj _ i j hi hj hij := by
    rcases twoPmaps_upde hi with ⟨rfl, hx⟩ | ⟨rfl, hx⟩ <;> rcases twoPmaps_upde hj with ⟨rfl, hy⟩ | ⟨rfl, hy⟩
    · rfl
    · exact absurd (hx.symm.trans (hij.trans hy)) (by decide)
    · exact absurd (hx.symm.trans (hij.trans hy)) (by decide)
    · rfl
  ne_dir _ i hi := by
    rcases twoPmaps_upde hi with ⟨-, hx⟩ | ⟨-, hx⟩ <;> rw [hx] <;> decide

theorem twoPmaps_apart : twoPmaps.Apart false where
  dir_ne_kdir _ := by decide
  dir_not_table _ h := absurd (twoPmaps_ktable h) (by decide)
  dir_not_free _ := by decide
  table_ne_kdir _ x h := by
    rw [twoPmaps_utable h]
    decide
  table_not_table _ x h h' := absurd ((twoPmaps_utable h).symm.trans (twoPmaps_ktable h')) (by decide)
  table_not_proc _ x h := by
    rw [twoPmaps_utable h]
    decide
  table_not_free _ x h := by
    rw [twoPmaps_utable h]
    decide
  kernelHalf _ i hi := by
    by_cases h0 : twoPmaps.upde false i = 0
    · exact .inl h0
    · rcases twoPmaps_upde h0 with ⟨rfl, -⟩ | ⟨rfl, -⟩
      · exact absurd hi (by decide)
      · exact .inr (by decide)

/-- A page in another region. -/
theorem pmap_enter_point_update_table : ∃ s, pmapEnter (.user false) 0x5000 0x400000 7 twoPmaps = some s ∧
    s.walk (.user false) 0x400000 = some 0x5007 ∧ s.TablesDistinct false := by
  obtain ⟨s, hs⟩ : ∃ s, pmapEnter (.user false) 0x5000 0x400000 7 twoPmaps = some s :=
    Option.isSome_iff_exists.1 (by decide)
  have h := pmap_enter_point_update twoPmaps_kernelWf twoPmaps_distinct twoPmaps_apart (by decide) (by decide) hs
  exact ⟨s, hs, h.1, h.2.2.1⟩

/-- The page at which the kernel reaches the frame taken for the table is on another page than the address, and its walk
changes. -/
theorem pmap_enter_changes_kernel_page : twoPmaps.KernelWf ∧ twoPmaps.TablesDistinct false ∧ twoPmaps.Apart false ∧
    ¬ SamePage 0xE0010000 0x400000 ∧ twoPmaps.walk (.user false) 0xE0010000 = some 0 ∧
    ∃ s, pmapEnter (.user false) 0x5000 0x400000 7 twoPmaps = some s ∧
      s.walk (.user false) 0xE0010000 = some 0x10003 := by
  refine ⟨twoPmaps_kernelWf, twoPmaps_distinct, twoPmaps_apart, ?_, by decide, _, rfl, by decide⟩
  unfold SamePage
  decide

end Manrix
