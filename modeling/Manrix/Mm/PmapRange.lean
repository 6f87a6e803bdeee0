import Manrix.Lib.Fuel
import Manrix.Mm.PmapEnter
import Manrix.Mm.UserSpace
import Manrix.Mm.VmMap

/-!
# Mapping ranges of pages (`pmap_enter_range`, and `syscall_vm_map` for low memory)

The loop of `pmap_enter_range` goes on as long as the address is not above the end of the range.  The end is the first
address behind the range, and so one page more is entered than the range has: this is right only if this page is mapped
in the same way before (`pmap_enter_range_exact_iff`).  At the upper end of the address space the end, or the address
itself, wraps.

`syscall_vm_map` maps low memory at the addresses that it has, each request behind the one before, and so a process gets
the frame behind the ones that it has asked for.
-/

namespace Manrix

open Frames Fuel

variable {π κ : Type*}

/-! ### The functions -/

section Functions

variable [DecidableEq π]

/-- The loop of `pmap_enter_range`.  There is no result if the rounds do not suffice, and an empty one if `pmap_enter`
finds no free frame. -/
def enterRangeLoop (map : Pmap π) (last protection : BitVec 32) :
    Nat → BitVec 32 → BitVec 32 → PmapState π κ → Option (Option (PmapState π κ))
  | 0, _, _, _ => none
  | fuel + 1, pa, vaddr, s =>
    if pa ≤ last then
      match pmapEnter map pa vaddr protection s with
      | none => some none
      | some s => enterRangeLoop map last protection fuel (pa + 0x1000) (vaddr + 0x1000) s
    else some (some s)

def pmapEnterRange (fuel : Nat) (map : Pmap π) (paddr vaddr limit protection : BitVec 32) (s : PmapState π κ) :
    Option (Option (PmapState π κ)) :=
  let size := alignPage limit
  enterRangeLoop map (paddr + size) protection fuel paddr vaddr s

def vmMapEntryLowmem : BitVec 32 := 0x40

/-- The page maps, and `private` of the map of the calling process. -/
structure LowMem (π κ : Type*) where
  pm : PmapState π κ
  privateAddr : BitVec 32

/-- Low memory starts from page 1. -/
def LowMem.start (s : LowMem π κ) : BitVec 32 := if s.privateAddr = 0 then 0x1000 else s.privateAddr

/-- `p` is the page map of the process, and `vn` the size in the object, if there is one; `vmMap` is the call of
`vm_map`. -/
def syscallVmMap (vmMap : LowMem π κ → Option (Option (LowMem π κ × BitVec 32))) (fuel : Nat) (p : π)
    (vn : Option (BitVec 32)) (ecx : BitVec 32) (s : LowMem π κ) : Option (Option (LowMem π κ × BitVec 32)) :=
  if ecx &&& vmMapEntryLowmem ≠ 0 then
    let privateAddr := s.start
    match vn with
    | none => some none
    | some size =>
      match pmapEnterRange fuel (.user p) privateAddr privateAddr size (pageRw ||| pageUser) s.pm with
      | none => none
      | some none => some none
      | some (some pm) => some (some (⟨pm, privateAddr + size⟩, privateAddr))
  else vmMap s

end Functions

/-! ### Pages behind an address -/

def pageAfter (a : BitVec 32) (k : Nat) : BitVec 32 := a + BitVec.ofNat 32 (k * 0x1000)

@[simp] theorem pageAfter_zero (a : BitVec 32) : pageAfter a 0 = a := by
  simp [pageAfter]

private theorem pageAfter_succ (a : BitVec 32) (k : Nat) : pageAfter (a + 0x1000) k = pageAfter a (k + 1) := by
  have h : BitVec.ofNat 32 ((k + 1) * 0x1000) = 0x1000 + BitVec.ofNat 32 (k * 0x1000) := by
    rw [Nat.succ_mul, Nat.add_comm, BitVec.ofNat_add]
    rfl
  rw [pageAfter, pageAfter, h, BitVec.add_assoc]

private theorem toNat_pageAfter {a : BitVec 32} {k : Nat} (h : a.toNat + k * 0x1000 < 2 ^ 32) :
    (pageAfter a k).toNat = a.toNat + k * 0x1000 := by
  rw [pageAfter, BitVec.toNat_add, BitVec.toNat_ofNat]
  omega

private theorem samePage_iff_div (a b : BitVec 32) : SamePage a b ↔ a.toNat / 0x1000 = b.toNat / 0x1000 := by
  rw [samePage_iff, ← BitVec.toNat_inj, toNat_frameOf, toNat_frameOf]
  rfl

theorem PmapState.walk_congr {s : PmapState π κ} {map : Pmap π} {va va' : BitVec 32} (h : SamePage va va') :
    s.walk map va = s.walk map va' := by
  unfold PmapState.walk
  rw [h.1, h.2]

theorem SameWalk.eq_some {a : Option (BitVec 32)} {e : BitVec 32} (h : SameWalk a (some e)) (h0 : e ≠ 0) :
    a = some e := by
  cases a with
  | none => exact absurd h.symm h0
  | some w => exact congrArg some h

/-! ### Some pages -/

/-- The map is as `pmap_enter` requires it. -/
structure PmapState.EnterWf (s : PmapState π κ) (p : π) : Prop where
  kernelWf : s.KernelWf
  distinct : s.TablesDistinct p
  apart : s.Apart p

/-- The `m` pages from `va` on walk to those from `pa` on, and the walks of all other addresses are as before, but for
the pages at which the kernel reaches the frames that were taken for tables. -/
structure PagesEntered (s s' : PmapState π κ) (p : π) (pa va protection : BitVec 32) (m : Nat) : Prop where
  free : s'.freePageList <:+ s.freePageList
  page : ∀ k < m, s'.walk (.user p) (pageAfter va k) =
    some (addrToPte (pageAfter pa k) ||| pagePresent ||| protection)
  other : ∀ va', (∀ k < m, ¬ SamePage va' (pageAfter va k)) →
    (∀ x ∈ s.freePageList, x ∉ s'.freePageList → ¬ SamePage va' x.kernelAddr) →
    SameWalk (s'.walk (.user p) va') (s.walk (.user p) va')

section Pages

variable {s s₁ s' : PmapState π κ} {p : π} {pa va va' protection last : BitVec 32} {m : Nat}

theorem PagesEntered.nil (s : PmapState π κ) (p : π) (pa va protection : BitVec 32) :
    PagesEntered s s p pa va protection 0 :=
  ⟨List.suffix_rfl, fun _ h => absurd h (Nat.not_lt_zero _), fun _ _ _ => rfl⟩

private theorem not_samePage_kernelAddr (hw : s.KernelWf) (hv : va.toNat / 0x1000 ≤ 0xE0000) {x : Frame}
    (hx : x ∈ s.freePageList) : ¬ SamePage va x.kernelAddr := by
  have hu := hw.free_unused x hx
  have h0 : x.toNat ≠ 0 := fun h => hu.ne_zero (BitVec.eq_of_toNat_eq h)
  rw [samePage_iff_div, toNat_kernelAddr hu.reachable]
  omega

/-- One page in front of some pages. -/
theorem PagesEntered.cons (h₁ : PagesEntered s s₁ p pa va protection 1) (hw₁ : s₁.KernelWf)
    (h₂ : PagesEntered s₁ s' p (pa + 0x1000) (va + 0x1000) protection m)
    (hend : va.toNat / 0x1000 + (m + 1) ≤ 0xE0000) : PagesEntered s s' p pa va protection (m + 1) where
  free := h₂.free.trans h₁.free
  page k hk := by
    cases k with
    | zero =>
      have hself := h₁.page 0 Nat.one_pos
      have hkeep := h₂.other (pageAfter va 0) (fun k hk hsame => ?_) fun x hx _ =>
        not_samePage_kernelAddr hw₁ (by rw [pageAfter_zero]; omega) hx
      · rw [hself] at hkeep
        exact hkeep.eq_some (entry_ne_zero _ _)
      · rw [pageAfter_succ, pageAfter_zero, samePage_iff_div, toNat_pageAfter (by omega)] at hsame
        omega
    | succ k =>
      rw [← pageAfter_succ, ← pageAfter_succ]
      exact h₂.page k (Nat.lt_of_succ_lt_succ hk)
  other va' hpages htaken := by
    have hlast : SameWalk (s'.walk (.user p) va') (s₁.walk (.user p) va') := by
      refine h₂.other va' (fun k hk => ?_) fun x hx => htaken x (h₁.free.subset hx)
      rw [pageAfter_succ]
      exact hpages (k + 1) (Nat.succ_lt_succ hk)
    have hfirst : SameWalk (s₁.walk (.user p) va') (s.walk (.user p) va') := by
      refine h₁.other va' (fun k hk => ?_) fun x hx hx₁ => htaken x hx fun hx' => hx₁ (h₂.free.subset hx')
      exact hpages k (Nat.lt_of_lt_of_le hk (Nat.succ_le_succ (Nat.zero_le m)))
    exact hlast.trans hfirst

variable [DecidableEq π]

theorem PmapState.EnterWf.enter (hw : s.EnterWf p) (hv : va < kernelBase) (hp : protection < 0x1000)
    (h : pmapEnter (.user p) pa va protection s = some s') : s'.EnterWf p ∧ PagesEntered s s' p pa va protection 1 := by
  obtain ⟨taken, hf, hw', hu', hk', hself, hother⟩ :=
    pmapEnter_point_of_apart hw.kernelWf hw.distinct hw.apart hv hp h
  refine ⟨⟨hw', hu'.tablesDistinct hw' hk', hu'.apart hk'⟩, ⟨taken, hf.symm⟩, ?_, ?_⟩
  · intro k hk
    obtain rfl : k = 0 := by omega
    rwa [pageAfter_zero, pageAfter_zero]
  · intro va' hpages htaken
    refine hother va' (pageAfter_zero va ▸ hpages 0 Nat.one_pos) fun x hx => ?_
    have hnd := hw.kernelWf.free_nodup
    rw [hf] at hnd htaken
    exact htaken x (List.mem_append_left _ hx) fun hx' => (List.nodup_append.1 hnd).2.2 x hx x hx' rfl

private theorem pmapEnter_same (h : s.walk (.user p) va = some (addrToPte pa ||| pagePresent ||| protection)) :
    pmapEnter (.user p) pa va protection s = some s := by
  have hd : ¬ s.pdbr (.user p) = 0 := fun hd => by simp [PmapState.walk_eq_none (.inl hd)] at h
  have he : ¬ s.mem (s.pdbr (.user p)) (addrToPdenum va) = 0 := fun he => by
    simp [PmapState.walk_eq_none (.inr he)] at h
  rw [PmapState.walk_eq hd rfl he] at h
  rw [pmapEnter, pmapEnterWith, enterDirectory_of_ne_zero hd]
  dsimp only
  rw [enterTable, if_neg he]
  dsimp only
  rw [← Option.some.inj h, setWord_eq_self]

/-- A page of the kernel half: the page is mapped, and those below `KERNEL_BASE` stay as they are. -/
private theorem pmapEnter_kernel_point (hw : s.KernelWf) (hu : s.UserWf (· = p)) (hk : s.KernelHalf p)
    (hv : ktableStart ≤ addrToPdenum va) (hp : protection < 0x1000)
    (h : pmapEnter (.user p) pa va protection s = some s') : s'.freePageList <:+ s.freePageList ∧
      s'.walk (.user p) va = some (addrToPte pa ||| pagePresent ||| protection) ∧
      ∀ va', va' < kernelBase → s'.walk (.user p) va' = s.walk (.user p) va' := by
  have hd := hu.dir_ne_zero p rfl
  have hne : ∀ va', va' < kernelBase → addrToPdenum va' ≠ addrToPdenum va := by
    intro va' hva' heq
    have := (addrToPdenum_lt_iff va').2 hva'
    bv_omega
  by_cases h0 : s.upde p (addrToPdenum va) = 0
  · -- the map gets a table of its own
    obtain ⟨s₁, t, taken, ht, rfl⟩ := pmapEnterWith_new pageTableAllocate_ok hw hu rfl hp h0 h
    have hframe := frameOf_base_entry t hp
    have hown : OwnTable s₁ (· = p) (frameOf (addrToPte t.base ||| pagePresent ||| protection)) :=
      hframe.symm ▸ ht.own hu
    have hu₁ := ht.grown.userWf hu
    refine ⟨⟨taken, ht.grown.free.symm⟩, ?_, fun va' hva' => ?_⟩
    · rw [withTable_walk_self hu₁ rfl hown (entry_ne_zero _ _) rfl, Function.update_self]
    · rw [withTable_walk_other hu₁ (ht.grown.kernelHalf hu rfl hk) hown (hne va' hva') fun k hk' h0 he =>
        absurd ⟨k, hk', h0, he.trans hframe⟩ (ht.not_utable hu rfl), ht.grown.walk_user hu rfl hva']
  · -- the table is one of the kernel
    have hs' := pmapEnter_kernelPage hd h0 h
    have htable : s.KTable (frameOf (s.upde p (addrToPdenum va))) :=
      ⟨_, hv, hk.eq hv h0 ▸ h0, congrArg frameOf (hk.eq hv h0).symm⟩
    have hupde : ∀ i, s'.upde p i = s.upde p i := by
      intro i
      rw [hs']
      refine congrFun (setWord_of_ne_frame fun heq => ?_) i
      exact hu.dir_not_table p rfl (heq ▸ htable)
    have hd' : s'.udir p ≠ 0 := by
      rw [hs']
      exact hd
    refine ⟨by rw [hs'], ?_, fun va' hva' => ?_⟩
    · rw [PmapState.walk_eq hd' (hupde _) h0, hs']
      exact congrArg some setWord_self
    · by_cases h0' : s.upde p (addrToPdenum va') = 0
      · rw [PmapState.walk_eq_none (.inr h0'), PmapState.walk_eq_none (.inr ((hupde _).trans h0'))]
      · rw [PmapState.walk_eq hd' (hupde _) h0', PmapState.walk_eq hd rfl h0', hs']
        refine congrArg some (congrFun (setWord_of_ne_frame fun heq => ?_) _)
        have hut : s.UTable p (frameOf (s.upde p (addrToPdenum va'))) :=
          ⟨_, (addrToPdenum_lt_iff va').2 hva', h0', rfl⟩
        exact hu.table_not_table p _ rfl hut (heq ▸ htable)

end Pages

/-! ### The loop -/

section Loop

variable [DecidableEq π] {s s₁ s' : PmapState π κ} {p : π} {map : Pmap π} {pa va protection last : BitVec 32}
  {m n fuel : Nat}

private theorem enterRangeLoop_extends (map : Pmap π) (last protection : BitVec 32) (hf : fuel ≤ n) (pa va : BitVec 32)
    (s : PmapState π κ) : Extends (enterRangeLoop map last protection fuel pa va s)
      (enterRangeLoop map last protection n pa va s) := by
  refine le_rounds (R := fun n m => ∀ pa va s, Extends (enterRangeLoop map last protection n pa va s)
    (enterRangeLoop map last protection m pa va s)) ?_ ?_ hf pa va s
  · exact fun m pa va s => extends_none _
  · intro n m ih pa va s
    refine .ite ?_ (.refl _)
    cases pmapEnter map pa va protection s with
    | none => exact .refl _
    | some s₁ => exact ih _ _ s₁

private theorem enterRangeLoop_unique {r r' : Option (PmapState π κ)}
    (h : enterRangeLoop map last protection fuel pa va s = some r)
    (h' : enterRangeLoop map last protection n pa va s = some r') : r = r' :=
  eq_of_extends (fun hf => enterRangeLoop_extends map last protection hf pa va s) h h'

/-- The first `m` rounds of the loop, on pages below `KERNEL_BASE`. -/
private theorem enterRangeLoop_pages (hw : s.EnterWf p) (hp : protection < 0x1000)
    (hlast : ∀ k < m, pageAfter pa k ≤ last) (hend : va.toNat / 0x1000 + m ≤ 0xE0000) :
    (∃ fuel, enterRangeLoop (.user p) last protection fuel pa va s = some none) ∨
      ∃ s₁, s₁.EnterWf p ∧ PagesEntered s s₁ p pa va protection m ∧
        ∀ n, enterRangeLoop (.user p) last protection (n + m) pa va s =
          enterRangeLoop (.user p) last protection n (pageAfter pa m) (pageAfter va m) s₁ := by
  -- induction over the rounds, for all maps that are in order
  induction m generalizing s pa va with
  | zero =>
    refine .inr ⟨s, hw, .nil .., fun n => ?_⟩
    rw [pageAfter_zero, pageAfter_zero, Nat.add_zero]
  | succ m ih =>
    have hle : pa ≤ last := pageAfter_zero pa ▸ hlast 0 (Nat.succ_pos m)
    cases he : pmapEnter (.user p) pa va protection s with
    | none => exact .inl ⟨1, by rw [enterRangeLoop, if_pos hle, he]⟩
    | some s₁ =>
      have hbase : kernelBase.toNat = 0xE0000000 := rfl
      have hv : va < kernelBase := by
        rw [BitVec.lt_def]
        omega
      have hnext : (va + 0x1000).toNat = va.toNat + 0x1000 := toNat_add_page (by omega)
      obtain ⟨hw₁, hpage⟩ := hw.enter hv hp he
      have hround : ∀ n, enterRangeLoop (.user p) last protection (n + 1) pa va s =
          enterRangeLoop (.user p) last protection n (pa + 0x1000) (va + 0x1000) s₁ := fun n => by
        rw [enterRangeLoop, if_pos hle, he]
      have hlast₁ : ∀ k < m, pageAfter (pa + 0x1000) k ≤ last := fun k hk => by
        rw [pageAfter_succ]
        exact hlast (k + 1) (Nat.succ_lt_succ hk)
      have hend₁ : (va + 0x1000).toNat / 0x1000 + m ≤ 0xE0000 := by omega
      rcases ih hw₁ hlast₁ hend₁ with ⟨fuel, hnone⟩ | ⟨s₂, hw₂, hpages, hloop⟩
      · exact .inl ⟨fuel + 1, (hround fuel).trans hnone⟩
      · refine .inr ⟨s₂, hw₂, hpage.cons hw₁.kernelWf hpages hend, fun n => ?_⟩
        rw [← pageAfter_succ, ← pageAfter_succ, ← hloop n]
        exact hround (n + m)

private theorem enterRangeLoop_top (hpa : pa.toNat % 0x1000 = 0) :
    enterRangeLoop map 0xFFFFF000 protection fuel pa va s ≠ some (some s') := by
  induction fuel generalizing pa va s with
  | zero => exact Option.some_ne_none _ ∘ Eq.symm
  | succ fuel ih =>
    have hle : pa ≤ 0xFFFFF000 := by
      have := pa.isLt
      rw [BitVec.le_def, show (0xFFFFF000 : BitVec 32).toNat = 0xFFFFF000 from rfl]
      omega
    have hnext : (pa + 0x1000).toNat % 0x1000 = 0 := by
      rw [BitVec.toNat_add, show (0x1000 : BitVec 32).toNat = 0x1000 from rfl]
      omega
    rw [enterRangeLoop, if_pos hle]
    cases pmapEnter map pa va protection s with
    | none => exact fun h => Option.some_ne_none s' (Option.some.inj h).symm
    | some s₁ => exact ih hnext

/-- The last round, which may be on the first page of the kernel. -/
theorem PmapState.EnterWf.enter_last (hw : s.EnterWf p) (hd : s.udir p ≠ 0) (hp : protection < 0x1000)
    (h : pmapEnter (.user p) pa va protection s = some s') : s'.freePageList <:+ s.freePageList ∧
      s'.walk (.user p) va = some (addrToPte pa ||| pagePresent ||| protection) ∧
      ∀ va', va' < kernelBase → ¬ SamePage va' va → SameWalk (s'.walk (.user p) va') (s.walk (.user p) va') := by
  have hbase : kernelBase.toNat = 0xE0000000 := rfl
  by_cases hlt : va < kernelBase
  · obtain ⟨-, hpage⟩ := hw.enter hlt hp h
    have hself := hpage.page 0 Nat.one_pos
    rw [pageAfter_zero, pageAfter_zero] at hself
    refine ⟨hpage.free, hself, fun va' hva' hne => hpage.other va' (fun k hk => ?_) fun x hx _ => ?_⟩
    · obtain rfl : k = 0 := by omega
      rwa [pageAfter_zero]
    · rw [BitVec.lt_def] at hva'
      exact not_samePage_kernelAddr hw.kernelWf (by omega) hx
  · have hstart : ktableStart ≤ addrToPdenum va := by
      have := mt (addrToPdenum_lt_iff va).1 hlt
      bv_omega
    obtain ⟨hfree, hself, hother⟩ := pmapEnter_kernel_point hw.kernelWf (hw.apart.userWf hw.distinct hd)
      (hw.apart.kernelHalf hd) hstart hp h
    refine ⟨hfree, hself, fun va' hva' _ => ?_⟩
    rw [hother va' hva']
    rfl

end Loop

/-! ### The range -/

/-- `limit / PAGE_SIZE`, rounded up. -/
def pagesOf (limit : BitVec 32) : Nat := (limit.toNat + 0xFFF) / 0x1000

private theorem add_alignPage {limit : BitVec 32} (h : limit.toNat ≤ 0xE0000000) (a : BitVec 32) :
    a + alignPage limit = pageAfter a (pagesOf limit) := by
  rw [pageAfter]
  congr 1
  apply BitVec.eq_of_toNat_eq
  rw [toNat_alignPage, BitVec.toNat_ofNat, pagesOf]
  omega

section Range

variable [DecidableEq π]

/-- `pmap_enter_range` ends, and exactly the pages of the range are entered. -/
def EntersRange (s : PmapState π κ) (p : π) (paddr vaddr limit protection : BitVec 32) : Prop :=
  ∃ fuel s', pmapEnterRange fuel (.user p) paddr vaddr limit protection s = some (some s') ∧
    PagesEntered s s' p paddr vaddr protection (pagesOf limit)

omit [DecidableEq π] in
/-- The page behind the range is mapped like the range, and it is not the last one of the address space.  If the range
ends with the address space, no page is entered at all. -/
def RangeFits (s : PmapState π κ) (p : π) (paddr vaddr limit protection : BitVec 32) : Prop :=
  let walksTo k := s.walk (.user p) (pageAfter vaddr k) =
    some (addrToPte (pageAfter paddr k) ||| pagePresent ||| protection)
  if pageAfter paddr (pagesOf limit) = 0 then ∀ k < pagesOf limit, walksTo k
  else pageAfter paddr (pagesOf limit) ≠ 0xFFFFF000 ∧ walksTo (pagesOf limit)

variable {s s₁ s' : PmapState π κ} {p : π} {paddr vaddr limit protection : BitVec 32}

omit [DecidableEq π] in
theorem PagesEntered.udir_ne_zero {m : Nat} (h : PagesEntered s s' p paddr vaddr protection m) (hm : 0 < m) :
    s'.udir p ≠ 0 := by
  intro h0
  have := h.page 0 hm
  rw [PmapState.walk_eq_none (.inl h0)] at this
  cases this

/-- The pages of the range, and the one behind it. -/
private theorem pmapEnterRange_cases (hw : s.EnterWf p) (hp : protection < 0x1000) (hl : limit.toNat ≤ 0xE0000000)
    (hpa : paddr.toNat + pagesOf limit * 0x1000 + 0x1000 < 2 ^ 32)
    (hend : vaddr.toNat / 0x1000 + pagesOf limit ≤ 0xE0000) :
    (∃ fuel, pmapEnterRange fuel (.user p) paddr vaddr limit protection s = some none) ∨
      ∃ s₁ s' fuel, s₁.EnterWf p ∧ PagesEntered s s₁ p paddr vaddr protection (pagesOf limit) ∧
        pmapEnter (.user p) (pageAfter paddr (pagesOf limit)) (pageAfter vaddr (pagesOf limit)) protection s₁ =
          some s' ∧ pmapEnterRange fuel (.user p) paddr vaddr limit protection s = some (some s') := by
  unfold pmapEnterRange
  dsimp only
  rw [add_alignPage hl]
  generalize pagesOf limit = n at *
  have hlast : ∀ k < n, pageAfter paddr k ≤ pageAfter paddr n := by
    intro k hk
    rw [BitVec.le_def, toNat_pageAfter (by omega), toNat_pageAfter (by omega)]
    omega
  have hstop : ¬ pageAfter paddr n + 0x1000 ≤ pageAfter paddr n := by
    have hn := toNat_pageAfter (a := paddr) (k := n) (by omega)
    rw [BitVec.le_def, toNat_add_page (by omega)]
    omega
  rcases enterRangeLoop_pages hw hp hlast hend with hnone | ⟨s₁, hw₁, hpages, hloop⟩
  · exact .inl hnone
  · cases he : pmapEnter (.user p) (pageAfter paddr n) (pageAfter vaddr n) protection s₁ with
    | none =>
      refine .inl ⟨1 + n, ?_⟩
      rw [hloop, enterRangeLoop, if_pos (BitVec.le_refl _), he]
    | some s' =>
      refine .inr ⟨s₁, s', 2 + n, hw₁, hpages, he, ?_⟩
      rw [hloop, enterRangeLoop, if_pos (BitVec.le_refl _), he]
      dsimp only
      rw [enterRangeLoop, if_neg hstop]

private theorem pmapEnterRange_enterWf {fuel : Nat} (hw : s.EnterWf p) (hp : protection < 0x1000)
    (hl : limit.toNat ≤ 0xE0000000) (hpa : paddr.toNat + pagesOf limit * 0x1000 + 0x1000 < 2 ^ 32)
    (hend : vaddr.toNat / 0x1000 + pagesOf limit < 0xE0000)
    (h : pmapEnterRange fuel (.user p) paddr vaddr limit protection s = some (some s')) : s'.EnterWf p := by
  rcases pmapEnterRange_cases hw hp hl hpa (Nat.le_of_lt hend) with ⟨fuel', hnone⟩ | ⟨s₁, s₂, fuel', hw₁, -, he, hs₂⟩
  · cases enterRangeLoop_unique h hnone
  · cases enterRangeLoop_unique h hs₂
    have hv : pageAfter vaddr (pagesOf limit) < kernelBase := by
      rw [BitVec.lt_def, toNat_pageAfter (by omega), show kernelBase.toNat = 0xE0000000 from rfl]
      omega
    exact (hw₁.enter hv hp he).1

omit [DecidableEq π] in
theorem PagesEntered.walk_behind {m : Nat} (h : PagesEntered s s' p paddr vaddr protection m) (hw : s.KernelWf)
    (hend : vaddr.toNat / 0x1000 + m ≤ 0xE0000) :
    SameWalk (s'.walk (.user p) (pageAfter vaddr m)) (s.walk (.user p) (pageAfter vaddr m)) := by
  have hn := toNat_pageAfter (a := vaddr) (k := m) (by omega)
  refine h.other _ (fun k hk hsame => ?_) fun x hx _ => not_samePage_kernelAddr hw (by omega) hx
  rw [samePage_iff_div, hn, toNat_pageAfter (by omega)] at hsame
  omega

private theorem entersRange_iff_of_lt (hw : s.EnterWf p) (hp : protection < 0x1000) (hl : limit.toNat ≤ 0xE0000000)
    (hpos : 0 < pagesOf limit) (hpa : paddr.toNat + pagesOf limit * 0x1000 + 0x1000 < 2 ^ 32)
    (hend : vaddr.toNat / 0x1000 + pagesOf limit ≤ 0xE0000)
    (hframes : ∀ fuel, pmapEnterRange fuel (.user p) paddr vaddr limit protection s ≠ some none) :
    EntersRange s p paddr vaddr limit protection ↔ s.walk (.user p) (pageAfter vaddr (pagesOf limit)) =
      some (addrToPte (pageAfter paddr (pagesOf limit)) ||| pagePresent ||| protection) := by
  rcases pmapEnterRange_cases hw hp hl hpa hend with ⟨fuel, hnone⟩ | ⟨s₁, s', fuel, hw₁, hpages, he, hs'⟩
  · exact absurd hnone (hframes fuel)
  · have h0 := entry_ne_zero (pageAfter paddr (pagesOf limit)) protection
    constructor
    · rintro ⟨fuel', s'', hs'', hexact⟩
      cases enterRangeLoop_unique hs' hs''
      obtain ⟨-, hself, -⟩ := hw₁.enter_last (hpages.udir_ne_zero hpos) hp he
      have hsame := hexact.walk_behind hw.kernelWf hend
      rw [hself] at hsame
      exact SameWalk.eq_some hsame.symm h0
    · intro hbehind
      have hsame := hpages.walk_behind hw.kernelWf hend
      rw [hbehind] at hsame
      rw [pmapEnter_same (hsame.eq_some h0)] at he
      cases he
      exact ⟨fuel, s₁, hs', hpages⟩

/-- The three cases for the end of the range. -/
private theorem entersRange_iff (hw : s.EnterWf p) (hp : protection < 0x1000) (hpa : paddr.toNat % 0x1000 = 0)
    (hva : vaddr.toNat % 0x1000 = 0) (hpos : 1 ≤ limit.toNat) (hpend : paddr.toNat + limit.toNat ≤ 2 ^ 32)
    (hend : vaddr.toNat + limit.toNat ≤ kernelBase.toNat)
    (hframes : ∀ fuel, pmapEnterRange fuel (.user p) paddr vaddr limit protection s ≠ some none) :
    EntersRange s p paddr vaddr limit protection ↔ RangeFits s p paddr vaddr limit protection := by
  have hbase : kernelBase.toNat = 0xE0000000 := rfl
  have hl : limit.toNat ≤ 0xE0000000 := by omega
  have hn : pagesOf limit = (limit.toNat + 0xFFF) / 0x1000 := rfl
  unfold RangeFits
  dsimp only
  by_cases hlow : paddr.toNat + pagesOf limit * 0x1000 + 0x1000 < 2 ^ 32
  · have htoNat := toNat_pageAfter (a := paddr) (k := pagesOf limit) (by omega)
    have h0 : pageAfter paddr (pagesOf limit) ≠ 0 := by
      intro h
      rw [h, show (0 : BitVec 32).toNat = 0 from rfl] at htoNat
      omega
    have htop : pageAfter paddr (pagesOf limit) ≠ 0xFFFFF000 := by
      intro h
      rw [h, show (0xFFFFF000 : BitVec 32).toNat = 0xFFFFF000 from rfl] at htoNat
      omega
    rw [if_neg h0, entersRange_iff_of_lt hw hp hl (by omega) hlow (by omega) hframes]
    exact ⟨fun h => ⟨htop, h⟩, fun h => h.2⟩
  · by_cases hwrap : paddr.toNat + pagesOf limit * 0x1000 = 2 ^ 32
    · have h0 : pageAfter paddr (pagesOf limit) = 0 := by
        apply BitVec.eq_of_toNat_eq
        rw [pageAfter, BitVec.toNat_add, BitVec.toNat_ofNat]
        simp
        omega
      have hs : pmapEnterRange 1 (.user p) paddr vaddr limit protection s = some (some s) := by
        have hgt : ¬ paddr ≤ 0 := by
          rw [BitVec.le_def, show (0 : BitVec 32).toNat = 0 from rfl]
          omega
        rw [pmapEnterRange, add_alignPage hl, h0, enterRangeLoop, if_neg hgt]
      rw [if_pos h0]
      constructor
      · rintro ⟨fuel, s', hs', hexact⟩
        cases enterRangeLoop_unique hs hs'
        exact hexact.page
      · exact fun h => ⟨1, s, hs, List.suffix_rfl, h, fun _ _ _ => rfl⟩
    · have htop : pageAfter paddr (pagesOf limit) = 0xFFFFF000 := by
        apply BitVec.eq_of_toNat_eq
        rw [toNat_pageAfter (by omega), show (0xFFFFF000 : BitVec 32).toNat = 0xFFFFF000 from rfl]
        omega
      rw [htop, if_neg (by decide)]
      constructor
      · rintro ⟨fuel, s', hs', -⟩
        rw [pmapEnterRange, add_alignPage hl, htop] at hs'
        exact absurd hs' (enterRangeLoop_top hpa)
      · exact fun h => absurd rfl h.1

end Range

/-! ### Requests for low memory -/

/-- The frame that the address walks to, with an entry that is for processes. -/
def PmapState.userFrame (s : PmapState π κ) (p : π) (va : BitVec 32) : Option Frame :=
  (s.walk (.user p) va).bind fun e =>
    if e &&& accessBits false = accessBits false then some (frameOf e) else none

def PmapState.Accessible (s : PmapState π κ) (p : π) (f : Frame) : Prop :=
  ∃ va, va < kernelBase ∧ s.userFrame p va = some f

/-- The request is for a byte of the frame. -/
def AskedFor (ptr size : BitVec 32) (f : Frame) : Prop := ∃ i, i < size.toNat ∧ frameOf (ptr + BitVec.ofNat 32 i) = f

/-- The process has no frame that it did not have before and did not ask for. -/
def OnlyAsked (s s' : PmapState π κ) (p : π) (asked : Frame → Prop) : Prop :=
  ∀ f, s'.Accessible p f → s.Accessible p f ∨ asked f

/-- The last page of the two requests together. -/
def lastPage (start size₁ size₂ : BitVec 32) : Nat := (start.toNat + size₁.toNat + size₂.toNat - 1) / 0x1000

/-- The pages that are entered end with the last page of the requests; or the next page is the first one of the kernel,
or the process has its frame before. -/
def RequestsFit (s : PmapState π κ) (p : π) (start size₁ size₂ : BitVec 32) : Prop :=
  (start.toNat / 0x1000 + pagesOf size₁ ≤ lastPage start size₁ size₂ ∧
      (start + size₁).toNat / 0x1000 + pagesOf size₂ ≤ lastPage start size₁ size₂) ∨
    0xE0000 ≤ lastPage start size₁ size₂ + 1 ∨
    s.Accessible p (BitVec.ofNat 20 (lastPage start size₁ size₂ + 1))

section Requests

theorem SameWalk.userFrame_eq {s s' : PmapState π κ} {p : π} {va : BitVec 32}
    (h : SameWalk (s'.walk (.user p) va) (s.walk (.user p) va)) : s'.userFrame p va = s.userFrame p va := by
  -- an entry 0 is for nobody, as a missing table is
  have hget : ∀ w : Option (BitVec 32), (w.bind fun e =>
      if e &&& accessBits false = accessBits false then some (frameOf e) else none) =
      if w.getD 0 &&& accessBits false = accessBits false then some (frameOf (w.getD 0)) else none := by
    intro w
    cases w with
    | none => decide
    | some e => rfl
  unfold PmapState.userFrame
  rw [hget, hget, h]

private theorem userFrame_of_entry {s : PmapState π κ} {p : π} {pa va va' : BitVec 32} (hsame : SamePage va va')
    (hpa : SamePage va pa) (h : s.walk (.user p) va' = some (addrToPte pa ||| pagePresent ||| (pageRw ||| pageUser))) :
    s.userFrame p va = some (frameOf va) := by
  unfold PmapState.userFrame
  rw [PmapState.walk_congr hsame, h, Option.bind_some, if_pos (entry_accessBits _ (by decide)),
    frameOf_entry (by decide), (samePage_iff va pa).1 hpa]

variable [DecidableEq π] {s s' : PmapState π κ} {p : π} {start limit va : BitVec 32} {fuel : Nat}

/-- The pages that are entered, and their frames. -/
private theorem pmapEnterRange_userFrame (hw : s.EnterWf p) (hpos : 1 ≤ limit.toNat)
    (hend : start.toNat + limit.toNat ≤ 0xE0000000)
    (h : pmapEnterRange fuel (.user p) start start limit (pageRw ||| pageUser) s = some (some s'))
    (hva : va < kernelBase) : s'.userFrame p va =
      if start.toNat / 0x1000 ≤ va.toNat / 0x1000 ∧ va.toNat / 0x1000 ≤ start.toNat / 0x1000 + pagesOf limit
      then some (frameOf va) else s.userFrame p va := by
  have hp : pageRw ||| pageUser < 0x1000 := by decide
  have hv : va.toNat < 0xE0000000 := hva
  have hl : limit.toNat ≤ 0xE0000000 := by omega
  have hn : start.toNat / 0x1000 + pagesOf limit ≤ 0xE0000 ∧ 0 < pagesOf limit ∧
      start.toNat + pagesOf limit * 0x1000 + 0x1000 < 2 ^ 32 := by
    unfold pagesOf
    omega
  rcases pmapEnterRange_cases hw hp hl hn.2.2 hn.1 with ⟨fuel', hnone⟩ | ⟨s₁, s₂, fuel', hw₁, hpages, he, hs₂⟩
  · cases enterRangeLoop_unique h hnone
  · cases enterRangeLoop_unique h hs₂
    obtain ⟨-, hself, hother⟩ := hw₁.enter_last (hpages.udir_ne_zero hn.2.1) hp he
    have hsame : ∀ k ≤ pagesOf limit, SamePage va (pageAfter start k) ↔
        va.toNat / 0x1000 = start.toNat / 0x1000 + k := by
      intro k hk
      rw [samePage_iff_div, toNat_pageAfter (by omega)]
      omega
    by_cases hlast : SamePage va (pageAfter start (pagesOf limit))
    · rw [if_pos, userFrame_of_entry hlast hlast hself]
      have := (hsame _ (Nat.le_refl _)).1 hlast
      omega
    · have hprev := (hother va hva hlast).userFrame_eq
      rw [(hsame _ (Nat.le_refl _))] at hlast
      rw [hprev]
      split
      · rename_i hin
        obtain ⟨k, hk⟩ : ∃ k, va.toNat / 0x1000 = start.toNat / 0x1000 + k :=
          ⟨va.toNat / 0x1000 - start.toNat / 0x1000, by omega⟩
        have hpage := (hsame k (by omega)).2 hk
        exact userFrame_of_entry hpage hpage (hpages.page k (by omega))
      · rename_i hout
        refine SameWalk.userFrame_eq (hpages.other va (fun k hk => ?_) fun x hx _ => ?_)
        · rw [hsame k (by omega)]
          omega
        · exact not_samePage_kernelAddr hw.kernelWf (by omega) hx

private theorem syscallVmMap_lowmem {vmMap : LowMem π κ → Option (Option (LowMem π κ × BitVec 32))} {s s' : LowMem π κ}
    {size ecx ptr : BitVec 32} (hecx : ecx &&& vmMapEntryLowmem ≠ 0)
    (h : syscallVmMap vmMap fuel p (some size) ecx s = some (some (s', ptr))) :
    ptr = s.start ∧ s'.privateAddr = s.start + size ∧
      pmapEnterRange fuel (.user p) s.start s.start size (pageRw ||| pageUser) s.pm = some (some s'.pm) := by
  rw [syscallVmMap, if_pos hecx] at h
  dsimp only at h
  split at h
  · cases h
  · cases h
  · rename_i pm hpm
    cases h
    exact ⟨rfl, rfl, hpm⟩

omit [DecidableEq π] in
private theorem askedFor_iff {ptr size : BitVec 32} (hend : ptr.toNat + size.toNat ≤ 0xE0000000) (hpos : 1 ≤ size.toNat)
    {f : Frame} : AskedFor ptr size f ↔
      ptr.toNat / 0x1000 ≤ f.toNat ∧ f.toNat ≤ (ptr.toNat + size.toNat - 1) / 0x1000 := by
  have hat : ∀ i < size.toNat, (frameOf (ptr + BitVec.ofNat 32 i)).toNat = (ptr.toNat + i) / 0x1000 := by
    intro i hi
    rw [toNat_frameOf, BitVec.toNat_add, BitVec.toNat_ofNat]
    omega
  constructor
  · rintro ⟨i, hi, rfl⟩
    rw [hat i hi]
    omega
  · rintro ⟨hlo, hhi⟩
    -- the first byte of the frame, or of the request
    refine ⟨f.toNat * 0x1000 - ptr.toNat, by omega, BitVec.eq_of_toNat_eq ?_⟩
    rw [hat _ (by omega)]
    omega

variable {s₁ s₂ : PmapState π κ} {size₁ size₂ next : BitVec 32} {fuel₁ fuel₂ : Nat}

private theorem requests_userFrame (hw : s.EnterWf p) (hw₁ : s₁.EnterWf p) (hpos₁ : 1 ≤ size₁.toNat)
    (hpos₂ : 1 ≤ size₂.toNat)
    (hend : next.toNat + size₂.toNat ≤ 0xE0000000) (hnext : next.toNat = start.toNat + size₁.toNat)
    (h₁ : pmapEnterRange fuel₁ (.user p) start start size₁ (pageRw ||| pageUser) s = some (some s₁))
    (h₂ : pmapEnterRange fuel₂ (.user p) next next size₂ (pageRw ||| pageUser) s₁ = some (some s₂))
    (hva : va < kernelBase) : s₂.userFrame p va =
      if start.toNat / 0x1000 ≤ va.toNat / 0x1000 ∧ (va.toNat / 0x1000 ≤ start.toNat / 0x1000 + pagesOf size₁ ∨
        va.toNat / 0x1000 ≤ next.toNat / 0x1000 + pagesOf size₂) then some (frameOf va) else s.userFrame p va := by
  rw [pmapEnterRange_userFrame hw₁ hpos₂ hend h₂ hva, pmapEnterRange_userFrame hw hpos₁ (by omega) h₁ hva, hnext]
  unfold pagesOf
  split_ifs <;> first | rfl | omega

omit [DecidableEq π] in
private theorem askedFor_or_iff (hpos₁ : 1 ≤ size₁.toNat) (hpos₂ : 1 ≤ size₂.toNat)
    (hend : next.toNat + size₂.toNat ≤ 0xE0000000) (hnext : next.toNat = start.toNat + size₁.toNat) {f : Frame} :
    AskedFor start size₁ f ∨ AskedFor next size₂ f ↔
      start.toNat / 0x1000 ≤ f.toNat ∧ f.toNat ≤ lastPage start size₁ size₂ := by
  rw [askedFor_iff (by omega) hpos₁, askedFor_iff hend hpos₂, hnext]
  unfold lastPage
  omega

private theorem toNat_ofNat_frame {n : Nat} (h : n ≤ 0xE0000) : (BitVec.ofNat 20 n).toNat = n := by
  rw [BitVec.toNat_ofNat]
  omega

/-- The last page that is entered is that of the last byte or the next one. -/
private theorem onlyAsked_iff (hw : s.EnterWf p) (hw₁ : s₁.EnterWf p) (hpos₁ : 1 ≤ size₁.toNat)
    (hpos₂ : 1 ≤ size₂.toNat) (hend : start.toNat + size₁.toNat + size₂.toNat ≤ kernelBase.toNat)
    (h₁ : pmapEnterRange fuel₁ (.user p) start start size₁ (pageRw ||| pageUser) s = some (some s₁))
    (h₂ : pmapEnterRange fuel₂ (.user p) (start + size₁) (start + size₁) size₂ (pageRw ||| pageUser) s₁ =
      some (some s₂)) : OnlyAsked s s₂ p (fun f => AskedFor start size₁ f ∨ AskedFor (start + size₁) size₂ f) ↔
      RequestsFit s p start size₁ size₂ := by
  have hbase : kernelBase.toNat = 0xE0000000 := rfl
  have hnext : (start + size₁).toNat = start.toNat + size₁.toNat := by
    rw [BitVec.toNat_add]
    omega
  have hend₂ : (start + size₁).toNat + size₂.toNat ≤ 0xE0000000 := by omega
  have hframe := fun (va : BitVec 32) (hva : va < kernelBase) =>
    requests_userFrame hw hw₁ hpos₁ hpos₂ hend₂ hnext h₁ h₂ hva
  have hpages : start.toNat / 0x1000 + pagesOf size₁ ≤ lastPage start size₁ size₂ + 1 ∧
      (start + size₁).toNat / 0x1000 + pagesOf size₂ ≤ lastPage start size₁ size₂ + 1 ∧
      start.toNat / 0x1000 ≤ lastPage start size₁ size₂ := by
    rw [hnext]
    unfold pagesOf lastPage
    omega
  unfold OnlyAsked RequestsFit
  simp only [askedFor_or_iff hpos₁ hpos₂ hend₂ hnext]
  generalize lastPage start size₁ size₂ = last at *
  constructor
  · intro h
    by_contra hno
    rw [not_or, not_or] at hno
    obtain ⟨hmore, hlow, hnew⟩ := hno
    have hf := toNat_ofNat_frame (n := last + 1) (by omega)
    have hb := toNat_base (BitVec.ofNat 20 (last + 1))
    have hva : Frame.base (BitVec.ofNat 20 (last + 1)) < kernelBase := by
      rw [BitVec.lt_def]
      omega
    have hacc : s₂.Accessible p (BitVec.ofNat 20 (last + 1)) := by
      refine ⟨_, hva, ?_⟩
      rw [hframe _ hva, if_pos (by omega), frameOf_base]
    rcases h _ hacc with hold | hin
    · exact hnew hold
    · omega
  · rintro hfit f ⟨va, hva, hf⟩
    rw [hframe va hva] at hf
    split at hf
    · rename_i hin
      cases hf
      have hfr : (frameOf va).toNat = va.toNat / 0x1000 := toNat_frameOf va
      have hlt : va.toNat < 0xE0000000 := hva
      by_cases hle : va.toNat / 0x1000 ≤ last
      · exact .inr (by omega)
      · -- the page is the one behind the requests
        rcases hfit with hin' | hkernel | hold
        · omega
        · omega
        · have : frameOf va = BitVec.ofNat 20 (last + 1) := by
            apply BitVec.eq_of_toNat_eq
            rw [hfr, toNat_ofNat_frame (by omega)]
            omega
          exact .inl (this ▸ hold)
    · exact .inl ⟨va, hva, hf⟩

end Requests

/-! ### Exact ranges -/

section Exact

variable [DecidableEq π] {s : LowMem π κ} {p : π}

/-- A range is entered exactly if the page behind it is mapped in this way before.  Two requests for low memory give no
other frames than those they are for exactly if the page behind them is not entered, or the process has its frame
before; if the page behind the first one is of the kernel, the map has to be in order still. -/
theorem pmap_enter_range_exact_iff (hw : s.pm.EnterWf p) :
    (∀ paddr vaddr limit protection, paddr.toNat % 0x1000 = 0 → vaddr.toNat % 0x1000 = 0 → 1 ≤ limit.toNat →
      paddr.toNat + limit.toNat ≤ 2 ^ 32 → vaddr.toNat + limit.toNat ≤ kernelBase.toNat → protection < 0x1000 →
      (∀ fuel, pmapEnterRange fuel (.user p) paddr vaddr limit protection s.pm ≠ some none) →
      (EntersRange s.pm p paddr vaddr limit protection ↔ RangeFits s.pm p paddr vaddr limit protection)) ∧
    ∀ vmMap fuel₁ fuel₂ size₁ size₂ ecx₁ ecx₂ s₁ s₂ ptr₁ ptr₂,
      1 ≤ size₁.toNat → 1 ≤ size₂.toNat → s.start.toNat + size₁.toNat + size₂.toNat ≤ kernelBase.toNat →
      ecx₁ &&& vmMapEntryLowmem ≠ 0 → ecx₂ &&& vmMapEntryLowmem ≠ 0 →
      syscallVmMap vmMap fuel₁ p (some size₁) ecx₁ s = some (some (s₁, ptr₁)) →
      (s.start.toNat / 0x1000 + pagesOf size₁ = 0xE0000 → s₁.pm.EnterWf p) →
      syscallVmMap vmMap fuel₂ p (some size₂) ecx₂ s₁ = some (some (s₂, ptr₂)) →
      (OnlyAsked s.pm s₂.pm p (fun f => AskedFor ptr₁ size₁ f ∨ AskedFor ptr₂ size₂ f) ↔
        RequestsFit s.pm p s.start size₁ size₂) := by
  refine ⟨fun paddr vaddr limit protection hpa hva hpos hpend hend hp hframes =>
    entersRange_iff hw hp hpa hva hpos hpend hend hframes, ?_⟩
  intro vmMap fuel₁ fuel₂ size₁ size₂ ecx₁ ecx₂ s₁ s₂ ptr₁ ptr₂ hpos₁ hpos₂ hend hecx₁ hecx₂ h₁ hlast h₂
  obtain ⟨rfl, hprivate, hrange₁⟩ := syscallVmMap_lowmem hecx₁ h₁
  obtain ⟨rfl, -, hrange₂⟩ := syscallVmMap_lowmem hecx₂ h₂
  have hstart : s₁.start = s.start + size₁ := by
    have hbase : kernelBase.toNat = 0xE0000000 := rfl
    have hsum : (s.start + size₁).toNat = s.start.toNat + size₁.toNat := by
      rw [BitVec.toNat_add]
      omega
    rw [LowMem.start, hprivate, if_neg]
    intro h0
    rw [h0, show (0 : BitVec 32).toNat = 0 from rfl] at hsum
    omega
  have hw₁ : s₁.pm.EnterWf p := by
    have hbase : kernelBase.toNat = 0xE0000000 := rfl
    have hpages : pagesOf size₁ = (size₁.toNat + 0xFFF) / 0x1000 := rfl
    by_cases hk : s.start.toNat / 0x1000 + pagesOf size₁ = 0xE0000
    · exact hlast hk
    · exact pmapEnterRange_enterWf hw (by decide) (by omega) (by omega) (by omega) hrange₁
  rw [hstart] at hrange₂ ⊢
  exact onlyAsked_iff hw hw₁ hpos₁ hpos₂ hend hrange₁ hrange₂

end Exact

private theorem twoPmaps_enterWf : twoPmaps.EnterWf false := ⟨twoPmaps_kernelWf, twoPmaps_distinct, twoPmaps_apart⟩

private theorem twoPmaps_accessible {f : Frame} (h : twoPmaps.Accessible false f) : f = 0x20 := by
  obtain ⟨va, hva, hf⟩ := h
  have hi := (addrToPdenum_lt_iff va).2 hva
  unfold PmapState.userFrame at hf
  by_cases h0 : twoPmaps.upde false (addrToPdenum va) = 0
  · rw [PmapState.walk_eq_none (.inr h0)] at hf
    cases hf
  · rcases twoPmaps_upde h0 with ⟨-, htable⟩ | ⟨hk, -⟩
    · rw [PmapState.walk_eq (by decide) rfl h0, htable, Option.bind_some] at hf
      by_cases h5 : addrToPtenum va = 5
      · rw [h5] at hf
        exact (Option.some.inj hf).symm
      · have hz : twoPmaps.mem 4 (addrToPtenum va) = 0 := by
          by_contra hne
          rcases twoPmaps_entry hne with ⟨hx, -⟩ | ⟨-, hj⟩ | ⟨hx, -⟩
          · exact absurd hx (by decide)
          · exact h5 hj
          · exact absurd hx (by decide)
        rw [hz] at hf
        cases hf
    · rw [hk] at hi
      exact absurd hi (by decide)

/-- The page behind the range is mapped to the frame behind the range before; and two requests that end on the second
page give the process two pages. -/
theorem pmap_enter_range_exact_iff_mapped : EntersRange twoPmaps false 0x1F000 0x4000 0x1000 6 ∧
    ∃ s₁ s₂, syscallVmMap (fun _ => none) 3 false (some 0x800) 0x40 ⟨twoPmaps, 0⟩ = some (some (s₁, 0x1000)) ∧
      syscallVmMap (fun _ => none) 3 false (some 0x1000) 0x40 s₁ = some (some (s₂, 0x1800)) ∧
      OnlyAsked twoPmaps s₂.pm false fun f => AskedFor 0x1000 0x800 f ∨ AskedFor 0x1800 0x1000 f := by
  have h := pmap_enter_range_exact_iff (s := ⟨twoPmaps, 0⟩) twoPmaps_enterWf
  constructor
  · have hfits : RangeFits twoPmaps false 0x1F000 0x4000 0x1000 6 := by
      unfold RangeFits
      exact (if_neg (by decide)).mpr ⟨by decide, by decide⟩
    have hs : ∃ s', pmapEnterRange 3 (.user false) 0x1F000 0x4000 0x1000 6 twoPmaps = some (some s') := ⟨_, rfl⟩
    obtain ⟨s', hs⟩ := hs
    refine (h.1 0x1F000 0x4000 0x1000 6 (by decide) (by decide) (by decide) (by decide) (by decide)
      (by decide) ?_).2 hfits
    intro fuel hnone
    cases enterRangeLoop_unique hs hnone
  · have hreq : ∃ s₁ s₂ : LowMem Bool Unit,
        syscallVmMap (fun _ => none) 3 false (some 0x800) 0x40 ⟨twoPmaps, 0⟩ = some (some (s₁, 0x1000)) ∧
        syscallVmMap (fun _ => none) 3 false (some 0x1000) 0x40 s₁ = some (some (s₂, 0x1800)) := ⟨_, _, rfl, rfl⟩
    obtain ⟨s₁, s₂, h₁, h₂⟩ := hreq
    refine ⟨s₁, s₂, h₁, h₂, ?_⟩
    refine (h.2 _ 3 3 0x800 0x1000 0x40 0x40 s₁ s₂ _ _ (by decide) (by decide) (by decide) (by decide) (by decide) h₁
      (fun hk => absurd hk (by decide)) h₂).2 (.inl ?_)
    decide

/-- The page behind the range is mapped to a table of the kernel; and two requests, for a page each, give the process
the page directory of its map, which it has not asked for. -/
theorem range_maps_next_page : twoPmaps.EnterWf false ∧
    (∃ s', pmapEnterRange 3 (.user false) 0x1000 0x1000 0x1000 6 twoPmaps = some (some s') ∧
      twoPmaps.walk (.user false) 0x2000 = some 0 ∧ s'.walk (.user false) 0x2000 = some 0x2007) ∧
    ¬ EntersRange twoPmaps false 0x1000 0x1000 0x1000 6 ∧
    ∃ s₁ s₂, syscallVmMap (fun _ => none) 3 false (some 0x1000) 0x40 ⟨twoPmaps, 0⟩ = some (some (s₁, 0x1000)) ∧
      syscallVmMap (fun _ => none) 3 false (some 0x1000) 0x40 s₁ = some (some (s₂, 0x2000)) ∧
      s₂.pm.Accessible false 3 ∧ twoPmaps.udir false = 3 ∧
      ¬ OnlyAsked twoPmaps s₂.pm false fun f => AskedFor 0x1000 0x1000 f ∨ AskedFor 0x2000 0x1000 f := by
  refine ⟨twoPmaps_enterWf, ⟨_, rfl, by decide, by decide⟩, ?_, ?_⟩
  · rintro ⟨fuel, s', hs', hpages⟩
    have hs : ∃ s', pmapEnterRange 3 (.user false) 0x1000 0x1000 0x1000 6 twoPmaps = some (some s') ∧
      s'.walk (.user false) (pageAfter 0x1000 1) = some 0x2007 := ⟨_, rfl, by decide⟩
    obtain ⟨s₁, hs₁, hwalk⟩ := hs
    cases enterRangeLoop_unique hs' hs₁
    have hsame := hpages.walk_behind twoPmaps_kernelWf (by decide)
    rw [show pagesOf 0x1000 = 1 from by decide, hwalk] at hsame
    exact absurd hsame (by unfold SameWalk; decide)
  · have hreq : ∃ s₁ s₂ : LowMem Bool Unit,
        syscallVmMap (fun _ => none) 3 false (some 0x1000) 0x40 ⟨twoPmaps, 0⟩ = some (some (s₁, 0x1000)) ∧
        syscallVmMap (fun _ => none) 3 false (some 0x1000) 0x40 s₁ = some (some (s₂, 0x2000)) ∧
        s₂.pm.userFrame false 0x3000 = some 3 := ⟨_, _, rfl, rfl, by decide +kernel⟩
    obtain ⟨s₁, s₂, h₁, h₂, hframe⟩ := hreq
    have hacc : s₂.pm.Accessible false 3 := ⟨0x3000, by decide, hframe⟩
    refine ⟨s₁, s₂, h₁, h₂, hacc, by decide, fun hall => ?_⟩
    rcases hall 3 hacc with hold | hasked | hasked
    · exact absurd (twoPmaps_accessible hold) (by decide)
    · exact absurd ((askedFor_iff (by decide) (by decide)).1 hasked) (by decide)
    · exact absurd ((askedFor_iff (by decide) (by decide)).1 hasked) (by decide)

end Manrix
