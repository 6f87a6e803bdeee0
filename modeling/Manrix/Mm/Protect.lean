import Manrix.Lib.Runs
import Manrix.Mm.ZeroFill

/-!
# Write protection

`vm_protect` makes a page read-only by the bit of its page table entry.  The fault that a later store raises looks at
the type of the entry of the address map only: for zero-fill memory it maps a new page, which can be written, in the
place of the old one, and `handle_cow` does so for a page that it finds in the object.  `data_request` maps all pages of
a block, whether they are mapped or not.

A page stays as it is if no fault maps another one in its place, and if it cannot be written through another entry:
`protected_page_kept`.
-/

namespace Manrix

open Frames Runs

variable {μ ε ω π κ : Type*}

/-- The page of `va` has the entry `e`, through a table with the directory entry `pde`; its frame has the given words,
and no map can write there. -/
structure PmapState.Protected (s : PmapState π κ) (P : π → Prop) (p : π) (va pde e : BitVec 32)
    (words : BitVec 10 → BitVec 32) : Prop where
  upde : s.upde p (addrToPdenum va) = pde
  pte : s.pte p (addrToPdenum va) (addrToPtenum va) = e
  mem : s.mem (frameOf e) = words
  not_writable : ∀ q i j, P q → i < ktableStart → s.pte q i j &&& pagePresent ≠ 0 → s.pte q i j &&& pageRw ≠ 0 →
    frameOf (s.pte q i j) ≠ frameOf e

section Protected

variable {s s' : PmapState π κ} {P : π → Prop} {p p' : π} {va pde e : BitVec 32} {words : BitVec 10 → BitVec 32}
  {D : BitVec 10 → BitVec 10 → Prop} {F : Frame → Prop}

private theorem upde_ne_zero_of_pte {i j : BitVec 10} (h : s.pte p i j &&& pagePresent ≠ 0) : s.upde p i ≠ 0 := by
  intro h0
  refine h ?_
  rw [PmapState.pte, if_pos h0]
  rfl

theorem PmapState.Protected.acts (h : s.Protected P p va pde e words) (hs : s.SpaceWf P) (hp : P p)
    (hv : va < kernelBase) (he : e &&& pagePresent ≠ 0) (ha : Acts s s' P p' D F) (hF : ¬ F (frameOf e))
    (hD : ¬ (p = p' ∧ D (addrToPdenum va) (addrToPtenum va))) (hnew : ∀ q i j, P q → i < ktableStart →
      s'.pte q i j = s.pte q i j ∨ frameOf (s'.pte q i j) ∈ s.freePageList) : s'.Protected P p va pde e words := by
  have hi := (addrToPdenum_lt_iff va).2 hv
  have hpres : s.pte p (addrToPdenum va) (addrToPtenum va) &&& pagePresent ≠ 0 := by rwa [h.pte]
  have hdata := hs.data p _ _ hp hi hpres
  rw [h.pte] at hdata
  refine ⟨?_, ?_, ?_, ?_⟩
  · rw [ha.upde p _ hp (.inr (upde_ne_zero_of_pte hpres)), h.upde]
  · rw [ha.pte p _ _ hp hi hD, h.pte]
  · rw [ha.mem _ hdata hF, h.mem]
  · intro q i j hq hi' hpres' hrw
    rcases hnew q i j hq hi' with hsame | hfree
    · rw [hsame] at hpres' hrw ⊢
      exact h.not_writable q i j hq hi' hpres' hrw
    · exact fun hx => hdata.not_free (hx ▸ hfree)

end Protected

private theorem protectEntry_read (e : BitVec 32) : protectEntry vmPageRead e = e &&& ~~~pageRw := by
  have h1 : vmPageRead &&& vmPageRead ≠ 0 ∨ vmPageRead &&& vmPageExec ≠ 0 := by decide
  have h2 : ¬ vmPageRead &&& vmPageWrite ≠ 0 := by decide
  simp only [protectEntry]
  rw [if_neg h2, if_pos h1]

private theorem protectEntry_read_rw (e : BitVec 32) : protectEntry vmPageRead e &&& pageRw = 0 := by
  have h : ~~~pageRw &&& pageRw = 0 := by decide
  rw [protectEntry_read, BitVec.and_assoc, h]
  exact BitVec.and_zero

section Run

variable [DecidableEq μ] [DecidableEq ε] [DecidableEq ω] [DecidableEq π] {s s₁ s₂ s' : Machine μ ε ω π κ}
  {P : π → Prop} {p : π} {m : μ} {va pde e : BitVec 32} {words : BitVec 10 → BitVec 32} {fuel : Nat} {new new' : ε}

/-- A store by a process with one of the maps `P`, or the fault that it raises. -/
def StoreStep (P : π → Prop) (s : Machine μ ε ω π κ) (c : StoreCall μ ω) (s' : Machine μ ε ω π κ) : Prop :=
  P (s.pmap c.m) ∧ userStore s c = some s'

/-- A fault raised by the store maps no page in the place of the page of `va` in the map `p`. -/
def KeepsPage (p : π) (va : BitVec 32) (x : Machine μ ε ω π κ × StoreCall μ ω × Machine μ ε ω π κ) : Prop :=
  StoreOk x.1 x.2.1 fun a => ¬ (x.1.pmap x.2.1.m = p ∧ SamePage a va)

theorem StoreStep.protected {c : StoreCall μ ω} (hst : StoreStep P s c s') (hok : KeepsPage p va (s, c, s'))
    (hs : s.pm.SpaceWf P) (hp : P p) (hv : va < kernelBase) (he : e &&& pagePresent ≠ 0)
    (h : s.pm.Protected P p va pde e words) : s'.pm.SpaceWf P ∧ s'.pm.Protected P p va pde e words := by
  obtain ⟨hq, hstore⟩ := hst
  have hD : ¬ (p = s.pmap c.m ∧ OnPages (fun a => ¬ (s.pmap c.m = p ∧ SamePage a va)) (addrToPdenum va)
      (addrToPtenum va)) := by
    rintro ⟨rfl, a, ha, hi, hj⟩
    exact ha ⟨rfl, hi.symm, hj.symm⟩
  obtain ⟨-, hcase⟩ := userStore_cases hs hq hok hstore
  rcases hcase with ⟨x, hx, hw⟩ | hserves
  · -- the frame can be written, so it is not the one of the page
    refine ⟨hw.wf, h.acts hs hp hv he hw.acts ?_ hD fun q i j hq hi => .inl (hw.pte q i j hq hi)⟩
    obtain ⟨hva, hbits, rfl⟩ := translate_some hx
    intro hx'
    exact h.not_writable _ _ _ hq ((addrToPdenum_lt_iff c.va).2 hva) (accessBits_present hbits) (accessBits_rw hbits)
      hx'.symm
  · exact ⟨hserves.wf, h.acts hs hp hv he hserves.toActs id hD
      fun q i j hq hi => (hserves.pte_cases hq hi).imp_right And.right⟩

private theorem run_protected {tr : List (Machine μ ε ω π κ × StoreCall μ ω × Machine μ ε ω π κ)}
    (hr : Run (StoreStep P) s tr s') (hok : ∀ x ∈ tr, KeepsPage p va x) (hs : s.pm.SpaceWf P) (hp : P p)
    (hv : va < kernelBase) (he : e &&& pagePresent ≠ 0) (h : s.pm.Protected P p va pde e words) :
    s'.pm.Protected P p va pde e words :=
  (hr.inv_of_guard (fun t => t.pm.SpaceWf P ∧ t.pm.Protected P p va pde e words) (KeepsPage p va) ⟨hs, h⟩
    (fun _ _ _ ht hg hst => hst.protected hg ht.1 hp hv he ht.2) hok).2

omit [DecidableEq π] in
private theorem vmProtect_some (h : vmProtect s fuel m new new' va 0x1000 vmPageRead = some (s₁, 0)) :
    pmapProtect s.pm fuel (.user (s.pmap m)) va (va + 0x1000) vmPageRead = some s₁.pm ∧ s₁.pmap = s.pmap := by
  unfold vmProtect at h
  split at h
  · cases h
  · exact absurd (Prod.mk.inj (Option.some.inj h)).2 (by decide)
  · split at h
    · cases h
    · exact absurd (Prod.mk.inj (Option.some.inj h)).2 (by decide)
    · split at h
      · cases h
      · obtain ⟨pm, hpm, hr⟩ := Option.map_eq_some_iff.1 h
        cases hr
        exact ⟨hpm, rfl⟩

private theorem vmProtect_protected (hs : s.pm.SpaceWf P) (hp : P (s.pmap m)) (hv : va < kernelBase)
    (hres : s.pm.pte (s.pmap m) (addrToPdenum va) (addrToPtenum va) &&& pagePresent ≠ 0)
    (halias : ∀ q i j, P q → i < ktableStart → ¬ (q = s.pmap m ∧ OnPage va i j) → s.pm.pte q i j &&& pagePresent ≠ 0 →
      s.pm.pte q i j &&& pageRw ≠ 0 →
      frameOf (s.pm.pte q i j) ≠ frameOf (s.pm.pte (s.pmap m) (addrToPdenum va) (addrToPtenum va)))
    (h : vmProtect s fuel m new new' va 0x1000 vmPageRead = some (s₁, 0)) :
    s₁.pm.SpaceWf P ∧ s₁.pm.Protected P (s.pmap m) va (s.pm.upde (s.pmap m) (addrToPdenum va))
      (protectEntry vmPageRead (s.pm.pte (s.pmap m) (addrToPdenum va) (addrToPtenum va)))
      (s.mem (frameOf (s.pm.pte (s.pmap m) (addrToPdenum va) (addrToPtenum va)))) := by
  have hpm := (vmProtect_some h).1
  have hi := (addrToPdenum_lt_iff va).2 hv
  have h0 := upde_ne_zero_of_pte hres
  obtain ⟨ha, hpte⟩ := pmapProtect_acts (F := fun _ => False) hs hp hv h0 hpm
  refine ⟨ha.wf, ha.upde _ _ hp (.inr h0), hpte, ?_, ?_⟩
  · rw [frameOf_protectEntry]
    exact ha.mem _ (hs.data _ _ _ hp hi hres) id
  · intro q i j hq hi' hpres hrw
    by_cases hpage : q = s.pmap m ∧ OnPage va i j
    · obtain ⟨rfl, rfl, rfl⟩ := hpage
      rw [hpte] at hrw
      exact absurd (protectEntry_read_rw _) hrw
    · rw [ha.pte q i j hq hi' hpage] at hpres hrw ⊢
      rw [frameOf_protectEntry]
      exact halias q i j hq hi' hpage hpres hrw

theorem protected_page_kept {tr : List (Machine μ ε ω π κ × StoreCall μ ω × Machine μ ε ω π κ)}
    (hs : s.pm.SpaceWf P) (hp : P (s.pmap m)) (hv : va < kernelBase) (hres : s.pm.Resident (s.pmap m) va)
    (halias : ∀ q i j, P q → i < ktableStart → ¬ (q = s.pmap m ∧ OnPage va i j) → s.pm.pte q i j &&& pagePresent ≠ 0 →
      s.pm.pte q i j &&& pageRw ≠ 0 →
      frameOf (s.pm.pte q i j) ≠ frameOf (s.pm.pte (s.pmap m) (addrToPdenum va) (addrToPtenum va)))
    (h : vmProtect s fuel m new new' va 0x1000 vmPageRead = some (s₁, 0))
    (hr : Run (StoreStep P) s₁ tr s₂) (hok : ∀ x ∈ tr, KeepsPage (s.pmap m) va x) : s₂.pm.Resident (s.pmap m) va ∧
      frameOf (s₂.pm.pte (s.pmap m) (addrToPdenum va) (addrToPtenum va)) =
        frameOf (s.pm.pte (s.pmap m) (addrToPdenum va) (addrToPtenum va)) ∧
      s₂.pm.pte (s.pmap m) (addrToPdenum va) (addrToPtenum va) &&& pageRw = 0 ∧
      s₂.mem (frameOf (s.pm.pte (s.pmap m) (addrToPdenum va) (addrToPtenum va))) =
        s.mem (frameOf (s.pm.pte (s.pmap m) (addrToPdenum va) (addrToPtenum va))) := by
  simp only [PmapState.Resident, Bool.and_eq_true, decide_eq_true_eq] at hres
  have he : protectEntry vmPageRead (s.pm.pte (s.pmap m) (addrToPdenum va) (addrToPtenum va)) &&& pagePresent ≠ 0 := by
    rw [protectEntry_present]
    exact hres.2
  obtain ⟨hs₁, h₁⟩ := vmProtect_protected hs hp hv hres.2 halias h
  have h₂ := run_protected hr hok hs₁ hp hv he h₁
  refine ⟨?_, ?_, ?_, ?_⟩
  · simp only [PmapState.Resident, Bool.and_eq_true, decide_eq_true_eq]
    rw [h₂.upde, h₂.pte]
    exact ⟨hres.1, he⟩
  · rw [h₂.pte, frameOf_protectEntry]
  · rw [h₂.pte]
    exact protectEntry_read_rw _
  · rw [← h₂.mem, frameOf_protectEntry]
    rfl

end Run

def storeToPage : StoreCall Bool Bool := ⟨false, 0x5000, 0x41, 8, ⟨true, none⟩, fun _ _ => 0⟩

/-- In anonymous memory, which is not zero-fill memory, the store raises a signal. -/
theorem protected_page_kept_anon : ∃ s₁ s₂, vmProtect (oneProcess 8) 8 false 1 2 0x5000 0x1000 vmPageRead =
    some (s₁, 0) ∧
    userStore s₁ storeToPage = some s₂ ∧ s₂.pm.pte false 0 5 &&& pageRw = 0 ∧ frameOf (s₂.pm.pte false 0 5) = 0x20 := by
  have hev : (vmProtect (oneProcess 8) 8 false 1 2 0x5000 0x1000 vmPageRead).map (fun r => (r.2,
      (vmMapLookupEntry (r.1.vm false) 8 0x5000).map Prod.snd, (r.1.entry 0).type,
      (userStore r.1 storeToPage).isSome)) =
      some (0, some (some 0), 8, true) := by
    decide +kernel
  obtain ⟨⟨s₁, r⟩, hs₁, hr⟩ := Option.map_eq_some_iff.1 hev
  simp only [Prod.mk.injEq] at hr
  obtain ⟨rfl, hlook, htype, hsome⟩ := hr
  obtain ⟨s₂, hs₂⟩ := Option.isSome_iff_exists.1 hsome
  have hpmap : s₁.pmap = id := (vmProtect_some hs₁).2
  have hres : (oneProcess 8).pm.Resident ((oneProcess 8).pmap false) 0x5000 := by decide
  have hok : ∀ x ∈ [(s₁, storeToPage, s₂)], KeepsPage false 0x5000 x := by
    intro x hx
    rw [List.mem_singleton.1 hx]
    intro _ vm entry hl
    have hl' : (vmMapLookupEntry (s₁.vm false) 8 0x5000).map Prod.snd = some (some entry) :=
      Option.map_eq_some_iff.2 ⟨_, hl, rfl⟩
    cases hl'.symm.trans hlook
    refine ⟨fun hz => absurd hz ?_, fun _ ha => absurd ha ?_, fun _ ha => absurd ha ?_⟩ <;>
    · rw [htype]
      decide
  obtain ⟨-, hframe, hrw, -⟩ := protected_page_kept (P := (· = false)) (s := oneProcess 8) (m := false)
    twoPmaps_spaceWf rfl (by decide) hres
    (by rintro q i j rfl hi hij hpres; exact absurd ⟨rfl, twoPmaps_pte hi hpres⟩ hij) hs₁
    (.snoc .nil ⟨by rw [hpmap]; rfl, hs₂⟩) hok
  exact ⟨s₁, s₂, hs₁, hs₂, hrw, hframe.trans (by decide)⟩

/-- In zero-fill memory it maps another page there, which can be written. -/
theorem protected_page_replaced : ∃ s₁ s₂,
    vmProtect (oneProcess 1) 8 false 1 2 0x5000 0x1000 vmPageRead = some (s₁, 0) ∧ userStore s₁ storeToPage = some s₂ ∧
    s₁.pm.pte false 0 5 = 0x20005 ∧ s₂.pm.pte false 0 5 = 0x10007 := by
  have hev : ((vmProtect (oneProcess 1) 8 false 1 2 0x5000 0x1000 vmPageRead).bind fun r =>
      (userStore r.1 storeToPage).map fun s => (r.2, r.1.pm.pte false 0 5, s.pm.pte false 0 5)) =
      some (0, 0x20005, 0x10007) := by
    decide +kernel
  obtain ⟨⟨s₁, r⟩, hs₁, hev⟩ := Option.bind_eq_some_iff.1 hev
  obtain ⟨s₂, hs₂, hev⟩ := Option.map_eq_some_iff.1 hev
  simp only [Prod.mk.injEq] at hev
  obtain ⟨rfl, h₁, h₂⟩ := hev
  exact ⟨s₁, s₂, hs₁, hs₂, h₁, h₂⟩

end Manrix
