import Manrix.Mm.PageFinds
import Manrix.Mm.Protect

/-!
# Fork

`vm_map_fork` copies the entries of the address map and the page map of the parent.  The call of `pmap_cow`, which would
take the permission to write away from the pages of the parent, is commented out in `vm_entry_copy`; so parent and child
share the pages that the parent can write, and both can write them.

If the parent has no such pages, the two are isolated: later stores, and the faults that they raise, change nothing that
the other one reads (`fork_isolation`).
-/

namespace Manrix

open Chain Frames Function Runs

variable {μ ε ω π κ : Type*}

/-- The address is mapped, and can be written. -/
def PmapState.WritableAt (s : PmapState π κ) (p : π) (va : BitVec 32) : Prop :=
  s.pte p (addrToPdenum va) (addrToPtenum va) &&& pagePresent ≠ 0 ∧
    s.pte p (addrToPdenum va) (addrToPtenum va) &&& pageRw ≠ 0

/-- Both maps have the same frame at the address, and can write it. -/
def PmapState.SharedWritable (s : PmapState π κ) (p q : π) (va : BitVec 32) : Prop :=
  s.WritableAt p va ∧ s.WritableAt q va ∧ frameOf (s.pte p (addrToPdenum va) (addrToPtenum va)) =
    frameOf (s.pte q (addrToPdenum va) (addrToPtenum va))

/-- What `p` can write is not mapped by `q`. -/
def PmapState.Isolated (s : PmapState π κ) (p q : π) : Prop :=
  ∀ i j k l, i < ktableStart → k < ktableStart → s.pte p i j &&& pagePresent ≠ 0 → s.pte p i j &&& pageRw ≠ 0 →
    s.pte q k l &&& pagePresent ≠ 0 → frameOf (s.pte p i j) ≠ frameOf (s.pte q k l)

section Pages

variable {s s' : PmapState π κ} {P : π → Prop} {p q a : π} {D : BitVec 10 → BitVec 10 → Prop}

private theorem exists_addr (i j : BitVec 10) : ∃ va, addrToPdenum va = i ∧ addrToPtenum va = j := by
  have hi := i.isLt
  have hj := j.isLt
  refine ⟨BitVec.ofNat 32 (i.toNat * 2 ^ 22 + j.toNat * 2 ^ 12), ?_, ?_⟩
  · apply BitVec.eq_of_toNat_eq
    rw [toNat_addrToPdenum, BitVec.toNat_ofNat]
    omega
  · apply BitVec.eq_of_toNat_eq
    rw [toNat_addrToPtenum, BitVec.toNat_ofNat]
    omega

private theorem isolated_of_not_writable (h : ∀ va, va < kernelBase → ¬ s.WritableAt p va) : s.Isolated p q := by
  intro i j k l hi _ hpres hrw
  obtain ⟨va, rfl, rfl⟩ := exists_addr i j
  exact absurd ⟨hpres, hrw⟩ (h va ((addrToPdenum_lt_iff va).1 hi))

theorem PmapState.Isolated.serves (h : s.Isolated p q) (hs : s.SpaceWf P) (hp : P p) (hq : P q) (hpq : p ≠ q)
    (hserves : Serves s s' P a D) : s'.Isolated p q := by
  intro i j k l hi hk hpres hrw hpres'
  rcases hserves.pte_cases (j := j) hp hi with hsame | ⟨hpa, hfree⟩
  · rcases hserves.pte_cases (j := l) hq hk with hsame' | ⟨-, hfree'⟩
    · rw [hsame] at hpres hrw ⊢
      rw [hsame'] at hpres' ⊢
      exact h i j k l hi hk hpres hrw hpres'
    · rw [hsame] at hpres ⊢
      exact fun hx => (hs.data p i j hp hi hpres).not_free (hx ▸ hfree')
  · rcases hserves.pte_cases (j := l) hq hk with hsame' | ⟨hqa, -⟩
    · rw [hsame'] at hpres' ⊢
      exact fun hx => (hs.data q k l hq hk hpres').not_free (hx ▸ hfree)
    · exact absurd (hpa.trans hqa.symm) hpq

theorem PmapState.Isolated.congr (h : s.Isolated p q) (hp : P p) (hq : P q)
    (hpte : ∀ q i j, P q → i < ktableStart → s'.pte q i j = s.pte q i j) : s'.Isolated p q := by
  intro i j k l hi hk
  rw [hpte p i j hp hi, hpte q k l hq hk]
  exact h i j k l hi hk

theorem PmapState.Isolated.ne {x y : Frame} {va va' : BitVec 32} (h : s.Isolated p q)
    (hx : s.translate p true va = some x) (hy : s.translate q false va' = some y) : y ≠ x := by
  obtain ⟨hv, hbits, rfl⟩ := translate_some hx
  obtain ⟨hv', hbits', rfl⟩ := translate_some hy
  exact (h _ _ _ _ ((addrToPdenum_lt_iff va).2 hv) ((addrToPdenum_lt_iff va').2 hv') (accessBits_present hbits)
    (accessBits_rw hbits) (accessBits_present hbits')).symm

end Pages

section Stores

variable [DecidableEq μ] [DecidableEq ε] [DecidableEq ω] [DecidableEq π] {s s' : Machine μ ε ω π κ} {P : π → Prop}
  {p q : π} {c : StoreCall μ ω}

/-- The two maps are isolated from each other. -/
structure Separated (s : Machine μ ε ω π κ) (P : π → Prop) (p q : π) : Prop where
  wf : s.pm.SpaceWf P
  left : s.pm.Isolated p q
  right : s.pm.Isolated q p

theorem Separated.userStore (h : Separated s P p q) (hp : P p) (hq : P q) (hpq : p ≠ q) (hc : P (s.pmap c.m))
    (hok : StoreOk s c fun _ => True) (hst : userStore s c = some s') : Separated s' P p q := by
  obtain ⟨-, ⟨x, -, hw⟩ | hserves⟩ := userStore_cases h.wf hc hok hst
  · exact ⟨hw.wf, h.left.congr hp hq hw.pte, h.right.congr hq hp hw.pte⟩
  · exact ⟨hserves.wf, h.left.serves h.wf hp hq hpq hserves, h.right.serves h.wf hq hp hpq.symm hserves⟩

private theorem userStore_reads (hs : s.pm.SpaceWf P) (hq : P q) (hqc : q ≠ s.pmap c.m) (hc : P (s.pmap c.m))
    (hok : StoreOk s c fun _ => True) (hst : userStore s c = some s')
    (h : s.pm.Isolated (s.pmap c.m) q) (va : BitVec 32) : s'.pm.userByte q va = s.pm.userByte q va := by
  obtain ⟨-, ⟨x, hx, hw⟩ | hserves⟩ := userStore_cases hs hc hok hst
  · exact hw.userByte hs hq fun y hy => h.ne hx hy
  · exact hserves.toActs.userByte hs hq (fun h => hqc h.1) fun _ _ h => h

private theorem run_reads {tr : List (Machine μ ε ω π κ × StoreCall μ ω × Machine μ ε ω π κ)}
    (hr : Run (StoreStep fun r => r = p ∨ r = q) s tr s') (hok : ∀ x ∈ tr, StoreOk x.1 x.2.1 fun _ => True)
    (h : Separated s P p q) (hp : P p) (hq : P q) (hpq : p ≠ q) :
    ∀ x ∈ tr, ∀ r, r = p ∨ r = q → r ≠ x.1.pmap x.2.1.m → ∀ va, x.2.2.pm.userByte r va = x.1.pm.userByte r va := by
  have hmem : ∀ r, r = p ∨ r = q → P r := by
    rintro r (rfl | rfl)
    · exact hp
    · exact hq
  refine hr.forall_of_guard (fun t => Separated t P p q) (fun x => StoreOk x.1 x.2.1 fun _ => True) _ h ?_ hok
  intro t c t' ht hg hst
  refine ⟨ht.userStore hp hq hpq (hmem _ hst.1) hg hst.2, fun r hr hrc va => ?_⟩
  refine userStore_reads ht.wf (hmem r hr) hrc (hmem _ hst.1) hg hst.2 ?_ va
  rcases hst.1 with hc | hc <;> rcases hr with rfl | rfl
  · exact absurd hc.symm hrc
  · rw [hc]
    exact ht.left
  · rw [hc]
    exact ht.right
  · exact absurd hc.symm hrc

end Stores

section Fork

variable [DecidableEq π] {s s' : PmapState π κ} {P : π → Prop} {p child : π}

private theorem pmapCopy_pte (hs : s.SpaceWf P) (hp : P p) (hc : ¬ P child) (h : pmapCopy child p s = some s') :
    s'.SpaceWf (fun q => q = child ∨ P q) ∧ (∀ q i j, P q → i < ktableStart → s'.pte q i j = s.pte q i j) ∧
      ∀ i j, i < ktableStart → s'.pte child i j = s.pte p i j := by
  obtain ⟨hnew, htable, -⟩ := pmapCopy_ok hs.kernelWf hs.userWf hp hc h
  have hpte : ∀ q i j, P q → i < ktableStart → s'.pte q i j = s.pte q i j := by
    intro q i j hq hi
    rw [pte_eq_table, pte_eq_table, (hnew.other q i hq hi).2]
  have hchild : ∀ i j, i < ktableStart → s'.pte child i j = s.pte p i j := by
    intro i j hi
    rw [pte_eq_table, pte_eq_table, htable i hi]
  refine ⟨⟨hnew.kernelWf, hnew.userWf, ?_, ?_⟩, hpte, hchild⟩
  · rintro q (rfl | hq)
    · exact fun i hi => .inr (hnew.self i hi)
    · exact hnew.kernelHalf q hq (hs.kernelHalf q hq)
  · rintro q i j (rfl | hq) hi hpres
    · rw [hchild i j hi] at hpres ⊢
      exact hnew.data _ (hs.data p i j hp hi hpres)
    · rw [hpte q i j hq hi] at hpres ⊢
      exact hnew.data _ (hs.data q i j hq hi hpres)

end Fork

section Isolation

variable [DecidableEq μ] [DecidableEq ε] [DecidableEq ω] [DecidableEq π] {s s' : Machine μ ε ω π κ} {P : π → Prop}
  {m new : μ} {child : π} {fuel : Nat} {news : List ε}

private theorem vmMapFork_eq (h : vmMapFork s fuel news new m child = some s') :
    ∃ vm pm, vmEntryCopy { s.toVmState with
        maps := update s.maps new ⟨none, 0x200000, kernelBase - 1, none⟩ } fuel news new m = some vm ∧
      pmapCopy child (s.pmap m) s.pm = some pm ∧
      s' = { ({ s with toVmState := vm } : Machine μ ε ω π κ).setPm pm with pmap := update s.pmap new child } := by
  unfold vmMapFork at h
  dsimp only at h
  split at h
  · cases h
  · rename_i vm hvm
    obtain ⟨hpages, hfree⟩ := vmEntryCopy_pages hvm
    obtain ⟨pm, hpm, rfl⟩ := Option.map_eq_some_iff.1 h
    have hpm' : Machine.pm { s with toVmState := vm } = s.pm := by
      unfold Machine.pm
      rw [hpages, hfree]
    rw [hpm'] at hpm
    exact ⟨vm, pm, hvm, hpm, rfl⟩

private theorem vmMapFork_some (h : vmMapFork s fuel news new m child = some s') :
    pmapCopy child (s.pmap m) s.pm = some s'.pm ∧ s'.pmap = update s.pmap new child := by
  obtain ⟨vm, pm, -, hpm, rfl⟩ := vmMapFork_eq h
  exact ⟨hpm, rfl⟩

private theorem vmMapFork_isSome (hvm : (vmEntryCopy { s.toVmState with
      maps := update s.maps new ⟨none, 0x200000, kernelBase - 1, none⟩ } fuel news new m).isSome)
    (hpm : (pmapCopy child (s.pmap m) s.pm).isSome) : (vmMapFork s fuel news new m child).isSome := by
  obtain ⟨vm, hvm⟩ := Option.isSome_iff_exists.1 hvm
  obtain ⟨hpages, hfree⟩ := vmEntryCopy_pages hvm
  have hpm' : Machine.pm { s with toVmState := vm } = s.pm := by
    unfold Machine.pm
    rw [hpages, hfree]
  simp only [vmMapFork, hvm, hpm', Option.isSome_map]
  exact hpm

theorem fork_isolation (hs : s.pm.SpaceWf P) (hp : P (s.pmap m)) (hc : ¬ P child)
    (h : vmMapFork s fuel news new m child = some s') :
    ((∀ va, va < kernelBase → ¬ s'.pm.SharedWritable (s.pmap m) child va) ↔
      ∀ va, va < kernelBase → ¬ s.pm.WritableAt (s.pmap m) va) ∧
    ((∀ va, va < kernelBase → ¬ s.pm.WritableAt (s.pmap m) va) →
      ∀ tr s'', Run (StoreStep fun q => q = s.pmap m ∨ q = child) s' tr s'' →
        (∀ x ∈ tr, StoreOk x.1 x.2.1 fun _ => True) → ∀ x ∈ tr, ∀ q, q = s.pmap m ∨ q = child → q ≠ x.1.pmap x.2.1.m →
          ∀ va, x.2.2.pm.userByte q va = x.1.pm.userByte q va) := by
  have hne : s.pmap m ≠ child := fun h => hc (h ▸ hp)
  obtain ⟨hwf, hold, hchild⟩ := pmapCopy_pte hs hp hc (vmMapFork_some h).1
  constructor
  · refine forall_congr' fun va => forall_congr' fun hv => not_congr ?_
    have hi := (addrToPdenum_lt_iff va).2 hv
    unfold PmapState.SharedWritable PmapState.WritableAt
    rw [hold _ _ _ hp hi, hchild _ _ hi]
    exact ⟨fun h => h.1, fun h => ⟨h, h, rfl⟩⟩
  · intro hro tr s'' hr hok
    have hro' : ∀ q, q = s.pmap m ∨ q = child → ∀ va, va < kernelBase → ¬ s'.pm.WritableAt q va := by
      rintro q hq va hv
      have hi := (addrToPdenum_lt_iff va).2 hv
      unfold PmapState.WritableAt
      rcases hq with rfl | rfl
      · rw [hold _ _ _ hp hi]
        exact hro va hv
      · rw [hchild _ _ hi]
        exact hro va hv
    have h₀ : Separated s' (fun q => q = child ∨ P q) (s.pmap m) child :=
      ⟨hwf, isolated_of_not_writable (hro' _ (.inl rfl)), isolated_of_not_writable (hro' _ (.inr rfl))⟩
    exact run_reads hr hok h₀ (.inr hp) (.inl rfl) hne

end Isolation

section Copies

variable [DecidableEq μ] [DecidableEq ε] [DecidableEq ω] [DecidableEq π] {s : Machine μ ε ω π κ} {P : π → Prop}
  {m : μ} {page : Frame} {va : BitVec 32}

omit [DecidableEq μ] [DecidableEq ε] in
private theorem copyPage_isSome (hs : s.pm.SpaceWf P) (hp : P (s.pmap m)) (hv : va < kernelBase)
    (h0 : s.pm.upde (s.pmap m) (addrToPdenum va) ≠ 0) (hok : CowOk s.pm (s.pmap m) page) (hfree : s.freePageList ≠ [])
    (fuel : Nat) (shadow : ω) : (copyPage s (fuel + 1) m shadow page va).isSome := by
  obtain ⟨x, rest, hx⟩ := List.exists_cons_of_ne_nil hfree
  obtain ⟨s₁, ha⟩ : ∃ s₁, pageAlloc s shadow va = some (s₁, x) := by
    unfold pageAlloc
    rw [hx]
    exact ⟨_, rfl⟩
  obtain ⟨_, _, -, hpm, hmap⟩ := pageAlloc_some ha
  have hwalk : (s₁.pm.walk (.user (s₁.pmap m)) va).isSome := by
    rw [hpm, hmap]
    exact congrArg Option.isSome (PmapState.walk_eq (hs.userWf.dir_ne_zero _ hp) rfl h0)
  obtain ⟨pm₂, he⟩ : ∃ pm₂, pmapEnter (.user (s₁.pmap m)) x.base va (pageRw ||| pageUser) s₁.pm = some pm₂ :=
    Option.isSome_iff_exists.1 (pmapEnter_isSome hwalk)
  have hn := pageAlloc_enter hs hp hv (by decide) ha he
  have hok₂ : CowOk pm₂ (s.pmap m) page := hok.keep hp fun q i hq h0 => hn.upde q i hq (.inr h0)
  have hwalk₂ : (pm₂.walk (.user (s₁.pmap m)) page.kernelAddr).isSome := by
    rw [hmap, PmapState.walk_eq (hn.wf.userWf.dir_ne_zero _ hp) rfl hok₂.table]
    rfl
  obtain ⟨pm₃, hk⟩ : ∃ pm₃, pmapEnter (.user (s₁.pmap m)) page.base page.kernelAddr (pageRw ||| pageUser) pm₂ =
      some pm₃ := Option.isSome_iff_exists.1 (pmapEnter_isSome hwalk₂)
  simp only [copyPage, ha, he, hk, Option.isSome_map, pmapRemove]
  split
  · rfl
  · rw [Option.isSome_map, base_add_kernelBase, pageLoop_page_succ]
    rfl

/-- The store is to a page of the object `object`, which others have too, and which the map can only read. -/
structure SharedPage (s : Machine μ ε ω π κ) (c : StoreCall μ ω) (entry : ε) (object new : ω) (page : Frame) :
    Prop where
  lookup : vmMapLookupEntry (s.vm c.m) c.fuel c.va = some ((s.vm c.m).setHint (some entry), some entry)
  type : (s.entry entry).type = 0
  entry_object : (s.entry entry).object = some object
  found : vmPageLookup s.pages c.fuel (s.objectAddr object) (addrToPte c.va) = some (.result (some page))
  shared : s.refCount object ≠ 1
  no_shadow : s.objectAttribute object &&& objectShadow = 0
  resident : s.pm.Resident (s.pmap c.m) c.va = true
  store : s.pm.store (s.pmap c.m) c.va c.byte = none
  new_object : c.new = ⟨new, none⟩

variable {c : StoreCall μ ω} {entry : ε} {object new : ω}

omit [DecidableEq μ] [DecidableEq ω] [DecidableEq π] in
theorem SharedPage.storeOk (h : SharedPage s c entry object new page) (hcow : CowOk s.pm (s.pmap c.m) page) :
    StoreOk s c fun _ => True := by
  intro _ vm entry' hl
  cases (Prod.mk.inj (Option.some.inj (hl.symm.trans h.lookup))).2
  refine ⟨fun _ => trivial, fun _ _ hno => absurd h.resident hno, fun _ _ _ object' page' ho hp => ⟨trivial, ?_⟩⟩
  cases ho.symm.trans h.entry_object
  cases hp.symm.trans h.found
  exact hcow

/-- Such a store gives the map a copy of the page. -/
theorem SharedPage.copies {n : Nat} (h : SharedPage s c entry object new page) (hs : s.pm.SpaceWf P)
    (hp : P (s.pmap c.m)) (hv : c.va < kernelBase) (hva : addrToPte c.va = c.va)
    (h0 : s.pm.upde (s.pmap c.m) (addrToPdenum c.va) ≠ 0) (hcow : CowOk s.pm (s.pmap c.m) page)
    (hfree : s.freePageList ≠ []) (hfuel : c.fuel = n + 1) : ∃ s', userStore s c = some s' ∧
      frameOf (s'.pm.pte (s.pmap c.m) (addrToPdenum c.va) (addrToPtenum c.va)) ∈ s.freePageList := by
  -- the copy is made in a state with the shadow object
  let s₁ := s.setVm c.m ((s.vm c.m).setHint (some entry))
  let s₂ : Machine μ ε ω π κ := { s₁ with toVmState := vmObjectCreate s₁.toVmState new }
  obtain ⟨s', hs'⟩ := Option.isSome_iff_exists.1 (copyPage_isSome (s := s₂) hs hp hv h0 hcow hfree n new)
  have hshared : handleCow s₁ c.fuel c.m entry ⟨new, none⟩ c.va = some (s', 0) := by
    rw [handleCow_shared (s := s₁) h.entry_object h.found h.shared h.no_shadow, hva, hfuel]
    exact congrArg (Option.map (·, 0)) hs'
  refine ⟨s', ?_, (copyPage_acts (s := s₂) hs hp hv hcow hs').2.1⟩
  rw [userStore_fault h.store hv, h.resident, doPageFault_cow h.lookup h.type (by decide) (by decide), h.new_object,
    hshared]
  rfl

omit [DecidableEq μ] [DecidableEq ω] [DecidableEq π] in
private theorem vmMapLookupEntry_first {vm : Vm ε ω} {v : ε} (hv : vm.map.vmentry = some v) (hh : vm.map.hint = none)
    (hw : (vm.entry v).within va = true) (n : Nat) :
    vmMapLookupEntry vm (n + 1) va = some (vm.setHint (some v), some v) := by
  simp [vmMapLookupEntry, hv, hh, Links.circleLoop, lookupBody, hw]

end Copies

/-- The process after its page was made read-only.  The page is one of its object. -/
def readOnlyProcess : Machine Bool (Fin 4) Bool Bool Unit :=
  (oneProcess 0).setPm { twoPmaps with
    mem := setWord twoPmaps.mem 4 5 0x20005, pages := vmPageInsert twoPmaps.pages 0x20 0x100000 0x5000 }

private theorem readOnlyProcess_acts :
    Acts twoPmaps readOnlyProcess.pm (· = false) false (OnPage 0x5000) fun _ => False := by
  obtain ⟨pm, hpm⟩ := Option.isSome_iff_exists.1
    (by decide : (pmapProtect twoPmaps 1 (.user false) 0x5000 (0x5000 + 0x1000) vmPageRead).isSome)
  have ha := (pmapProtect_acts (F := fun _ => False) twoPmaps_spaceWf rfl (by decide) (by decide) hpm).1
  have hpm' := pmapProtect_page (by decide) (by decide) hpm
  have hframe : frameOf (twoPmaps.upde false (addrToPdenum 0x5000)) = 4 := by decide
  have hj : addrToPtenum 0x5000 = 5 := by decide
  have he : protectEntry vmPageRead (twoPmaps.mem 4 5) = 0x20005 := by decide
  rw [hframe, hj, he] at hpm'
  rw [hpm'] at ha
  exact ha.trans (Writes.setPages _ ha.wf).acts

private theorem readOnlyProcess_not_writable (va : BitVec 32) (hv : va < kernelBase) :
    ¬ readOnlyProcess.pm.WritableAt false va := by
  have hi := (addrToPdenum_lt_iff va).2 hv
  rintro ⟨hpres, hrw⟩
  by_cases hva : OnPage 0x5000 (addrToPdenum va) (addrToPtenum va)
  · rw [hva.1, hva.2] at hrw
    exact absurd hrw (by decide)
  · rw [readOnlyProcess_acts.pte false _ _ rfl hi fun h => hva h.2] at hpres
    exact hva (twoPmaps_pte hi hpres)

private theorem readOnlyProcess_copy : ∃ pm, pmapCopy true false readOnlyProcess.pm = some pm ∧
    pm.freePageList ≠ [] := by
  have hwf := readOnlyProcess_acts.wf
  obtain ⟨pm, hpm, hlen⟩ := pmapCopy_takes (P := (· = false)) hwf.kernelWf hwf.userWf rfl (p := true) (by decide)
    (fun x hx => by rcases twoPmaps_free hx with rfl | rfl | rfl <;> decide)
    (Nat.lt_of_le_of_lt twoPmaps_tables (by decide))
  refine ⟨pm, hpm, fun h0 => ?_⟩
  rw [h0] at hlen
  have htables := twoPmaps_tables
  exact absurd hlen (Nat.ne_of_lt (Nat.lt_of_le_of_lt (Nat.add_le_add_right (Nat.add_le_add_left htables 0) 1)
    (by decide)))

private theorem readOnlyProcess_hashed : readOnlyProcess.pm.Hashed := by
  have hempty : ∀ b, IsChain (fun p => (twoPmaps.pages.page p).next) (twoPmaps.pages.pagehash b) [] := fun _ => rfl
  refine ⟨by decide, fun b => ⟨_, vmPageInsert_chain (hempty b) List.not_mem_nil, fun x hx => ?_⟩⟩
  split at hx
  · rw [List.mem_singleton.1 hx]
    decide
  · cases hx

def storeByChild (fuel : Nat) : StoreCall Bool Bool := ⟨true, 0x5000, 0x41, fuel, ⟨true, none⟩, fun _ _ => 0⟩

private theorem readOnlyProcess_cowOk {pm : PmapState Bool Unit}
    (h : pmapCopy true false readOnlyProcess.pm = some pm) : CowOk pm true 0x20 := by
  have hnew := (pmapCopy_ok readOnlyProcess_acts.wf.kernelWf readOnlyProcess_acts.wf.userWf rfl (by decide) h).1
  have hi : addrToPdenum (Frame.kernelAddr 0x20) = ktableStart := by decide
  have hupde : pm.upde true (addrToPdenum (Frame.kernelAddr 0x20)) = 0x2003 := by
    rw [hi, hnew.self _ (BitVec.le_refl _), hnew.keep _ (by decide)]
    decide
  refine ⟨by unfold Frame.Reachable; decide, ?_, ?_⟩
  · rw [hupde]
    decide
  · intro k hk
    rw [hupde]
    obtain rfl | rfl | rfl | rfl : k = 0 ∨ k = 1 ∨ k = 2 ∨ k = 3 := by bv_omega
    all_goals decide

private theorem readOnlyProcess_child {pm : PmapState Bool Unit}
    (h : pmapCopy true false readOnlyProcess.pm = some pm) :
    pm.pte true 0 5 = 0x20005 ∧ pm.upde true (addrToPdenum 0x5000) ≠ 0 ∧ pm.Resident true 0x5000 = true ∧
      pm.store true 0x5000 0x41 = none := by
  have hwf := readOnlyProcess_acts.wf
  have hpte : pm.pte true 0 5 = 0x20005 := ((pmapCopy_pte hwf rfl (by decide) h).2.2 0 5 (by decide)).trans (by decide)
  have hlow : pm.upde true (addrToPdenum 0x5000) &&& 0xFFF = 7 :=
    (pmapCopy_ok hwf.kernelWf hwf.userWf rfl (by decide) h).2.2 0 (by decide) (by decide)
  have hpde : pm.upde true (addrToPdenum 0x5000) &&& pagePresent ≠ 0 := by
    rw [show pagePresent = 0xFFF &&& pagePresent by decide, ← BitVec.and_assoc, hlow]
    decide
  refine ⟨hpte, fun h0 => hpde (by rw [h0]; rfl), ?_, ?_⟩
  · have hpte' : pm.pte true (addrToPdenum 0x5000) (addrToPtenum 0x5000) = 0x20005 := hpte
    rw [PmapState.Resident, hpte', decide_eq_true hpde]
    decide
  · rw [PmapState.store, Option.map_eq_none_iff]
    cases ht : pm.translate true true 0x5000 with
    | none => rfl
    | some x =>
      have hrw : pm.pte true 0 5 &&& pageRw ≠ 0 := accessBits_rw (translate_some ht).2.1
      rw [hpte] at hrw
      exact absurd hrw (by decide)

private theorem readOnlyProcess_shared {s' : Machine Bool (Fin 4) Bool Bool Unit}
    (h : vmMapFork readOnlyProcess 8 [1] true false true = some s') :
    ∃ n, SharedPage s' (storeByChild (n + 1)) 1 false true 0x20 := by
  obtain ⟨hcopy, hpmap⟩ := vmMapFork_some h
  obtain ⟨-, -, hresident, hstore⟩ := readOnlyProcess_child hcopy
  obtain ⟨vm, pm, hvm, hpm, rfl⟩ := vmMapFork_eq h
  have hev : (vmEntryCopy { readOnlyProcess.toVmState with
      maps := update readOnlyProcess.maps true ⟨none, 0x200000, kernelBase - 1, none⟩ } 8 [1] true false).map
      (fun vm => decide ((vm.maps true).vmentry = some 1 ∧ (vm.maps true).hint = none ∧
        (vm.entry 1).within 0x5000 = true ∧ (vm.entry 1).type = 0 ∧ (vm.entry 1).object = some false ∧
        vm.refCount false ≠ 1 ∧ vm.objectAttribute false &&& objectShadow = 0)) = some true := by
    decide +kernel
  rw [hvm, Option.map_some, Option.some.injEq, decide_eq_true_eq] at hev
  obtain ⟨hentry, hhint, hwithin, htype, hobj, href, hattr⟩ := hev
  obtain ⟨n, hfinds⟩ := ((pmapCopy_sameFinds readOnlyProcess_hashed hpm).finds 0x100000 0x5000 0x20 (by decide)).2
    ⟨0, rfl⟩
  have hfound : vmPageLookup pm.pages (n + 1) 0x100000 (addrToPte 0x5000) = some (.result (some 0x20)) :=
    vmPageLookup_extends _ (Nat.le_succ n) _ hfinds
  exact ⟨n, vmMapLookupEntry_first hentry hhint hwithin n, htype, hobj, hfound, href, hattr, hresident, hstore, rfl⟩

/-- A store by the child, to the page that both can only read, gives it a copy of the page. -/
theorem fork_isolation_read_only : ∃ s' s'' fuel, vmMapFork readOnlyProcess 8 [1] true false true = some s' ∧
    (∀ va, va < kernelBase → ¬ s'.pm.SharedWritable false true va) ∧
    userStore s' (storeByChild fuel) = some s'' ∧ s'.pm.pte true 0 5 = 0x20005 ∧
    frameOf (s''.pm.pte true 0 5) ∈ s'.freePageList ∧ ∀ va, s''.pm.userByte false va = s'.pm.userByte false va := by
  obtain ⟨pm, hpm, hfree⟩ := readOnlyProcess_copy
  obtain ⟨s', hs'⟩ := Option.isSome_iff_exists.1
    (vmMapFork_isSome (by decide +kernel) (Option.isSome_iff_exists.2 ⟨pm, hpm⟩) :
      (vmMapFork readOnlyProcess 8 [1] true false true).isSome)
  obtain ⟨hiff, hrun⟩ := fork_isolation (P := (· = false)) (s := readOnlyProcess) readOnlyProcess_acts.wf rfl
    (by decide) hs'
  obtain ⟨n, hshared⟩ := readOnlyProcess_shared hs'
  obtain ⟨hcopy, hpmap⟩ := vmMapFork_some hs'
  have hmap : s'.pmap true = true := by
    rw [hpmap]
    decide
  obtain ⟨hpte, hpde, -, -⟩ := readOnlyProcess_child hcopy
  have hcow := readOnlyProcess_cowOk hcopy
  rw [← hmap] at hpde hcow
  have hfree' : s'.freePageList ≠ [] := by
    cases hpm.symm.trans hcopy
    exact hfree
  obtain ⟨s'', hst, hfresh⟩ := hshared.copies (pmapCopy_pte readOnlyProcess_acts.wf rfl (by decide) hcopy).1
    (.inl hmap) (by decide : 0x5000 < kernelBase) (by decide : addrToPte 0x5000 = 0x5000) hpde hcow hfree' rfl
  have hok : ∀ x ∈ [(s', storeByChild (n + 1), s'')], StoreOk x.1 x.2.1 fun _ => True := by
    intro x hx
    rw [List.mem_singleton.1 hx]
    exact hshared.storeOk hcow
  rw [show s'.pmap (storeByChild (n + 1)).m = true from hmap] at hfresh
  have hfresh' : frameOf (s''.pm.pte true (addrToPdenum 0x5000) (addrToPtenum 0x5000)) ∈ s'.freePageList := hfresh
  exact ⟨s', s'', n + 1, hs', hiff.2 readOnlyProcess_not_writable, hst, hpte, hfresh',
    hrun readOnlyProcess_not_writable _ _ (.snoc .nil ⟨.inr hmap, hst⟩) hok _ (List.mem_singleton_self _) false
      (.inl rfl) (by simp [storeByChild, hmap])⟩

private theorem oneProcess_fork {s' : Machine Bool (Fin 4) Bool Bool Unit} {type : BitVec 16}
    (h : vmMapFork (oneProcess type) 8 [1] true false true = some s') :
    s'.pm.SpaceWf (fun q => q = true ∨ q = false) ∧ s'.pm.pte false 0 5 = 0x20007 ∧ s'.pm.pte true 0 5 = 0x20007 ∧
      s'.pm.translate false true 0x5000 = some 0x20 ∧ s'.pm.translate true false 0x5000 = some 0x20 := by
  have hcopy := (vmMapFork_some h).1
  obtain ⟨hwf, hold, hchild⟩ := pmapCopy_pte twoPmaps_spaceWf rfl (by decide) hcopy
  obtain ⟨hnew, -, hlow⟩ := pmapCopy_ok twoPmaps_kernelWf twoPmaps_spaceWf.userWf rfl (by decide) hcopy
  have hp5 : s'.pm.pte false 0 5 = 0x20007 := (hold false 0 5 rfl (by decide)).trans (by decide)
  have hc5 : s'.pm.pte true 0 5 = 0x20007 := (hchild 0 5 (by decide)).trans (by decide)
  have hpde : s'.pm.upde false 0 = 0x4007 := (hnew.other false 0 rfl (by decide)).1.trans (by decide)
  have hcde : s'.pm.upde true 0 &&& accessBits false = accessBits false := by
    have hmask : (0xFFF : BitVec 32) &&& accessBits false = accessBits false := by decide
    have hbits : s'.pm.upde true 0 &&& 0xFFF = 7 := (hlow 0 (by decide) (by decide)).trans (by decide)
    rw [← hmask, ← BitVec.and_assoc, hbits]
    decide
  have hi : addrToPdenum 0x5000 = 0 := by decide
  have hj : addrToPtenum 0x5000 = 5 := by decide
  refine ⟨hwf, hp5, hc5, ?_, ?_⟩
  · simp only [PmapState.translate]
    rw [hi, hj, hp5, hpde, if_pos (by decide)]
    rfl
  · simp only [PmapState.translate]
    rw [hi, hj, hc5, hcde, if_pos (by decide)]
    rfl

/-- What the parent stores after the fork the child reads. -/
theorem fork_shares_page : ∃ s', vmMapFork (oneProcess 8) 8 [1] true false true = some s' ∧
    s'.pm.SharedWritable false true 0x5000 ∧
    ∀ b, ∃ s'', userStore s' ⟨false, 0x5000, b, 8, ⟨true, none⟩, fun _ _ => 0⟩ = some s'' ∧
      s''.pm.userByte true 0x5000 = some b := by
  have hsome : (vmMapFork (oneProcess 8) 8 [1] true false true).isSome :=
    vmMapFork_isSome (by decide +kernel) twoPmaps_copy
  obtain ⟨s', hs'⟩ := Option.isSome_iff_exists.1 hsome
  obtain ⟨hwf, hp5, hc5, htp, htc⟩ := oneProcess_fork hs'
  have hmap : s'.pmap false = false := by
    rw [(vmMapFork_some hs').2]
    decide
  refine ⟨s', hs', ?_, fun b => ?_⟩
  · have hp : s'.pm.pte false (addrToPdenum 0x5000) (addrToPtenum 0x5000) = 0x20007 := hp5
    have hc : s'.pm.pte true (addrToPdenum 0x5000) (addrToPtenum 0x5000) = 0x20007 := hc5
    unfold PmapState.SharedWritable PmapState.WritableAt
    rw [hp, hc]
    decide
  · have hst : s'.pm.store false 0x5000 b = some { s'.pm with mem := setByte s'.mem (Frame.at 0x20 0x5000) b } := by
      unfold PmapState.store
      rw [htp]
      rfl
    obtain ⟨x, hx, hw⟩ := store_writes hwf (.inr rfl) hst
    have htc' : PmapState.translate _ true false 0x5000 = some 0x20 := (hw.translate (.inl rfl)).trans htc
    refine ⟨s'.setPm { s'.pm with mem := setByte s'.mem (Frame.at 0x20 0x5000) b }, ?_, ?_⟩
    · simp only [userStore, hmap, hst]
    · change PmapState.userByte { s'.pm with mem := setByte s'.mem (Frame.at 0x20 0x5000) b } true 0x5000 = some b
      unfold PmapState.userByte
      rw [htc', Option.map_some, getByte_setByte]

end Manrix
