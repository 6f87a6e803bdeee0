import Manrix.Mm.PmapUser

/-!
# The memory of processes

What a process reads and writes at its addresses, below `KERNEL_BASE`, through its page map, and what the functions of
`arch/i386/pmap.c` do to it.  The pages that the maps have mapped lie in frames that are neither free nor used for
directories and tables (`SpaceWf`); the kernel acts on a map in steps that change entries of this map only, and none of
the frames that are in use for pages (`Acts`).

`pmap_remove` takes the directory entry, with its protection bits, for the address of the table: it clears four bytes at
the address of the entry plus these bits.
-/

namespace Manrix

open Frames Function

variable {π κ : Type*} {fuel : Nat} {addr : BitVec 32}

def wordIndex (addr : BitVec 32) : BitVec 10 := (addr >>> 2).setWidth 10

/-- The first bit of the byte in its word. -/
def byteShift (addr : BitVec 32) : Nat := 8 * (addr.toNat % 4)

def getByte (m : Frame → BitVec 10 → BitVec 32) (addr : BitVec 32) : BitVec 8 :=
  (m (frameOf addr) (wordIndex addr) >>> byteShift addr).setWidth 8

def setByte (m : Frame → BitVec 10 → BitVec 32) (addr : BitVec 32) (b : BitVec 8) : Frame → BitVec 10 → BitVec 32 :=
  let w := m (frameOf addr) (wordIndex addr)
  setWord m (frameOf addr) (wordIndex addr)
    ((w &&& ~~~((0xFF : BitVec 32) <<< byteShift addr)) ||| (b.setWidth 32 <<< byteShift addr))

/-- A word is written, which need not be aligned. -/
def clearWord (m : Frame → BitVec 10 → BitVec 32) (addr : BitVec 32) : Frame → BitVec 10 → BitVec 32 :=
  setByte (setByte (setByte (setByte m addr 0) (addr + 1) 0) (addr + 2) 0) (addr + 3) 0

private theorem setByte_of_ne {m : Frame → BitVec 10 → BitVec 32} {b : BitVec 8} {x : Frame}
    (h : x ≠ frameOf addr) : setByte m addr b x = m x :=
  setWord_of_ne_frame h

theorem getByte_setByte (m : Frame → BitVec 10 → BitVec 32) (addr : BitVec 32) (b : BitVec 8) :
    getByte (setByte m addr b) addr = b := by
  have hshift : byteShift addr ≤ 24 := by
    unfold byteShift
    omega
  unfold getByte setByte
  rw [setWord_self]
  generalize byteShift addr = k at hshift
  ext i hi
  have h1 : k + i - k = i := by omega
  have h2 : k + i < 32 := by omega
  have h3 : BitVec.getLsbD (0xFF : BitVec 32) i = true := by
    have : ∀ i < 8, BitVec.getLsbD (0xFF : BitVec 32) i = true := by decide
    exact this i hi
  have h4 : ¬ k + i < k := by omega
  have h5 : i < 32 := by omega
  simp only [BitVec.getElem_setWidth, BitVec.getLsbD_ushiftRight, BitVec.getLsbD_or, BitVec.getLsbD_and,
    BitVec.getLsbD_not, BitVec.getLsbD_shiftLeft, h1, h2, h3]
  simp [h4, h5, hi]

theorem clearWord_of_ne {m : Frame → BitVec 10 → BitVec 32} {x : Frame}
    (h : ∀ k : BitVec 32, k < 4 → x ≠ frameOf (addr + k)) : clearWord m addr x = m x := by
  have h0 : x ≠ frameOf addr := by
    have := h 0 (by decide)
    simpa using this
  unfold clearWord
  rw [setByte_of_ne (h 3 (by decide)), setByte_of_ne (h 2 (by decide)), setByte_of_ne (h 1 (by decide)),
    setByte_of_ne h0]

/-- The entry of the page table, 0 if there is no table. -/
def PmapState.pte (s : PmapState π κ) (p : π) (i j : BitVec 10) : BitVec 32 :=
  if s.upde p i = 0 then 0 else s.mem (frameOf (s.upde p i)) j

/-- The bits of the entries of the directory and of the table that an access by a process needs. -/
def accessBits (write : Bool) : BitVec 32 := pagePresent ||| pageUser ||| (if write then pageRw else 0)

/-- The frame in which a process reads, or writes, the address.  The segments of a process end at `KERNEL_BASE`. -/
def PmapState.translate (s : PmapState π κ) (p : π) (write : Bool) (va : BitVec 32) : Option Frame :=
  let pde := s.upde p (addrToPdenum va)
  let pte := s.pte p (addrToPdenum va) (addrToPtenum va)
  if va < kernelBase ∧ pde &&& accessBits write = accessBits write ∧ pte &&& accessBits write = accessBits write
  then some (frameOf pte) else none

/-- The physical address of a byte. -/
def Frame.at (x : Frame) (va : BitVec 32) : BitVec 32 := x.base ||| (va &&& 0xFFF)

def PmapState.userByte (s : PmapState π κ) (p : π) (va : BitVec 32) : Option (BitVec 8) :=
  (s.translate p false va).map fun x => getByte s.mem (x.at va)

/-- A store by a process, if the page is mapped for it. -/
def PmapState.store (s : PmapState π κ) (p : π) (va : BitVec 32) (b : BitVec 8) : Option (PmapState π κ) :=
  (s.translate p true va).map fun x => { s with mem := setByte s.mem (x.at va) b }

def vmPageRead : BitVec 32 := 1
def vmPageWrite : BitVec 32 := 2
def vmPageExec : BitVec 32 := 4

/-- What `pmap_protect` does to an entry. -/
def protectEntry (prot e : BitVec 32) : BitVec 32 :=
  let e := if prot &&& vmPageRead ≠ 0 ∨ prot &&& vmPageExec ≠ 0 then e &&& ~~~pageRw else e
  if prot &&& vmPageWrite ≠ 0 then e ||| pageRw else e

/-- A loop over the pages from `svaddr` up to `evaddr`. -/
def pageLoop (body : BitVec 32 → (Frame → BitVec 10 → BitVec 32) → Frame → BitVec 10 → BitVec 32) (evaddr : BitVec 32) :
    Nat → BitVec 32 → (Frame → BitVec 10 → BitVec 32) → Option (Frame → BitVec 10 → BitVec 32)
  | 0, svaddr, m => if svaddr < evaddr then none else some m
  | n + 1, svaddr, m => if svaddr < evaddr then pageLoop body evaddr n (svaddr + 0x1000) (body svaddr m) else some m

def pmapProtect (s : PmapState π κ) (fuel : Nat) (map : Pmap π) (svaddr evaddr prot : BitVec 32) :
    Option (PmapState π κ) :=
  let body := fun svaddr m =>
    let pte := frameOf (m (s.pdbr map) (addrToPdenum svaddr))
    setWord m pte (addrToPtenum svaddr) (protectEntry prot (m pte (addrToPtenum svaddr)))
  if s.pdbr map = 0 then some s
  else (pageLoop body evaddr fuel svaddr s.mem).map fun m => { s with mem := m }

/-- The address at which `pmap_remove` writes. -/
def removeAddr (pde va : BitVec 32) : BitVec 32 := pde + (addrToPtenum va).setWidth 32 <<< 2

def pmapRemove (s : PmapState π κ) (fuel : Nat) (map : Pmap π) (svaddr evaddr : BitVec 32) : Option (PmapState π κ) :=
  let body := fun svaddr m => clearWord m (removeAddr (m (s.pdbr map) (addrToPdenum svaddr)) svaddr)
  if s.pdbr map = 0 then some s
  else (pageLoop body evaddr fuel svaddr s.mem).map fun m => { s with mem := m }

theorem pageLoop_page_succ {body : BitVec 32 → (Frame → BitVec 10 → BitVec 32) → Frame → BitVec 10 → BitVec 32}
    (fuel : Nat) (va : BitVec 32) (m : Frame → BitVec 10 → BitVec 32) :
    pageLoop body (va + 0x1000) (fuel + 1) va m = some (if va < va + 0x1000 then body va m else m) := by
  have hend : ∀ n m, pageLoop body (va + 0x1000) n (va + 0x1000) m = some m := by
    intro n m
    cases n <;> rw [pageLoop, if_neg (BitVec.lt_irrefl _)]
  rw [pageLoop]
  split
  · exact hend _ _
  · rfl

private theorem pageLoop_page {body : BitVec 32 → (Frame → BitVec 10 → BitVec 32) → Frame → BitVec 10 → BitVec 32}
    {va : BitVec 32} {m m' : Frame → BitVec 10 → BitVec 32} (h : pageLoop body (va + 0x1000) fuel va m = some m') :
    m' = if va < va + 0x1000 then body va m else m := by
  cases fuel with
  | zero =>
    rw [pageLoop] at h
    split at h
    · cases h
    · case isFalse hlt => rw [if_neg hlt, Option.some.inj h]
  | succ fuel => exact Option.some.inj (h.symm.trans (pageLoop_page_succ fuel va m))

structure PmapState.SpaceWf (s : PmapState π κ) (P : π → Prop) : Prop where
  kernelWf : s.KernelWf
  userWf : s.UserWf P
  kernelHalf : ∀ p, P p → s.KernelHalf p
  data : ∀ p i j, P p → i < ktableStart → s.pte p i j &&& pagePresent ≠ 0 → s.Data P (frameOf (s.pte p i j))

def OnPage (va : BitVec 32) (i j : BitVec 10) : Prop := i = addrToPdenum va ∧ j = addrToPtenum va

/-- The kernel has changed the entries of the map `p` for the pages `D`, and of the frames in use at most those in
`F`. -/
structure Acts (s s' : PmapState π κ) (P : π → Prop) (p : π) (D : BitVec 10 → BitVec 10 → Prop) (F : Frame → Prop) :
    Prop where
  wf : s'.SpaceWf P
  free : s'.freePageList ⊆ s.freePageList
  data : ∀ x, s.Data P x → s'.Data P x
  mem : ∀ x, s.Data P x → ¬ F x → s'.mem x = s.mem x
  upde : ∀ q i, P q → (q ≠ p ∧ i < ktableStart) ∨ s.upde q i ≠ 0 → s'.upde q i = s.upde q i
  pte : ∀ q i j, P q → i < ktableStart → ¬ (q = p ∧ D i j) → s'.pte q i j = s.pte q i j

/-- The entries of the maps are as before, and of the frames in use at most those in `F` have changed. -/
structure Writes (s s' : PmapState π κ) (P : π → Prop) (F : Frame → Prop) : Prop where
  wf : s'.SpaceWf P
  free : s'.freePageList ⊆ s.freePageList
  data : ∀ x, s.Data P x → s'.Data P x
  mem : ∀ x, s.Data P x → ¬ F x → s'.mem x = s.mem x
  upde : ∀ q i, P q → s'.upde q i = s.upde q i
  pte : ∀ q i j, P q → i < ktableStart → s'.pte q i j = s.pte q i j

section Acts

variable {s s₁ s₂ s' : PmapState π κ} {P : π → Prop} {p q : π} {D D' : BitVec 10 → BitVec 10 → Prop}
  {F F' : Frame → Prop}
  {taken : List Frame} {W : BitVec 10 → BitVec 10 → Prop} {x : Frame} {i j k : BitVec 10} {e w : BitVec 32}

theorem Acts.refl (h : s.SpaceWf P) : Acts s s P p D F :=
  ⟨h, List.Subset.refl _, fun _ h => h, fun _ _ _ => rfl, fun _ _ _ _ => rfl, fun _ _ _ _ _ _ => rfl⟩

theorem Acts.trans (h₁ : Acts s s₁ P p D F) (h₂ : Acts s₁ s₂ P p D F) : Acts s s₂ P p D F where
  wf := h₂.wf
  free := List.Subset.trans h₂.free h₁.free
  data x hx := h₂.data x (h₁.data x hx)
  mem x hx hF := (h₂.mem x (h₁.data x hx) hF).trans (h₁.mem x hx hF)
  upde q i hq hqi := by
    have he := h₁.upde q i hq hqi
    rw [h₂.upde q i hq (he ▸ hqi), he]
  pte q i j hq hi hD := (h₂.pte q i j hq hi hD).trans (h₁.pte q i j hq hi hD)

theorem Acts.mono (h : Acts s s' P p D F) (hD : ∀ i j, D i j → D' i j) (hF : ∀ x, s.Data P x → F x → F' x) :
    Acts s s' P p D' F' where
  wf := h.wf
  free := h.free
  data := h.data
  mem x hx hx' := h.mem x hx fun hf => hx' (hF x hx hf)
  upde := h.upde
  pte q i j hq hi hD' := h.pte q i j hq hi fun hD'' => hD' ⟨hD''.1, hD i j hD''.2⟩

theorem Writes.acts (h : Writes s s' P F) : Acts s s' P p D F :=
  ⟨h.wf, h.free, h.data, h.mem, fun q i hq _ => h.upde q i hq, fun q i j hq hi _ => h.pte q i j hq hi⟩

theorem Writes.refl (h : s.SpaceWf P) : Writes s s P F :=
  ⟨h, List.Subset.refl _, fun _ h => h, fun _ _ _ => rfl, fun _ _ _ => rfl, fun _ _ _ _ _ => rfl⟩

theorem pte_eq_table : s.pte p i j = ((s.table p i).map fun row => row j).getD 0 := by
  unfold PmapState.pte PmapState.table
  split <;> rfl

variable [DecidableEq π] {m : Frame → BitVec 10 → BitVec 32}

omit [DecidableEq π] in
theorem TableFor.mem_eq_pte (h : TableFor s s₁ p i e taken) (j : BitVec 10) : s₁.mem (frameOf e) j = s.pte p i j := by
  rcases h with ⟨rfl, -, rfl, h0⟩ | ⟨h0, -, h⟩
  · rw [PmapState.pte, if_neg h0]
  · rw [PmapState.pte, if_pos h0, h.zero]

theorem TableFor.write_pte (h : TableFor s s₁ p i e taken) (hu : s.UserWf P) (hp : P p) (hi : i < ktableStart)
    {a b : BitVec 10} (hq : P q) (ha : a < ktableStart) :
    (withTable s₁ p i e (update (s₁.mem (frameOf e)) j w)).pte q a b =
      if q = p ∧ a = i ∧ b = j then w else s.pte q a b := by
  rw [pte_eq_table, h.write_table hu hp hi hq ha]
  by_cases hqa : q = p ∧ a = i
  · obtain ⟨rfl, rfl⟩ := hqa
    rw [if_pos ⟨rfl, rfl⟩]
    by_cases hb : b = j
    · subst hb
      simp
    · rw [if_neg fun h => hb h.2.2, Option.map_some, Option.getD_some, update_of_ne hb, h.mem_eq_pte]
  · rw [if_neg hqa, if_neg fun h => hqa ⟨h.1, h.2.1⟩, pte_eq_table]

theorem TableFor.write_upde_keep {row : BitVec 10 → BitVec 32} (h : TableFor s s₁ p i e taken) (hs : s.SpaceWf P)
    (hp : P p) (hi : i < ktableStart) (hq : P q) (hk : (q ≠ p ∧ k < ktableStart) ∨ s.upde q k ≠ 0) :
    (withTable s₁ p i e row).upde q k = s.upde q k := by
  have hu := hs.userWf
  by_cases hlt : k < ktableStart
  · rw [h.write_upde hu hp hi hq hlt]
    split
    · rename_i hqk
      obtain ⟨rfl, rfl⟩ := hqk
      have h0 := hk.resolve_left fun h => h.1 rfl
      rcases h with ⟨-, -, he, -⟩ | ⟨h0', -⟩
      · exact he.symm
      · exact absurd h0' h0
    · rfl
  · have hle : ktableStart ≤ k := by bv_omega
    have h0 := hk.resolve_left fun h => hlt h.2
    rw [h.write_upde_kernel hu hp hi hq hle]
    refine (h.grown.upde_kernel hu hq k).resolve_left fun hnew => ?_
    exact h0 (((hs.kernelHalf q hq).eq hle h0).trans hnew.1)

/-- An entry is written that is not present or names a frame in use for pages. -/
theorem TableFor.acts (h : TableFor s s₁ p i e taken) (hs : s.SpaceWf P) (hp : P p) (hi : i < ktableStart)
    (hw : w &&& pagePresent ≠ 0 → s.Data P (frameOf w)) :
    Acts s (withTable s₁ p i e (update (s₁.mem (frameOf e)) j w)) P p (fun a b => a = i ∧ b = j) F := by
  have hu := hs.userWf
  refine ⟨⟨h.write_kernelWf hs.kernelWf hu hp hi, h.write_userWf hu hp hi,
    fun q hq => h.write_kernelHalf hu hp hi hq (hs.kernelHalf q hq), ?_⟩, ?_, fun x hx => (h.write_data hu hp hi hx).1,
    fun x hx _ => (h.write_data hu hp hi hx).2, ?_, ?_⟩
  · intro q a b hq ha hpres
    rw [h.write_pte hu hp hi hq ha] at hpres ⊢
    split
    · rename_i hqab
      rw [if_pos hqab] at hpres
      exact (h.write_data hu hp hi (hw hpres)).1
    · rename_i hqab
      rw [if_neg hqab] at hpres
      exact (h.write_data hu hp hi (hs.data q a b hq ha hpres)).1
  · intro x hx
    rw [h.grown.free]
    exact List.mem_append_right _ hx
  · intro q a hq hqa
    exact h.write_upde_keep hs hp hi hq hqa
  · intro q a b hq ha hqab
    rw [h.write_pte hu hp hi hq ha, if_neg hqab]

theorem pmapEnter_acts {paddr va protection : BitVec 32} (hs : s.SpaceWf P) (hp : P p) (hv : va < kernelBase)
    (hprot : protection < 0x1000) (hdata : s.Data P (frameOf paddr))
    (h : pmapEnter (.user p) paddr va protection s = some s') : Acts s s' P p (OnPage va) F ∧
      s'.pte p (addrToPdenum va) (addrToPtenum va) = addrToPte paddr ||| pagePresent ||| protection ∧
      (s.upde p (addrToPdenum va) = 0 → ∃ t : Frame,
        s'.upde p (addrToPdenum va) = addrToPte t.base ||| pagePresent ||| protection) := by
  have hi := (addrToPdenum_lt_iff va).2 hv
  obtain ⟨s₁, taken, e, ht, rfl, he⟩ := pmapEnterWith_user pageTableAllocate_ok hs.kernelWf hs.userWf hp hprot h
  refine ⟨ht.acts hs hp hi fun _ => ?_, ?_, fun h0 => ⟨frameOf e, ?_⟩⟩
  · rw [frameOf_entry hprot]
    exact hdata
  · rw [ht.write_pte hs.userWf hp hi hp hi, if_pos ⟨rfl, rfl, rfl⟩]
  · rw [ht.write_upde hs.userWf hp hi hp hi, if_pos ⟨rfl, rfl⟩]
    exact he h0

omit [DecidableEq π] in
theorem Acts.takeFrame {rest : List Frame} (pages : PageHash Frame) (hs : s.SpaceWf P)
    (hfree : s.freePageList = x :: rest) :
    Acts s { s with freePageList := rest, pages := pages } P p D F ∧
      PmapState.Data { s with freePageList := rest, pages := pages } P x := by
  have hsub : rest ⊆ s.freePageList := hfree ▸ List.subset_cons_self x rest
  have hx : x ∈ s.freePageList := hfree ▸ List.mem_cons_self ..
  have hnd := hs.kernelWf.free_nodup
  rw [hfree, List.nodup_cons] at hnd
  have hux := hs.kernelWf.free_unused x hx
  have hdata : ∀ y, s.Data P y → PmapState.Data { s with freePageList := rest, pages := pages } P y :=
    fun y hy => ⟨⟨hy.ne_kdir, hy.not_table, hy.not_proc, fun hm => hy.not_free (hsub hm), hy.ne_dir⟩, hy.not_utable⟩
  refine ⟨⟨⟨?_, ?_, hs.kernelHalf, fun q a b hq ha hpres => hdata _ (hs.data q a b hq ha hpres)⟩, hsub, hdata,
    fun _ _ _ => rfl, fun _ _ _ _ => rfl, fun _ _ _ _ _ _ => rfl⟩, ?_⟩
  · exact hs.kernelWf.congr rfl rfl (fun _ => rfl) (hfree ▸ List.sublist_cons_self x rest)
  · exact hs.userWf.mono rfl (fun _ _ => rfl) (fun _ _ _ _ => rfl) rfl hsub fun _ h => .inl h
  · exact ⟨⟨hux.ne_kdir, hux.not_table, hux.not_proc, hnd.1, fun q hq hd => hs.userWf.dir_not_free q hq (hd ▸ hx)⟩,
      fun q hq ht => hs.userWf.table_not_free q x hq ht hx⟩

omit [DecidableEq π] in
theorem Writes.setPages (pages : PageHash Frame) (hs : s.SpaceWf P) : Writes s { s with pages := pages } P F := by
  have hdata : ∀ y, s.Data P y → PmapState.Data { s with pages := pages } P y :=
    fun y hy => ⟨⟨hy.ne_kdir, hy.not_table, hy.not_proc, hy.not_free, hy.ne_dir⟩, hy.not_utable⟩
  exact ⟨⟨hs.kernelWf.congr rfl rfl (fun _ => rfl) (.refl _),
      hs.userWf.mono rfl (fun _ _ => rfl) (fun _ _ _ _ => rfl) rfl (.refl _) fun _ h => .inl h, hs.kernelHalf,
      fun q a b hq ha hpres => hdata _ (hs.data q a b hq ha hpres)⟩,
    .refl _, hdata, fun _ _ _ => rfl, fun _ _ _ => rfl, fun _ _ _ _ _ => rfl⟩

omit [DecidableEq π] in
/-- Frames are written that are no directories and no tables for user addresses. -/
theorem Writes.of_mem (hs : s.SpaceWf P) (hm : ∀ y, ¬ F y → m y = s.mem y)
    (hk : ¬ F s.kdir) (hd : ∀ q, P q → ¬ F (s.udir q)) (ht : ∀ q y, P q → s.UTable q y → ¬ F y) :
    Writes s { s with mem := m } P F := by
  have hkpde : ∀ i, PmapState.kpde { s with mem := m } i = s.kpde i := fun i => congrFun (hm _ hk) i
  have hupde : ∀ q i, P q → PmapState.upde { s with mem := m } q i = s.upde q i :=
    fun q i hq => congrFun (hm _ (hd q hq)) i
  have hpte : ∀ q i j, P q → i < ktableStart → PmapState.pte { s with mem := m } q i j = s.pte q i j := by
    intro q i j hq hi
    unfold PmapState.pte
    rw [hupde q i hq]
    by_cases h0 : s.upde q i = 0
    · rw [if_pos h0, if_pos h0]
    · rw [if_neg h0, if_neg h0]
      exact congrFun (hm _ (ht q _ hq ⟨i, hi, h0, rfl⟩)) j
  have hktable : ∀ y, PmapState.KTable { s with mem := m } y → s.KTable y := by
    rintro y ⟨i, hi, h0, hy⟩
    rw [hkpde] at h0 hy
    exact ⟨i, hi, h0, hy⟩
  have hutable : ∀ q y, P q → PmapState.UTable { s with mem := m } q y → s.UTable q y := by
    rintro q y hq ⟨i, hi, h0, hy⟩
    rw [hupde q i hq] at h0 hy
    exact ⟨i, hi, h0, hy⟩
  have hdata : ∀ y, s.Data P y → PmapState.Data { s with mem := m } P y :=
    fun y hy => ⟨⟨hy.ne_kdir, fun h => hy.not_table (hktable y h), hy.not_proc, hy.not_free, hy.ne_dir⟩,
      fun q hq h => hy.not_utable q hq (hutable q y hq h)⟩
  refine ⟨⟨?_, ?_, ?_, ?_⟩, List.Subset.refl _, hdata, fun y _ hy => hm y hy, hupde, hpte⟩
  · exact hs.kernelWf.congr rfl rfl hkpde (List.Sublist.refl _)
  · exact hs.userWf.mono rfl (fun _ _ => rfl) (fun q i hq _ => hupde q i hq) rfl (List.Subset.refl _)
      fun y hy => .inl (hktable y hy)
  · intro q hq i hi
    rw [hupde q i hq, hkpde]
    exact hs.kernelHalf q hq i hi
  · intro q i j hq hi hpres
    rw [hpte q i j hq hi] at hpres ⊢
    exact hdata _ (hs.data q i j hq hi hpres)

omit [DecidableEq π] in
theorem Writes.of_data (hs : s.SpaceWf P) (hF : ∀ y, F y → s.Data P y)
    (hm : ∀ y, ¬ F y → m y = s.mem y) : Writes s { s with mem := m } P F :=
  .of_mem hs hm (fun h => (hF _ h).ne_kdir rfl) (fun q hq h => (hF _ h).ne_dir q hq rfl)
    fun q _ hq ht h => (hF _ h).not_utable q hq ht

omit [DecidableEq π] in
theorem PmapState.KTable.writes (hx : s.KTable x) (hs : s.SpaceWf P)
    (hm : ∀ y, y ≠ x → m y = s.mem y) : Writes s { s with mem := m } P fun _ => False := by
  have h : Writes s { s with mem := m } P (· = x) :=
    .of_mem hs hm (fun he => hs.kernelWf.kdir_not_table (he ▸ hx))
      (fun q hq he => hs.userWf.dir_not_table q hq (he ▸ hx))
      fun q y hq ht he => hs.userWf.table_not_table q y hq ht (he ▸ hx)
  refine ⟨h.wf, h.free, h.data, fun y hy _ => h.mem y hy ?_, h.upde, h.pte⟩
  rintro rfl
  exact hy.not_table hx

omit [DecidableEq π] in
theorem PmapState.SpaceWf.ktable (hs : s.SpaceWf P) (hp : P p) (hi : ktableStart ≤ i) (h0 : s.upde p i ≠ 0) :
    s.KTable (frameOf (s.upde p i)) := by
  have he := (hs.kernelHalf p hp).eq hi h0
  exact ⟨i, hi, he ▸ h0, by rw [he]⟩

theorem pmapEnter_kernelPage {paddr va protection : BitVec 32} (hd : s.udir p ≠ 0)
    (h0 : s.upde p (addrToPdenum va) ≠ 0) (h : pmapEnter (.user p) paddr va protection s = some s') :
    s' = { s with
      mem := setWord s.mem (frameOf (s.upde p (addrToPdenum va))) (addrToPtenum va)
        (addrToPte paddr ||| pagePresent ||| protection) } := by
  have h0' : ¬ s.mem (s.pdbr (.user p)) (addrToPdenum va) = 0 := h0
  rw [pmapEnter, pmapEnterWith, enterDirectory_of_ne_zero hd] at h
  dsimp only at h
  rw [enterTable, if_neg h0'] at h
  exact (Option.some.inj h).symm

theorem frameOf_protectEntry (prot e : BitVec 32) : frameOf (protectEntry prot e) = frameOf e := by
  have hrw : frameOf pageRw = 0 := by decide
  have hnot : ∀ x, frameOf (x &&& ~~~pageRw) = frameOf x := by
    intro x
    have h1 : frameOf (~~~pageRw) = BitVec.allOnes 20 := by decide
    rw [frameOf_and, h1, BitVec.and_allOnes]
  simp only [protectEntry]
  split <;> split <;> simp [frameOf_or, hrw, hnot]

theorem protectEntry_present (prot e : BitVec 32) : protectEntry prot e &&& pagePresent = e &&& pagePresent := by
  have hnot : ~~~pageRw &&& pagePresent = pagePresent := by decide
  have hrw : pageRw &&& pagePresent = 0 := by decide
  have hor : ∀ x : BitVec 32, (x ||| pageRw) &&& pagePresent = x &&& pagePresent := by
    intro x
    ext i hi
    have := congrArg (fun w : BitVec 32 => w[i]) hrw
    simp only [BitVec.getElem_and, BitVec.getElem_or] at this ⊢
    cases x[i] <;> cases hb : pagePresent[i] <;> simp_all
  have hand : ∀ x : BitVec 32, (x &&& ~~~pageRw) &&& pagePresent = x &&& pagePresent := by
    intro x
    rw [BitVec.and_assoc, hnot]
  simp only [protectEntry]
  split <;> split <;> simp [hor, hand]

omit [DecidableEq π] in
theorem pmapProtect_page {va prot : BitVec 32} (hd : s.udir p ≠ 0) (hv : va < kernelBase)
    (h : pmapProtect s fuel (.user p) va (va + 0x1000) prot = some s') :
    s' = { s with
      mem := setWord s.mem (frameOf (s.upde p (addrToPdenum va))) (addrToPtenum va)
        (protectEntry prot (s.mem (frameOf (s.upde p (addrToPdenum va))) (addrToPtenum va))) } := by
  have hlt : va < va + 0x1000 := by
    have : kernelBase.toNat = 0xE0000000 := rfl
    bv_omega
  rw [pmapProtect, if_neg hd] at h
  obtain ⟨m, hm, rfl⟩ := Option.map_eq_some_iff.1 h
  rw [pageLoop_page hm, if_pos hlt]

omit [DecidableEq π] in
theorem pmapRemove_page {va : BitVec 32} (hd : s.udir p ≠ 0)
    (h : pmapRemove s fuel (.user p) va (va + 0x1000) = some s') :
    s' = s ∨ s' = { s with mem := clearWord s.mem (removeAddr (s.upde p (addrToPdenum va)) va) } := by
  rw [pmapRemove, if_neg hd] at h
  obtain ⟨m, hm, rfl⟩ := Option.map_eq_some_iff.1 h
  rw [pageLoop_page hm]
  split
  · exact .inr rfl
  · exact .inl rfl

theorem pmapProtect_acts {va prot : BitVec 32} (hs : s.SpaceWf P) (hp : P p) (hv : va < kernelBase)
    (h0 : s.upde p (addrToPdenum va) ≠ 0) (h : pmapProtect s fuel (.user p) va (va + 0x1000) prot = some s') :
    Acts s s' P p (OnPage va) F ∧ s'.pte p (addrToPdenum va) (addrToPtenum va) =
        protectEntry prot (s.pte p (addrToPdenum va) (addrToPtenum va)) := by
  have hi := (addrToPdenum_lt_iff va).2 hv
  have ht : TableFor s s p (addrToPdenum va) (s.upde p (addrToPdenum va)) [] := .inl ⟨rfl, rfl, rfl, h0⟩
  have hs' : s' = withTable s p (addrToPdenum va) (s.upde p (addrToPdenum va))
      (update (s.mem (frameOf (s.upde p (addrToPdenum va)))) (addrToPtenum va)
        (protectEntry prot (s.mem (frameOf (s.upde p (addrToPdenum va))) (addrToPtenum va)))) := by
    rw [pmapProtect_page (hs.userWf.dir_ne_zero p hp) hv h, withTable, setWord_eq_self]
    rfl
  rw [hs', ht.mem_eq_pte]
  refine ⟨ht.acts hs hp hi fun hpres => ?_, ?_⟩
  · rw [protectEntry_present] at hpres
    rw [frameOf_protectEntry]
    exact hs.data p _ _ hp hi hpres
  · rw [ht.write_pte hs.userWf hp hi hp hi, if_pos ⟨rfl, rfl, rfl⟩]

end Acts

section Reads

variable {s s₁ s₂ s' : PmapState π κ} {P : π → Prop} {p q : π} {D D' : BitVec 10 → BitVec 10 → Prop} {F : Frame → Prop}
  {x : Frame} {i j : BitVec 10} {e : BitVec 32} {va : BitVec 32} {write : Bool}

theorem frameOf_at (x : Frame) (va : BitVec 32) : frameOf (x.at va) = x := by
  rw [Frame.at, frameOf_or, frameOf_base, frameOf_of_lt (and_low_lt va)]
  exact BitVec.or_zero

theorem getByte_congr {m m' : Frame → BitVec 10 → BitVec 32} (h : m (frameOf addr) = m' (frameOf addr)) :
    getByte m addr = getByte m' addr := by
  unfold getByte
  rw [h]

theorem accessBits_present (h : e &&& accessBits write = accessBits write) : e &&& pagePresent ≠ 0 := by
  intro h0
  have h1 := congrArg (fun w => w &&& pagePresent) h
  have h2 : accessBits write &&& pagePresent = pagePresent := by cases write <;> decide
  simp only [BitVec.and_assoc, h2, h0] at h1
  exact absurd h1 (by decide)

theorem accessBits_rw (h : e &&& accessBits true = accessBits true) : e &&& pageRw ≠ 0 := by
  intro h0
  have h1 := congrArg (fun w => w &&& pageRw) h
  have h2 : accessBits true &&& pageRw = pageRw := by decide
  simp only [BitVec.and_assoc, h2, h0] at h1
  exact absurd h1 (by decide)

theorem or_and_eq {a b m : BitVec 32} (h : b &&& m = m) : (a ||| b) &&& m = m := by
  rw [BitVec.and_or_distrib_right, h]
  ext i hi
  simp

theorem entry_accessBits {flag : BitVec 32} (a : BitVec 32)
    (h : (pagePresent ||| flag) &&& accessBits write = accessBits write) :
    (a ||| pagePresent ||| flag) &&& accessBits write = accessBits write := by
  rw [BitVec.or_assoc]
  exact or_and_eq h

theorem translate_some (h : s.translate p write va = some x) :
    va < kernelBase ∧ s.pte p (addrToPdenum va) (addrToPtenum va) &&& accessBits write = accessBits write ∧
      frameOf (s.pte p (addrToPdenum va) (addrToPtenum va)) = x := by
  simp only [PmapState.translate] at h
  split at h
  · rename_i hc
    exact ⟨hc.1, hc.2.2, Option.some.inj h⟩
  · cases h

theorem translate_data (hs : s.SpaceWf P) (hp : P p) (h : s.translate p write va = some x) : s.Data P x := by
  obtain ⟨hv, hb, rfl⟩ := translate_some h
  exact hs.data p _ _ hp ((addrToPdenum_lt_iff va).2 hv) (accessBits_present hb)

private theorem translate_eq_none
    (h : ¬ va < kernelBase ∨ s.pte p (addrToPdenum va) (addrToPtenum va) = 0) : s.translate p write va = none := by
  cases ht : s.translate p write va with
  | none => rfl
  | some x =>
    obtain ⟨hv, hb, -⟩ := translate_some ht
    rcases h with h | h
    · exact absurd hv h
    · exact absurd (by rw [h]; exact BitVec.zero_and) (accessBits_present hb)

theorem Acts.translate (h : Acts s s' P p D F) (hq : P q)
    (hD : ¬ (q = p ∧ D (addrToPdenum va) (addrToPtenum va))) : s'.translate q write va = s.translate q write va := by
  by_cases hv : va < kernelBase
  · have hi := (addrToPdenum_lt_iff va).2 hv
    have hpte := h.pte q _ _ hq hi hD
    by_cases h0 : s.upde q (addrToPdenum va) = 0
    · by_cases hqp : q = p
      · have hz : s.pte q (addrToPdenum va) (addrToPtenum va) = 0 := if_pos h0
        rw [translate_eq_none (.inr hz), translate_eq_none (.inr (hpte.trans hz))]
      · unfold PmapState.translate
        rw [h.upde q _ hq (.inl ⟨hqp, hi⟩), hpte]
    · unfold PmapState.translate
      rw [h.upde q _ hq (.inr h0), hpte]
  · rw [translate_eq_none (.inl hv), translate_eq_none (.inl hv)]

theorem userByte_congr (ht : s'.translate q false va = s.translate q false va)
    (hm : ∀ x, s.translate q false va = some x → getByte s'.mem (x.at va) = getByte s.mem (x.at va)) :
    s'.userByte q va = s.userByte q va := by
  unfold PmapState.userByte
  rw [ht]
  cases hx : s.translate q false va with
  | none => rfl
  | some x => rw [Option.map_some, Option.map_some, hm x hx]

theorem Acts.userByte (h : Acts s s' P p D F) (hs : s.SpaceWf P) (hq : P q)
    (hD : ¬ (q = p ∧ D (addrToPdenum va) (addrToPtenum va)))
    (hF : ∀ x, s.translate q false va = some x → ¬ F x) : s'.userByte q va = s.userByte q va := by
  refine userByte_congr (h.translate hq hD) fun x hx => getByte_congr ?_
  rw [frameOf_at]
  exact h.mem x (translate_data hs hq hx) (hF x hx)

theorem Writes.translate (h : Writes s s' P F) (hq : P q) : s'.translate q write va = s.translate q write va :=
  (h.acts (p := q) (D := fun _ _ => False)).translate hq fun h => h.2

theorem Writes.userByte (h : Writes s s' P F) (hs : s.SpaceWf P) (hq : P q)
    (hF : ∀ x, s.translate q false va = some x → ¬ F x) : s'.userByte q va = s.userByte q va :=
  (h.acts (p := q) (D := fun _ _ => False)).userByte hs hq (fun h => h.2) hF

theorem store_writes {b : BitVec 8} (hs : s.SpaceWf P) (hp : P p) (h : s.store p va b = some s') :
    ∃ x, s.translate p true va = some x ∧ Writes s s' P (· = x) := by
  obtain ⟨x, hx, rfl⟩ := Option.map_eq_some_iff.1 h
  refine ⟨x, hx, .of_data hs (fun y hy => hy ▸ translate_data hs hp hx) fun y hy => setByte_of_ne ?_⟩
  rwa [frameOf_at]

/-- The kernel has served a fault of the map `p`: entries for the pages `D` have changed, and name frames now that were
free. -/
structure Serves (s s' : PmapState π κ) (P : π → Prop) (p : π) (D : BitVec 10 → BitVec 10 → Prop) : Prop
    extends Acts s s' P p D fun _ => False where
  fresh : ∀ i j, i < ktableStart → s'.pte p i j = s.pte p i j ∨ frameOf (s'.pte p i j) ∈ s.freePageList

theorem Serves.refl (h : s.SpaceWf P) : Serves s s P p D := ⟨.refl h, fun _ _ _ => .inl rfl⟩

theorem Serves.trans (h₁ : Serves s s₁ P p D) (h₂ : Serves s₁ s₂ P p D) : Serves s s₂ P p D := by
  refine ⟨h₁.toActs.trans h₂.toActs, fun i j hi => ?_⟩
  rcases h₂.fresh i j hi with he | hf
  · rw [he]
    exact h₁.fresh i j hi
  · exact .inr (h₁.free hf)

theorem Serves.mono (h : Serves s s' P p D) (hD : ∀ i j, D i j → D' i j) : Serves s s' P p D' :=
  ⟨h.toActs.mono hD fun _ _ h => h, h.fresh⟩

theorem Acts.serves (h : Acts s s' P p D F) (hp : P p) (hF : ∀ x, s.Data P x → ¬ F x)
    (hD : ∀ i j, i < ktableStart → D i j → s'.pte p i j = s.pte p i j ∨ frameOf (s'.pte p i j) ∈ s.freePageList) :
    Serves s s' P p D := by
  refine ⟨h.mono (fun _ _ h => h) fun x hx hf => hF x hx hf, fun i j hi => ?_⟩
  by_cases hij : D i j
  · exact hD i j hi hij
  · exact .inl (h.pte p i j hp hi fun h => hij h.2)

theorem Serves.pte_cases (h : Serves s s' P p D) (hq : P q) (hi : i < ktableStart) :
    s'.pte q i j = s.pte q i j ∨ q = p ∧ frameOf (s'.pte q i j) ∈ s.freePageList := by
  by_cases hqp : q = p
  · subst hqp
    exact (h.fresh i j hi).imp_right fun hf => ⟨rfl, hf⟩
  · exact .inl (h.pte q i j hq hi fun h => hqp h.1)

end Reads

end Manrix
