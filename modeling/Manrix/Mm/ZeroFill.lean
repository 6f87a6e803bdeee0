import Manrix.Mm.KernelGrowth
import Manrix.Mm.PageFault

/-!
# Zero-fill memory

A fault on zero-fill memory maps the first free frame, after those that a new object needs for a slab of its cache.
Neither `alloc_zero_fill_page` nor `page_alloc` or `get_page` clears it, and neither does the release of a page, so a
process reads there what the last owner of the frame has left.  The bytes are 0 if, and only if, they were 0 while the
frame was on the list of free frames, and then the process cannot tell what else free frames hold:
`zero_fill_page_contents`.
-/

namespace Manrix

open Frames

variable {μ ε ω π κ : Type*}

def FrameZero (mem : Frame → BitVec 10 → BitVec 32) (x : Frame) : Prop := ∀ va, getByte mem (x.at va) = 0

private theorem frameZero_of_words {mem : Frame → BitVec 10 → BitVec 32} {x : Frame} (h : ∀ w, mem x w = 0) :
    FrameZero mem x := by
  intro va
  unfold getByte
  rw [frameOf_at, h]
  simp

section ZeroFill

variable {s s' t : PmapState π κ} {P : π → Prop} {p : π} {va : BitVec 32} {x : Frame}

theorem NewPage.byte {protection a : BitVec 32} {b : BitVec 8} (h : NewPage s s' P p va protection x)
    (hprot : protection < 0x1000) (ha : SamePage a va) (hb : s'.userByte p a = some b) :
    b = getByte s.mem (x.at a) := by
  obtain ⟨y, hy, rfl⟩ := Option.map_eq_some_iff.1 hb
  obtain ⟨-, -, hf⟩ := translate_some hy
  rw [ha.1, ha.2, h.entry, frameOf_base_entry _ hprot] at hf
  subst hf
  apply getByte_congr
  rw [frameOf_at, h.contents]

theorem PmapState.SpaceWf.writeFree (hs : s.SpaceWf P) {mem : Frame → BitVec 10 → BitVec 32}
    (hm : ∀ y, y ∉ s.freePageList → mem y = s.mem y) : Writes s { s with mem := mem } P (· ∈ s.freePageList) :=
  .of_mem hs hm (fun h => (hs.kernelWf.free_unused _ h).ne_kdir rfl) hs.userWf.dir_not_free hs.userWf.table_not_free

/-- Two faults, in states that differ in free frames only, that map the same frame: the reads are the same if its bytes
are. -/
theorem NewPage.same_reads {t' : PmapState π κ} {mem : Frame → BitVec 10 → BitVec 32} (hs : s.SpaceWf P) (hp : P p)
    (hm : ∀ y, y ∉ s.freePageList → mem y = s.mem y) (hx : ∀ a, getByte mem (x.at a) = getByte s.mem (x.at a))
    (h : NewPage s s' P p va (pageUser ||| pageRw) x)
    (h' : NewPage { s with mem := mem } t' P p va (pageUser ||| pageRw) x) (a : BitVec 32) :
    t'.userByte p a = s'.userByte p a := by
  have hw := hs.writeFree hm
  have hupde := hw.upde
  by_cases ha : SamePage a va
  · -- the page of the fault: the entries are the same, up to the frame of a new table
    have hpde : t'.upde p (addrToPdenum a) &&& accessBits false = s'.upde p (addrToPdenum a) &&& accessBits false := by
      rw [ha.1]
      by_cases h0 : s.upde p (addrToPdenum va) = 0
      · obtain ⟨f, hf⟩ := h.newTable h0
        obtain ⟨f', hf'⟩ := h'.newTable ((hupde p _ hp).trans h0)
        have hbits : (pagePresent ||| (pageUser ||| pageRw)) &&& accessBits false = accessBits false := by decide
        rw [hf, hf', entry_accessBits _ hbits, entry_accessBits _ hbits]
      · rw [h.upde p _ hp (.inr h0), h'.upde p _ hp (.inr (by rwa [hupde p _ hp])), hupde p _ hp]
    have hpte : t'.pte p (addrToPdenum a) (addrToPtenum a) = s'.pte p (addrToPdenum a) (addrToPtenum a) := by
      rw [ha.1, ha.2, h.entry, h'.entry]
    refine userByte_congr ?_ fun y hy => ?_
    · simp only [PmapState.translate]
      rw [hpde, hpte]
    · obtain ⟨-, -, hf⟩ := translate_some hy
      rw [ha.1, ha.2, h.entry, frameOf_base_entry _ (by decide)] at hf
      subst hf
      have h1 : getByte t'.mem (x.at a) = getByte mem (x.at a) := getByte_congr (by rw [frameOf_at, h'.contents])
      have h2 : getByte s'.mem (x.at a) = getByte s.mem (x.at a) := getByte_congr (by rw [frameOf_at, h.contents])
      rw [h1, h2, hx]
  · have hD : ¬ (p = p ∧ OnPage va (addrToPdenum a) (addrToPtenum a)) := fun h => ha h.2
    rw [h.toActs.userByte hs hp hD fun _ _ h => h, h'.toActs.userByte hw.wf hp hD fun _ _ h => h]
    exact hw.userByte hs hp fun y hy => (translate_data hs hp hy).not_free

end ZeroFill

/-- How many frames a new slab takes from the list: one for the slab, and the page tables with which the kernel maps it,
up to the first frame in a region that has a table. -/
def PmapState.slabFrames (s : PmapState π κ) : Nat :=
  (s.freePageList.takeWhile fun x => s.kpde x.region = 0).length + 1

/-- How many frames are gone from the list when `alloc_zero_fill_page` calls `page_alloc`. -/
def Machine.framesBefore (s : Machine μ ε ω π κ) (entry : ε) (new : NewObject ω) : Nat :=
  if (s.entry entry).object.isNone ∧ new.slab.isSome then s.pm.slabFrames else 0

private theorem slabFrames_congr {s t : PmapState π κ} (hf : t.freePageList = s.freePageList) (hk : t.kpde = s.kpde) :
    t.slabFrames = s.slabFrames := by
  unfold PmapState.slabFrames
  rw [hf, hk]

section Fault

variable [DecidableEq μ] [DecidableEq ε] [DecidableEq ω] [DecidableEq π] {s s' : Machine μ ε ω π κ} {P : π → Prop}
  {m : μ} {vm : Vm ε ω} {entry : ε} {new : NewObject ω} {va errorCode : BitVec 32} {fuel : Nat}
  {answer : Frame → BitVec 10 → BitVec 32} {e : FaultEnd}

private theorem kmemAllocPage_free {s pm : PmapState π κ} {kernelObject : BitVec 32} {x : Frame} (hw : s.KernelWf)
    (h : s.kmemAllocPage kernelObject = some (pm, x)) : pm.freePageList = s.freePageList.drop s.slabFrames := by
  unfold PmapState.kmemAllocPage at h
  split at h
  · cases h
  · rename_i page rest hfree
    obtain ⟨pm, he, hr⟩ := Option.map_eq_some_iff.1 h
    obtain ⟨rfl, rfl⟩ := Prod.mk.inj hr
    have hreach := (hw.free_unused page (hfree ▸ List.mem_cons_self ..)).reachable
    have hw₀ : PmapState.KernelWf { s with
        freePageList := rest
        pages := vmPageInsert (s.pages.modPage page fun p => { p with next := none }) page kernelObject page.base } :=
      hw.congr rfl rfl (fun _ => rfl) (hfree ▸ List.sublist_cons_self page rest)
    rw [pmapEnter_eq_enterFrame hw₀] at he
    rw [(enterFrame_chain hw₀ hreach he).2.1, PmapState.slabFrames, hfree, List.drop_succ_cons]
    rfl

omit [DecidableEq μ] in
private theorem entryObject_free {object : ω} (hw : s.pm.KernelWf) (h : entryObject s entry new = some (s', object)) :
    s'.freePageList = s.freePageList.drop (s.framesBefore entry new) := by
  unfold entryObject at h
  split at h
  · rename_i hobj
    cases h
    simp [Machine.framesBefore, hobj]
  · rename_i hobj
    obtain ⟨s₁, hs₁, hr⟩ := Option.map_eq_some_iff.1 h
    cases hr
    obtain ⟨s₂, hs₂, rfl⟩ := Option.map_eq_some_iff.1 hs₁
    split at hs₂
    · rename_i hslab
      cases hs₂
      simp [Machine.framesBefore, hslab, vmObjectCreate]
    · rename_i slab hslab
      obtain ⟨⟨pm, page⟩, hpm, rfl⟩ := Option.map_eq_some_iff.1 hs₂
      rw [Machine.framesBefore, if_pos (by simp [hobj, hslab])]
      exact kmemAllocPage_free hw hpm

private theorem zeroFill_newPage (hs : s.pm.SpaceWf P) (hp : P (s.pmap m)) (hv : va < kernelBase)
    (hl : vmMapLookupEntry (s.vm m) fuel va = some (vm, some entry))
    (hz : (s.entry entry).type.setWidth 32 &&& vmMapEntryZeroFill ≠ 0)
    (h : doPageFault s fuel m new va errorCode answer = some (s', e)) :
    ∃ x rest, s.freePageList.drop (s.framesBefore entry new) = x :: rest ∧
      NewPage s.pm s'.pm P (s.pmap m) (addrToPte va) (pageUser ||| pageRw) x := by
  rw [doPageFault_zeroFill hl hz] at h
  obtain ⟨st, hst, hr⟩ := Option.map_eq_some_iff.1 h
  cases hr
  obtain ⟨⟨s₀, object, x, rest, hobj, hfree, hn⟩, -⟩ :=
    allocZeroFillPage_newPage (s := s.setVm m vm) (P := P) hs hp hv hst
  rw [entryObject_free (s := s.setVm m vm) hs.kernelWf hobj, Machine.framesBefore, setVm_entry hl] at hfree
  exact ⟨x, rest, hfree, hn⟩

theorem zero_fill_page_contents (hs : s.pm.SpaceWf P) (hp : P (s.pmap m)) (hv : va < kernelBase)
    (hl : vmMapLookupEntry (s.vm m) fuel va = some (vm, some entry))
    (hz : (s.entry entry).type.setWidth 32 &&& vmMapEntryZeroFill ≠ 0)
    (h : doPageFault s fuel m new va errorCode answer = some (s', e)) :
    ∃ x rest, s.freePageList.drop (s.framesBefore entry new) = x :: rest ∧
      (FrameZero s'.mem (frameOf (s'.pm.pte (s.pmap m) (addrToPdenum va) (addrToPtenum va))) ↔ FrameZero s.mem x) ∧
      (∀ a b, SamePage a va → s'.pm.userByte (s.pmap m) a = some b → b = getByte s.mem (x.at a)) ∧
      ∀ mem t' e', (∀ y, y ∉ s.freePageList → mem y = s.mem y) → FrameZero s.mem x → FrameZero mem x →
        doPageFault { s with mem := mem } fuel m new va errorCode answer = some (t', e') →
        ∀ a, t'.pm.userByte (s.pmap m) a = s'.pm.userByte (s.pmap m) a := by
  obtain ⟨x, rest, hfree, hn⟩ := zeroFill_newPage hs hp hv hl hz h
  have hsame := samePage_addrToPte va
  refine ⟨x, rest, hfree, ?_, ?_, ?_⟩
  · have hpte := hn.entry
    rw [hsame.1, hsame.2] at hpte
    rw [hpte, frameOf_base_entry _ (by decide)]
    have hmem : s'.mem x = s.mem x := hn.contents
    have hbyte : ∀ a, getByte s'.mem (x.at a) = getByte s.mem (x.at a) :=
      fun a => getByte_congr (by rw [frameOf_at, hmem])
    unfold FrameZero
    simp only [hbyte]
  · intro a b ha
    exact hn.byte (by decide) ⟨ha.1.trans hsame.1.symm, ha.2.trans hsame.2.symm⟩
  · intro mem t' e' hm hx hx' ht a
    have hw : Writes s.pm { s.pm with mem := mem } P (· ∈ s.freePageList) := hs.writeFree hm
    obtain ⟨x', rest', hfree', hn'⟩ := zeroFill_newPage (s := { s with mem := mem }) hw.wf hp hv hl hz ht
    -- the kernel has the same tables, so the same frames are taken before
    have hslab : PmapState.slabFrames { s.pm with mem := mem } = s.pm.slabFrames :=
      slabFrames_congr rfl (hm _ fun h => (hs.kernelWf.free_unused _ h).ne_kdir rfl)
    have hbefore : Machine.framesBefore { s with mem := mem } entry new = s.framesBefore entry new :=
      if_congr Iff.rfl hslab rfl
    rw [hbefore] at hfree'
    obtain ⟨rfl, -⟩ := List.cons.inj (hfree.symm.trans hfree')
    exact hn.same_reads hs hp hm (fun a => (hx' a).trans (hx a).symm) hn' a

end Fault

theorem twoPmaps_pte {i j : BitVec 10} (hi : i < ktableStart) (h : twoPmaps.pte false i j &&& pagePresent ≠ 0) :
    i = 0 ∧ j = 5 := by
  have h0 : twoPmaps.upde false i ≠ 0 := fun h0 => h (by rw [PmapState.pte, if_pos h0]; rfl)
  obtain ⟨rfl, hx⟩ := (twoPmaps_upde h0).resolve_right fun h => absurd (h.1 ▸ hi) (by decide)
  rw [PmapState.pte, if_neg h0, hx] at h
  rcases twoPmaps_entry (x := 4) (i := j) (fun h' => h (by rw [h']; rfl)) with ⟨h, -⟩ | ⟨-, h⟩ | ⟨h, -⟩
  · exact absurd h (by decide)
  · exact ⟨rfl, h⟩
  · exact absurd h (by decide)

theorem twoPmaps_spaceWf : twoPmaps.SpaceWf (· = false) where
  kernelWf := twoPmaps_kernelWf
  userWf := twoPmaps_apart.userWf twoPmaps_distinct (by decide)
  kernelHalf := by
    rintro p rfl
    exact twoPmaps_apart.kernelHalf (by decide)
  data := by
    rintro p i j rfl hi hpres
    obtain ⟨rfl, rfl⟩ := twoPmaps_pte hi hpres
    have hframe : frameOf (twoPmaps.pte false 0 5) = 0x20 := by decide
    rw [hframe]
    refine ⟨⟨by decide, fun h => absurd (twoPmaps_ktable h) (by decide), by decide, by decide, ?_⟩, ?_⟩
    · rintro q rfl
      decide
    · rintro q rfl h
      exact absurd (twoPmaps_utable h) (by decide)

/-- A process with one entry, of the given type, and one page, the frame `0x20` at `0x5000`. -/
def oneProcess (type : BitVec 16) : Machine Bool (Fin 4) Bool Bool Unit where
  maps := fun m => ⟨if m then none else some 0, 0x1000, kernelBase - 1, none⟩
  entries := ⟨id, id⟩
  entry := fun _ => ⟨0x1000, 0x10000, some false, type, 0⟩
  entryFreed := fun e => e ≠ 0
  refCount := fun o => if o then 0 else 1
  objectFreed := id
  objectAttribute := fun _ => 0
  page := fun o => if o then [] else [0x20]
  pages := twoPmaps.pages
  freePageList := twoPmaps.freePageList
  vn := fun _ => ⟨0, 0, 0⟩
  objectAddr := fun _ => 0x100000
  pmap := id
  mem := twoPmaps.mem
  pdbr := twoPmaps.pdbr
  pmapObject := twoPmaps.pmapObject
  kernelObject := 0
  proclist := twoPmaps.proclist
  pmapOf := twoPmaps.pmapOf

theorem zero_fill_page_contents_clean : ∃ s',
    doPageFault (oneProcess 1) 1 false ⟨true, none⟩ 0x6000 4 (fun _ _ => 0) = some (s', .handled) ∧
      FrameZero s'.mem (frameOf (s'.pm.pte false 0 6)) := by
  obtain ⟨⟨s', e⟩, hs'⟩ : ∃ r, doPageFault (oneProcess 1) 1 false ⟨true, none⟩ 0x6000 4 (fun _ _ => 0) = some r :=
    Option.isSome_iff_exists.1 (by decide +kernel)
  have he : e = .handled := by
    have : (doPageFault (oneProcess 1) 1 false ⟨true, none⟩ 0x6000 4 (fun _ _ => 0)).map Prod.snd = some .handled := by
      decide +kernel
    rw [hs'] at this
    exact Option.some.inj this
  have hl : vmMapLookupEntry ((oneProcess 1).vm false) 1 0x6000 =
    some (((oneProcess 1).vm false).setHint (some 0), some 0) :=
    rfl
  obtain ⟨x, rest, hfree, hiff, -⟩ := zero_fill_page_contents (P := (· = false)) (s := oneProcess 1)
    twoPmaps_spaceWf rfl
    (by decide) hl (by decide) hs'
  obtain ⟨rfl, -⟩ := List.cons.inj hfree
  exact ⟨s', he ▸ hs', hiff.2 (frameZero_of_words fun w => by simp [oneProcess, twoPmaps])⟩

/-- Two processes with zero-fill memory, and one free frame. -/
def twoProcesses : Machine Bool Bool Bool Bool Unit where
  maps := fun m => ⟨some m, 0x1000, kernelBase - 1, none⟩
  entries := ⟨id, id⟩
  entry := fun _ => ⟨0x1000, 0x10000, none, 1, 0⟩
  entryFreed := fun _ => false
  refCount := fun _ => 0
  objectFreed := fun _ => true
  objectAttribute := fun _ => 0
  page := fun _ => []
  pages := ⟨fun _ => ⟨none, 0, 0, 0⟩, fun _ => none⟩
  freePageList := [0x10]
  vn := fun _ => ⟨0, 0, 0⟩
  objectAddr := fun o => if o then 0x100000 else 0x200000
  pmap := id
  mem := fun x i =>
    if x = 3 ∧ i = 0 then 0x4007 else if x = 5 ∧ i = 0 then 0x6007
    else if (x = 1 ∨ x = 3 ∨ x = 5) ∧ i = ktableStart then 0x2003 else 0
  pdbr := fun
    | .kernelMap => 1
    | .user b => if b then 5 else 3
  pmapObject := 0
  kernelObject := 0
  proclist := []
  pmapOf := fun _ => false

/-- The process `true` stores a byte, in zero-fill memory as well, and its object is released; the process `false` reads
the byte after its fault. -/
def recycledByte : Option (BitVec 8) := do
  let c : StoreCall Bool Bool := ⟨true, 0x5000, 0x41, 1, ⟨true, none⟩, fun _ _ => 0⟩
  let s ← userStore twoProcesses c -- the page fault
  let s ← userStore s c
  let vm ← freePages s.toVmState 1 true
  let r ← doPageFault { s with toVmState := vm } 1 false ⟨false, none⟩ 0x5000 4 fun _ _ => 0
  r.1.pm.userByte false 0x5000

theorem recycled_byte_read : recycledByte = some 0x41 := by
  decide +kernel

end Manrix
