import Manrix.Mm.UserSpace
import Manrix.Mm.VmObject

/-!
# Page faults (`arch/i386/memory.c`, `mm/vm_map.c`, `mm/vm_page.c`, `mm/vm_pager.c`)

The address maps and the objects, together with the page maps and the memory.  The pages of the objects are frames of
this memory, and `page_alloc`, `kmem_alloc` and `page_table_allocate` take them from one list.  A new object may need a
page as well, for a slab of the cache of the objects; whether it does depends on the cache, and is an argument.

`shadow` is a null pointer in all objects.  `page_base` is a macro that assigns to its argument, so addresses are
rounded where it is called.  Through `data_request` the pager fills the new pages with what it likes, or with nothing:
the result of `send_message` is not used.  The pager reaches these pages by `vm_share_addr` in its own map. It is not
one of the maps considered here, so what it writes there after its answer is not modelled.
-/

namespace Manrix

open Frames Function List

variable {μ ε ω π κ : Type*}

def vmMapEntryAnon : BitVec 32 := 8
def objectShadow : BitVec 32 := 4

/-- The fields of `struct vn_object` that `data_request` reads. -/
structure VnObject where
  blkSize : BitVec 32
  noloadStart : BitVec 32
  noloadEnd : BitVec 32

/-- What `data_request` asks for: a block, but not less than a page. -/
def VnObject.requestSize (vno : VnObject) : BitVec 32 :=
  if (0x1000 : BitVec 32).slt vno.blkSize then vno.blkSize else 0x1000

structure Machine (μ ε ω π κ : Type*) extends VmState μ ε ω Frame where
  vn : ω → VnObject
  /-- The address of an object, under which its pages are hashed. -/
  objectAddr : ω → BitVec 32
  /-- The field `pmap` of a map. -/
  pmap : μ → π
  mem : Frame → BitVec 10 → BitVec 32
  pdbr : Pmap π → Frame
  pmapObject : BitVec 32
  /-- The address of `kernel_object`. -/
  kernelObject : BitVec 32
  proclist : List κ
  pmapOf : κ → π

/-- The page maps and the memory. -/
def Machine.pm (s : Machine μ ε ω π κ) : PmapState π κ :=
  ⟨s.mem, s.pdbr, s.pages, s.freePageList, s.pmapObject, s.proclist, s.pmapOf⟩

def Machine.setPm (s : Machine μ ε ω π κ) (pm : PmapState π κ) : Machine μ ε ω π κ :=
  { s with
    mem := pm.mem, pdbr := pm.pdbr, pages := pm.pages, freePageList := pm.freePageList, pmapObject := pm.pmapObject
    proclist := pm.proclist, pmapOf := pm.pmapOf }

/-! ### The functions -/

section Functions

variable [DecidableEq μ] [DecidableEq ε] [DecidableEq ω] [DecidableEq π]

omit [DecidableEq ε] [DecidableEq ω] [DecidableEq π] in
def Machine.setVm (s : Machine μ ε ω π κ) (m : μ) (vm : Vm ε ω) : Machine μ ε ω π κ :=
  { s with toVmState := s.toVmState.setVm m vm }

omit [DecidableEq μ] [DecidableEq ε] [DecidableEq π] in
/-- `page_alloc` for an object.  If there are no free pages it goes on with a null pointer. -/
def pageAlloc (s : Machine μ ε ω π κ) (object : ω) (offset : BitVec 32) : Option (Machine μ ε ω π κ × Frame) :=
  match s.freePageList with
  | [] => none
  | page :: rest =>
    let pages := s.pages.modPage page fun p => { p with next := none, count := 1 }
    some ({ s with
      freePageList := rest, pages := vmPageInsert pages page (s.objectAddr object) (addrToPte offset)
      page := update s.page object (page :: s.page object) }, page)

/-- `kmem_alloc` for one page.  If there are no free pages it goes on with a null pointer. -/
def PmapState.kmemAllocPage (s : PmapState π κ) (kernelObject : BitVec 32) : Option (PmapState π κ × Frame) :=
  match s.freePageList with
  | [] => none
  | page :: rest =>
    let pages := s.pages.modPage page fun p => { p with next := none }
    let s := { s with freePageList := rest, pages := vmPageInsert pages page kernelObject page.base }
    (pmapEnter .kernelMap page.base page.kernelAddr pageRw s).map (·, page)

/-- What the cache of the objects supplies: an object and, if it has to grow for it, what is stored in the new slab. -/
structure NewObject (ω : Type*) where
  object : ω
  slab : Option (BitVec 10 → BitVec 32)

omit [DecidableEq μ] [DecidableEq ε] [DecidableEq ω] in
def Machine.kmemCacheGrow (s : Machine μ ε ω π κ) (slab : BitVec 10 → BitVec 32) : Option (Machine μ ε ω π κ) :=
  (s.pm.kmemAllocPage s.kernelObject).map fun r => s.setPm { r.1 with mem := update r.1.mem r.2 slab }

omit [DecidableEq μ] [DecidableEq ε] in
def Machine.createObject (s : Machine μ ε ω π κ) (new : NewObject ω) : Option (Machine μ ε ω π κ) :=
  let grown := match new.slab with
    | none => some s
    | some slab => s.kmemCacheGrow slab
  grown.map fun s => { s with toVmState := vmObjectCreate s.toVmState new.object }

omit [DecidableEq μ] in
/-- The object of the entry, which gets the new object if it has none. -/
def entryObject (s : Machine μ ε ω π κ) (entry : ε) (new : NewObject ω) : Option (Machine μ ε ω π κ × ω) :=
  match (s.entry entry).object with
  | some object => some (s, object)
  | none =>
    (s.createObject new).map fun s =>
      ({ s with entry := update s.entry entry { s.entry entry with object := some new.object } }, new.object)

omit [DecidableEq μ] in
def allocZeroFillPage (s : Machine μ ε ω π κ) (m : μ) (entry : ε) (new : NewObject ω) (address : BitVec 32) :
    Option (Machine μ ε ω π κ) :=
  match entryObject s entry new with
  | none => none
  | some (s, object) =>
    match pageAlloc s object (addrToPte address) with
    | none => none
    | some (s, page) =>
      (pmapEnter (.user (s.pmap m)) page.base (addrToPte address) (pageUser ||| pageRw) s.pm).map s.setPm

omit [DecidableEq μ] [DecidableEq ε] in
/-- The loop of `data_request`, with the pages it allocates. -/
def requestPages (m : μ) (object : ω) : Nat → BitVec 32 → Machine μ ε ω π κ → Option (Machine μ ε ω π κ × List Frame)
  | 0, _, s => some (s, [])
  | n + 1, addr, s =>
    match pageAlloc s object addr with
    | none => none
    | some (s, page) =>
      match pmapEnter (.user (s.pmap m)) page.base addr (pageRw ||| pageUser) s.pm with
      | none => none
      | some pm => (requestPages m object n (addr + 0x1000) (s.setPm pm)).map fun r => (r.1, page :: r.2)

omit [DecidableEq μ] in
/-- `answer` is what the pager puts into the pages. -/
def dataRequest (s : Machine μ ε ω π κ) (m : μ) (entry : ε) (new : NewObject ω) (va : BitVec 32)
    (answer : Frame → BitVec 10 → BitVec 32) : Option (Machine μ ε ω π κ) :=
  match (s.entry entry).object with
  | none => none -- a null pointer
  | some object =>
    let vno := s.vn object
    if vno.noloadStart ≤ va ∧ va ≤ vno.noloadEnd then allocZeroFillPage s m entry new va
    else
      (requestPages m object (vno.requestSize.toNat / 0x1000) (addrToPte va) s).map fun r =>
        { r.1 with mem := fun x => if x ∈ r.2 then answer x else r.1.mem x }

omit [DecidableEq μ] [DecidableEq ε] in
/-- `handle_cow` once it has found the page: `page2` gets its contents. -/
def copyPage (s : Machine μ ε ω π κ) (fuel : Nat) (m : μ) (shadow : ω) (page : Frame) (addr : BitVec 32) :
    Option (Machine μ ε ω π κ) :=
  match pageAlloc s shadow addr with
  | none => none
  | some (s, page2) =>
    match pmapEnter (.user (s.pmap m)) page2.base addr (pageRw ||| pageUser) s.pm with
    | none => none
    | some pm =>
      match pmapEnter (.user (s.pmap m)) page.base page.kernelAddr (pageRw ||| pageUser) pm with
      | none => none
      | some pm =>
        let pm := { pm with mem := update pm.mem page2 (pm.mem page) }
        (pmapRemove pm fuel (.user (s.pmap m)) page.kernelAddr (page.base + 0x1000 + kernelBase)).map s.setPm

omit [DecidableEq μ] [DecidableEq ε] in
/-- The map after the fault and the returned value. -/
def handleCow (s : Machine μ ε ω π κ) (fuel : Nat) (m : μ) (entry : ε) (new : NewObject ω) (offset : BitVec 32) :
    Option (Machine μ ε ω π κ × Int) :=
  match (s.entry entry).object with
  | none => none -- a null pointer
  | some object =>
    let addr := addrToPte offset
    match vmPageLookup s.pages fuel (s.objectAddr object) addr with
    | some (.result none) => some (s, -1)
    | some (.result (some page)) =>
      let pm := if s.refCount object = 1
        then pmapProtect s.pm fuel (.user (s.pmap m)) addr (addr + 0x1000) vmPageWrite else some s.pm
      match pm with
      | none => none
      | some pm =>
        let s := s.setPm pm
        let shadow := if s.objectAttribute object &&& objectShadow = 0
          then (s.createObject new).map (·, new.object) else some (s, object)
        match shadow with
        | none => none
        | some (s, shadow) => (copyPage s fuel m shadow page addr).map fun s => (s, 0)
    | _ => none

/-- The fault was handled, or the thread gets a `SIGSEGV`. -/
inductive FaultEnd where
  | handled
  | segv
  deriving DecidableEq

/-- `new` is what the cache supplies if an object is created. -/
def doPageFault (s : Machine μ ε ω π κ) (fuel : Nat) (m : μ) (new : NewObject ω) (address errorCode : BitVec 32)
    (answer : Frame → BitVec 10 → BitVec 32) : Option (Machine μ ε ω π κ × FaultEnd) :=
  match vmMapLookupEntry (s.vm m) fuel address with
  | none => none
  | some (vm, entry) =>
    let s := s.setVm m vm
    match entry with
    | none => some (s, .segv)
    | some entry =>
      let type := (s.entry entry).type.setWidth 32
      if type &&& vmMapEntryZeroFill ≠ 0 then (allocZeroFillPage s m entry new address).map (·, .handled)
      else if type &&& vmMapEntryAnon ≠ 0 then some (s, .segv)
      else if errorCode &&& 1 = 0 then (dataRequest s m entry new address answer).map (·, .handled)
      else if errorCode &&& 2 ≠ 0 then (handleCow s fuel m entry new address).map fun r => (r.1, .handled)
      else (allocZeroFillPage s m entry new address).map (·, .handled)

def vmProtect (s : Machine μ ε ω π κ) (fuel : Nat) (m : μ) (new new' : ε) (offset size prot : BitVec 32) :
    Option (Machine μ ε ω π κ × Int) :=
  match vmMapLookupEntry (s.vm m) fuel offset with
  | none => none
  | some (vm, none) => some (s.setVm m vm, errEnomem)
  | some (vm, some entry) =>
    match vmMapEntryClip vm new entry offset with
    | none => none
    | some (vm, none) => some (s.setVm m vm, errEnomem)
    | some (vm, some newentry) =>
      match vmMapEntryClip vm new' newentry (offset + size) with
      | none => none
      | some (vm, _) =>
        let vm := vm.modEntry newentry fun e => { e with attr := e.attr ||| prot.setWidth 16 }
        let s := s.setVm m vm
        (pmapProtect s.pm fuel (.user (s.pmap m)) offset (offset + size) prot).map fun pm => (s.setPm pm, 0)

/-- `vm_map_fork` with `DUP_ALL`; `new` and `child` are the maps that the caches supply, `news` the entries. -/
def vmMapFork (s : Machine μ ε ω π κ) (fuel : Nat) (news : List ε) (new map : μ) (child : π) :
    Option (Machine μ ε ω π κ) :=
  let newMap : VmMap ε := { vmentry := none, start := 0x200000, endAddr := kernelBase - 1, hint := none }
  let vm : VmState μ ε ω Frame := { s.toVmState with maps := update s.maps new newMap }
  match vmEntryCopy vm fuel news new map with
  | none => none
  | some vm =>
    let s := { s with toVmState := vm }
    (pmapCopy child (s.pmap map) s.pm).map fun pm =>
      { s.setPm pm with pmap := update s.pmap new child }

end Functions

/-! ### What the functions do to the maps -/

section Effects

variable [DecidableEq μ] [DecidableEq ε] [DecidableEq ω] [DecidableEq π] {s s₁ s' : Machine μ ε ω π κ}
  {pm : PmapState π κ} {P : π → Prop} {p : π} {m : μ} {entry : ε} {object : ω} {new : NewObject ω} {x page : Frame}
  {va offset protection : BitVec 32} {fuel : Nat} {K : BitVec 32 → Prop}

omit [DecidableEq μ] [DecidableEq ε] [DecidableEq π] in
theorem pageAlloc_some (h : pageAlloc s object offset = some (s', x)) :
    ∃ rest pages, s.freePageList = x :: rest ∧ s'.pm = { s.pm with freePageList := rest, pages := pages } ∧
      s'.pmap = s.pmap := by
  unfold pageAlloc at h
  split at h
  · cases h
  · rename_i page rest hfree
    cases h
    exact ⟨rest, _, hfree, rfl, rfl⟩

/-- The kernel has taken free frames for its own use.  The maps of the processes do not see it, and the other free
frames are as before. -/
structure Supplies (s s' : PmapState π κ) (P : π → Prop) (p : π) : Prop
    extends Acts s s' P p (fun _ _ => False) fun _ => False where
  user : ∀ q i, P q → i < ktableStart → s'.upde q i = s.upde q i
  contents : ∀ y ∈ s'.freePageList, s'.mem y = s.mem y

omit [DecidableEq π] in
theorem Supplies.refl {s : PmapState π κ} (hs : s.SpaceWf P) : Supplies s s P p :=
  ⟨.refl hs, fun _ _ _ _ => rfl, fun _ _ => rfl⟩

omit [DecidableEq π] in
theorem Supplies.acts {s s' : PmapState π κ} {D : BitVec 10 → BitVec 10 → Prop} {F : Frame → Prop}
    (h : Supplies s s' P p) : Acts s s' P p D F :=
  h.toActs.mono (fun _ _ h => h.elim) fun _ _ h => h.elim

omit [DecidableEq π] in
theorem Grown.acts {s s' : PmapState π κ} {taken : List Frame} {W D : BitVec 10 → BitVec 10 → Prop} {F : Frame → Prop}
    (h : Grown s s' taken W) (hs : s.SpaceWf P) (hw : s'.KernelWf) : Acts s s' P p D F := by
  have hu := hs.userWf
  have hpte : ∀ q i j, P q → i < ktableStart → s'.pte q i j = s.pte q i j := by
    intro q i j hq hi
    rw [pte_eq_table, pte_eq_table, h.table_user hu hq hi]
  refine ⟨⟨hw, h.userWf hu, fun q hq => h.kernelHalf hu hq (hs.kernelHalf q hq), ?_⟩,
    fun x hx => h.free ▸ mem_append_right _ hx, fun x hx => (h.data hu hx).1, fun x hx _ => (h.data hu hx).2, ?_,
    fun q i j hq hi _ => hpte q i j hq hi⟩
  · intro q i j hq hi hpres
    rw [hpte q i j hq hi] at hpres ⊢
    exact (h.data hu (hs.data q i j hq hi hpres)).1
  · rintro q i hq (⟨-, hi⟩ | h0)
    · exact h.upde hu hq hi
    · refine (h.upde_kernel hu hq i).resolve_left fun hnew => h0 ?_
      -- an entry of the kernel half that the map has is the one of the kernel map
      rcases hs.kernelHalf q hq i (h.new i hnew.1 hnew.2.1).1 with he | he
      · exact he
      · exact he.trans hnew.1

/-- A slab is taken from the list, mapped for the kernel and filled. -/
private theorem kmemAllocPage_supplies {s pm : PmapState π κ} {kernelObject : BitVec 32} (slab : BitVec 10 → BitVec 32)
    (hs : s.SpaceWf P) (h : s.kmemAllocPage kernelObject = some (pm, x)) :
    Supplies s { pm with mem := update pm.mem x slab } P p := by
  unfold PmapState.kmemAllocPage at h
  split at h
  · cases h
  · rename_i page rest hfree
    obtain ⟨pm, he, hr⟩ := Option.map_eq_some_iff.1 h
    obtain ⟨rfl, rfl⟩ := Prod.mk.inj hr
    have hx : page ∈ s.freePageList := hfree ▸ mem_cons_self ..
    have hux := hs.kernelWf.free_unused page hx
    obtain ⟨htake, hdata⟩ := Acts.takeFrame (p := p) (D := fun _ _ => False) (F := fun _ => False)
      (vmPageInsert (s.pages.modPage page fun p => { p with next := none }) page kernelObject page.base) hs hfree
    obtain ⟨taken, hg, hw, -⟩ := pmapEnterWith_kernel pageTableAllocate_ok htake.wf.kernelWf
      (kernelAddr_pdenum hux.reachable) (by decide) he
    have hpage := (hg.data htake.wf.userWf hdata).1
    have hgrown := htake.trans (hg.acts htake.wf hw)
    have hfill : Writes pm { pm with mem := update pm.mem page slab } P (· = page) :=
      .of_data hgrown.wf (fun y hy => hy ▸ hpage) fun y hy => update_of_ne hy ..
    refine ⟨((hgrown.mono (fun _ _ h => h) fun _ _ h => h.elim).trans hfill.acts).mono (fun _ _ h => h)
      fun y hy hyp => hy.not_free (hyp ▸ hx), ?_, ?_⟩
    · intro q i hq hi
      rw [hfill.upde q i hq]
      exact hg.upde htake.wf.userWf hq hi
    · intro y hy
      have hne : y ≠ page := fun h => hpage.not_free (h ▸ hy)
      have hnd := htake.wf.kernelWf.free_nodup
      rw [hg.free, nodup_append] at hnd
      have huy := htake.wf.kernelWf.free_unused y (hg.free.symm ▸ mem_append_right _ hy)
      exact (update_of_ne hne ..).trans
        (hg.other y (fun ht => hnd.2.2 y ht y hy rfl) huy.ne_kdir huy.not_table huy.not_proc)

omit [DecidableEq μ] [DecidableEq ε] in
private theorem createObject_supplies (hs : s.pm.SpaceWf P) (h : s.createObject new = some s') :
    Supplies s.pm s'.pm P p ∧ s'.pmap = s.pmap := by
  obtain ⟨s₁, hs₁, rfl⟩ := Option.map_eq_some_iff.1 h
  split at hs₁
  · cases hs₁
    exact ⟨.refl hs, rfl⟩
  · rename_i slab hslab
    obtain ⟨⟨pm, page⟩, hpm, rfl⟩ := Option.map_eq_some_iff.1 hs₁
    exact ⟨kmemAllocPage_supplies slab hs hpm, rfl⟩

omit [DecidableEq μ] in
private theorem entryObject_supplies (hs : s.pm.SpaceWf P) (h : entryObject s entry new = some (s', object)) :
    Supplies s.pm s'.pm P p ∧ s'.pmap = s.pmap := by
  unfold entryObject at h
  split at h
  · cases h
    exact ⟨.refl hs, rfl⟩
  · obtain ⟨s₁, hs₁, hr⟩ := Option.map_eq_some_iff.1 h
    cases hr
    have hsup := createObject_supplies (p := p) hs hs₁
    exact hsup

/-- The map `p` has a free frame mapped now, with the contents that the frame had. -/
structure NewPage (s s' : PmapState π κ) (P : π → Prop) (p : π) (va protection : BitVec 32) (x : Frame) : Prop
    extends Serves s s' P p (OnPage va) where
  taken : x ∈ s.freePageList
  page : s'.Data P x
  contents : s'.mem x = s.mem x
  entry : s'.pte p (addrToPdenum va) (addrToPtenum va) = addrToPte x.base ||| pagePresent ||| protection
  newTable : s.upde p (addrToPdenum va) = 0 →
    ∃ t : Frame, s'.upde p (addrToPdenum va) = addrToPte t.base ||| pagePresent ||| protection

omit [DecidableEq μ] [DecidableEq ε] in
theorem pageAlloc_enter (hs : s.pm.SpaceWf P) (hp : P (s.pmap m)) (hv : va < kernelBase) (hprot : protection < 0x1000)
    (ha : pageAlloc s object offset = some (s₁, x))
    (he : pmapEnter (.user (s₁.pmap m)) x.base va protection s₁.pm = some pm) :
    NewPage s.pm pm P (s.pmap m) va protection x := by
  obtain ⟨rest, pages, hfree, hpm, hmap⟩ := pageAlloc_some ha
  have hx : x ∈ s.freePageList := hfree ▸ mem_cons_self ..
  obtain ⟨hacts, hdata⟩ := Acts.takeFrame (p := s.pmap m) (D := OnPage va) (F := fun _ => False) pages hs hfree
  rw [hpm, hmap] at he
  obtain ⟨h₁, hpte, hupde⟩ := pmapEnter_acts (F := fun _ => False) hacts.wf hp hv hprot
    (by rw [frameOf_base]; exact hdata) he
  refine ⟨(hacts.trans h₁).serves hp (fun _ _ h => h) ?_, hx, h₁.data x hdata, h₁.mem x hdata id, hpte, hupde⟩
  rintro i j - ⟨rfl, rfl⟩
  rw [hpte, frameOf_base_entry _ hprot]
  exact .inr hx

omit [DecidableEq π] in
theorem Supplies.serves {s s' s₂ : PmapState π κ} {D : BitVec 10 → BitVec 10 → Prop} (h : Supplies s s' P p) (hp : P p)
    (h₂ : Serves s' s₂ P p D) : Serves s s₂ P p D :=
  (h.acts.serves hp (fun _ _ h => h) fun i j hi _ => .inl (h.toActs.pte p i j hp hi fun h => h.2)).trans h₂

omit [DecidableEq π] in
theorem Supplies.newPage {s s' s₂ : PmapState π κ} (h : Supplies s s' P p) (hp : P p) (hv : va < kernelBase)
    (hn : NewPage s' s₂ P p va protection x) : NewPage s s₂ P p va protection x where
  toServes := h.serves hp hn.toServes
  taken := h.free hn.taken
  page := hn.page
  contents := hn.contents.trans (h.contents x hn.taken)
  entry := hn.entry
  newTable h0 := hn.newTable ((h.user p _ hp ((addrToPdenum_lt_iff va).2 hv)).trans h0)

omit [DecidableEq μ] in
theorem allocZeroFillPage_newPage (hs : s.pm.SpaceWf P) (hp : P (s.pmap m)) (hv : va < kernelBase)
    (h : allocZeroFillPage s m entry new va = some s') :
    (∃ s₀ object x rest, entryObject s entry new = some (s₀, object) ∧ s₀.freePageList = x :: rest ∧
      NewPage s.pm s'.pm P (s.pmap m) (addrToPte va) (pageUser ||| pageRw) x) ∧ s'.pmap = s.pmap := by
  unfold allocZeroFillPage at h
  split at h
  · cases h
  · rename_i s₀ object hobj
    split at h
    · cases h
    · rename_i s₁ page ha
      obtain ⟨pm, he, rfl⟩ := Option.map_eq_some_iff.1 h
      obtain ⟨rest, -, hfree, -, hmap₁⟩ := pageAlloc_some ha
      obtain ⟨hsup, hmap⟩ := entryObject_supplies (P := P) (p := s.pmap m) hs hobj
      have hn := pageAlloc_enter hsup.wf (by rwa [hmap]) (addrToPte_lt hv) (by decide) ha he
      rw [hmap] at hn
      exact ⟨⟨s₀, object, page, rest, hobj, hfree, hsup.newPage hp (addrToPte_lt hv) hn⟩, hmap₁.trans hmap⟩

/-- The addresses of the pages that `data_request` allocates. -/
def requestedPages : Nat → BitVec 32 → List (BitVec 32)
  | 0, _ => []
  | n + 1, addr => addr :: requestedPages n (addr + 0x1000)

def OnPages (K : BitVec 32 → Prop) (i j : BitVec 10) : Prop := ∃ a, K a ∧ OnPage a i j

omit [DecidableEq μ] [DecidableEq ε] in
private theorem requestPages_serves {n : Nat} {xs : List Frame} (hs : s.pm.SpaceWf P) (hp : P (s.pmap m))
    (hK : ∀ a ∈ requestedPages n va, a < kernelBase ∧ K a) (h : requestPages m object n va s = some (s', xs)) :
    Serves s.pm s'.pm P (s.pmap m) (OnPages K) ∧ s'.pmap = s.pmap ∧ ∀ x ∈ xs, x ∈ s.freePageList ∧ s'.pm.Data P x := by
  induction n generalizing s va xs with
  | zero =>
    cases h
    exact ⟨.refl hs, rfl, by simp⟩
  | succ n ih =>
    have hva := hK va (mem_cons_self ..)
    rw [requestPages] at h
    split at h
    · cases h
    · rename_i s₁ page ha
      split at h
      · cases h
      · rename_i pm he
        obtain ⟨r, hr, hr'⟩ := Option.map_eq_some_iff.1 h
        cases hr'
        have hn := pageAlloc_enter hs hp hva.1 (by decide) ha he
        obtain ⟨_, _, -, -, hmap⟩ := pageAlloc_some ha
        have hp₁ : P ((s₁.setPm pm).pmap m) := by
          change P (s₁.pmap m)
          rwa [hmap]
        obtain ⟨hserves, hmap', hxs⟩ := ih (s := s₁.setPm pm) hn.wf hp₁
          (fun a ha => hK a (mem_cons_of_mem _ ha)) hr
        have hmap₂ : (s₁.setPm pm).pmap = s.pmap := hmap
        rw [hmap₂] at hserves hmap'
        refine ⟨(hn.toServes.mono fun i j hij => ⟨va, hva.2, hij⟩).trans hserves, hmap', ?_⟩
        intro x hx
        rcases mem_cons.1 hx with rfl | hx
        · exact ⟨hn.taken, hserves.data _ hn.page⟩
        · exact ⟨hn.free (hxs x hx).1, (hxs x hx).2⟩

omit [DecidableEq μ] in
private theorem dataRequest_serves {answer : Frame → BitVec 10 → BitVec 32} (hs : s.pm.SpaceWf P) (hp : P (s.pmap m))
    (hv : va < kernelBase) (hK : ∀ object, (s.entry entry).object = some object →
      if (s.vn object).noloadStart ≤ va ∧ va ≤ (s.vn object).noloadEnd then K va
      else ∀ a ∈ requestedPages ((s.vn object).requestSize.toNat / 0x1000) (addrToPte va), a < kernelBase ∧ K a)
    (h : dataRequest s m entry new va answer = some s') :
    Serves s.pm s'.pm P (s.pmap m) (OnPages K) ∧ s'.pmap = s.pmap := by
  unfold dataRequest at h
  split at h
  · cases h
  · rename_i object hobj
    have hK' := hK object hobj
    dsimp only at h
    split at h
    · rename_i hload
      rw [if_pos hload] at hK'
      obtain ⟨⟨-, -, x, -, -, -, hn⟩, hmap⟩ := allocZeroFillPage_newPage hs hp hv h
      exact ⟨hn.toServes.mono fun i j hij => ⟨va, hK', hij.1.trans (samePage_addrToPte va).1,
        hij.2.trans (samePage_addrToPte va).2⟩, hmap⟩
    · rename_i hload
      rw [if_neg hload] at hK'
      obtain ⟨⟨s₁, xs⟩, hr, rfl⟩ := Option.map_eq_some_iff.1 h
      obtain ⟨hserves, hmap, hxs⟩ := requestPages_serves hs hp hK' hr
      refine ⟨?_, hmap⟩
      -- what the pager writes goes to frames that were free
      have hw : Writes s₁.pm { s₁.pm with mem := fun x => if x ∈ xs then answer x else s₁.mem x } P (· ∈ xs) :=
        .of_data hserves.wf (fun x hx => (hxs x hx).2) fun x hx => if_neg hx
      refine ((hserves.toActs.mono (fun _ _ h => h) fun _ _ h => h.elim).trans hw.acts).serves hp
        (fun x hx hm => hx.not_free (hxs x hm).1) fun i j hi _ => ?_
      have hfresh := hserves.fresh i j hi
      rw [← hw.pte (s.pmap m) i j hp hi] at hfresh
      exact hfresh

/-- The page can be mapped at its `KERNEL_BASE` address and removed again: the map has a table there, and the four bytes
that `pmap_remove` clears are in this table. -/
structure CowOk (s : PmapState π κ) (p : π) (page : Frame) : Prop where
  reachable : page.Reachable
  table : s.upde p (addrToPdenum page.kernelAddr) ≠ 0
  inside : ∀ k : BitVec 32, k < 4 →
    frameOf (removeAddr (s.upde p (addrToPdenum page.kernelAddr)) page.kernelAddr + k) =
      frameOf (s.upde p (addrToPdenum page.kernelAddr))

omit [DecidableEq π] in
theorem CowOk.keep {s s' : PmapState π κ} (h : CowOk s p page) (hp : P p)
    (hkeep : ∀ q i, P q → s.upde q i ≠ 0 → s'.upde q i = s.upde q i) : CowOk s' p page := by
  have he := hkeep p _ hp h.table
  refine ⟨h.reachable, ?_, ?_⟩
  · rw [he]
    exact h.table
  · rw [he]
    exact h.inside

theorem CowOk.enter {s s' : PmapState π κ} (hok : CowOk s p page) (hs : s.SpaceWf P) (hp : P p)
    (h : pmapEnter (.user p) page.base page.kernelAddr protection s = some s') : Writes s s' P fun _ => False := by
  rw [pmapEnter_kernelPage (hs.userWf.dir_ne_zero p hp) hok.table h]
  exact (hs.ktable hp (kernelAddr_pdenum hok.reachable) hok.table).writes hs fun y hy => setWord_of_ne_frame hy

theorem base_add_kernelBase (page : Frame) : page.base + 0x1000 + kernelBase = page.kernelAddr + 0x1000 := by
  unfold Frame.kernelAddr
  bv_omega

omit [DecidableEq π] in
theorem CowOk.remove {s s' : PmapState π κ} (hok : CowOk s p page) (hs : s.SpaceWf P) (hp : P p)
    (h : pmapRemove s fuel (.user p) page.kernelAddr (page.base + 0x1000 + kernelBase) = some s') :
    Writes s s' P fun _ => False := by
  rw [base_add_kernelBase] at h
  rcases pmapRemove_page (hs.userWf.dir_ne_zero p hp) h with rfl | rfl
  · exact .refl hs
  · refine (hs.ktable hp (kernelAddr_pdenum hok.reachable) hok.table).writes hs fun y hy => clearWord_of_ne fun k hk =>
      ?_
    rw [hok.inside k hk]
    exact hy

omit [DecidableEq μ] [DecidableEq ε] in
/-- `handle_cow` once the page is found: the first free frame is mapped. -/
theorem copyPage_acts {shadow : ω} (hs : s.pm.SpaceWf P) (hp : P (s.pmap m)) (hv : va < kernelBase)
    (hok : CowOk s.pm (s.pmap m) page) (h : copyPage s fuel m shadow page va = some s') :
    Acts s.pm s'.pm P (s.pmap m) (OnPage va) (fun _ => False) ∧
      frameOf (s'.pm.pte (s.pmap m) (addrToPdenum va) (addrToPtenum va)) ∈ s.freePageList ∧ s'.pmap = s.pmap := by
  have hi := (addrToPdenum_lt_iff va).2 hv
  unfold copyPage at h
  split at h
  · cases h
  · rename_i s₁ page2 ha
    split at h
    · cases h
    · rename_i pm₂ he
      have hn := pageAlloc_enter hs hp hv (by decide) ha he
      obtain ⟨_, _, -, -, hmap⟩ := pageAlloc_some ha
      rw [hmap] at h
      split at h
      · cases h
      · rename_i pm₃ hk
        obtain ⟨pm₅, hr, rfl⟩ := Option.map_eq_some_iff.1 h
        have hok₂ : CowOk pm₂ (s.pmap m) page := hok.keep hp fun q i hq h0 => hn.upde q i hq (.inr h0)
        have hw₃ := hok₂.enter hn.wf hp hk
        have hok₃ : CowOk pm₃ (s.pmap m) page := hok₂.keep hp fun q i hq _ => hw₃.upde q i hq
        have hw₄ : Writes pm₃ { pm₃ with mem := update pm₃.mem page2 (pm₃.mem page) } P (· = page2) :=
          .of_data hw₃.wf (fun y hy => hy ▸ hw₃.data _ hn.page) fun y hy => update_of_ne hy ..
        have hw₅ := (hok₃.keep hp fun q i hq _ => hw₄.upde q i hq).remove hw₄.wf hp hr
        -- of the frames in use none has changed: `page2` was free
        have ha₃ : Acts s.pm pm₃ P (s.pmap m) (OnPage va) (· = page2) :=
          (hn.toActs.trans hw₃.acts).mono (fun _ _ h => h) fun _ _ h => h.elim
        have ha₄ := (ha₃.trans hw₄.acts).mono (fun _ _ h => h) fun y hy hy2 => hy.not_free (hy2 ▸ hn.taken)
        refine ⟨ha₄.trans hw₅.acts, ?_, hmap⟩
        · have hpte : pm₅.pte (s.pmap m) (addrToPdenum va) (addrToPtenum va) =
              addrToPte page2.base ||| pagePresent ||| (pageRw ||| pageUser) := by
            rw [hw₅.pte _ _ _ hp hi, hw₄.pte _ _ _ hp hi, hw₃.pte _ _ _ hp hi, hn.entry]
          change frameOf (pm₅.pte _ _ _) ∈ _
          rw [hpte, frameOf_base_entry _ (by decide)]
          exact hn.taken

omit [DecidableEq μ] [DecidableEq ε] in
/-- `handle_cow` on a page for which the map has a table. -/
private theorem handleCow_serves {r : Int} (hs : s.pm.SpaceWf P) (hp : P (s.pmap m)) (hv : va < kernelBase)
    (h0 : s.pm.upde (s.pmap m) (addrToPdenum va) ≠ 0) (hok : ∀ object page, (s.entry entry).object = some object →
      vmPageLookup s.pages fuel (s.objectAddr object) (addrToPte va) = some (.result (some page)) →
      K va ∧ CowOk s.pm (s.pmap m) page) (h : handleCow s fuel m entry new va = some (s', r)) :
    Serves s.pm s'.pm P (s.pmap m) (OnPages K) ∧ s'.pmap = s.pmap := by
  unfold handleCow at h
  split at h
  · cases h
  · rename_i object hobj
    dsimp only at h
    split at h
    · cases h
      exact ⟨.refl hs, rfl⟩
    · rename_i page hpage
      obtain ⟨hK, hcow⟩ := hok object page hobj hpage
      split at h
      · cases h
      · rename_i pm hprot
        have hv' := addrToPte_lt hv
        have h0' : s.pm.upde (s.pmap m) (addrToPdenum (addrToPte va)) ≠ 0 := by
          rw [(samePage_addrToPte va).1]
          exact h0
        have ha : Acts s.pm pm P (s.pmap m) (OnPage (addrToPte va)) fun _ => False := by
          split at hprot
          · exact (pmapProtect_acts hs hp hv' h0' hprot).1
          · rw [← Option.some.inj hprot]
            exact .refl hs
        split at h
        · cases h
        · rename_i st shadow hshadow
          -- the shadow object is a new one or not
          have hsup : Supplies pm st.pm P (s.pmap m) ∧ st.pmap = s.pmap := by
            split at hshadow
            · obtain ⟨s₁, hs₁, hr⟩ := Option.map_eq_some_iff.1 hshadow
              cases hr
              exact createObject_supplies (s := s.setPm pm) ha.wf hs₁
            · cases hshadow
              exact ⟨.refl ha.wf, rfl⟩
          obtain ⟨hsup, hmap⟩ := hsup
          have ha₁ := ha.trans hsup.acts
          obtain ⟨s₂, hst, hr⟩ := Option.map_eq_some_iff.1 h
          cases hr
          have hcow' : CowOk st.pm (st.pmap m) page := by
            rw [hmap]
            exact hcow.keep hp fun q i hq h0 => ha₁.upde q i hq (.inr h0)
          obtain ⟨ha', hfree, hmap'⟩ := copyPage_acts ha₁.wf (by rwa [hmap]) hv' hcow' hst
          rw [hmap] at ha' hfree
          refine ⟨((ha₁.trans ha').serves hp (fun _ _ h => h) ?_).mono ?_, hmap'.trans hmap⟩
          · rintro i j - ⟨rfl, rfl⟩
            exact .inr (ha₁.free hfree)
          · rintro i j ⟨rfl, rfl⟩
            exact ⟨va, hK, samePage_addrToPte va⟩
    · cases h

/-! ### Stores -/

/-- The error code of the fault that a store by a process raises. -/
def storeError (present : Bool) : BitVec 32 := if present then 7 else 6

/-- The page has a present entry. -/
def PmapState.Resident (s : PmapState π κ) (p : π) (va : BitVec 32) : Bool :=
  s.upde p (addrToPdenum va) &&& pagePresent ≠ 0 && s.pte p (addrToPdenum va) (addrToPtenum va) &&& pagePresent ≠ 0

/-- A store by a process with the map `m`, and what is supplied to the fault that it may raise. -/
structure StoreCall (μ ω : Type*) where
  m : μ
  va : BitVec 32
  byte : BitVec 8
  fuel : Nat
  new : NewObject ω
  answer : Frame → BitVec 10 → BitVec 32

/-- The store is made, or it faults and the fault is handled.  The segments of a process end at `KERNEL_BASE`. -/
def userStore (s : Machine μ ε ω π κ) (c : StoreCall μ ω) : Option (Machine μ ε ω π κ) :=
  match s.pm.store (s.pmap c.m) c.va c.byte with
  | some pm => some (s.setPm pm)
  | none =>
    if c.va < kernelBase then
      (doPageFault s c.fuel c.m c.new c.va (storeError (s.pm.Resident (s.pmap c.m) c.va)) c.answer).map Prod.fst
    else none

/-- The fault that a store raises changes entries of the pages `K` only. -/
structure FaultOk (s : Machine μ ε ω π κ) (c : StoreCall μ ω) (entry : ε) (K : BitVec 32 → Prop) : Prop where
  zeroFill : (s.entry entry).type.setWidth 32 &&& vmMapEntryZeroFill ≠ 0 → K c.va
  request : (s.entry entry).type.setWidth 32 &&& vmMapEntryZeroFill = 0 →
    (s.entry entry).type.setWidth 32 &&& vmMapEntryAnon = 0 → ¬ s.pm.Resident (s.pmap c.m) c.va →
    ∀ object, (s.entry entry).object = some object →
      if (s.vn object).noloadStart ≤ c.va ∧ c.va ≤ (s.vn object).noloadEnd then K c.va
      else ∀ a ∈ requestedPages ((s.vn object).requestSize.toNat / 0x1000) (addrToPte c.va), a < kernelBase ∧ K a
  cow : (s.entry entry).type.setWidth 32 &&& vmMapEntryZeroFill = 0 →
    (s.entry entry).type.setWidth 32 &&& vmMapEntryAnon = 0 → s.pm.Resident (s.pmap c.m) c.va →
    ∀ object page, (s.entry entry).object = some object →
      vmPageLookup s.pages c.fuel (s.objectAddr object) (addrToPte c.va) = some (.result (some page)) →
      K c.va ∧ CowOk s.pm (s.pmap c.m) page

omit [DecidableEq ω] [DecidableEq π] in
theorem setVm_entry {vm : Vm ε ω} {r : Option ε} (hl : vmMapLookupEntry (s.vm m) fuel va = some (vm, r)) :
    (s.setVm m vm).entry = s.entry := by
  change vm.entry = s.entry
  rw [vmMapLookupEntry_hint hl]
  rfl

theorem doPageFault_zeroFill {vm : Vm ε ω} {errorCode : BitVec 32} {answer : Frame → BitVec 10 → BitVec 32}
    (hl : vmMapLookupEntry (s.vm m) fuel va = some (vm, some entry))
    (hz : (s.entry entry).type.setWidth 32 &&& vmMapEntryZeroFill ≠ 0) : doPageFault s fuel m new va errorCode answer =
      (allocZeroFillPage (s.setVm m vm) m entry new va).map (·, .handled) := by
  simp only [doPageFault, hl]
  rw [if_pos (by rwa [setVm_entry hl])]

theorem doPageFault_cow {vm : Vm ε ω} {errorCode : BitVec 32} {answer : Frame → BitVec 10 → BitVec 32}
    (hl : vmMapLookupEntry (s.vm m) fuel va = some (vm, some entry)) (ht : (s.entry entry).type = 0)
    (hp : errorCode &&& 1 ≠ 0) (hw : errorCode &&& 2 ≠ 0) : doPageFault s fuel m new va errorCode answer =
      (handleCow (s.setVm m vm) fuel m entry new va).map fun r => (r.1, .handled) := by
  simp only [doPageFault, hl]
  rw [setVm_entry hl, ht, if_neg (by decide), if_neg (by decide), if_neg hp, if_pos hw]

omit [DecidableEq μ] [DecidableEq ε] in
theorem handleCow_shared {object new : ω} (hobj : (s.entry entry).object = some object)
    (hpage : vmPageLookup s.pages fuel (s.objectAddr object) (addrToPte va) = some (.result (some page)))
    (href : s.refCount object ≠ 1) (hattr : s.objectAttribute object &&& objectShadow = 0) :
    handleCow s fuel m entry ⟨new, none⟩ va =
      (copyPage { s with toVmState := vmObjectCreate s.toVmState new } fuel m new page (addrToPte va)).map (·, 0) := by
  have hattr' : (s.setPm s.pm).objectAttribute object &&& objectShadow = 0 := hattr
  simp only [handleCow, hobj, hpage, if_neg href]
  rw [if_pos hattr']
  rfl

private theorem doPageFault_serves {c : StoreCall μ ω} {e : FaultEnd} (hs : s.pm.SpaceWf P) (hp : P (s.pmap c.m))
    (hv : c.va < kernelBase)
    (hok : ∀ vm entry, vmMapLookupEntry (s.vm c.m) c.fuel c.va = some (vm, some entry) → FaultOk s c entry K)
    (h : doPageFault s c.fuel c.m c.new c.va (storeError (s.pm.Resident (s.pmap c.m) c.va)) c.answer = some (s', e)) :
    Serves s.pm s'.pm P (s.pmap c.m) (OnPages K) ∧ s'.pmap = s.pmap := by
  unfold doPageFault at h
  split at h
  · cases h
  · rename_i vm r hl
    dsimp only at h
    split at h
    · cases h
      exact ⟨.refl hs, rfl⟩
    · rename_i entry
      have hf := hok vm entry hl
      have hentry := setVm_entry hl
      rw [hentry] at h
      split at h
      · rename_i hz
        obtain ⟨st, hst, hr⟩ := Option.map_eq_some_iff.1 h
        cases hr
        obtain ⟨⟨-, -, x, -, -, -, hn⟩, hmap⟩ := allocZeroFillPage_newPage (s := s.setVm c.m vm) (P := P) hs hp hv hst
        refine ⟨hn.toServes.mono fun i j hij => ?_, hmap⟩
        exact ⟨c.va, hf.zeroFill hz, hij.1.trans (samePage_addrToPte c.va).1, hij.2.trans (samePage_addrToPte c.va).2⟩
      · rename_i hz
        rw [not_not] at hz
        split at h
        · cases h
          exact ⟨.refl hs, rfl⟩
        · rename_i hanon
          rw [not_not] at hanon
          cases hres : s.pm.Resident (s.pmap c.m) c.va with
          | false =>
            rw [hres, if_pos (by decide)] at h
            obtain ⟨st, hst, hr⟩ := Option.map_eq_some_iff.1 h
            cases hr
            refine dataRequest_serves (s := s.setVm c.m vm) (P := P) hs hp hv ?_ hst
            rw [hentry]
            exact hf.request hz hanon (by rw [hres]; exact Bool.false_ne_true)
          | true =>
            rw [hres, if_neg (by decide), if_pos (by decide)] at h
            obtain ⟨⟨st, r⟩, hst, hr⟩ := Option.map_eq_some_iff.1 h
            cases hr
            refine handleCow_serves (s := s.setVm c.m vm) (P := P) hs hp hv ?_ ?_ hst
            · intro h0
              have h0' : s.pm.upde (s.pmap c.m) (addrToPdenum c.va) = 0 := h0
              simp [PmapState.Resident, h0'] at hres
            · rw [hentry]
              exact hf.cow hz hanon hres

/-- The condition on a store: the entry that is found for the address is harmless. -/
def StoreOk (s : Machine μ ε ω π κ) (c : StoreCall μ ω) (K : BitVec 32 → Prop) : Prop :=
  s.pm.translate (s.pmap c.m) true c.va = none →
    ∀ vm entry, vmMapLookupEntry (s.vm c.m) c.fuel c.va = some (vm, some entry) → FaultOk s c entry K

theorem userStore_fault {c : StoreCall μ ω} (hst : s.pm.store (s.pmap c.m) c.va c.byte = none)
    (hv : c.va < kernelBase) : userStore s c =
      (doPageFault s c.fuel c.m c.new c.va (storeError (s.pm.Resident (s.pmap c.m) c.va)) c.answer).map Prod.fst := by
  rw [userStore, hst]
  exact if_pos hv

theorem userStore_cases {c : StoreCall μ ω} (hs : s.pm.SpaceWf P) (hp : P (s.pmap c.m)) (hok : StoreOk s c K)
    (h : userStore s c = some s') : s'.pmap = s.pmap ∧
    ((∃ x, s.pm.translate (s.pmap c.m) true c.va = some x ∧ Writes s.pm s'.pm P (· = x)) ∨
    Serves s.pm s'.pm P (s.pmap c.m) (OnPages K)) := by
  unfold userStore at h
  split at h
  · rename_i pm hpm
    rw [← Option.some.inj h]
    exact ⟨rfl, .inl (store_writes hs hp hpm)⟩
  · rename_i hnone
    split at h
    · rename_i hv
      obtain ⟨⟨st, e⟩, hst, rfl⟩ := Option.map_eq_some_iff.1 h
      obtain ⟨hserves, hmap⟩ := doPageFault_serves hs hp hv (hok (Option.map_eq_none_iff.1 hnone)) hst
      exact ⟨hmap, .inr hserves⟩
    · cases h

end Effects

end Manrix
