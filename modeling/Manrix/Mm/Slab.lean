import Mathlib.Data.List.Perm.Basic
import Manrix.Lib.IndexList
import Manrix.Lib.Runs
import Manrix.Kernel.Thread

/-!
# The slab allocator (`mm/vm_slab.c`)

A cache of objects of one size: `kmem_cache_create`, `kmem_cache_alloc` and `kmem_cache_free`, with the slab headers and
the `bufctl` arrays in the pages the cache has obtained.

A slab that has no free object left stays on the list `partial`, and its `free` is `BUFCTL_END`.  So the slab in use is
handed out beyond its end when all its objects are live; and a slab that becomes empty goes to the list `full` and is
never used again, so that all live objects are always in one slab.  As long as this does not happen allocations are
good, and no longer (`slab_alloc_good`), apart from the one object size with which `object + sizeof(bufctl_t)` wraps.
-/

namespace Manrix

open Function IndexList Links List Runs

def pageSize : BitVec 32 := 0x1000
/-- Two list pointers, the object pointer and two 16-bit fields. -/
def sizeofKmemSlab : BitVec 32 := 16
def sizeofBufctl : BitVec 32 := 2
def bufctlEnd : BitVec 16 := 0xFFFF

/-- The three lists of a cache. -/
inductive SlabList where
  | partialSlabs
  | fullSlabs
  | freeSlabs
  deriving DecidableEq

structure KmemSlab where
  objaddr : BitVec 32
  nentries : BitVec 16
  free : BitVec 16

/-- A cache with the memory of its slabs: the link field `list`, the other header fields and the `bufctl` array of the
slab at an address.  An index past the end of the array reads memory that the cache knows nothing about. -/
structure KmemCache where
  object : BitVec 32
  waste : BitVec 32
  nobjects : BitVec 32
  list : Links (Node SlabList (BitVec 32))
  slab : BitVec 32 → KmemSlab
  bufctl : BitVec 32 → BitVec 16 → BitVec 16

/-! ### The functions -/

/-- The number of objects in a slab and the bytes left over.  Of the divisors 0 is met with the size `0xFFFFFFFE`: the
quotient is 0 here, and no cache results. -/
def cacheCalculate (object : BitVec 32) : BitVec 32 × BitVec 32 :=
  let free := pageSize - sizeofKmemSlab
  (free / (object + sizeofBufctl), free % (object + sizeofBufctl))

/-- The constructor and the destructor, which are called for each object, write to the objects only. -/
def slabFill (c : KmemCache) (slab : BitVec 32) : KmemCache :=
  let hdr := { objaddr := slab + sizeofKmemSlab + c.nobjects * sizeofBufctl, nentries := 0, free := 0 }
  let b := (List.range c.nobjects.toNat).foldl
    (fun b i => update b (BitVec.ofNat 16 i) (BitVec.ofNat 16 (i + 1))) (c.bufctl slab)
  let b := update b (BitVec.ofNat 16 (c.nobjects.toNat - 1)) bufctlEnd
  { c with slab := update c.slab slab hdr, bufctl := update c.bufctl slab b }

/-- `page` is the page that `kmem_alloc` returns. -/
def kmemCacheGrow (c : KmemCache) (page : BitVec 32) : KmemCache :=
  let c := slabFill c page
  { c with list := listAdd c.list (.head .partialSlabs) (.obj page) }

/-- The cache structure `c` as it comes from `cache_cache`, made into a cache of objects of the given size. -/
def kmemCacheCreate (c : KmemCache) (name : Option String) (size : BitVec 32) : Option KmemCache :=
  if name = none ∨ size = 0 then none
  else
    let c := { c with object := size }
    let c := { c with list := listInit c.list (.head .fullSlabs) }
    let c := { c with list := listInit c.list (.head .partialSlabs) }
    let c := { c with list := listInit c.list (.head .freeSlabs) }
    let (nobjects, waste) := cacheCalculate c.object
    let c := { c with nobjects := nobjects, waste := waste }
    if c.nobjects = 0 then none else some c

/-- The first part of `kmem_cache_alloc`: a slab on the list `partial`. -/
def KmemCache.provide (c : KmemCache) (page : BitVec 32) : KmemCache :=
  if listIsempty c.list (.head .partialSlabs) then
    if listIsempty c.list (.head .freeSlabs) then kmemCacheGrow c page
    else
      let (list, temp) := listRemove c.list (.head .freeSlabs)
      { c with list := listAdd list (.head .partialSlabs) temp }
  else c

/-- The second part: the first free object of the slab. -/
def KmemCache.take (c : KmemCache) (slab : BitVec 32) : KmemCache × BitVec 32 :=
  let s := c.slab slab
  let objp := s.objaddr + s.free.setWidth 32 * c.object
  let s := { s with free := c.bufctl slab s.free }
  let s := { s with nentries := s.nentries + 1 }
  ({ c with slab := update c.slab slab s }, objp)

def kmemCacheAlloc (c : KmemCache) (page : BitVec 32) : KmemCache × BitVec 32 :=
  let c := c.provide page
  match c.list.next (.head .partialSlabs) with
  | .head _ => (c, 0) -- not met: there is a slab on the list now
  | .obj slab => c.take slab

/-- The end of `kmem_cache_free`, from its label `free`. -/
def KmemCache.retire (c : KmemCache) : KmemCache :=
  let (list, new) := listRemove c.list (.head .partialSlabs)
  { c with list := listAdd list (.head .fullSlabs) new }

/-- The object becomes the first free object of the slab. -/
def KmemCache.give (c : KmemCache) (slab obj : BitVec 32) : KmemCache :=
  let s := c.slab slab
  let nobj := ((obj - s.objaddr) / c.object).setWidth 16
  let c := { c with bufctl := update c.bufctl slab (update (c.bufctl slab) nobj s.free) }
  let s := { s with free := nobj }
  let s := { s with nentries := s.nentries - 1 }
  { c with slab := update c.slab slab s }

def kmemCacheFree (c : KmemCache) (obj : BitVec 32) : KmemCache :=
  match c.list.next (.head .partialSlabs) with
  | .head _ => c -- not met while an object is live
  | .obj slab =>
    if (c.slab slab).nentries = 0 then c.retire
    else
      let c := c.give slab obj
      if (c.slab slab).nentries.toInt ≤ 0 then c.retire else c

/-! ### The system -/

/-- The cache, the pages it has obtained and the live objects, the latest first. -/
structure SlabState where
  cache : KmemCache
  pages : List (BitVec 32)
  live : List (BitVec 32)

/-- `alloc page`: an allocation during which `kmem_alloc`, if it is called, returns `page`. -/
inductive SlabOp where
  | alloc (page : BitVec 32)
  | free (obj : BitVec 32)

/-- The allocation takes a new page. -/
def KmemCache.grows (c : KmemCache) : Bool :=
  listIsempty c.list (.head .partialSlabs) && listIsempty c.list (.head .freeSlabs)

/-- The page is one that is not in use, and only live objects are freed. -/
def SlabOp.Enabled (s : SlabState) : SlabOp → Prop
  | .alloc page => page.toNat % 4096 = 0 ∧ page ∉ s.pages
  | .free obj => obj ∈ s.live

def SlabOp.exec (s : SlabState) : SlabOp → SlabState
  | .alloc page =>
    { cache := (kmemCacheAlloc s.cache page).1
      pages := if s.cache.grows then page :: s.pages else s.pages
      live := (kmemCacheAlloc s.cache page).2 :: s.live }
  | .free obj => { s with cache := kmemCacheFree s.cache obj, live := s.live.erase obj }

def SlabStep (s : SlabState) (op : SlabOp) (s' : SlabState) : Prop := op.Enabled s ∧ s' = op.exec s

theorem SlabStep.of_enabled (s : SlabState) (op : SlabOp) (h : op.Enabled s) :
    SlabStep s op (op.exec s) := ⟨h, rfl⟩

/-- The address of the slot `j` of the slab at `p`. -/
def KmemCache.slot (c : KmemCache) (p : BitVec 32) (j : Nat) : BitVec 32 :=
  p + sizeofKmemSlab + c.nobjects * sizeofBufctl + BitVec.ofNat 32 j * c.object

/-- The object is a slot of one of the pages, lies in the object area of the page, which is what the slab header and the
`bufctl` array leave of it, and overlaps no live object. -/
def GoodObject (c : KmemCache) (pages live : List (BitVec 32)) (obj : BitVec 32) : Prop :=
  (∃ p ∈ pages, ∃ j, j < c.nobjects.toNat ∧ obj = c.slot p j ∧
    p.toNat + 16 + 2 * c.nobjects.toNat ≤ obj.toNat ∧ obj.toNat + c.object.toNat ≤ p.toNat + 4096) ∧
  ∀ o ∈ live, obj.toNat + c.object.toNat ≤ o.toNat ∨ o.toNat + c.object.toNat ≤ obj.toNat

theorem GoodObject.in_page {c : KmemCache} {pages live : List (BitVec 32)} {obj : BitVec 32}
    (hg : GoodObject c pages live obj) : ∃ p ∈ pages, obj.toNat + c.object.toNat ≤ p.toNat + 4096 := by
  obtain ⟨⟨p, hp, -, -, -, -, hend⟩, -⟩ := hg
  exact ⟨p, hp, hend⟩

/-- What an allocation must return. -/
def AllocGood (x : SlabState × SlabOp × SlabState) : Prop :=
  match x.2.1 with
  | .alloc page => GoodObject x.1.cache x.2.2.pages x.1.live (kmemCacheAlloc x.1.cache page).2
  | .free _ => True

/-- An allocation is made with fewer live objects than a slab holds, from a cache whose object size does not wrap. -/
def AllocOk (x : SlabState × SlabOp × SlabState) : Prop :=
  match x.2.1 with
  | .alloc _ => x.1.cache.object ≠ 0xFFFFFFFF ∧ x.1.live.length < x.1.cache.nobjects.toNat
  | .free _ => True

/-! ### Sizes and slots -/

private theorem sizeofKmemSlab_toNat : sizeofKmemSlab.toNat = 16 := rfl

private theorem sizeofBufctl_toNat : sizeofBufctl.toNat = 2 := rfl

private theorem bufctlEnd_toNat : bufctlEnd.toNat = 65535 := rfl

/-- The objects of a slab, with their entries of the array, fit into the page. -/
structure KmemCache.Fits (c : KmemCache) : Prop where
  object_pos : 0 < c.object.toNat
  nobjects_pos : 0 < c.nobjects.toNat
  fits : c.nobjects.toNat * (c.object.toNat + 2) ≤ 4080

theorem cacheCalculate_le (object : BitVec 32) : (cacheCalculate object).1.toNat ≤ 4080 := by
  simp only [cacheCalculate, BitVec.toNat_udiv]
  exact Nat.div_le_self _ _

/-- Unless the addition of the size of an array entry wraps, the objects fit. -/
theorem KmemCache.fits_of_calculate {c : KmemCache} (h0 : c.object ≠ 0) (hn : c.nobjects ≠ 0)
    (hc : c.nobjects = (cacheCalculate c.object).1) (hw : c.object ≠ 0xFFFFFFFF) : c.Fits := by
  have hpos : 0 < c.nobjects.toNat :=
    Nat.pos_of_ne_zero fun h => hn (BitVec.eq_of_toNat_eq (by simpa using h))
  have hobj : 0 < c.object.toNat :=
    Nat.pos_of_ne_zero fun h => h0 (BitVec.eq_of_toNat_eq (by simpa using h))
  have hdiv : c.nobjects.toNat = 4080 / ((c.object.toNat + 2) % 2 ^ 32) := by
    rw [hc]
    simp only [cacheCalculate, BitVec.toNat_udiv, BitVec.toNat_add, sizeofBufctl_toNat]
    rfl
  have hlt : c.object.toNat + 2 < 2 ^ 32 := by
    by_contra hge
    have := c.object.isLt
    rcases (by omega : c.object.toNat = 4294967294 ∨ c.object.toNat = 4294967295) with h | h
    · rw [h] at hdiv
      simp at hdiv
      omega
    · exact hw (BitVec.eq_of_toNat_eq h)
  rw [Nat.mod_eq_of_lt hlt] at hdiv
  exact ⟨hobj, hpos, hdiv ▸ Nat.div_mul_le_self 4080 _⟩

theorem KmemCache.Fits.mul_le {c : KmemCache} (hf : c.Fits) {j : Nat} (hj : j < c.nobjects.toNat) :
    j * c.object.toNat + c.object.toNat + 2 * c.nobjects.toNat ≤ 4080 := by
  have hm : (j + 1) * c.object.toNat ≤ c.nobjects.toNat * c.object.toNat := Nat.mul_le_mul_right _ hj
  have hf := hf.fits
  rw [Nat.mul_add] at hf
  rw [Nat.add_mul] at hm
  omega

theorem KmemCache.Fits.nobjects_lt {c : KmemCache} (hf : c.Fits) : c.nobjects.toNat < 2048 := by
  have := hf.mul_le hf.nobjects_pos
  omega

private theorem toNat_mul_object {c : KmemCache} (hf : c.Fits) {j : Nat} (hj : j < c.nobjects.toNat) :
    (BitVec.ofNat 32 j * c.object).toNat = j * c.object.toNat := by
  have := hf.mul_le hj
  have := hf.nobjects_lt
  rw [BitVec.toNat_mul, BitVec.toNat_ofNat, Nat.mod_eq_of_lt (by omega : j < 2 ^ 32),
    Nat.mod_eq_of_lt (by omega)]

theorem KmemCache.Fits.slot_toNat {c : KmemCache} (hf : c.Fits) {p : BitVec 32} {j : Nat}
    (hp : p.toNat % 4096 = 0) (hj : j < c.nobjects.toNat) :
    (c.slot p j).toNat = p.toNat + 16 + 2 * c.nobjects.toNat + j * c.object.toNat := by
  have h1 := hf.mul_le hj
  have h2 := p.isLt
  simp only [KmemCache.slot, BitVec.toNat_add, toNat_mul_object hf hj, BitVec.toNat_mul, sizeofKmemSlab_toNat,
    sizeofBufctl_toNat]
  have h3 := hf.object_pos
  omega

theorem KmemCache.Fits.slot_disjoint {c : KmemCache} (hf : c.Fits) {p : BitVec 32} {i j : Nat}
    (hp : p.toNat % 4096 = 0) (hi : i < c.nobjects.toNat) (hj : j < c.nobjects.toNat) (hne : i ≠ j) :
    (c.slot p i).toNat + c.object.toNat ≤ (c.slot p j).toNat ∨
      (c.slot p j).toNat + c.object.toNat ≤ (c.slot p i).toNat := by
  rw [hf.slot_toNat hp hi, hf.slot_toNat hp hj]
  rcases Nat.lt_or_gt_of_ne hne with h | h
  · have := Nat.mul_le_mul_right c.object.toNat (show i + 1 ≤ j from h)
    rw [Nat.add_mul] at this
    omega
  · have := Nat.mul_le_mul_right c.object.toNat (show j + 1 ≤ i from h)
    rw [Nat.add_mul] at this
    omega

theorem KmemCache.Fits.slot_inj {c : KmemCache} (hf : c.Fits) {p : BitVec 32} {i j : Nat} (hp : p.toNat % 4096 = 0)
    (hi : i < c.nobjects.toNat) (hj : j < c.nobjects.toNat) (he : c.slot p i = c.slot p j) : i = j := by
  by_contra hne
  have h1 := hf.slot_disjoint hp hi hj hne
  have h2 := hf.object_pos
  rw [he] at h1
  omega

theorem KmemCache.Fits.index_slot {c : KmemCache} (hf : c.Fits) {p : BitVec 32} {j : Nat} (hj : j < c.nobjects.toNat) :
    ((c.slot p j - (p + sizeofKmemSlab + c.nobjects * sizeofBufctl)) / c.object).setWidth 16 = BitVec.ofNat 16 j := by
  have he : c.slot p j - (p + sizeofKmemSlab + c.nobjects * sizeofBufctl) = BitVec.ofNat 32 j * c.object := by
    rw [KmemCache.slot, BitVec.add_comm, BitVec.add_sub_cancel]
  apply BitVec.eq_of_toNat_eq
  rw [he, BitVec.toNat_setWidth, BitVec.toNat_udiv, toNat_mul_object hf hj,
    Nat.mul_div_cancel _ hf.object_pos, BitVec.toNat_ofNat]

/-! ### One slab -/

/-- The slots `used` of the slab at `p` are in use, and the others are on its list of free slots in the order `fl`. -/
structure SlabInUse (c : KmemCache) (p : BitVec 32) (used fl : List Nat) : Prop where
  objaddr : (c.slab p).objaddr = p + sizeofKmemSlab + c.nobjects * sizeofBufctl
  nentries : (c.slab p).nentries = BitVec.ofNat 16 used.length
  slots : (used ++ fl).Perm (List.range c.nobjects.toNat)
  chain : IsChain (c.bufctl p) bufctlEnd (c.slab p).free (fl.map (BitVec.ofNat 16))

section

variable {c : KmemCache} {p : BitVec 32} {used fl : List Nat} {j : Nat}

theorem SlabInUse.lt (hu : SlabInUse c p used fl) (hj : j ∈ used ++ fl) : j < c.nobjects.toNat :=
  mem_range.1 (hu.slots.mem_iff.1 hj)

theorem SlabInUse.nodup (hu : SlabInUse c p used fl) : (used ++ fl).Nodup :=
  hu.slots.nodup_iff.2 nodup_range

theorem SlabInUse.length (hu : SlabInUse c p used fl) : used.length + fl.length = c.nobjects.toNat := by
  rw [← length_append, hu.slots.length_eq, length_range]

private theorem ofNat_inj {i j : Nat} (hi : i < 65536) (hj : j < 65536) (h : BitVec.ofNat 16 i = BitVec.ofNat 16 j) :
    i = j := by
  have := congrArg BitVec.toNat h
  rw [BitVec.toNat_ofNat, BitVec.toNat_ofNat] at this
  omega

/-- The loop of `slab_fill`: the entries below the bound count up. -/
private theorem fill_range {b : BitVec 16 → BitVec 16} {n i : Nat} (hn : n ≤ 65536) (hi : i < n) :
    (List.range n).foldl (fun b i => update b (BitVec.ofNat 16 i) (BitVec.ofNat 16 (i + 1))) b
      (BitVec.ofNat 16 i) = BitVec.ofNat 16 (i + 1) := by
  induction n with
  | zero => omega
  | succ n ih =>
    rw [range_succ, foldl_append, foldl_cons, foldl_nil]
    by_cases he : i = n
    · rw [he, update_self]
    · rw [update_of_ne fun h => he (ofNat_inj (by omega) (by omega) h)]
      exact ih (by omega) (by omega)

theorem slabFill_inUse (hpos : 0 < c.nobjects.toNat) (hle : c.nobjects.toNat ≤ 4080) (p : BitVec 32) :
    SlabInUse (slabFill c p) p [] (List.range c.nobjects.toNat) := by
  refine ⟨by simp [slabFill], by simp [slabFill], List.Perm.refl _, ?_⟩
  obtain ⟨m, hm⟩ : ∃ m, c.nobjects.toNat = m + 1 := ⟨_, (Nat.sub_add_cancel hpos).symm⟩
  simp only [slabFill, update_self, hm, Nat.add_sub_cancel]
  rw [range_eq_range']
  refine isChain_range (f := BitVec.ofNat 16) (i := 0) (m := m) (fun k _ hk => ?_) ?_
  swap
  · rw [Nat.zero_add, update_self]
  have hne : BitVec.ofNat 16 k ≠ BitVec.ofNat 16 m := by
    intro h
    have := ofNat_inj (by omega) (by omega) h
    omega
  rw [update_of_ne hne, ← range_eq_range']
  exact fill_range (by omega) (by omega)

theorem SlabInUse.take (hu : SlabInUse c p used (j :: fl)) (hle : c.nobjects.toNat ≤ 4080) :
    SlabInUse (c.take p).1 p (j :: used) fl ∧ (c.take p).2 = c.slot p j := by
  have hj := hu.lt (by simp : j ∈ used ++ j :: fl)
  refine ⟨⟨?_, ?_, ?_, ?_⟩, ?_⟩
  · simpa [KmemCache.take] using hu.objaddr
  · simp only [KmemCache.take, update_self, hu.nentries, length_cons]
    exact (BitVec.ofNat_add _ 1).symm
  · exact perm_middle.symm.trans hu.slots
  · have := hu.chain.2
    rw [← hu.chain.1] at this
    simpa [KmemCache.take] using this
  · have hfree : ((c.slab p).free.setWidth 32) = BitVec.ofNat 32 j := by
      rw [hu.chain.1]
      apply BitVec.eq_of_toNat_eq
      simp only [BitVec.toNat_setWidth, BitVec.toNat_ofNat]
      omega
    simp only [KmemCache.take, KmemCache.slot, hu.objaddr, hfree]

/-- Freeing the object of a used slot puts the slot in front of the free ones. -/
theorem SlabInUse.give (hu : SlabInUse c p used fl) (hf : c.Fits) (hj : j ∈ used) :
    SlabInUse (c.give p (c.slot p j)) p (used.erase j) (j :: fl) := by
  have hlt := hu.lt (mem_append_left fl hj)
  have hnl := hf.nobjects_lt
  have hnd := nodup_append.1 hu.nodup
  have hidx : ((c.slot p j - (c.slab p).objaddr) / c.object).setWidth 16 = BitVec.ofNat 16 j := by
    rw [hu.objaddr, hf.index_slot hlt]
  simp only [KmemCache.give, hidx]
  refine ⟨?_, ?_, ?_, ?_⟩
  · simpa using hu.objaddr
  · simp only [update_self, hu.nentries, length_erase_of_mem hj]
    have hpos := length_pos_of_mem hj
    have := hu.length
    change BitVec.ofNat 16 used.length - BitVec.ofNat 16 1 = _
    apply BitVec.eq_of_toNat_eq
    simp only [BitVec.toNat_sub, BitVec.toNat_ofNat]
    omega
  · refine (perm_middle.trans ?_).trans hu.slots
    rw [← cons_append]
    exact (perm_cons_erase hj).symm.append_right fl
  · simp only [update_self, map_cons]
    refine hu.chain.push fun hm => ?_
    obtain ⟨i, hi, he⟩ := mem_map.1 hm
    have hil := hu.lt (mem_append_right used hi)
    exact hnd.2.2 j hj i hi (ofNat_inj (by omega) (by omega) he).symm

end

/-! ### The invariant -/

/-- The lists of a cache with no slab on the list `free`. -/
def slabLists (cur full : List (BitVec 32)) : SlabList → List (BitVec 32)
  | .partialSlabs => cur
  | .fullSlabs => full
  | .freeSlabs => []

private theorem slabLists_update_cur (cur full l : List (BitVec 32)) :
    update (slabLists cur full) .partialSlabs l = slabLists l full := by
  funext h
  cases h <;> rfl

private theorem slabLists_update_full (cur full l : List (BitVec 32)) :
    update (slabLists cur full) .fullSlabs l = slabLists cur l := by
  funext h
  cases h <;> rfl

private theorem notMem_slabLists {cur full : List (BitVec 32)} {p : BitVec 32} (hc : p ∉ cur) (hf : p ∉ full)
    (h : SlabList) : p ∉ slabLists cur full h := by
  cases h with
  | partialSlabs => exact hc
  | fullSlabs => exact hf
  | freeSlabs => exact not_mem_nil

/-- No slab is in use and no object is live; or one slab is in use, and the live objects are its used slots. -/
def InUse (s : SlabState) (cur : List (BitVec 32)) : Prop :=
  (cur = [] ∧ s.live = []) ∨
  ∃ p used fl, cur = [p] ∧ s.cache.object ≠ 0xFFFFFFFF ∧ used ≠ [] ∧ SlabInUse s.cache p used fl ∧
    s.live = used.map (s.cache.slot p)

/-- The cache holds what `kmem_cache_create` computed, its lists are well formed and hold slabs in its pages, and the
live objects are the used slots of the slab on the list `partial`. -/
structure SlabInv (s : SlabState) : Prop where
  object_ne : s.cache.object ≠ 0
  nobjects_ne : s.cache.nobjects ≠ 0
  nobjects : s.cache.nobjects = (cacheCalculate s.cache.object).1
  aligned : ∀ p ∈ s.pages, p.toNat % 4096 = 0
  inUse : ∃ cur full, Queues (fun _ => True) s.cache.list (slabLists cur full) ∧
    (∀ p ∈ cur ++ full, p ∈ s.pages) ∧ InUse s cur

theorem SlabInv.fits {s : SlabState} (hi : SlabInv s) (hw : s.cache.object ≠ 0xFFFFFFFF) : s.cache.Fits :=
  KmemCache.fits_of_calculate hi.object_ne hi.nobjects_ne hi.nobjects hw

theorem SlabInv.nobjects_le {s : SlabState} (hi : SlabInv s) : s.cache.nobjects.toNat ≤ 4080 := by
  rw [hi.nobjects]
  exact cacheCalculate_le _

theorem SlabInv.nobjects_pos {s : SlabState} (hi : SlabInv s) : 0 < s.cache.nobjects.toNat :=
  Nat.pos_of_ne_zero fun h => hi.nobjects_ne (BitVec.eq_of_toNat_eq (by simpa using h))

private theorem kmemCacheCreate_inv {c c' : KmemCache} {name : Option String} {size : BitVec 32}
    (hc : kmemCacheCreate c name size = some c') : SlabInv ⟨c', [], []⟩ := by
  simp only [kmemCacheCreate] at hc
  split at hc
  · exact absurd hc (by simp)
  · rename_i h
    split at hc
    · exact absurd hc (by simp)
    · rename_i hn
      obtain rfl := (Option.some.inj hc)
      refine ⟨fun e => h (.inr e), hn, rfl, by simp, [], [], ⟨fun l _ => ?_, by simp, ?_⟩, by simp,
        .inl ⟨rfl, rfl⟩⟩
      · cases l <;>
          exact ⟨by simp [slabLists], by simp [slabLists, listInit], by simp [slabLists, listInit]⟩
      · intro l l' t ht
        cases l <;> simp [slabLists] at ht

/-! ### The slab that an allocation uses -/

private theorem next_partialSlabs {c : KmemCache} {p : BitVec 32} {cur full : List (BitVec 32)}
    (hq : Queues (fun _ => True) c.list (slabLists (p :: cur) full)) : c.list.next (.head .partialSlabs) = .obj p :=
  (hq.ring .partialSlabs trivial).next.1

private theorem isempty_partialSlabs {c : KmemCache} {cur full : List (BitVec 32)}
    (hq : Queues (fun _ => True) c.list (slabLists cur full)) :
    listIsempty c.list (.head .partialSlabs) = true ↔ cur = [] := by
  rw [listIsempty_iff (hq.ring .partialSlabs trivial)]
  exact map_eq_nil_iff

private theorem isempty_free {c : KmemCache} {cur full : List (BitVec 32)}
    (hq : Queues (fun _ => True) c.list (slabLists cur full)) : listIsempty c.list (.head .freeSlabs) = true :=
  (listIsempty_iff (hq.ring .freeSlabs trivial)).2 rfl

theorem KmemCache.provide_of_cons {c : KmemCache} {p : BitVec 32} {cur full : List (BitVec 32)}
    (hq : Queues (fun _ => True) c.list (slabLists (p :: cur) full)) (page : BitVec 32) :
    c.provide page = c ∧ c.grows = false := by
  have h : ¬ listIsempty c.list (.head .partialSlabs) = true := by
    rw [isempty_partialSlabs hq]
    exact cons_ne_nil _ _
  exact ⟨if_neg h, by simp [KmemCache.grows, h]⟩

theorem KmemCache.provide_of_nil {c : KmemCache} {full : List (BitVec 32)}
    (hq : Queues (fun _ => True) c.list (slabLists [] full)) (page : BitVec 32) :
    c.provide page = kmemCacheGrow c page ∧ c.grows = true := by
  have h := (isempty_partialSlabs hq).2 rfl
  have h' := isempty_free hq
  exact ⟨by simp [KmemCache.provide, h, h'], by simp [KmemCache.grows, h, h']⟩

private theorem kmemCacheAlloc_eq {c : KmemCache} {page p : BitVec 32} {cur full : List (BitVec 32)}
    (hq : Queues (fun _ => True) (c.provide page).list (slabLists (p :: cur) full)) :
    kmemCacheAlloc c page = (c.provide page).take p := by
  simp only [kmemCacheAlloc, next_partialSlabs hq]

private theorem kmemCacheGrow_queues {c : KmemCache} {page : BitVec 32} {full : List (BitVec 32)}
    (hq : Queues (fun _ => True) c.list (slabLists [] full)) (hnew : page ∉ full) :
    Queues (fun _ => True) (kmemCacheGrow c page).list (slabLists [page] full) := by
  have hs := hq.splice (h := .partialSlabs) trivial (notMem_slabLists not_mem_nil hnew)
  rw [slabLists_update_cur] at hs
  simp only [kmemCacheGrow, listAdd, listEnqueue_eq]
  exact hs

theorem KmemCache.provide_keep (c : KmemCache) (page : BitVec 32) :
    (c.provide page).object = c.object ∧ (c.provide page).nobjects = c.nobjects := by
  unfold KmemCache.provide
  split
  · split <;> exact ⟨rfl, rfl⟩
  · exact ⟨rfl, rfl⟩

theorem KmemCache.slot_congr {c c' : KmemCache} (ho : c'.object = c.object) (hn : c'.nobjects = c.nobjects) :
    c'.slot = c.slot := by
  funext p j
  rw [KmemCache.slot, KmemCache.slot, ho, hn]

section

variable {s : SlabState} {page : BitVec 32}

/-- The pages after an allocation. -/
private theorem mem_pages_exec {p : BitVec 32} (hp : p ∈ s.pages) : p ∈ ((SlabOp.alloc page).exec s).pages := by
  simp only [SlabOp.exec]
  split
  · exact mem_cons_of_mem _ hp
  · exact hp

theorem SlabInv.aligned_exec (hi : SlabInv s) (he : (SlabOp.alloc page).Enabled s) :
    ∀ p ∈ ((SlabOp.alloc page).exec s).pages, p.toNat % 4096 = 0 := by
  intro p hp
  simp only [SlabOp.exec] at hp
  split at hp
  · rcases mem_cons.1 hp with rfl | hp
    · exact he.1
    · exact hi.aligned p hp
  · exact hi.aligned p hp

/-- Before an allocation that meets the condition, there is a slab with a free slot on the list `partial`: the one in
use, or a new one. -/
theorem SlabInv.provide (hi : SlabInv s) (he : (SlabOp.alloc page).Enabled s)
    (hl : s.live.length < s.cache.nobjects.toNat) :
    ∃ p used j fl full, Queues (fun _ => True) (s.cache.provide page).list (slabLists [p] full) ∧
      (∀ x ∈ p :: full, x ∈ ((SlabOp.alloc page).exec s).pages) ∧
      SlabInUse (s.cache.provide page) p used (j :: fl) ∧ s.live = used.map (s.cache.slot p) := by
  obtain ⟨cur, full, hq, hpages, hu⟩ := hi.inUse
  rcases hu with ⟨rfl, hlive⟩ | ⟨p, used, fl, rfl, -, -, hu, hlive⟩
  · obtain ⟨h1, h2⟩ := KmemCache.provide_of_nil hq page
    obtain ⟨m, hm⟩ : ∃ m, s.cache.nobjects.toNat = m + 1 := ⟨_, (Nat.sub_add_cancel hi.nobjects_pos).symm⟩
    have hfill := slabFill_inUse hi.nobjects_pos hi.nobjects_le page
    rw [hm, range_succ_eq_map] at hfill
    refine ⟨page, [], 0, (List.range m).map Nat.succ, full, ?_, ?_, ?_, hlive⟩
    · rw [h1]
      exact kmemCacheGrow_queues hq fun hmem => he.2 (hpages page hmem)
    · intro x hx
      rcases mem_cons.1 hx with rfl | hx
      · simp [SlabOp.exec, h2]
      · exact mem_pages_exec (hpages x hx)
    · rw [h1]
      exact ⟨hfill.objaddr, hfill.nentries, hfill.slots, hfill.chain⟩
  · have hne : fl ≠ [] := by
      rintro rfl
      have := hu.length
      rw [hlive, length_map] at hl
      simp only [length_nil] at this
      omega
    obtain ⟨j, fl, rfl⟩ := exists_cons_of_ne_nil hne
    rw [(KmemCache.provide_of_cons hq page).1]
    exact ⟨p, used, j, fl, full, hq, fun x hx => mem_pages_exec (hpages x hx), hu, hlive⟩

/-- Such an allocation returns a good object. -/
theorem SlabInv.alloc_good (hi : SlabInv s) (he : (SlabOp.alloc page).Enabled s)
    (hw : s.cache.object ≠ 0xFFFFFFFF) (hl : s.live.length < s.cache.nobjects.toNat) :
    GoodObject s.cache ((SlabOp.alloc page).exec s).pages s.live (kmemCacheAlloc s.cache page).2 := by
  obtain ⟨p, used, j, fl, full, hq, hpages, hu, hlive⟩ := hi.provide he hl
  obtain ⟨ho, hn⟩ := s.cache.provide_keep page
  have hf := hi.fits hw
  have hp : p ∈ ((SlabOp.alloc page).exec s).pages := hpages p (mem_cons_self ..)
  have hpa := hi.aligned_exec he p hp
  have hlt : ∀ i ∈ used ++ j :: fl, i < s.cache.nobjects.toNat := fun i hmem => hn ▸ hu.lt hmem
  have hj := hlt j (by simp)
  have hle := hf.mul_le hj
  rw [kmemCacheAlloc_eq hq, (hu.take (hn ▸ hi.nobjects_le)).2, KmemCache.slot_congr ho hn]
  refine ⟨⟨p, hp, j, hj, rfl, ?_, ?_⟩, fun o hmem => ?_⟩
  · rw [hf.slot_toNat hpa hj]
    omega
  · rw [hf.slot_toNat hpa hj]
    omega
  · rw [hlive] at hmem
    obtain ⟨i, hused, rfl⟩ := mem_map.1 hmem
    refine hf.slot_disjoint hpa hj (hlt i (mem_append_left _ hused)) ?_
    rintro rfl
    exact (nodup_append.1 hu.nodup).2.2 j hused j (by simp) rfl

theorem SlabInv.alloc (hi : SlabInv s) (he : (SlabOp.alloc page).Enabled s) (hw : s.cache.object ≠ 0xFFFFFFFF)
    (hl : s.live.length < s.cache.nobjects.toNat) : SlabInv ((SlabOp.alloc page).exec s) := by
  obtain ⟨p, used, j, fl, full, hq, hpages, hu, hlive⟩ := hi.provide he hl
  obtain ⟨ho, hn⟩ := s.cache.provide_keep page
  obtain ⟨hu', hobj⟩ := hu.take (hn ▸ hi.nobjects_le)
  have hc : (kmemCacheAlloc s.cache page).1 = ((s.cache.provide page).take p).1 := by
    rw [kmemCacheAlloc_eq hq]
  have ho' : ((SlabOp.alloc page).exec s).cache.object = s.cache.object := by
    simpa only [SlabOp.exec, hc, KmemCache.take] using ho
  have hn' : ((SlabOp.alloc page).exec s).cache.nobjects = s.cache.nobjects := by
    simpa only [SlabOp.exec, hc, KmemCache.take] using hn
  refine ⟨ho' ▸ hi.object_ne, hn' ▸ hi.nobjects_ne, by rw [ho', hn', hi.nobjects], hi.aligned_exec he,
    [p], full, ?_, hpages, .inr ⟨p, j :: used, fl, rfl, ho' ▸ hw, cons_ne_nil _ _, ?_, ?_⟩⟩
  · simpa only [SlabOp.exec, hc, KmemCache.take] using hq
  · simpa only [SlabOp.exec, hc] using hu'
  · rw [KmemCache.slot_congr ho' hn', map_cons, ← hlive]
    simp only [SlabOp.exec, kmemCacheAlloc_eq hq, hobj, KmemCache.slot_congr ho hn]

/-- Modulo the page size the object of the slot `0xFFFF` lies one object below the first slot. -/
private theorem end_not_slot {p p' n size k : Nat} (hp : p % 4096 = 0) (hp' : p' % 4096 = 0) (hs : 0 < size)
    (hk : k + size ≤ 4080) : (p + 16 + n * 2 + 65535 * size) % 2 ^ 32 ≠ (p' + 16 + n * 2 + k) % 2 ^ 32 := by
  intro h
  have hmod := congrArg (· % 4096) h
  simp only [Nat.mod_mod_of_dvd _ (by decide : 4096 ∣ 2 ^ 32)] at hmod
  clear h
  omega

/-- When all slots are in use, `free` is `BUFCTL_END`, and the address computed from it is no slot of any page. -/
theorem SlabInv.not_good_of_full (hi : SlabInv s) (he : (SlabOp.alloc page).Enabled s)
    (hl : s.cache.nobjects.toNat ≤ s.live.length) :
    ¬ GoodObject s.cache ((SlabOp.alloc page).exec s).pages s.live (kmemCacheAlloc s.cache page).2 := by
  rintro ⟨⟨p', hp', j, hj, hobj, -⟩, -⟩
  obtain ⟨cur, full, hq, hpages, hu⟩ := hi.inUse
  have hpos := hi.nobjects_pos
  rcases hu with ⟨-, hlive⟩ | ⟨p, used, fl, rfl, hw, -, hu, hlive⟩
  · rw [hlive, length_nil] at hl
    omega
  · have hfl : fl = [] := by
      have := hu.length
      rw [hlive, length_map] at hl
      exact length_eq_zero_iff.1 (by omega)
    subst hfl
    have hp := hi.aligned p (hpages p (by simp))
    have hp' := hi.aligned_exec he p' hp'
    have hle := (hi.fits hw).mul_le hj
    have hobj_pos := (hi.fits hw).object_pos
    have hmul := toNat_mul_object (hi.fits hw) hj
    have hend : (s.cache.slab p).free = bufctlEnd := hu.chain
    rw [kmemCacheAlloc_eq (by rw [(KmemCache.provide_of_cons hq page).1]; exact hq),
      (KmemCache.provide_of_cons hq page).1] at hobj
    have hmod := congrArg BitVec.toNat hobj
    simp only [KmemCache.take, KmemCache.slot, hu.objaddr, hend, BitVec.toNat_add, hmul, BitVec.toNat_mul,
      BitVec.toNat_setWidth, sizeofKmemSlab_toNat, sizeofBufctl_toNat, bufctlEnd_toNat, Nat.mod_add_mod,
      Nat.add_mod_mod] at hmod
    exact end_not_slot hp hp' hobj_pos (by omega) hmod

theorem SlabInv.not_good_of_wrap (hw : s.cache.object = 0xFFFFFFFF) :
    ¬ GoodObject s.cache ((SlabOp.alloc page).exec s).pages s.live (kmemCacheAlloc s.cache page).2 := by
  rintro ⟨⟨p, -, j, -, -, h1, h2⟩, -⟩
  rw [hw] at h2
  have : (0xFFFFFFFF : BitVec 32).toNat = 4294967295 := rfl
  omega

end

/-! ### Freeing an object -/

private theorem erase_map {α β : Type*} [DecidableEq α] [DecidableEq β] {f : α → β} {l : List α} {a : α}
    (ha : a ∈ l) (hf : ∀ b ∈ l, f b = f a → b = a) : (l.map f).erase (f a) = (l.erase a).map f := by
  induction l with
  | nil => exact absurd ha not_mem_nil
  | cons b l ih =>
    by_cases he : b = a
    · rw [he, map_cons, erase_cons_head, erase_cons_head]
    · have hne : f b ≠ f a := fun h => he (hf b (mem_cons_self ..) h)
      have hmem : a ∈ l := by
        rcases mem_cons.1 ha with h | h
        · exact absurd h.symm he
        · exact h
      rw [map_cons, erase_cons_tail (by simpa using hne), erase_cons_tail (by simpa using he),
        map_cons, ih hmem fun c hc => hf c (mem_cons_of_mem _ hc)]

private theorem retire_queues {c : KmemCache} {p : BitVec 32} {full : List (BitVec 32)}
    (hq : Queues (fun _ => True) c.list (slabLists [p] full)) :
    Queues (fun _ => True) c.retire.list (slabLists [] (p :: full)) := by
  have hr : listRemove c.list (.head .partialSlabs) = (c.list.unlink (.obj p), .obj p) :=
    listRemove_cons (hq.ring .partialSlabs trivial)
  have hu := hq.unlink (h := .partialSlabs) (x := p) (by simp [slabLists])
  rw [slabLists_update_cur] at hu
  have hl : (slabLists [p] full .partialSlabs).erase p = [] := by simp [slabLists]
  rw [hl] at hu
  have hnew : p ∉ full := fun hmem =>
    absurd (hq.disjoint .fullSlabs .partialSlabs p hmem (by simp [slabLists])) (by decide)
  have hs := hu.splice (h := .fullSlabs) trivial (notMem_slabLists not_mem_nil hnew)
  rw [slabLists_update_full] at hs
  simp only [KmemCache.retire, hr, listAdd, listEnqueue_eq]
  exact hs

private theorem kmemCacheFree_slot {c : KmemCache} {p : BitVec 32} {full : List (BitVec 32)} {used fl : List Nat}
    {j : Nat} (hq : Queues (fun _ => True) c.list (slabLists [p] full)) (hu : SlabInUse c p used fl) (hf : c.Fits)
    (hj : j ∈ used) : kmemCacheFree c (c.slot p j) =
      if used.erase j = [] then (c.give p (c.slot p j)).retire else c.give p (c.slot p j) := by
  have hg := hu.give hf hj
  have hlen := hu.length
  have hnl := hf.nobjects_lt
  have hpos := length_pos_of_mem hj
  have hn0 : (c.slab p).nentries ≠ 0 := by
    rw [hu.nentries]
    intro h
    have := ofNat_inj (j := 0) (by omega) (by omega) h
    omega
  have hneg : ((c.give p (c.slot p j)).slab p).nentries.toInt ≤ 0 ↔ used.erase j = [] := by
    rw [hg.nentries, length_erase_of_mem hj, BitVec.toInt_eq_toNat_of_lt, BitVec.toNat_ofNat,
      ← length_eq_zero_iff, length_erase_of_mem hj]
    · omega
    · rw [BitVec.toNat_ofNat]
      omega
  simp only [kmemCacheFree, next_partialSlabs hq, if_neg hn0, hneg]

theorem SlabInUse.erase_slot {c : KmemCache} {p : BitVec 32} {used fl : List Nat} {j : Nat}
    (hu : SlabInUse c p used fl) (hf : c.Fits) (hp : p.toNat % 4096 = 0) (hj : j ∈ used) :
    (used.map (c.slot p)).erase (c.slot p j) = (used.erase j).map (c.slot p) := by
  refine erase_map hj fun i hi h => ?_
  exact hf.slot_inj hp (hu.lt (mem_append_left _ hi)) (hu.lt (mem_append_left _ hj)) h

/-- Freeing a live object keeps the invariant. -/
theorem SlabInv.free {s : SlabState} {obj : BitVec 32} (hi : SlabInv s) (he : obj ∈ s.live) :
    SlabInv ((SlabOp.free obj).exec s) := by
  obtain ⟨cur, full, hq, hpages, hu⟩ := hi.inUse
  rcases hu with ⟨-, hlive⟩ | ⟨p, used, fl, rfl, hw, hne, hu, hlive⟩
  · rw [hlive] at he
    exact absurd he not_mem_nil
  · rw [hlive] at he
    obtain ⟨j, hj, rfl⟩ := mem_map.1 he
    have hf := hi.fits hw
    have hpa := hi.aligned p (hpages p (by simp))
    have hdrop := hu.erase_slot hf hpa hj
    rw [← hlive] at hdrop
    have hexec : ((SlabOp.free (s.cache.slot p j)).exec s).cache =
        if used.erase j = [] then (s.cache.give p (s.cache.slot p j)).retire
        else s.cache.give p (s.cache.slot p j) := kmemCacheFree_slot hq hu hf hj
    have ho : ((SlabOp.free (s.cache.slot p j)).exec s).cache.object = s.cache.object := by
      rw [hexec]
      split <;> rfl
    have hn : ((SlabOp.free (s.cache.slot p j)).exec s).cache.nobjects = s.cache.nobjects := by
      rw [hexec]
      split <;> rfl
    refine ⟨ho ▸ hi.object_ne, hn ▸ hi.nobjects_ne, by rw [ho, hn, hi.nobjects], hi.aligned, ?_⟩
    by_cases hlast : used.erase j = []
    · rw [if_pos hlast] at hexec
      refine ⟨[], p :: full, ?_, hpages, .inl ⟨rfl, ?_⟩⟩
      · rw [hexec]
        exact retire_queues hq
      · rw [hlast, map_nil] at hdrop
        exact hdrop
    · rw [if_neg hlast] at hexec
      refine ⟨[p], full, ?_, hpages, .inr ⟨p, used.erase j, j :: fl, rfl, ho ▸ hw, hlast, ?_, ?_⟩⟩
      · rw [hexec]
        exact hq
      · rw [hexec]
        exact hu.give hf hj
      · rw [KmemCache.slot_congr ho hn]
        exact hdrop

/-! ### Runs -/

theorem SlabStep.inv {s s' : SlabState} {op : SlabOp} (hi : SlabInv s) (hg : AllocOk (s, op, s'))
    (hst : SlabStep s op s') : SlabInv s' := by
  obtain ⟨he, rfl⟩ := hst
  cases op with
  | alloc page => exact hi.alloc he hg.1 hg.2
  | free obj => exact hi.free he

theorem SlabStep.good_iff {s s' : SlabState} {op : SlabOp} (hi : SlabInv s) (hst : SlabStep s op s') :
    AllocGood (s, op, s') ↔ AllocOk (s, op, s') := by
  obtain ⟨he, rfl⟩ := hst
  cases op with
  | alloc page =>
    refine ⟨fun hg => ⟨fun hw => SlabInv.not_good_of_wrap hw hg, ?_⟩, fun hg => hi.alloc_good he hg.1 hg.2⟩
    by_contra hl
    exact hi.not_good_of_full he (Nat.le_of_not_lt hl) hg
  | free obj => exact Iff.rfl

/-- In every run of a cache, the allocations return good objects exactly when each is made with fewer live objects than
a slab holds, and the object size does not wrap. -/
theorem slab_alloc_good {c c' : KmemCache} {name : Option String} {size : BitVec 32} {s : SlabState}
    {tr : List (SlabState × SlabOp × SlabState)} (hc : kmemCacheCreate c name size = some c')
    (hr : Run SlabStep ⟨c', [], []⟩ tr s) : (∀ x ∈ tr, AllocGood x) ↔ ∀ x ∈ tr, AllocOk x :=
  hr.forall_iff SlabInv AllocOk AllocGood (kmemCacheCreate_inv hc) (fun _ _ _ hi hg hst => hst.inv hi hg)
    fun _ _ _ hi hst => hst.good_iff hi

/-- Memory with nothing in it. -/
def blankCache : KmemCache where
  object := 0
  waste := 0
  nobjects := 0
  list := ⟨id, id⟩
  slab _ := ⟨0, 0, 0⟩
  bufctl _ _ := 0

/-- A cache of objects of 2000 bytes: two of them fit into a slab. -/
def cache2000 : KmemCache where
  object := 2000
  waste := 76
  nobjects := 2
  list := listInit (listInit (listInit ⟨id, id⟩ (.head .fullSlabs)) (.head .partialSlabs)) (.head .freeSlabs)
  slab _ := ⟨0, 0, 0⟩
  bufctl _ _ := 0

private theorem create_cache2000 : kmemCacheCreate blankCache (some "object") 2000 = some cache2000 := rfl

/-- Two objects, the first of which is freed and allocated again. -/
theorem slab_alloc_good_reuse : ∃ tr s, Run SlabStep ⟨cache2000, [], []⟩ tr s ∧ tr.length = 4 ∧
    s.live = [0x100014, 0x1007E4] ∧ ∀ x ∈ tr, AllocGood x := by
  have h1 := Run.nil.snoc (SlabStep.of_enabled ⟨cache2000, [], []⟩ (.alloc 0x100000) ⟨by decide, by decide⟩)
  have h2 := h1.snoc (SlabStep.of_enabled _ (.alloc 0x101000) ⟨by decide, by decide +kernel⟩)
  have h3 := h2.snoc (SlabStep.of_enabled _ (.free 0x100014) (by unfold SlabOp.Enabled; decide +kernel))
  have hr := h3.snoc (SlabStep.of_enabled _ (.alloc 0x101000) ⟨by decide, by decide +kernel⟩)
  refine ⟨_, _, hr, rfl, by decide +kernel, (slab_alloc_good create_cache2000 hr).2 fun x hx => ?_⟩
  simp only [nil_append, cons_append, mem_cons, not_mem_nil, or_false] at hx
  rcases hx with rfl | rfl | rfl | rfl
  · exact ⟨by decide, by decide⟩
  · exact ⟨by decide +kernel, by decide +kernel⟩
  · trivial
  · exact ⟨by decide +kernel, by decide +kernel⟩

/-- All objects of a slab are live. -/
def twoObjects : SlabState :=
  (SlabOp.alloc 0x101000).exec ((SlabOp.alloc 0x100000).exec ⟨cache2000, [], []⟩)

/-- The third of three objects lies at `0x100014 + 0xFFFF * 2000`, far outside the page of the slab. -/
theorem third_object_outside_slab : ∃ tr, Run SlabStep ⟨cache2000, [], []⟩ tr twoObjects ∧
    SlabOp.Enabled twoObjects (.alloc 0x101000) ∧ twoObjects.live = [0x1007E4, 0x100014] ∧
    ((SlabOp.alloc 0x101000).exec twoObjects).pages = [0x100000] ∧
    (kmemCacheAlloc twoObjects.cache 0x101000).2 = 0x7DFF844 ∧
    ¬ AllocGood (twoObjects, .alloc 0x101000, (SlabOp.alloc 0x101000).exec twoObjects) := by
  have h1 := Run.nil.snoc (SlabStep.of_enabled ⟨cache2000, [], []⟩ (.alloc 0x100000) ⟨by decide, by decide⟩)
  have h2 := h1.snoc (SlabStep.of_enabled _ (.alloc 0x101000) ⟨by decide, by decide +kernel⟩)
  have hpages : ((SlabOp.alloc 0x101000).exec twoObjects).pages = [0x100000] := by decide +kernel
  have hobj : (kmemCacheAlloc twoObjects.cache 0x101000).2 = 0x7DFF844 := by decide +kernel
  refine ⟨_, h2, ⟨by decide, by decide +kernel⟩, by decide +kernel, hpages, hobj, fun hg => ?_⟩
  have hin := GoodObject.in_page hg
  rw [hpages, hobj] at hin
  obtain ⟨p, hp, hend⟩ := hin
  rw [mem_singleton.1 hp] at hend
  have : (0x7DFF844 : BitVec 32).toNat = 132118596 := rfl
  have : (0x100000 : BitVec 32).toNat = 1048576 := rfl
  omega

end Manrix
