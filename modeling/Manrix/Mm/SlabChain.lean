import Manrix.Mm.Slab

/-!
# The free objects of one slab (`mm/vm_slab.c`)

What `slab_fill` lays out in a page, and what `kmem_cache_alloc` and `kmem_cache_free` do with one slab as long as it
stays on the list `partial`: the entries of `bufctl` thread the free objects in any order.  For two object sizes
`cache_calculate` finds room for objects and this fails: with `0xFFFFFFFF` the sum with the size of an entry wraps, and
with 0 an object cannot be freed.
-/

namespace Manrix

open IndexList List Runs

/-- A cache with one slab, and the live objects of the slab. -/
structure OneSlab where
  cache : KmemCache
  live : List (BitVec 32)

inductive SlotOp where
  | alloc
  | free (obj : BitVec 32)

/-- What the two calls do with the slab at `p`: an allocation while not all objects are live, and the release of a live
object while it is not the only one. -/
inductive SlotStep (p : BitVec 32) : OneSlab → SlotOp → OneSlab → Prop
  | alloc {s : OneSlab} : s.live.length < s.cache.nobjects.toNat →
      SlotStep p s .alloc ⟨(s.cache.take p).1, (s.cache.take p).2 :: s.live⟩
  | free {s : OneSlab} {obj : BitVec 32} : obj ∈ s.live → 2 ≤ s.live.length →
      SlotStep p s (.free obj) ⟨s.cache.give p obj, s.live.erase obj⟩

/-- The address of the object `j` of the slab at `p`. -/
def KmemCache.objectAt (c : KmemCache) (p : BitVec 32) (j : Nat) : BitVec 32 :=
  (c.slab p).objaddr + BitVec.ofNat 32 j * c.object

/-- The header, the `bufctl` array and the objects are in the page, one behind the other. -/
structure LaidOut (c : KmemCache) (p : BitVec 32) : Prop where
  bufctl : 16 + 2 * c.nobjects.toNat ≤ 4096
  objects : ∀ j < c.nobjects.toNat, p.toNat + 16 + 2 * c.nobjects.toNat ≤ (c.objectAt p j).toNat ∧
    (c.objectAt p j).toNat + c.object.toNat ≤ p.toNat + 4096
  disjoint : ∀ i < c.nobjects.toNat, ∀ j < c.nobjects.toNat, i ≠ j →
    (c.objectAt p i).toNat + c.object.toNat ≤ (c.objectAt p j).toNat ∨
      (c.objectAt p j).toNat + c.object.toNat ≤ (c.objectAt p i).toNat

/-- The live objects are those with the indices `used`, and the entries of `bufctl` lead from `free` through all other
indices to the end. -/
structure Threads (c : KmemCache) (p : BitVec 32) (live : List (BitVec 32)) (used fl : List Nat) : Prop where
  eq_map : live = used.map (c.objectAt p)
  perm : (used ++ fl).Perm (List.range c.nobjects.toNat)
  chain : IsChain (c.bufctl p) bufctlEnd (c.slab p).free (fl.map (BitVec.ofNat 16))
  nentries : (c.slab p).nentries.toNat = live.length

/-- The object that is returned is one of the slab that was not live; and to free an object one does not divide by
zero. -/
def SlotRight (p : BitVec 32) : OneSlab × SlotOp × OneSlab → Prop
  | (s, .alloc, _) => (s.cache.take p).2 ∉ s.live ∧
      ∃ j < s.cache.nobjects.toNat, (s.cache.take p).2 = s.cache.objectAt p j
  | (s, .free _, _) => s.cache.object ≠ 0

/-- A new slab for objects of this size is laid out in its page, and in all runs its free objects are threaded. -/
def SlabThreaded (object : BitVec 32) : Prop :=
  ∀ (c : KmemCache) (p : BitVec 32), c.object = object → c.nobjects = (cacheCalculate object).1 → p.toNat % 4096 = 0 →
    LaidOut (slabFill c p) p ∧ ∀ tr s, Run (SlotStep p) ⟨slabFill c p, []⟩ tr s →
      (∃ used fl, Threads s.cache p s.live used fl) ∧ ∀ x ∈ tr, SlotRight p x

section

variable {c : KmemCache} {p : BitVec 32} {used fl : List Nat}

theorem SlabInUse.objectAt_eq (hu : SlabInUse c p used fl) : c.objectAt p = c.slot p := by
  funext j
  rw [KmemCache.objectAt, KmemCache.slot, hu.objaddr]

theorem KmemCache.Fits.laidOut (hf : c.Fits) (hu : SlabInUse c p used fl) (hp : p.toNat % 4096 = 0) : LaidOut c p where
  bufctl := by
    have := hf.mul_le hf.nobjects_pos
    omega
  objects j hj := by
    have := hf.mul_le hj
    rw [hu.objectAt_eq, hf.slot_toNat hp hj]
    omega
  disjoint i hi j hj hne := by
    rw [hu.objectAt_eq]
    exact hf.slot_disjoint hp hi hj hne

/-- The invariant of the runs: the objects fit, and those of the used slots are live. -/
structure OneSlab.Inv (p : BitVec 32) (s : OneSlab) : Prop where
  fits : s.cache.Fits
  inUse : ∃ used fl, SlabInUse s.cache p used fl ∧ s.live = used.map (s.cache.slot p)

variable {s : OneSlab}

theorem OneSlab.Inv.threads (h : s.Inv p) : ∃ used fl, Threads s.cache p s.live used fl := by
  obtain ⟨used, fl, hu, hlive⟩ := h.inUse
  refine ⟨used, fl, hu.objectAt_eq.symm ▸ hlive, hu.slots, hu.chain, ?_⟩
  have hlen := hu.length
  have hlt := h.fits.nobjects_lt
  rw [hu.nentries, hlive, length_map, BitVec.toNat_ofNat]
  omega

/-- An allocation takes the first free slot. -/
theorem OneSlab.Inv.alloc (h : s.Inv p) (hp : p.toNat % 4096 = 0) (hl : s.live.length < s.cache.nobjects.toNat) :
    OneSlab.Inv p ⟨(s.cache.take p).1, (s.cache.take p).2 :: s.live⟩ ∧
      (s.cache.take p).2 ∉ s.live ∧ ∃ j < s.cache.nobjects.toNat, (s.cache.take p).2 = s.cache.objectAt p j := by
  obtain ⟨used, fl, hu, hlive⟩ := h.inUse
  have hle := h.fits.nobjects_lt
  cases fl with
  | nil =>
    have := hu.length
    rw [hlive, length_map] at hl
    simp only [length_nil] at this
    omega
  | cons j fl =>
    obtain ⟨hu', hobj⟩ := hu.take (by omega)
    have hslot : (s.cache.take p).1.slot = s.cache.slot := KmemCache.slot_congr rfl rfl
    have hj := hu.lt (by simp : j ∈ used ++ j :: fl)
    refine ⟨⟨⟨h.fits.object_pos, h.fits.nobjects_pos, h.fits.fits⟩, j :: used, fl, hu', ?_⟩, ?_, j, hj, ?_⟩
    · rw [hslot, map_cons, ← hlive, hobj]
    · rw [hlive, hobj]
      intro hm
      obtain ⟨i, hi, he⟩ := mem_map.1 hm
      have hij := h.fits.slot_inj hp (hu.lt (mem_append_left _ hi)) hj he
      exact (nodup_append.1 hu.nodup).2.2 i hi j (by simp) hij
    · rw [hobj, hu.objectAt_eq]

theorem OneSlab.Inv.free (h : s.Inv p) (hp : p.toNat % 4096 = 0) {obj : BitVec 32} (hobj : obj ∈ s.live) :
    OneSlab.Inv p ⟨s.cache.give p obj, s.live.erase obj⟩ := by
  obtain ⟨used, fl, hu, hlive⟩ := h.inUse
  rw [hlive] at hobj
  obtain ⟨j, hj, rfl⟩ := mem_map.1 hobj
  have hslot : (s.cache.give p (s.cache.slot p j)).slot = s.cache.slot := KmemCache.slot_congr rfl rfl
  refine ⟨⟨h.fits.object_pos, h.fits.nobjects_pos, h.fits.fits⟩, used.erase j, j :: fl, hu.give h.fits hj, ?_⟩
  rw [hslot, hlive]
  exact hu.erase_slot h.fits hp hj

theorem SlotStep.inv {s' : OneSlab} {op : SlotOp} (h : s.Inv p) (hp : p.toNat % 4096 = 0) (hs : SlotStep p s op s') :
    s'.Inv p ∧ SlotRight p (s, op, s') := by
  cases hs with
  | alloc hl => exact h.alloc hp hl
  | free hobj _ =>
    refine ⟨h.free hp hobj, fun h0 => ?_⟩
    have hpos := h.fits.object_pos
    rw [h0] at hpos
    exact Nat.lt_irrefl 0 hpos

end

private theorem slabThreaded_of_fits {object : BitVec 32} (hn : (cacheCalculate object).1 ≠ 0) (h0 : object ≠ 0)
    (hw : object ≠ 0xFFFFFFFF) : SlabThreaded object := by
  rintro c p rfl hc hp
  have hn' : c.nobjects ≠ 0 := hc ▸ hn
  have hf : c.Fits := KmemCache.fits_of_calculate h0 hn' hc hw
  have hf' : (slabFill c p).Fits := ⟨hf.object_pos, hf.nobjects_pos, hf.fits⟩
  have hu := slabFill_inUse hf.nobjects_pos (hc ▸ cacheCalculate_le c.object) p
  have hi : OneSlab.Inv p ⟨slabFill c p, []⟩ := ⟨hf', [], _, hu, rfl⟩
  refine ⟨hf'.laidOut hu hp, fun tr s hr => ⟨?_, ?_⟩⟩
  · exact (hr.inv (OneSlab.Inv p) hi fun _ _ _ h hs => (hs.inv h hp).1).threads
  · exact hr.forall_of_guard (OneSlab.Inv p) (fun _ => True) (SlotRight p) hi (fun _ _ _ h _ hs => hs.inv h hp)
      fun _ _ => trivial

private theorem not_laidOut {c : KmemCache} (hc : c.nobjects = 4080) (p : BitVec 32) : ¬ LaidOut (slabFill c p) p := by
  intro h
  have hlen : 16 + 2 * c.nobjects.toNat ≤ 4096 := h.bufctl
  rw [hc] at hlen
  exact absurd hlen (by decide)

private theorem not_slabThreaded_wrap : ¬ SlabThreaded 0xFFFFFFFF := fun h =>
  not_laidOut rfl 0 (h { blankCache with object := 0xFFFFFFFF, nobjects := 4080 } 0 rfl rfl rfl).1

private theorem take_of_zero {c : KmemCache} (h0 : c.object = 0) (p : BitVec 32) :
    (c.take p).2 = (c.slab p).objaddr := by
  change (c.slab p).objaddr + (c.slab p).free.setWidth 32 * c.object = _
  rw [h0]
  exact (congrArg _ BitVec.mul_zero).trans (BitVec.add_zero _)

private theorem not_slabThreaded_zero : ¬ SlabThreaded 0 := by
  intro h
  let c : KmemCache := slabFill { blankCache with nobjects := 2040 } 0
  have hr : Run (SlotStep 0) ⟨c, []⟩ _ _ := .snoc (.snoc .nil (.alloc (by decide))) (.alloc (by decide))
  have hright := ((h { blankCache with nobjects := 2040 } 0 rfl rfl rfl).2 _ _ hr).2 _ (mem_append_right _
    (mem_singleton.2 rfl))
  refine hright.1 (mem_cons.2 (.inl ?_))
  rw [take_of_zero rfl, take_of_zero rfl]
  simp [KmemCache.take]

/-- For the object sizes for which `cache_calculate` finds room, the slab is laid out in its page and its free objects
are threaded in all runs, except for the sizes 0 and `0xFFFFFFFF`. -/
theorem slab_free_chain {object : BitVec 32} (hn : 1 ≤ (cacheCalculate object).1.toNat) :
    SlabThreaded object ↔ object ≠ 0 ∧ object ≠ 0xFFFFFFFF := by
  constructor
  · intro h
    refine ⟨?_, ?_⟩
    · rintro rfl
      exact not_slabThreaded_zero h
    · rintro rfl
      exact not_slabThreaded_wrap h
  · rintro ⟨h0, hw⟩
    refine slabThreaded_of_fits (fun hz => ?_) h0 hw
    rw [hz] at hn
    exact absurd hn (by decide)

theorem slab_free_chain_2000 : SlabThreaded 2000 := (slab_free_chain (by decide)).2 ⟨by decide, by decide⟩

/-- A cache of objects of `0xFFFFFFFF` bytes can be made, and its slabs do not fit into a page. -/
theorem slab_beyond_page : ∃ c, kmemCacheCreate blankCache (some "object") 0xFFFFFFFF = some c ∧ c.nobjects = 4080 ∧
    ¬ LaidOut (slabFill c 0x100000) 0x100000 :=
  ⟨_, rfl, rfl, not_laidOut rfl 0x100000⟩

end Manrix
