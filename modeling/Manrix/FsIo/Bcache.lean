import Mathlib.Tactic.IntervalCases
import Manrix.Lib.Chain
import Manrix.Lib.Queues
import Manrix.Lib.Runs
import Manrix.LinkedList

/-!
# The buffer cache (`servers/fs-io/fs/bcache.c`)

`bread` looks a block up in a hash table and otherwise allocates a buffer for it or, when the cache is full, takes the
buffer that was released first and gives it the new block.  `bhash_insert` writes the old content of the bucket back, so
the table stays empty: no block is ever found, and each `bread` of a block that has a buffer gives it another one.  When
the cache is full and all buffers are in use, the head of the free list is taken for a buffer.
-/

namespace Manrix

open Chain Function Links List Runs

/-- The variables of the cache and the fields of its buffers.  `buffers` are those that have been allocated, and `held`
those that `bread` has returned and that have not been released; no operation reads `held`. -/
structure Bcache (β : Type*) where
  maxbuffcache : BitVec 32
  curbuffcache : BitVec 32
  bhashTable : Nat → Option β
  freelist : Links (Node Int β)
  next : β → Option β
  bDevno : β → BitVec 32
  bBlockno : β → BitVec 32
  bDatasz : β → BitVec 32
  buffers : List β
  held : List β

section

variable {β : Type*} [DecidableEq β]

/-- `bcache_init`, with so many bytes of memory free. -/
def bcacheInit (freemem : BitVec 32) : Bcache β where
  maxbuffcache := freemem / 100 * 50
  curbuffcache := 0
  bhashTable _ := none
  freelist := [0, 1, 2, 3, 4].foldl (fun l i => listInit l (.head i)) ⟨id, id⟩
  next _ := none
  bDevno _ := 0
  bBlockno _ := 0
  bDatasz _ := 0
  buffers := []
  held := []

/-- `hash_fn` of `bcache.h`. -/
def bhashFn (blockno devno : BitVec 32) : Nat := (blockno ^^^ devno).toNat % 1024

/-- The loop of `list_index`, which counts the bits of a size. -/
def sizeBits : Nat → Nat → Nat
  | 0, _ => 0
  | n + 1, size => if size ≥ 1 then sizeBits n (size >>> 1) + 1 else 0

def listIndex (size : BitVec 32) : Int := sizeBits 32 size.toInt.toNat - 10

/-- The bucket gets back what it had before. -/
def Bcache.bhashInsert (s : Bcache β) (b : β) : Bcache β :=
  let bucket := bhashFn (s.bBlockno b) (s.bDevno b)
  let s := { s with next := update s.next b (s.bhashTable bucket) }
  { s with bhashTable := update s.bhashTable bucket (s.next b) }

/-- `find_bcache`, with no result when the chain has no end. -/
def Bcache.findBcache (s : Bcache β) (dev block : BitVec 32) : Option (Option β) :=
  chainFind s.next (fun b => s.bDevno b = dev && s.bBlockno b = block) (s.buffers.length + 1)
    (s.bhashTable (bhashFn block dev))

def Bcache.setKey (s : Bcache β) (b : β) (dev block : BitVec 32) : Bcache β :=
  { s with bDevno := update s.bDevno b dev, bBlockno := update s.bBlockno b block }

/-- `alloc_bufcache`; `malloc` is the new buffer, if there is memory for one. -/
def Bcache.allocBufcache (s : Bcache β) (malloc : Option β) (dev block size : BitVec 32) : Bcache β × Option β :=
  match malloc with
  | none => (s, none)
  | some b =>
    let s := { s with next := update s.next b none, bDatasz := update s.bDatasz b size,
                      buffers := b :: s.buffers }
    let s := (s.setKey b dev block).bhashInsert b
    ({ s with curbuffcache := s.curbuffcache + size }, some b)

/-- There is no result when the head of an empty free list is taken for a buffer. -/
def Bcache.getblk (s : Bcache β) (malloc : Option β) (dev block size : BitVec 32) : Option (Bcache β × Option β) := do
  match ← s.findBcache dev block with
  | some b => return (s, some b)
  | none =>
    if s.curbuffcache ≥ s.maxbuffcache then
      match listDequeue s.freelist (.head (listIndex size)) with
      | (_, .head _) => none
      | (freelist, .obj b) => return ((({ s with freelist }).setKey b dev block).bhashInsert b, some b)
    else return s.allocBufcache malloc dev block size

def Bcache.bread (s : Bcache β) (malloc : Option β) (dev block size : BitVec 32) : Option (Bcache β × Option β) := do
  let (s, ret) ← s.getblk malloc dev block size
  return ({ s with held := ret.toList ++ s.held }, ret)

def Bcache.brelse (s : Bcache β) (b : β) : Bcache β :=
  { s with freelist := listEnqueue s.freelist (.head (listIndex (s.bDatasz b))) (.obj b), held := s.held.erase b }

def Bcache.key (s : Bcache β) (b : β) : BitVec 32 × BitVec 32 := (s.bDevno b, s.bBlockno b)

/-- A block has one buffer at most. -/
def Bcache.OneEach (s : Bcache β) : Prop := ∀ b ∈ s.buffers, ∀ b' ∈ s.buffers, s.key b = s.key b' → b = b'

inductive BufOp (β : Type*) where
  | bread (dev block : BitVec 32) (malloc : Option β)
  | brelse (b : β)

/-- One call, with the block size `size`.  Memory that is allocated is not in use, and a buffer is released that `bread`
has returned; there is no state after a call without a result. -/
inductive BufStep (size : BitVec 32) : Option (Bcache β) → BufOp β → Option (Bcache β) → Prop
  | bread {s : Bcache β} {dev block : BitVec 32} {malloc : Option β} : (∀ b, malloc = some b → b ∉ s.buffers) →
      BufStep size (some s) (.bread dev block malloc) ((s.bread malloc dev block size).map Prod.fst)
  | brelse {s : Bcache β} {b : β} : b ∈ s.held → BufStep size (some s) (.brelse b) (some (s.brelse b))

/-- A `bread` returns the buffer that the block has, if it has one; then no block has two; and a buffer that is given
another block is not in use. -/
def Coherent (size : BitVec 32) : Option (Bcache β) × BufOp β × Option (Bcache β) → Prop
  | (some s, .bread dev block malloc, _) => ∃ s' ret, s.bread malloc dev block size = some (s', ret) ∧
      (∀ b ∈ ret, ∀ b' ∈ s.buffers, s.key b' = (dev, block) → b = b') ∧ s'.OneEach ∧
      (s.findBcache dev block = some none → ∀ b ∈ ret, b ∈ s.buffers → b ∉ s.held)
  | _ => True

/-- No buffer has the block, apart from the one that is next to be taken when the cache is full. -/
def FreshBlock (size : BitVec 32) : Option (Bcache β) × BufOp β × Option (Bcache β) → Prop
  | (some s, .bread dev block malloc, _) =>
    if s.curbuffcache ≥ s.maxbuffcache then
      ∃ b, lastEntry s.freelist (.head (listIndex size)) = .obj b ∧ ∀ b' ∈ s.buffers, s.key b' = (dev, block) → b = b'
    else malloc = none ∨ ∀ b' ∈ s.buffers, s.key b' ≠ (dev, block)
  | _ => True

/-- The free list for the size is one of the five. -/
def HasList (size : BitVec 32) : Prop := 0 ≤ listIndex size ∧ listIndex size < 5

/-- The hash table is empty, and the free list has buffers that are not in use. -/
structure Bcache.Inv (s : Bcache β) (size : BitVec 32) (free : List β) : Prop where
  table : ∀ k, s.bhashTable k = none
  ring : IsRing s.freelist (.head (listIndex size)) (free.map .obj)
  free_mem : ∀ b ∈ free, b ∈ s.buffers
  held_mem : ∀ b ∈ s.held, b ∈ s.buffers
  held_nodup : s.held.Nodup
  not_free : ∀ b ∈ s.held, b ∉ free
  size_eq : ∀ b ∈ s.buffers, s.bDatasz b = size
  oneEach : s.OneEach

variable {s : Bcache β} {size : BitVec 32} {free : List β} {b : β} {dev block : BitVec 32}

private theorem bhashInsert_table (h : ∀ k, s.bhashTable k = none) (b : β) (k : Nat) :
    (s.bhashInsert b).bhashTable k = none := by
  simp only [Bcache.bhashInsert, update_self, h]
  by_cases hk : k = bhashFn (s.bBlockno b) (s.bDevno b)
  · rw [hk, update_self]
  · rw [update_of_ne hk, h]

private theorem key_setKey (b b' : β) : (s.setKey b dev block).key b' = if b' = b then (dev, block) else s.key b' := by
  simp only [Bcache.key, Bcache.setKey, update_apply]
  split <;> rfl

omit [DecidableEq β] in
private theorem findBcache_eq (h : ∀ k, s.bhashTable k = none) : s.findBcache dev block = some none := by
  rw [Bcache.findBcache, h]
  rfl

/-- The cache after the buffer `b` has been given another block. -/
def Bcache.recycle (s : Bcache β) (b : β) (dev block size : BitVec 32) : Bcache β :=
  { ((({ s with freelist := (listDequeue s.freelist (.head (listIndex size))).1 }).setKey b dev block).bhashInsert b)
    with held := b :: s.held }

/-- The cache after the buffer `b` has been allocated. -/
def Bcache.extend (s : Bcache β) (b : β) (dev block size : BitVec 32) : Bcache β :=
  { (s.allocBufcache (some b) dev block size).1 with held := b :: s.held }

private theorem bread_full (h : ∀ k, s.bhashTable k = none) (hfull : s.curbuffcache ≥ s.maxbuffcache)
    (hlast : lastEntry s.freelist (.head (listIndex size)) = .obj b) (malloc : Option β) :
    s.bread malloc dev block size = some (s.recycle b dev block size, some b) := by
  have hdeq : listDequeue s.freelist (.head (listIndex size)) =
      ((listDequeue s.freelist (.head (listIndex size))).1, .obj b) := by rw [← hlast]; rfl
  simp only [Bcache.bread, Bcache.getblk, findBcache_eq h, Option.bind_eq_bind, Option.bind_some, if_pos hfull]
  rw [hdeq]
  rfl

private theorem bread_full_none (h : ∀ k, s.bhashTable k = none) (hfull : s.curbuffcache ≥ s.maxbuffcache) {i : Int}
    (hlast : lastEntry s.freelist (.head (listIndex size)) = .head i) (malloc : Option β) :
    s.bread malloc dev block size = none := by
  have hdeq : listDequeue s.freelist (.head (listIndex size)) =
      ((listDequeue s.freelist (.head (listIndex size))).1, .head i) := by rw [← hlast]; rfl
  simp only [Bcache.bread, Bcache.getblk, findBcache_eq h, Option.bind_eq_bind, Option.bind_some, if_pos hfull]
  rw [hdeq]
  rfl

private theorem bread_alloc (h : ∀ k, s.bhashTable k = none) (hfull : ¬ s.curbuffcache ≥ s.maxbuffcache)
    (malloc : Option β) :
    s.bread malloc dev block size = some (malloc.elim s fun b => s.extend b dev block size, malloc) := by
  simp only [Bcache.bread, Bcache.getblk, findBcache_eq h, Option.bind_eq_bind, Option.bind_some, if_neg hfull]
  cases malloc <;> rfl

private theorem oneEach_setKey {s' : Bcache β} (h : s.OneEach) (hmem : ∀ b' ∈ s'.buffers, b' = b ∨ b' ∈ s.buffers)
    (hkey : ∀ b', s'.key b' = if b' = b then (dev, block) else s.key b')
    (hfresh : ∀ b' ∈ s.buffers, s.key b' = (dev, block) → b = b') : s'.OneEach := by
  intro b₁ h₁ b₂ h₂ heq
  rw [hkey, hkey] at heq
  by_cases e₁ : b₁ = b <;> by_cases e₂ : b₂ = b
  · rw [e₁, e₂]
  · rw [if_pos e₁, if_neg e₂] at heq
    exact e₁.trans (hfresh b₂ ((hmem b₂ h₂).resolve_left e₂) heq.symm)
  · rw [if_neg e₁, if_pos e₂] at heq
    exact (hfresh b₁ ((hmem b₁ h₁).resolve_left e₁) heq).symm.trans e₂.symm
  · rw [if_neg e₁, if_neg e₂] at heq
    exact h b₁ ((hmem b₁ h₁).resolve_left e₁) b₂ ((hmem b₂ h₂).resolve_left e₂) heq

theorem Bcache.Inv.recycle {free' : List β} (h : s.Inv size (free' ++ [b]))
    (hfresh : ∀ b' ∈ s.buffers, s.key b' = (dev, block) → b = b') : (s.recycle b dev block size).Inv size free' := by
  have hmem : b ∈ s.buffers := h.free_mem b (by simp)
  have hring := h.ring
  have hnodup : (free' ++ [b]).Nodup := (nodup_cons.1 hring.nodup).2.of_map _
  rw [map_append] at hring
  constructor
  · exact bhashInsert_table (s := ({ s with freelist := _ } : Bcache β).setKey b dev block) h.table b
  · exact listDequeue_ring hring
  · exact fun b' hb' => h.free_mem b' (mem_append_left _ hb')
  · rintro b' (_ | ⟨_, hb'⟩)
    exacts [hmem, h.held_mem b' hb']
  · exact nodup_cons.2 ⟨fun hb => h.not_free b hb (by simp), h.held_nodup⟩
  · rintro b' (_ | ⟨_, hb'⟩) hfree
    · exact (nodup_append.1 hnodup).2.2 b hfree b (by simp) rfl
    · exact h.not_free b' hb' (mem_append_left _ hfree)
  · exact h.size_eq
  · exact oneEach_setKey h.oneEach (fun b' hb' => .inr hb') (fun b' => key_setKey b b') hfresh

theorem Bcache.Inv.extend (h : s.Inv size free) (hb : b ∉ s.buffers)
    (hfresh : ∀ b' ∈ s.buffers, s.key b' ≠ (dev, block)) : (s.extend b dev block size).Inv size free := by
  constructor
  · exact bhashInsert_table (s := ({ s with next := _, bDatasz := _, buffers := _ } : Bcache β).setKey b dev block)
      h.table b
  · exact h.ring
  · exact fun b' hb' => mem_cons_of_mem _ (h.free_mem b' hb')
  · rintro b' (_ | ⟨_, hb'⟩)
    exacts [mem_cons_self, mem_cons_of_mem _ (h.held_mem b' hb')]
  · exact nodup_cons.2 ⟨fun hheld => hb (h.held_mem b hheld), h.held_nodup⟩
  · rintro b' (_ | ⟨_, hb'⟩) hfree
    exacts [hb (h.free_mem b hfree), h.not_free b' hb' hfree]
  · rintro b' (_ | ⟨_, hb'⟩)
    · exact update_self ..
    · have hne : b' ≠ b := fun e => hb (e ▸ hb')
      exact (update_of_ne hne ..).trans (h.size_eq b' hb')
  · refine oneEach_setKey h.oneEach (fun b' hb' => mem_cons.1 hb') (fun b' => key_setKey b b') ?_
    exact fun b' hb' hkey => absurd hkey (hfresh b' hb')

theorem Bcache.Inv.brelse (h : s.Inv size free) (hb : b ∈ s.held) : (s.brelse b).Inv size (b :: free) := by
  have hsize := h.size_eq b (h.held_mem b hb)
  constructor
  · exact h.table
  · rw [Bcache.brelse, hsize]
    exact listEnqueue_ring h.ring (by simpa using h.not_free b hb)
  · rintro b' (_ | ⟨_, hb'⟩)
    exacts [h.held_mem b hb, h.free_mem b' hb']
  · exact fun b' hb' => h.held_mem b' (mem_of_mem_erase hb')
  · exact h.held_nodup.erase b
  · rintro b' hb' hfree
    rcases mem_cons.1 hfree with rfl | hfree
    · exact h.held_nodup.not_mem_erase hb'
    · exact h.not_free b' (mem_of_mem_erase hb') hfree
  · exact h.size_eq
  · exact h.oneEach

/-- The state of a run whose calls have had a result. -/
def CacheOk (size : BitVec 32) (s : Option (Bcache β)) : Prop := ∃ s' free, s = some s' ∧ s'.Inv size free

/-- A `bread` is coherent exactly when no other buffer has the block. -/
private theorem coherent_iff {malloc : Option β} (h : s.Inv size free) (hnew : ∀ b, malloc = some b → b ∉ s.buffers)
    (s' : Option (Bcache β)) :
    Coherent size (some s, .bread dev block malloc, s') ↔ FreshBlock size (some s, .bread dev block malloc, s') := by
  simp only [Coherent, FreshBlock]
  split
  · rename_i hfull
    rcases h.ring.prev_head_cases with ⟨-, hlast⟩ | ⟨free', b, rfl, hlast⟩
    · rw [lastEntry, hlast, bread_full_none h.table hfull hlast]
      simp
    · rw [lastEntry, hlast, bread_full h.table hfull hlast]
      constructor
      · rintro ⟨_, _, ⟨⟩, hsame, -⟩
        exact ⟨b, rfl, hsame b rfl⟩
      · rintro ⟨_, ⟨⟩, hfresh⟩
        refine ⟨_, _, rfl, ?_, (h.recycle hfresh).oneEach, ?_⟩
        · rintro _ ⟨⟩
          exact hfresh
        · rintro - _ ⟨⟩ - hheld
          exact h.not_free b hheld (by simp)
  · rename_i hfull
    rw [bread_alloc h.table hfull]
    cases malloc with
    | none => exact iff_of_true ⟨s, none, rfl, by simp, h.oneEach, by simp⟩ (.inl rfl)
    | some b =>
      constructor
      · rintro ⟨_, _, ⟨⟩, hsame, -⟩
        refine .inr fun b' hb' hkey => hnew b rfl ?_
        rwa [hsame b rfl b' hb' hkey]
      · rintro (h' | hfresh)
        · cases h'
        · refine ⟨_, _, rfl, ?_, (h.extend (hnew b rfl) hfresh).oneEach, ?_⟩
          · exact fun _ _ b' hb' hkey => absurd hkey (hfresh b' hb')
          · rintro - _ ⟨⟩ hb
            exact absurd hb (hnew b rfl)

/-- A call that does not give a second buffer to a block keeps the invariant. -/
theorem BufStep.cacheOk {s s' : Option (Bcache β)} {op : BufOp β} (h : CacheOk size s)
    (hg : FreshBlock size (s, op, s')) (hs : BufStep size s op s') : CacheOk size s' := by
  obtain ⟨s, free, rfl, hinv⟩ := h
  cases hs with
  | @bread _ dev block malloc hnew =>
    simp only [FreshBlock] at hg
    split at hg
    · rename_i hfull
      obtain ⟨b, hlast, hfresh⟩ := hg
      rw [bread_full hinv.table hfull hlast]
      rcases hinv.ring.prev_head_cases with ⟨-, hlast'⟩ | ⟨free', b', rfl, hlast'⟩
      · cases hlast.symm.trans hlast'
      · cases hlast.symm.trans hlast'
        exact ⟨_, free', rfl, hinv.recycle hfresh⟩
    · rename_i hfull
      rw [bread_alloc hinv.table hfull]
      cases malloc with
      | none => exact ⟨s, free, rfl, hinv⟩
      | some b =>
        rcases hg with hg | hfresh
        · cases hg
        · exact ⟨_, free, rfl, hinv.extend (hnew b rfl) hfresh⟩
  | @brelse _ b hb => exact ⟨_, b :: free, rfl, hinv.brelse hb⟩

private theorem bcacheInit_inv (hsize : HasList size) (freemem : BitVec 32) :
    (bcacheInit freemem : Bcache β).Inv size [] := by
  refine ⟨fun _ => rfl, ⟨by simp, ?_, ?_⟩, by simp [bcacheInit], by simp [bcacheInit], by simp [bcacheInit],
    by simp [bcacheInit], by simp [bcacheInit], by simp [Bcache.OneEach, bcacheInit]⟩
  all_goals
    obtain ⟨hlow, hhigh⟩ := hsize
    generalize listIndex size = i at *
    interval_cases i <;> simp [bcacheInit, listInit]

end

/-- The calls are coherent exactly when each `bread` is for a block that no buffer has, but for the one it takes. -/
theorem bcache_coherent {β : Type*} [DecidableEq β] (freemem size : BitVec 32) (hsize : HasList size)
    (tr : List (Option (Bcache β) × BufOp β × Option (Bcache β))) (s : Option (Bcache β))
    (hrun : Run (BufStep size) (some (bcacheInit freemem)) tr s) :
    (∀ x ∈ tr, Coherent size x) ↔ ∀ x ∈ tr, FreshBlock size x := by
  refine hrun.forall_iff (CacheOk size) (FreshBlock size) (Coherent size) ⟨_, [], rfl, bcacheInit_inv hsize freemem⟩
    (fun s op s' h hg hs => hs.cacheOk h hg) ?_
  rintro s op s' ⟨s, free, rfl, hinv⟩ hs
  cases hs with
  | bread hnew => exact coherent_iff hinv hnew _
  | brelse hb => exact iff_of_true trivial trivial

/-- Block 5 has been read into the first buffer, which has been released. -/
def released : Bcache Bool := ((bcacheInit 1000000).extend true 0 5 1024).brelse true

private theorem released_run : ∃ tr, Run (BufStep 1024) (some (bcacheInit 1000000)) tr (some released) ∧
    tr.map (·.2.1) = [.bread 0 5 (some true), .brelse true] ∧ ∀ x ∈ tr, FreshBlock 1024 x := by
  have hread : BufStep 1024 (some (bcacheInit 1000000)) (.bread 0 5 (some true))
      (some ((bcacheInit 1000000).extend true 0 5 1024)) := .bread (by decide)
  have hrel : BufStep 1024 (some ((bcacheInit 1000000).extend true 0 5 1024)) (.brelse true) (some released) :=
    .brelse (by decide)
  refine ⟨_, .snoc (.snoc .nil hread) hrel, rfl, ?_⟩
  simp only [nil_append, mem_append, mem_singleton]
  rintro x (rfl | rfl)
  · exact .inr (by decide)
  · trivial

/-- Then another block is read into the second buffer. -/
theorem bcache_coherent_two : ∃ tr s, Run (BufStep 1024) (some (bcacheInit 1000000)) tr s ∧
    tr.map (·.2.1) = [.bread 0 5 (some true), .brelse true, .bread 0 6 (some false)] ∧ ∀ x ∈ tr, Coherent 1024 x := by
  obtain ⟨tr, hrun, hops, hfresh⟩ := released_run
  have hread : BufStep 1024 (some released) (.bread 0 6 (some false)) (some (released.extend false 0 6 1024)) :=
    .bread (by decide)
  refine ⟨_, _, hrun.snoc hread, by rw [map_append, hops]; rfl,
    (bcache_coherent 1000000 1024 ⟨by decide, by decide⟩ _ _ (hrun.snoc hread)).2 fun x hx => ?_⟩
  rcases mem_append.1 hx with hx | hx
  · exact hfresh x hx
  · rw [mem_singleton.1 hx]
    exact .inr (by decide)

/-- The same block is read again, and it has two buffers. -/
theorem block_in_two_buffers : ∃ tr s, Run (BufStep 1024) (some (bcacheInit 1000000)) tr (some s) ∧
    tr.map (·.2.1) = [.bread 0 5 (some true), .brelse true, .bread 0 5 (some false)] ∧
    true ∈ s.buffers ∧ false ∈ s.buffers ∧ s.key true = (0, 5) ∧ s.key false = (0, 5) := by
  obtain ⟨tr, hrun, hops, -⟩ := released_run
  have hread : BufStep 1024 (some released) (.bread 0 5 (some false)) (some (released.extend false 0 5 1024)) :=
    .bread (by decide)
  exact ⟨_, _, hrun.snoc hread, by rw [map_append, hops]; rfl, by decide, by decide, by decide, by decide⟩

end Manrix
