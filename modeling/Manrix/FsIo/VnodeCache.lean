import Mathlib.Data.List.Perm.Subperm
import Manrix.FsIo.Bcache

/-!
# The vnode cache (`servers/fs-io/fs/vfs.c`)

`vget` looks an inode up in a hash table and otherwise takes a vnode off the free list; `vput` puts a vnode on the free
list when its count gets to zero and leaves it in the table.  A hit does not take the vnode off the free list, and a
vnode that is taken for another inode is not taken out of its chain, because `V_FREE` is never cleared: its new link
cuts off the vnodes behind it.  As long as only new vnodes are taken the chains are right, and then a hit is right
exactly when the vnode is not on the free list.
-/

namespace Manrix

open Chain Function Links List Runs

/-- The variables of the cache and the fields of the vnodes. -/
structure VnodeCache (ν : Type*) where
  vnodecache : List ν
  vnhash : Nat → Option ν
  vnfreelist : Links (Node Unit ν)
  vFlag : ν → BitVec 16
  vCount : ν → BitVec 32
  vInum : ν → BitVec 32
  vRdev : ν → BitVec 32
  vNext : ν → Option ν

def vFree : BitVec 16 := 2

def vNew : BitVec 16 := 16

section

variable {ν : Type*} [DecidableEq ν]

/-- The part of `vfs_init` that makes the cache; the memory of the vnodes is set to zero. -/
def vfsInit (vnodes : List ν) : VnodeCache ν where
  vnodecache := vnodes
  vnhash _ := none
  vnfreelist := vnodes.foldl (fun l v => listEnqueue l (.head ()) (.obj v)) (listInit ⟨id, id⟩ (.head ()))
  vFlag _ := vNew ||| vFree
  vCount _ := 0
  vInum _ := 0
  vRdev _ := 0
  vNext _ := none

def VnodeCache.vnhashInsert (s : VnodeCache ν) (vn : ν) : VnodeCache ν :=
  let bucket := bhashFn (s.vInum vn) (s.vRdev vn)
  let s := { s with vNext := update s.vNext vn (s.vnhash bucket) }
  { s with vnhash := update s.vnhash bucket (some vn) }

/-- `vnhash_remove` has no result when the chain is empty, because the lock of the table is kept, and when the vnode is
not the first one, because the loop does not stop before the null pointer.  The first one stays in its chain. -/
def VnodeCache.vnhashRemove (s : VnodeCache ν) (vn : ν) : Option (VnodeCache ν) :=
  match s.vnhash (bhashFn (s.vInum vn) (s.vRdev vn)) with
  | none => none
  | some p => if p = vn then some s else none

/-- `find_vnode`, with no result when the chain has no end. -/
def VnodeCache.findVnode (s : VnodeCache ν) (dev inum : BitVec 32) : Option (Option ν) :=
  chainFind s.vNext (fun vn => s.vRdev vn = dev && s.vInum vn = inum) (s.vnodecache.length + 1)
    (s.vnhash (bhashFn inum dev))

/-- `vget`; `ops` says whether the parent can read an inode. -/
def VnodeCache.vget (s : VnodeCache ν) (ops : Bool) (inum dev : BitVec 32) : Option (VnodeCache ν × Option ν) :=
  if !ops then some (s, none)
  else do
    match ← s.findVnode dev inum with
    | some vn => return ({ s with vCount := update s.vCount vn (s.vCount vn + 1) }, some vn)
    | none =>
      -- it waits for a free vnode with the lock of the free list held
      if listIsempty s.vnfreelist (.head ()) then none
      else
        match listDequeue s.vnfreelist (.head ()) with
        | (_, .head _) => none
        | (vnfreelist, .obj vn) =>
          let s := { s with vnfreelist }
          let s ←
            if s.vFlag vn &&& vFree ≠ 0 then some { s with vCount := update s.vCount vn 1 }
            else (s.vnhashRemove vn).map fun s => { s with vCount := update s.vCount vn (s.vCount vn + 1) }
          let s := { s with vRdev := update s.vRdev vn dev, vInum := update s.vInum vn inum }
          return (s.vnhashInsert vn, some vn)

/-- `vput`; that a dirty inode is written does not change the cache. -/
def VnodeCache.vput (s : VnodeCache ν) (vn : ν) : VnodeCache ν :=
  let s := { s with vCount := update s.vCount vn (s.vCount vn - 1) }
  if s.vCount vn ≠ 0 then s
  else
    { s with vFlag := update s.vFlag vn vFree
             vnfreelist := listEnqueue s.vnfreelist (.head ()) (.obj vn) }

def VnodeCache.key (s : VnodeCache ν) (vn : ν) : BitVec 32 × BitVec 32 := (s.vRdev vn, s.vInum vn)

def VnodeCache.InUse (s : VnodeCache ν) (vn : ν) : Prop := vn ∈ s.vnodecache ∧ 0 < (s.vCount vn).toInt

/-- A vnode in use is not free, it is the only one of its inode, and it is found. -/
structure VnodeCache.Good (s : VnodeCache ν) : Prop where
  not_free : ∀ vn, s.InUse vn → ¬ Threaded s.vnfreelist () vn
  one_each : ∀ vn vn', s.InUse vn → s.InUse vn' → s.key vn = s.key vn' → vn = vn'
  found : ∀ vn, s.InUse vn → s.findVnode (s.vRdev vn) (s.vInum vn) = some (some vn)

inductive VnOp (ν : Type*) where
  | vget (ops : Bool) (inum dev : BitVec 32)
  | vput (vn : ν)

/-- One call.  There is a free vnode when `vget` needs one, and a vnode that is put has been got; there is no state
after a call without a result. -/
inductive VnStep : Option (VnodeCache ν) → VnOp ν → Option (VnodeCache ν) → Prop
  | vget {s : VnodeCache ν} {ops : Bool} {inum dev : BitVec 32} :
      (s.findVnode dev inum = some none → listIsempty s.vnfreelist (.head ()) = false) →
      VnStep (some s) (.vget ops inum dev) ((s.vget ops inum dev).map Prod.fst)
  | vput {s : VnodeCache ν} {vn : ν} : s.InUse vn → VnStep (some s) (.vput vn) (some (s.vput vn))

/-- The cache is as it should be after the call, and a vnode in use still has its inode. -/
def KeepsVnodes : Option (VnodeCache ν) × VnOp ν × Option (VnodeCache ν) → Prop
  | (s, _, s') => ∃ t t', s = some t ∧ s' = some t' ∧ t'.Good ∧ ∀ vn, t.InUse vn → t'.key vn = t.key vn

/-- A vnode that is taken off the free list has not been used before. -/
def TakesNew : Option (VnodeCache ν) × VnOp ν × Option (VnodeCache ν) → Prop
  | (some s, .vget true inum dev, _) => s.findVnode dev inum = some none →
      ∃ vn, lastEntry s.vnfreelist (.head ()) = .obj vn ∧ s.vFlag vn &&& vNew ≠ 0
  | _ => True

/-- A vnode that is found is not on the free list. -/
def HitsInUse : Option (VnodeCache ν) × VnOp ν × Option (VnodeCache ν) → Prop
  | (some s, .vget true inum dev, _) => ∀ vn, s.findVnode dev inum = some (some vn) → ¬ Threaded s.vnfreelist () vn
  | _ => True

/-- All vnodes are new and free, and none is in the table. -/
structure VnodeCache.Unused (s : VnodeCache ν) : Prop where
  ring : ∃ free : List ν, free.Perm s.vnodecache ∧ IsRing s.vnfreelist (.head ()) (free.map .obj)
  unhashed : ∀ k, s.vnhash k = none
  count : ∀ vn ∈ s.vnodecache, s.vCount vn = 0
  flag : ∀ vn ∈ s.vnodecache, s.vFlag vn = vNew ||| vFree

/-- The free list has `free` and the chains of the table have `chain`; new vnodes on the free list are in no chain. -/
structure VnodeCache.Inv (s : VnodeCache ν) (free : List ν) (chain : Nat → List ν) : Prop where
  ring : IsRing s.vnfreelist (.head ()) (free.map .obj)
  chains : ∀ k, IsChain s.vNext (s.vnhash k) (chain k)
  nodup : ∀ k, (chain k).Nodup
  hash : ∀ k, ∀ vn ∈ chain k, bhashFn (s.vInum vn) (s.vRdev vn) = k
  key_inj : ∀ k, ∀ vn ∈ chain k, ∀ vn' ∈ chain k, s.key vn = s.key vn' → vn = vn'
  chain_mem : ∀ k, ∀ vn ∈ chain k, vn ∈ s.vnodecache
  free_mem : ∀ vn ∈ free, vn ∈ s.vnodecache
  free_zero : ∀ vn ∈ free, s.vCount vn = 0
  free_new : ∀ vn ∈ free, s.vFlag vn &&& vNew ≠ 0 → ∀ k, vn ∉ chain k
  hashed : ∀ vn ∈ s.vnodecache, s.vCount vn ≠ 0 → ∃ k, vn ∈ chain k
  flag : ∀ vn ∈ s.vnodecache, s.vFlag vn &&& vFree ≠ 0

variable {s : VnodeCache ν} {free : List ν} {chain : Nat → List ν} {vn : ν} {inum dev : BitVec 32}

omit [DecidableEq ν] in
theorem VnodeCache.InUse.ne_zero (h : s.InUse vn) : s.vCount vn ≠ 0 := by
  intro hzero
  have hpos := h.2
  rw [hzero] at hpos
  exact absurd hpos (by decide)

omit [DecidableEq ν] in
theorem findVnode_eq (h : s.Inv free chain) (dev inum : BitVec 32) : s.findVnode dev inum =
    some ((chain (bhashFn inum dev)).find? fun vn => s.vRdev vn = dev && s.vInum vn = inum) := by
  refine chainFind_eq (h.chains _) _ (Nat.lt_succ_of_le ?_)
  exact (subperm_of_subset (h.nodup _) fun vn => h.chain_mem _ vn).length_le

omit [DecidableEq ν] in
theorem VnodeCache.Inv.of_found (h : s.Inv free chain) (hf : s.findVnode dev inum = some (some vn)) :
    vn ∈ chain (bhashFn inum dev) ∧ s.key vn = (dev, inum) := by
  rw [findVnode_eq h, Option.some.injEq] at hf
  refine ⟨mem_of_find?_eq_some hf, ?_⟩
  have htest := find?_some hf
  simp only [Bool.and_eq_true, decide_eq_true_eq] at htest
  exact Prod.ext htest.1 htest.2

omit [DecidableEq ν] in
theorem VnodeCache.Inv.of_missed (h : s.Inv free chain) (hf : s.findVnode dev inum = some none) :
    ∀ vn ∈ chain (bhashFn inum dev), s.key vn ≠ (dev, inum) := by
  rw [findVnode_eq h, Option.some.injEq, find?_eq_none] at hf
  rintro vn hvn hkey
  cases hkey
  exact hf vn hvn (by simp)

omit [DecidableEq ν] in
theorem VnodeCache.Inv.good (h : s.Inv free chain) : s.Good := by
  have hin : ∀ vn, s.InUse vn → vn ∈ chain (bhashFn (s.vInum vn) (s.vRdev vn)) := by
    intro vn hvn
    obtain ⟨k, hk⟩ := h.hashed vn hvn.1 hvn.ne_zero
    rwa [h.hash k vn hk]
  refine ⟨fun vn hvn hfree => ?_, fun vn vn' hvn hvn' hkey => ?_, fun vn hvn => ?_⟩
  · exact hvn.ne_zero (h.free_zero vn ((threaded_iff h.ring).1 hfree))
  · refine h.key_inj _ vn (hin vn hvn) vn' ?_ hkey
    obtain ⟨hdev, hinum⟩ := Prod.ext_iff.1 hkey
    change s.vRdev vn = s.vRdev vn' at hdev
    change s.vInum vn = s.vInum vn' at hinum
    rw [hdev, hinum]
    exact hin vn' hvn'
  · rw [findVnode_eq h, Option.some.injEq]
    cases hf : (chain (bhashFn (s.vInum vn) (s.vRdev vn))).find? fun w =>
        s.vRdev w = s.vRdev vn && s.vInum w = s.vInum vn with
    | none => exact absurd (find?_eq_none.1 hf vn (hin vn hvn)) (by simp)
    | some w =>
      have htest := find?_some hf
      simp only [Bool.and_eq_true, decide_eq_true_eq] at htest
      rw [h.key_inj _ w (mem_of_find?_eq_some hf) vn (hin vn hvn) (Prod.ext htest.1 htest.2)]

/-- The vnode has another count. -/
def VnodeCache.counted (s : VnodeCache ν) (vn : ν) (c : BitVec 32) : VnodeCache ν :=
  { s with vCount := update s.vCount vn c }

/-- The vnode has been taken off the free list for an inode. -/
def VnodeCache.taken (s : VnodeCache ν) (vn : ν) (inum dev : BitVec 32) : VnodeCache ν :=
  ({ s.counted vn 1 with
      vnfreelist := (listDequeue s.vnfreelist (.head ())).1
      vRdev := update s.vRdev vn dev
      vInum := update s.vInum vn inum } : VnodeCache ν).vnhashInsert vn

theorem VnodeCache.Inv.counted (h : s.Inv free chain) {k : Nat} (hk : vn ∈ chain k) (hfree : vn ∉ free)
    (c : BitVec 32) : (s.counted vn c).Inv free chain where
  ring := h.ring
  chains := h.chains
  nodup := h.nodup
  hash := h.hash
  key_inj := h.key_inj
  chain_mem := h.chain_mem
  free_mem := h.free_mem
  free_zero w hw := (update_of_ne (ne_of_mem_of_not_mem hw hfree) ..).trans (h.free_zero w hw)
  free_new := h.free_new
  hashed w hw hne := by
    by_cases e : w = vn
    · exact ⟨k, e ▸ hk⟩
    · exact h.hashed w hw fun hzero => hne ((update_of_ne e ..).trans hzero)
  flag := h.flag

/-- A new vnode is taken off the free list and put in front of the chain of its inode. -/
theorem VnodeCache.Inv.taken (h : s.Inv (free ++ [vn]) chain) (hnew : s.vFlag vn &&& vNew ≠ 0)
    (hmiss : ∀ w ∈ chain (bhashFn inum dev), s.key w ≠ (dev, inum)) : (s.taken vn inum dev).Inv free
      (update chain (bhashFn inum dev) (vn :: chain (bhashFn inum dev))) := by
  have hmem : vn ∈ s.vnodecache := h.free_mem vn (by simp)
  have hout : ∀ k, vn ∉ chain k := h.free_new vn (by simp) hnew
  have hne : ∀ k, ∀ w ∈ chain k, w ≠ vn := fun k w hw e => hout k (e ▸ hw)
  have hring := h.ring
  have hnodup : (free ++ [vn]).Nodup := (nodup_cons.1 hring.nodup).2.of_map _
  have hfree : ∀ w ∈ free, w ≠ vn := fun w hw => (nodup_append.1 hnodup).2.2 w hw vn (by simp)
  rw [map_append] at hring
  -- the bucket is that of the new inode
  simp only [VnodeCache.taken, VnodeCache.counted, vnhashInsert, update_self]
  generalize hb : bhashFn inum dev = b at *
  generalize hs' : ({ s with vnhash := _, vnfreelist := _, vCount := _, vInum := _, vRdev := _, vNext := _ } :
    VnodeCache ν) = s'
  have hself : s'.key vn = (dev, inum) := by
    rw [← hs', key]
    exact Prod.ext (update_self ..) (update_self ..)
  have hkeep : ∀ w, w ≠ vn → s'.key w = s.key w := by
    intro w hw
    rw [← hs', key]
    exact Prod.ext (update_of_ne hw ..) (update_of_ne hw ..)
  subst hs'
  constructor
  case ring => exact listDequeue_ring hring
  case chains => exact isChain_push h.chains hout b
  case nodup => exact nodup_push h.nodup hout b
  case hash =>
    intro k w hw
    rcases mem_push.1 hw with ⟨rfl, rfl⟩ | hw
    · simpa only [update_self] using hb
    · simpa only [update_of_ne (hne k w hw)] using h.hash k w hw
  case key_inj =>
    intro k w hw w' hw' hkey
    rcases mem_push.1 hw with ⟨hk, e⟩ | hold <;> rcases mem_push.1 hw' with ⟨hk', e'⟩ | hold'
    · exact e.trans e'.symm
    · rw [e, hself, hkeep w' (hne k w' hold')] at hkey
      exact absurd hkey.symm (hmiss w' (hk ▸ hold'))
    · rw [e', hself, hkeep w (hne k w hold)] at hkey
      exact absurd hkey (hmiss w (hk' ▸ hold))
    · rw [hkeep w (hne k w hold), hkeep w' (hne k w' hold')] at hkey
      exact h.key_inj k w hold w' hold' hkey
  case chain_mem =>
    intro k w hw
    rcases mem_push.1 hw with ⟨-, rfl⟩ | hw
    exacts [hmem, h.chain_mem k w hw]
  case free_mem => exact fun w hw => h.free_mem w (mem_append_left _ hw)
  case free_zero =>
    exact fun w hw => (update_of_ne (hfree w hw) ..).trans (h.free_zero w (mem_append_left _ hw))
  case free_new =>
    intro w hw hflag k hk
    rcases mem_push.1 hk with ⟨-, rfl⟩ | hk
    exacts [hfree w hw rfl, h.free_new w (mem_append_left _ hw) hflag k hk]
  case hashed =>
    intro w hw hcount
    by_cases e : w = vn
    · exact ⟨b, mem_push.2 (.inl ⟨rfl, e⟩)⟩
    · obtain ⟨k, hk⟩ := h.hashed w hw fun hzero => hcount ((update_of_ne e ..).trans hzero)
      exact ⟨k, mem_push.2 (.inr hk)⟩
  case flag => exact h.flag

/-- The last user puts a vnode on the free list. -/
theorem VnodeCache.Inv.release (h : s.Inv free chain) (hmem : vn ∈ s.vnodecache) (hfree : vn ∉ free) :
    ({ s with vCount := update s.vCount vn 0
              vFlag := update s.vFlag vn vFree
              vnfreelist := listEnqueue s.vnfreelist (.head ()) (.obj vn) } : VnodeCache ν).Inv (vn :: free) chain where
  ring := listEnqueue_ring h.ring (by simpa using hfree)
  chains := h.chains
  nodup := h.nodup
  hash := h.hash
  key_inj := h.key_inj
  chain_mem := h.chain_mem
  free_mem := by
    rintro w (_ | ⟨_, hw⟩)
    exacts [hmem, h.free_mem w hw]
  free_zero := by
    rintro w (_ | ⟨_, hw⟩)
    · exact update_self ..
    · exact (update_of_ne (ne_of_mem_of_not_mem hw hfree) ..).trans (h.free_zero w hw)
  free_new := by
    rintro w (_ | ⟨_, hw⟩) hflag
    · change update s.vFlag vn vFree vn &&& vNew ≠ 0 at hflag
      rw [update_self] at hflag
      exact absurd rfl hflag
    · change update s.vFlag vn vFree w &&& vNew ≠ 0 at hflag
      rw [update_of_ne (ne_of_mem_of_not_mem hw hfree)] at hflag
      exact h.free_new w hw hflag
  hashed w hw hne := by
    by_cases e : w = vn
    · subst e
      exact absurd (update_self ..) hne
    · exact h.hashed w hw fun hzero => hne ((update_of_ne e ..).trans hzero)
  flag w hw := by
    change update s.vFlag vn vFree w &&& vFree ≠ 0
    by_cases e : w = vn
    · rw [e, update_self]
      decide
    · rw [update_of_ne e]
      exact h.flag w hw

theorem VnodeCache.Inv.vput (h : s.Inv free chain) (hvn : s.InUse vn) : ∃ free', (s.vput vn).Inv free' chain := by
  have hfree : vn ∉ free := fun hf => hvn.ne_zero (h.free_zero vn hf)
  obtain ⟨k, hk⟩ := h.hashed vn hvn.1 hvn.ne_zero
  simp only [VnodeCache.vput, update_self]
  split
  · exact ⟨free, h.counted hk hfree _⟩
  · rename_i hzero
    rw [not_not.1 hzero]
    exact ⟨vn :: free, h.release hvn.1 hfree⟩

/-- The cache of a run whose calls have had a result. -/
def VnodesOk (s : Option (VnodeCache ν)) : Prop := ∃ t free chain, s = some t ∧ t.Inv free chain

theorem vget_hit (hf : s.findVnode dev inum = some (some vn)) :
    s.vget true inum dev = some (s.counted vn (s.vCount vn + 1), some vn) := by
  simp only [VnodeCache.vget, hf]
  rfl

theorem vget_take (hf : s.findVnode dev inum = some none) (hempty : listIsempty s.vnfreelist (.head ()) = false)
    (hlast : lastEntry s.vnfreelist (.head ()) = .obj vn) (hflag : s.vFlag vn &&& vFree ≠ 0) :
    s.vget true inum dev = some (s.taken vn inum dev, some vn) := by
  have hdeq : listDequeue s.vnfreelist (.head ()) = ((listDequeue s.vnfreelist (.head ())).1, .obj vn) := by
    rw [← hlast]
    rfl
  simp only [VnodeCache.vget, hf, hempty, Bool.not_true, Bool.false_eq_true, if_false, Option.bind_eq_bind,
    Option.bind_some]
  rw [hdeq]
  simp only [hflag, ne_eq, not_false_eq_true, if_true]
  rfl

/-- A call that keeps the condition keeps the invariant, and the inodes of the vnodes in use. -/
theorem VnStep.ok {s s' : Option (VnodeCache ν)} {op : VnOp ν} (h : VnodesOk s) (hs : VnStep s op s')
    (hnew : TakesNew (s, op, s')) (hhit : HitsInUse (s, op, s')) : VnodesOk s' ∧ KeepsVnodes (s, op, s') := by
  obtain ⟨t, free, chain, rfl, hinv⟩ := h
  have hkeep : ∀ {t' : VnodeCache ν} {free' : List ν} {chain' : Nat → List ν}, t'.Inv free' chain' →
      (∀ vn, t.InUse vn → t'.key vn = t.key vn) → VnodesOk (some t') ∧ KeepsVnodes (some t, op, some t') :=
    fun h' hkey => ⟨⟨_, _, _, rfl, h'⟩, _, _, rfl, rfl, h'.good, hkey⟩
  cases hs with
  | @vget _ ops inum dev hfree =>
    cases ops with
    | false => exact hkeep hinv fun _ _ => rfl
    | true =>
      cases hf : t.findVnode dev inum with
      | none =>
        rw [findVnode_eq hinv] at hf
        cases hf
      | some found =>
        cases found with
        | some vn =>
          rw [vget_hit hf]
          have hfree : vn ∉ free := fun hmem => hhit vn hf ((threaded_iff hinv.ring).2 hmem)
          exact hkeep (hinv.counted (hinv.of_found hf).1 hfree _) fun _ _ => rfl
        | none =>
          obtain ⟨vn, hlast, hflag⟩ := hnew hf
          rcases hinv.ring.prev_head_cases with ⟨-, hlast'⟩ | ⟨free', vn', rfl, hlast'⟩
          · cases hlast.symm.trans hlast'
          · cases hlast.symm.trans hlast'
            have hmem : vn ∈ free' ++ [vn] := by simp
            rw [vget_take hf (hfree hf) hlast (hinv.flag vn (hinv.free_mem vn hmem))]
            refine hkeep (hinv.taken hflag (hinv.of_missed hf)) fun w hw => ?_
            have hne : w ≠ vn := by
              rintro rfl
              exact hw.ne_zero (hinv.free_zero w hmem)
            exact Prod.ext (update_of_ne hne ..) (update_of_ne hne ..)
  | @vput _ vn hvn =>
    obtain ⟨free', h'⟩ := hinv.vput hvn
    refine hkeep h' fun w _ => ?_
    simp only [VnodeCache.vput]
    split <;> rfl

theorem VnStep.hitsInUse {s s' : Option (VnodeCache ν)} {op : VnOp ν} (h : VnodesOk s) (hs : VnStep s op s')
    (hkeeps : KeepsVnodes (s, op, s')) : HitsInUse (s, op, s') := by
  obtain ⟨t, free, chain, rfl, hinv⟩ := h
  cases hs with
  | vput hvn => trivial
  | @vget _ ops inum dev hfree =>
    cases ops with
    | false => trivial
    | true =>
      intro vn hf hon
      obtain ⟨_, t', ⟨⟩, ht', hgood, -⟩ := hkeeps
      rw [vget_hit hf] at ht'
      cases ht'
      have hmem := (threaded_iff hinv.ring).1 hon
      have hone : t.vCount vn + 1 = 1 := by rw [hinv.free_zero vn hmem]; rfl
      refine hgood.not_free vn ⟨hinv.free_mem vn hmem, ?_⟩ hon
      change 0 < (update t.vCount vn (t.vCount vn + 1) vn).toInt
      rw [update_self, hone]
      decide

omit [DecidableEq ν] in
theorem VnodeCache.Unused.inv (h : s.Unused) : ∃ free, free.Perm s.vnodecache ∧ s.Inv free fun _ => [] := by
  obtain ⟨free, hperm, hring⟩ := h.ring
  refine ⟨free, hperm, ?_⟩
  constructor
  case ring => exact hring
  case chains => exact h.unhashed
  case free_mem => exact fun vn hvn => hperm.mem_iff.1 hvn
  case free_zero => exact fun vn hvn => h.count vn (hperm.mem_iff.1 hvn)
  case hashed => exact fun vn hvn hne => absurd (h.count vn hvn) hne
  case flag =>
    intro vn hvn
    rw [h.flag vn hvn]
    decide
  all_goals simp

omit [DecidableEq ν] in
theorem VnodeCache.Unused.ok (h : s.Unused) : VnodesOk (some s) := by
  obtain ⟨free, -, hinv⟩ := h.inv
  exact ⟨s, free, _, rfl, hinv⟩

private theorem enqueue_all_ring (vnodes : List ν) :
    ∀ {l : Links (Node Unit ν)} {xs : List ν}, IsRing l (.head ()) (xs.map .obj) → (vnodes ++ xs).Nodup →
    IsRing (vnodes.foldl (fun l v => listEnqueue l (.head ()) (.obj v)) l) (.head ())
      ((vnodes.reverse ++ xs).map .obj) := by
  induction vnodes with
  | nil => exact fun hring _ => hring
  | cons v vnodes ih =>
    intro l xs hring hnodup
    rw [cons_append, nodup_cons] at hnodup
    have hv : v ∉ xs := fun hv => hnodup.1 (mem_append_right _ hv)
    have hring' : IsRing (listEnqueue l (.head ()) (.obj v)) (.head ()) ((v :: xs).map .obj) :=
      listEnqueue_ring hring (by simpa using hv)
    have hnext := ih hring' (perm_middle.nodup_iff.2 (nodup_cons.2 hnodup))
    rwa [reverse_cons, append_assoc]

theorem vfsInit_unused {vnodes : List ν} (hnodup : vnodes.Nodup) : (vfsInit vnodes).Unused where
  ring := by
    have hempty : IsRing (listInit (⟨id, id⟩ : Links (Node Unit ν)) (.head ())) (.head ()) ([].map .obj) :=
      listInit_ring ..
    have hring := enqueue_all_ring vnodes hempty (by rwa [append_nil])
    rw [append_nil] at hring
    exact ⟨vnodes.reverse, vnodes.reverse_perm, hring⟩
  unhashed _ := rfl
  count _ _ := rfl
  flag _ _ := rfl

end

/-- When no vnode is given another inode, the cache is right at every step exactly when no free vnode is found. -/
theorem vnode_cache_right {ν : Type*} [DecidableEq ν] (s₀ : VnodeCache ν) (h₀ : s₀.Unused)
    (tr : List (Option (VnodeCache ν) × VnOp ν × Option (VnodeCache ν))) (s : Option (VnodeCache ν))
    (hrun : Run VnStep (some s₀) tr s) (hnew : ∀ x ∈ tr, TakesNew x) :
    (∀ x ∈ tr, KeepsVnodes x) ↔ ∀ x ∈ tr, HitsInUse x := by
  refine (hrun.restrict hnew).forall_iff VnodesOk HitsInUse KeepsVnodes h₀.ok ?_ ?_
  · exact fun s op s' h hhit hs => (hs.1.ok h hs.2 hhit).1
  · exact fun s op s' h hs => ⟨hs.1.hitsInUse h, fun hhit => (hs.1.ok h hs.2 hhit).2⟩

/-- One inode is got twice and put once. -/
theorem vnode_cache_right_two : ∃ tr s, Run VnStep (some (vfsInit [true, false])) tr s ∧
    tr.map (·.2.1) = [.vget true 5 0, .vget true 5 0, .vput true] ∧ ∀ x ∈ tr, KeepsVnodes x := by
  have hget : VnStep (some (vfsInit [true, false])) (.vget true 5 0)
      (some ((vfsInit [true, false]).taken true 5 0)) := .vget (by decide)
  have hagain : VnStep (some ((vfsInit [true, false]).taken true 5 0)) (.vget true 5 0)
      (some (((vfsInit [true, false]).taken true 5 0).counted true 2)) := .vget (by decide)
  have hput : VnStep (some (((vfsInit [true, false]).taken true 5 0).counted true 2)) (.vput true)
      (some ((((vfsInit [true, false]).taken true 5 0).counted true 2).vput true)) := .vput ⟨by decide, by decide⟩
  have hring : IsRing ((vfsInit [true, false]).taken true 5 0).vnfreelist (.head ()) ([false].map .obj) :=
    ⟨by decide, ⟨rfl, rfl⟩, ⟨rfl, rfl⟩⟩
  have hrun := ((Run.nil.snoc hget).snoc hagain).snoc hput
  refine ⟨_, _, hrun, rfl, (vnode_cache_right _ (vfsInit_unused (by decide)) _ _ hrun ?_).2 ?_⟩
  · simp only [nil_append, cons_append, mem_cons, not_mem_nil, or_false]
    rintro x (rfl | rfl | rfl)
    · exact fun _ => ⟨true, rfl, by decide⟩
    · exact fun h => absurd h (by decide)
    · trivial
  · simp only [nil_append, cons_append, mem_cons, not_mem_nil, or_false]
    rintro x (rfl | rfl | rfl)
    · exact fun vn h => absurd h (by cases vn <;> decide)
    · intro vn hf hfree
      cases (threaded_iff hring).1 hfree with
      | head => exact absurd hf (by decide)
      | tail _ h => cases h
    · trivial

/-- An inode is put and got again: its vnode is in use and on the free list.  And of two inodes in one chain the last
one is put: when its vnode is taken for a third one, the first is in use and is not found. -/
theorem vnode_in_use_lost : (∃ tr s, Run VnStep (some (vfsInit [true])) tr (some s) ∧
      tr.map (·.2.1) = [.vget true 5 0, .vput true, .vget true 5 0] ∧ s.InUse true ∧ Threaded s.vnfreelist () true) ∧
    (∃ tr s, Run VnStep (some (vfsInit [true, false])) tr (some s) ∧
      tr.map (·.2.1) = [.vget true 5 0, .vget true 1029 0, .vput false, .vget true 6 0] ∧ s.InUse true ∧
      s.key true = (0, 5) ∧ s.findVnode 0 5 = some none) := by
  constructor
  · have hget : VnStep (some (vfsInit [true])) (.vget true 5 0) (some ((vfsInit [true]).taken true 5 0)) :=
      .vget (by decide)
    have hput : VnStep (some ((vfsInit [true]).taken true 5 0)) (.vput true)
        (some (((vfsInit [true]).taken true 5 0).vput true)) := .vput ⟨by decide, by decide⟩
    have hagain : VnStep (some (((vfsInit [true]).taken true 5 0).vput true)) (.vget true 5 0)
        (some ((((vfsInit [true]).taken true 5 0).vput true).counted true 1)) := .vget (by decide)
    exact ⟨_, _, ((Run.nil.snoc hget).snoc hput).snoc hagain, rfl, ⟨by decide, by decide⟩, [], rfl⟩
  · have hfive : VnStep (some (vfsInit [true, false])) (.vget true 5 0)
        (some ((vfsInit [true, false]).taken true 5 0)) := .vget (by decide)
    have hsame : VnStep (some ((vfsInit [true, false]).taken true 5 0)) (.vget true 1029 0)
        (some (((vfsInit [true, false]).taken true 5 0).taken false 1029 0)) := .vget (by decide)
    have hput : VnStep (some (((vfsInit [true, false]).taken true 5 0).taken false 1029 0)) (.vput false)
        (some ((((vfsInit [true, false]).taken true 5 0).taken false 1029 0).vput false)) :=
      .vput ⟨by decide, by decide⟩
    have hsix : VnStep (some ((((vfsInit [true, false]).taken true 5 0).taken false 1029 0).vput false))
        (.vget true 6 0) (some (((((vfsInit [true, false]).taken true 5 0).taken false 1029 0).vput false).taken
          false 6 0)) := .vget (by decide)
    exact ⟨_, _, (((Run.nil.snoc hfive).snoc hsame).snoc hput).snoc hsix, rfl, ⟨by decide, by decide⟩, by decide,
      by decide⟩

end Manrix
