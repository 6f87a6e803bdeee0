import Manrix.FsIo.VnodeCache

/-!
# The table of vnodes without removal (`servers/fs-io/fs/vfs.c`)

`find_vnode` has a test for an empty bucket, one for the first vnode of the chain and a loop for the others; a field of
a vnode is read through a pointer that may be null.  As long as vnodes are only inserted, the chain of a bucket is the
list of the inserted vnodes that belong there, the newest first.
-/

namespace Manrix

open Chain Function List Runs

/-- What a search comes to: a read through the null pointer, or the pointer that is returned. -/
inductive VnodeFound (ν : Type*) where
  | fault
  | ok (vn : Option ν)
  deriving DecidableEq

section

variable {ν : Type*}

/-- The loop of `find_vnode`, with no result when it takes more than `fuel` rounds. -/
def VnodeCache.findLink (s : VnodeCache ν) (dev inum : BitVec 32) : Nat → Option ν → Option (VnodeFound ν)
  | 0, _ => none
  | fuel + 1, link =>
    if link = none then some (.ok none)
    else
      match link with
      | none => some .fault
      | some vn => if s.vRdev vn = dev ∧ s.vInum vn = inum then some (.ok link)
        else findLink s dev inum fuel (s.vNext vn)

/-- `find_vnode`, step by step. -/
def VnodeCache.findVnodeIn (s : VnodeCache ν) (fuel : Nat) (dev inum : BitVec 32) : Option (VnodeFound ν) :=
  let p := s.vnhash (bhashFn inum dev)
  if p = none then some (.ok none)
  else
    match p with
    | none => some .fault
    | some vn => if s.vRdev vn = dev ∧ s.vInum vn = inum then some (.ok p)
      else s.findLink dev inum fuel (s.vNext vn)

def VnodeCache.IsOf (s : VnodeCache ν) (dev inum : BitVec 32) (vn : ν) : Bool := s.vRdev vn = dev && s.vInum vn = inum

variable {s : VnodeCache ν} {dev inum : BitVec 32} {vn : ν} {l : List ν}

theorem findLink_eq (s : VnodeCache ν) (dev inum : BitVec 32) (fuel : Nat) (link : Option ν) :
    s.findLink dev inum fuel link = (chainFind s.vNext (s.IsOf dev inum) fuel link).map .ok := by
  induction fuel generalizing link with
  | zero => rfl
  | succ fuel ih =>
    cases link with
    | none => rfl
    | some vn =>
      rw [VnodeCache.findLink, if_neg (Option.some_ne_none vn), chainFind]
      by_cases h : s.vRdev vn = dev ∧ s.vInum vn = inum
      · rw [if_pos h, if_pos (by simpa [VnodeCache.IsOf] using h)]
        rfl
      · rw [if_neg h, if_neg (by simpa [VnodeCache.IsOf] using h), ih]

private theorem findVnodeIn_eq (s : VnodeCache ν) (fuel : Nat) (dev inum : BitVec 32) : s.findVnodeIn fuel dev inum =
      (chainFind s.vNext (s.IsOf dev inum) (fuel + 1) (s.vnhash (bhashFn inum dev))).map .ok := by
  rw [← findLink_eq]
  rfl

theorem findVnodeIn_length (s : VnodeCache ν) (dev inum : BitVec 32) :
    s.findVnodeIn s.vnodecache.length dev inum = (s.findVnode dev inum).map .ok :=
  findVnodeIn_eq s _ dev inum

def VnodeCache.bucket (s : VnodeCache ν) (vn : ν) : Nat := bhashFn (s.vInum vn) (s.vRdev vn)

/-- The chain of every bucket has the inserted vnodes of that bucket, the newest first. -/
def VnodeCache.Holds (s : VnodeCache ν) (l : List ν) : Prop :=
  ∀ k, IsChain s.vNext (s.vnhash k) (l.filter (s.bucket · = k))

theorem VnodeCache.Holds.findVnodeIn (h : s.Holds l) (dev inum : BitVec 32) {fuel : Nat} (hf : l.length ≤ fuel) :
    s.findVnodeIn fuel dev inum = some (.ok (l.find? (s.IsOf dev inum))) := by
  have hlen : (l.filter (s.bucket · = bhashFn inum dev)).length < fuel + 1 :=
    Nat.lt_succ_of_le (Nat.le_trans (length_filter_le _ l) hf)
  rw [findVnodeIn_eq, chainFind_eq (h _) _ hlen, find?_filter]
  refine congrArg (fun t => some (VnodeFound.ok (l.find? t))) (funext fun w => ?_)
  have hof : s.IsOf dev inum w = true → s.bucket w = bhashFn inum dev := by
    intro hw
    simp only [VnodeCache.IsOf, Bool.and_eq_true, decide_eq_true_eq] at hw
    rw [VnodeCache.bucket, hw.1, hw.2]
  by_cases hw : s.IsOf dev inum w = true
  · simp [hw, hof hw]
  · simp [hw]

variable [DecidableEq ν]

def VnodeCache.setInode (s : VnodeCache ν) (vn : ν) (inum dev : BitVec 32) : VnodeCache ν :=
  { s with vInum := update s.vInum vn inum, vRdev := update s.vRdev vn dev }

inductive VnhashOp (ν : Type*) where
  | setInode (vn : ν) (inum dev : BitVec 32)
  | insert (vn : ν)

/-- One step of a table and the vnodes inserted, the newest first: a vnode that has not been inserted gets an inode, or
is inserted. -/
inductive VnhashStep : VnodeCache ν × List ν → VnhashOp ν → VnodeCache ν × List ν → Prop
  | setInode {s : VnodeCache ν} {l : List ν} {vn : ν} {inum dev : BitVec 32} : vn ∉ l →
      VnhashStep (s, l) (.setInode vn inum dev) (s.setInode vn inum dev, l)
  | insert {s : VnodeCache ν} {l : List ν} {vn : ν} : vn ∉ l →
      VnhashStep (s, l) (.insert vn) (s.vnhashInsert vn, vn :: l)

private theorem bucket_setInode (s : VnodeCache ν) (inum dev : BitVec 32) {w : ν} (hw : w ≠ vn) :
    (s.setInode vn inum dev).bucket w = s.bucket w := by
  simp only [VnodeCache.bucket, VnodeCache.setInode, update_of_ne hw]

theorem VnodeCache.Holds.setInode (h : s.Holds l) (hvn : vn ∉ l) (inum dev : BitVec 32) :
    (s.setInode vn inum dev).Holds l := by
  intro k
  have hfilter : l.filter ((s.setInode vn inum dev).bucket · = k) = l.filter (s.bucket · = k) :=
    filter_congr fun w hw => by rw [bucket_setInode s inum dev (ne_of_mem_of_not_mem hw hvn)]
  rw [hfilter]
  exact h k

theorem VnodeCache.Holds.insert (h : s.Holds l) (hvn : vn ∉ l) : (s.vnhashInsert vn).Holds (vn :: l) := by
  intro k
  have hpush := (h k).push_table (x := vn) (b := s.bucket vn) fun hm => hvn (mem_of_mem_filter hm)
  have hbucket : (s.vnhashInsert vn).bucket = s.bucket := rfl
  have hfilter : (vn :: l).filter (s.bucket · = k) =
      if k = s.bucket vn then vn :: l.filter (s.bucket · = k) else l.filter (s.bucket · = k) := by
    by_cases hk : s.bucket vn = k
    · rw [if_pos hk.symm]
      exact filter_cons_of_pos (decide_eq_true hk)
    · rw [if_neg (Ne.symm hk)]
      exact filter_cons_of_neg (by simpa using hk)
  rw [hbucket, hfilter]
  exact hpush

theorem VnodeCache.Holds.step {x x' : VnodeCache ν × List ν} {op : VnhashOp ν} (h : x.1.Holds x.2)
    (hs : VnhashStep x op x') : x'.1.Holds x'.2 := by
  cases hs with
  | setInode hvn => exact h.setInode hvn _ _
  | insert hvn => exact h.insert hvn

/-- From an empty table on, whatever vnodes are inserted, `find_vnode` ends and returns the newest vnode of the inode,
or `NULL` if there is none, and reads nothing through a null pointer. -/
theorem find_vnode_newest {s₀ : VnodeCache ν} (h₀ : ∀ k, s₀.vnhash k = none) {tr : List _}
    (hr : Run VnhashStep (s₀, []) tr (s, l)) (dev inum : BitVec 32) :
    ∀ fuel, l.length ≤ fuel → s.findVnodeIn fuel dev inum = some (.ok (l.find? (s.IsOf dev inum))) := by
  have hholds : s.Holds l := hr.inv (fun x => x.1.Holds x.2) (fun k => h₀ k) fun x op x' h hs => h.step hs
  exact fun fuel hf => hholds.findVnodeIn dev inum hf

end

/-- Two vnodes of one inode. -/
theorem find_vnode_newest_two : ∃ tr s, Run VnhashStep (vfsInit [0, 1], []) tr (s, [1, 0]) ∧
    ∀ fuel, 2 ≤ fuel → s.findVnodeIn fuel 0 0 = some (.ok (some 1)) := by
  have hr : Run VnhashStep (vfsInit [0, 1], []) _ (((vfsInit [0, 1]).vnhashInsert 0).vnhashInsert 1, [1, 0]) :=
    .snoc (.snoc .nil (.insert (by decide))) (.insert (by decide))
  exact ⟨_, _, hr, find_vnode_newest (fun _ => rfl) hr 0 0⟩

end Manrix
