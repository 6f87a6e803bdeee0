import Mathlib.Algebra.BigOperators.Group.Finset.Piecewise
import Mathlib.Data.BitVec
import Manrix.FsIo.VnodeCache
import Manrix.FsIo.VfsRead

/-!
# Opening and closing files (`servers/fs-io/fs/file.c`)

`vfs_open` notes the inode number and the device of a vnode in the open file, and every later call looks the vnode up
again by these numbers.  `vfs_read` gives them to `find_vnode` in the order of its parameters, `vfs_write` and
`vfs_close` in the opposite order, which is another inode unless the two numbers are equal.  The path is walked with one
`vget` for each name, and of the vnodes on it only that of the file is put again.

The files are those of a file system: `vop_open` is `nulldev`, and `vop_write` does nothing.
-/

namespace Manrix

open Chain Function Links List

/-- The open files in the kernel and the vnodes of the server; `data` and `vType` are what reading an inode gives, by
device and number. -/
structure Vfs (τ ρ κ φ ν : Type) where
  files : FileSys τ ρ κ φ
  cache : VnodeCache ν
  data : BitVec 32 → BitVec 32 → Vnode
  vType : BitVec 32 → BitVec 32 → BitVec 32

/-- What a call leaves and returns, and the vnode that it works on. -/
structure VfsCall (τ ρ κ φ ν : Type) where
  vfs : Vfs τ ρ κ φ ν
  ret : Int
  vnode : Option ν

structure VfsOpen (τ ρ κ φ ν : Type) extends VfsCall τ ρ κ φ ν where
  access : BitVec 32

def oWronly : BitVec 32 := 0x800

/-- `FDESC_FD` -/
def fdescFd (fdesc : Int) : Int := fdesc % 0x10000

variable {τ ρ κ φ ν : Type} [DecidableEq ρ] [DecidableEq κ] [DecidableEq φ] [DecidableEq ν] {inums : List (BitVec 32)}
  {c c' : VnodeCache ν}

/-- `vfs_namev` from the vnode `cwd` on.  For each name of the path there is what the search of the directory gives, the
number of an inode or an error; there is no name in the path of the root.  Neither `O_CREAT` nor `O_EXCL` is in the
flags: with one of them `ext2_namei` ends with `-EEXIST` when the file exists (`Lookup.check`). -/
def VnodeCache.vfsNamev (s : VnodeCache ν) (cwd : ν) :
    List (Except Int (BitVec 32)) → Option (VnodeCache ν × Except Int ν)
  | [] => some (s, .ok cwd)
  | .error status :: _ => some (s, .error status)
  | .ok inum :: path =>
    match s.vget true inum (s.vRdev cwd) with
    | none => none
    | some (s, none) => some (s, .error (-1))
    | some (s, some vn) => s.vfsNamev vn path

/-- `vfs_open`; `new` is what `kmem_cache_alloc` returns. -/
def Vfs.vfsOpen (s : Vfs τ ρ κ φ ν) (tid : Int) (cwd : ν) (path : List (Except Int (BitVec 32))) (access : BitVec 32)
    (new : Option φ) : Option (VfsOpen τ ρ κ φ ν) :=
  match s.cache.vfsNamev cwd path with
  | none => none
  | some (cache, .error status) => some ⟨⟨{ s with cache }, status, none⟩, access⟩
  | some (cache, .ok vnode) =>
    let file : File := ⟨access, 0, 0, cache.vInum vnode, cache.vRdev vnode⟩
    -- `vop_open` returns 0, and `FDESC_CREATE` of 0 and a descriptor is the descriptor
    (syscallFdAlloc s.files tid (-1) (some file) new).map fun r =>
      ⟨⟨{ s with files := r.1, cache }, libcRet r.2, some vnode⟩, s.vType (cache.vRdev vnode) (cache.vInum vnode)⟩

/-- `vfs_read`, with the vnode that it finds. -/
def Vfs.vfsRead (s : Vfs τ ρ κ φ ν) (bread : Nat → Bool) (tid fdesc : Int) (nsize : Nat) (file : File) :
    Option (VfsCall τ ρ κ φ ν) := do
  let (_, _, f) ← getOpenfile s.files tid fdesc file
  let vnode ← s.cache.findVnode f.device f.inode
  let r ← Manrix.vfsRead s.files
    (fun dev inum => (s.cache.findVnode dev inum).join.map fun vn => s.data (s.cache.vRdev vn) (s.cache.vInum vn))
    bread tid fdesc nsize file
  return ⟨{ s with files := r.sys }, r.ret, vnode⟩

def Vfs.vfsWrite (s : Vfs τ ρ κ φ ν) (tid fdesc : Int) (file : File) : Option (VfsCall τ ρ κ φ ν) := do
  let (files, err, file) ← getOpenfile s.files tid fdesc file
  if file.fAccess &&& oWronly = 0 then return ⟨{ s with files }, -eperm, none⟩
  else
    match ← s.cache.findVnode file.inode file.device with
    | none => return ⟨{ s with files }, err, none⟩
    | some vnode =>
      let (files, _) ← putOpenfile files tid fdesc file
      return ⟨{ s with files }, 0, some vnode⟩

omit [DecidableEq κ] [DecidableEq φ] in
/-- `vfs_close`; `syscall_fd_free` is called for the open file, as in `get_openfile`. -/
def Vfs.vfsClose (s : Vfs τ ρ κ φ ν) (tid fdesc : Int) (file : File) : Option (VfsCall τ ρ κ φ ν) := do
  let (files, ret, file) ← getOpenfile s.files tid (fdescFd fdesc) file
  if ret < 0 then return ⟨{ s with files }, ret, none⟩
  else
    match ← s.cache.findVnode file.inode file.device with
    | none => return ⟨{ s with files }, -einval, none⟩
    | some vn => return ⟨{ s with files, cache := s.cache.vput vn }, ret, some vn⟩

/-- The descriptor `d` has the numbers of the inode `inode` of `dev`, whose vnode is `vn`. -/
structure Vfs.Records (s : Vfs τ ρ κ φ ν) (p : ρ) (d : Int) (inode dev : BitVec 32) (vn : ν) : Prop where
  file : ∃ f, s.files.ptr p d = some f ∧ (s.files.mem.file f).inode = inode ∧ (s.files.mem.file f).device = dev
  found : s.cache.findVnode dev inode = some (some vn)

/-- The calls on a descriptor work on the vnode, those of `vfs_write` if the file is open for writing. -/
structure Vfs.OperatesOn (s : Vfs τ ρ κ φ ν) (tid d : Int) (vn : ν) : Prop where
  read : ∀ bread nsize file r, s.vfsRead bread tid d nsize file = some r → r.vnode = some vn
  write : ∀ file r, s.vfsWrite tid d file = some r → r.ret ≠ -eperm → r.vnode = some vn
  close : ∀ file, ∃ r, s.vfsClose tid d file = some r ∧ r.vnode = some vn

omit [DecidableEq ν] in
/-- The vnode that `vget` would take off the free list is not in use. -/
def VnodeCache.NextUnused (s : VnodeCache ν) : Prop :=
  ∀ vn, lastEntry s.vnfreelist (.head ()) = .obj vn → s.vCount vn = 0

section Cache

variable {s s' : VnodeCache ν} {vn : ν} {inum dev : BitVec 32}

omit [DecidableEq ν] in
theorem findVnode_key (h : s.findVnode dev inum = some (some vn)) : s.vRdev vn = dev ∧ s.vInum vn = inum := by
  simpa using chainFind_test h

/-- The vnode has been taken off the free list for an inode, with the count `c`. -/
def VnodeCache.takenWith (s : VnodeCache ν) (vn : ν) (inum dev c : BitVec 32) : VnodeCache ν :=
  ({ s.counted vn c with
      vnfreelist := (listDequeue s.vnfreelist (.head ())).1
      vRdev := update s.vRdev vn dev
      vInum := update s.vInum vn inum } : VnodeCache ν).vnhashInsert vn

private theorem findVnode_takenWith (s : VnodeCache ν) (vn : ν) (inum dev c : BitVec 32) :
    (s.takenWith vn inum dev c).findVnode dev inum = some (some vn) := by
  simp [VnodeCache.takenWith, VnodeCache.findVnode, VnodeCache.vnhashInsert, chainFind]

/-- The two ways in which `vget` gets a vnode: it is found, or the last one of the free list is taken. -/
theorem vget_cases {got : Option ν} (h : s.vget true inum dev = some (s', got)) : ∃ vn, got = some vn ∧
    ((s.findVnode dev inum = some (some vn) ∧ s' = s.counted vn (s.vCount vn + 1)) ∨
    (lastEntry s.vnfreelist (.head ()) = .obj vn ∧
      ∃ c, (c = 1 ∨ c = s.vCount vn + 1) ∧ s' = s.takenWith vn inum dev c)) := by
  cases hf : s.findVnode dev inum with
  | none => simp [VnodeCache.vget, hf] at h
  | some found =>
    cases found with
    | some w =>
      rw [vget_hit hf] at h
      cases h
      exact ⟨w, rfl, .inl ⟨rfl, rfl⟩⟩
    | none =>
      simp only [VnodeCache.vget, hf, Bool.not_true, Bool.false_eq_true, if_false, Option.bind_eq_bind,
        Option.bind_some] at h
      split at h
      · cases h
      · split at h
        · cases h
        · rename_i hdeq
          have hlast : lastEntry s.vnfreelist (.head ()) = .obj _ := congrArg Prod.snd hdeq
          split at h
          · cases h
            exact ⟨_, rfl, .inr ⟨hlast, 1, .inl rfl, by rw [VnodeCache.takenWith, hdeq]; rfl⟩⟩
          · simp only [VnodeCache.vnhashRemove] at h
            split at h
            · cases h
            · split at h
              · cases h
                exact ⟨_, rfl, .inr ⟨hlast, _, .inr rfl, by rw [VnodeCache.takenWith, hdeq]; rfl⟩⟩
              · cases h

theorem vget_found (h : s.vget true inum dev = some (s', some vn)) : s'.findVnode dev inum = some (some vn) := by
  obtain ⟨_, ⟨⟩, ⟨hf, rfl⟩ | ⟨-, c, -, rfl⟩⟩ := vget_cases h
  · exact hf
  · exact findVnode_takenWith ..

private theorem vget_count (hu : s.NextUnused) (h : s.vget true inum dev = some (s', some vn)) :
    s'.vCount = update s.vCount vn (s.vCount vn + 1) := by
  obtain ⟨_, ⟨⟩, ⟨-, rfl⟩ | ⟨hlast, c, hc, rfl⟩⟩ := vget_cases h
  · rfl
  · have hone : c = s.vCount vn + 1 := by
      rcases hc with rfl | rfl
      · rw [hu vn hlast]
        rfl
      · rfl
    subst hone
    rfl

private theorem vput_count (s : VnodeCache ν) (vn : ν) : (s.vput vn).vCount = update s.vCount vn (s.vCount vn - 1) := by
  simp only [VnodeCache.vput]
  split <;> rfl

private theorem vput_vnodecache (s : VnodeCache ν) (vn : ν) : (s.vput vn).vnodecache = s.vnodecache := by
  simp only [VnodeCache.vput]
  split <;> rfl

end Cache

section Calls

variable {s : Vfs τ ρ κ φ ν} {tid d : Int} {p : ρ} {inode dev : BitVec 32} {vn : ν}

omit [DecidableEq ν] in
theorem Vfs.Records.read (h : s.Records p d inode dev vn) (hs : s.files.Serves tid p) (hd : 0 ≤ d) {bread : Nat → Bool}
    {nsize : Nat} {file : File} {r : VfsCall τ ρ κ φ ν} (hr : s.vfsRead bread tid d nsize file = some r) :
    r.vnode = some vn := by
  obtain ⟨f, hptr, hinode, hdev⟩ := h.file
  simp only [Vfs.vfsRead, getOpenfile_eq hs hd, hptr, Option.map_some, hinode, hdev, h.found, Option.bind_eq_bind,
    Option.bind_some] at hr
  obtain ⟨c, -, hc⟩ := Option.bind_eq_some_iff.mp hr
  cases hc
  rfl

omit [DecidableEq κ] [DecidableEq φ] in
theorem Vfs.Records.vfsClose_eq (h : s.Records p d inode dev vn) (hs : s.files.Serves tid p) (hd : 0 ≤ d)
    (hd' : d < 0x10000) (file : File) : s.vfsClose tid d file = (s.cache.findVnode inode dev).map fun
      | none => ⟨s, -einval, none⟩
      | some w => ⟨{ s with cache := s.cache.vput w }, d, some w⟩ := by
  obtain ⟨f, hptr, hinode, hdev⟩ := h.file
  have hfd : fdescFd d = d := Int.emod_eq_of_lt hd hd'
  simp only [Vfs.vfsClose, hfd, getOpenfile_eq hs hd, hptr, Option.map_some, hinode, hdev, Option.bind_eq_bind,
    Option.bind_some, if_neg (Int.not_lt.mpr hd)]
  cases s.cache.findVnode inode dev with
  | none => rfl
  | some found => cases found <;> rfl

omit [DecidableEq κ] [DecidableEq φ] in
theorem Vfs.Records.close_iff (h : s.Records p d inode dev vn) (hs : s.files.Serves tid p) (hd : 0 ≤ d)
    (hd' : d < 0x10000) (file : File) : (∃ r, s.vfsClose tid d file = some r ∧ r.vnode = some vn) ↔ inode = dev := by
  rw [h.vfsClose_eq hs hd hd']
  constructor
  · rintro ⟨r, hr, hvn⟩
    obtain ⟨found, hf, rfl⟩ := Option.map_eq_some_iff.mp hr
    cases found with
    | none => cases hvn
    | some w =>
      cases hvn
      exact (findVnode_key hf).1.symm.trans (findVnode_key h.found).1
  · rintro rfl
    rw [h.found]
    exact ⟨_, rfl, rfl⟩

omit [DecidableEq ν] in
theorem Vfs.Records.write (h : s.Records p d inode inode vn) (hs : s.files.Serves tid p) (hd : 0 ≤ d) {file : File}
    {r : VfsCall τ ρ κ φ ν} (hr : s.vfsWrite tid d file = some r) (hret : r.ret ≠ -eperm) : r.vnode = some vn := by
  obtain ⟨f, hptr, hinode, hdev⟩ := h.file
  simp only [Vfs.vfsWrite, getOpenfile_eq hs hd, hptr, Option.map_some, hinode, hdev, h.found, Option.bind_eq_bind,
    Option.bind_some] at hr
  split at hr
  · cases hr
    exact absurd rfl hret
  · obtain ⟨c, -, hc⟩ := Option.bind_eq_some_iff.mp hr
    cases hc
    rfl

theorem Vfs.Records.operatesOn_iff (h : s.Records p d inode dev vn) (hs : s.files.Serves tid p) (hd : 0 ≤ d)
    (hd' : d < 0x10000) : s.OperatesOn tid d vn ↔ inode = dev := by
  constructor
  · intro ho
    exact (h.close_iff hs hd hd' ⟨0, 0, 0, 0, 0⟩).mp (ho.close _)
  · rintro rfl
    refine ⟨fun _ _ _ _ hr => h.read hs hd hr, fun _ _ hr hret => h.write hs hd hr hret, fun file => ?_⟩
    exact (h.close_iff hs hd hd' file).mpr rfl

end Calls

section Open

variable {s : Vfs τ ρ κ φ ν} {tid : Int} {p : ρ} {cwd : ν} {inums : List (BitVec 32)} {access : BitVec 32}
  {new : Option φ} {r : VfsOpen τ ρ κ φ ν}

omit [DecidableEq ν] in
private theorem syscallFdAlloc_file {t t' : FileSys τ ρ κ φ} {file : File} {desc : Int} (ht : t.Serves tid p)
    (h : syscallFdAlloc t tid (-1) (some file) new = some (t', desc)) :
    t'.Serves tid p ∧ ∃ f, t'.ptr p desc = some f ∧ t'.mem.file f = file := by
  obtain ⟨thread, hthread, rfl⟩ := ht.proc
  simp only [syscallFdAlloc, ht.superuser, ht.tid_ne, hthread, Bool.not_true, Bool.false_eq_true, if_false] at h
  obtain ⟨f, hf, hcall⟩ := Option.map_eq_some_iff.mp h
  cases hcall
  exact ⟨⟨ht.superuser, ht.tid_ne, thread, hthread, rfl⟩, f, hf, update_self ..⟩

theorem vfsNamev_cons {inum : BitVec 32} {path : List (Except Int (BitVec 32))} {r : VnodeCache ν × Except Int ν}
    (h : c.vfsNamev cwd (.ok inum :: path) = some r) :
    ∃ t vn, c.vget true inum (c.vRdev cwd) = some (t, some vn) ∧ t.vfsNamev vn path = some r := by
  rw [VnodeCache.vfsNamev] at h
  split at h
  · cases h
  · case h_2 hget => exact absurd (vget_cases hget) (by simp)
  · case h_3 t vn hget => exact ⟨t, vn, hget, h⟩

private theorem vfsNamev_ok {e : Except Int ν}
    (h : c.vfsNamev cwd (inums.map .ok) = some (c', e)) : ∃ vn, e = .ok vn := by
  induction inums generalizing c cwd with
  | nil =>
    cases h
    exact ⟨cwd, rfl⟩
  | cons inum inums ih =>
    obtain ⟨_, _, -, h⟩ := vfsNamev_cons h
    exact ih h

/-- What `vfs_open` has done when it returns a descriptor. -/
theorem Vfs.vfsOpen_spec (hs : s.files.Serves tid p) (h : s.vfsOpen tid cwd (inums.map .ok) access new = some r)
    (hret : 0 ≤ r.ret) : ∃ vn, s.cache.vfsNamev cwd (inums.map .ok) = some (r.vfs.cache, .ok vn) ∧ r.vnode = some vn ∧
      r.vfs.files.Serves tid p ∧ ∃ f, r.vfs.files.ptr p r.ret = some f ∧
        (r.vfs.files.mem.file f).inode = r.vfs.cache.vInum vn ∧
        (r.vfs.files.mem.file f).device = r.vfs.cache.vRdev vn := by
  unfold Vfs.vfsOpen at h
  split at h
  · cases h
  · rename_i hn
    obtain ⟨vn, hvn⟩ := vfsNamev_ok hn
    cases hvn
  · rename_i cache vn hn
    obtain ⟨⟨t, desc⟩, halloc, hcall⟩ := Option.map_eq_some_iff.mp h
    cases hcall
    have hdesc : libcRet desc = desc := by
      refine if_neg fun hneg => ?_
      have hlt : libcRet desc = -1 := if_pos hneg
      exact absurd (hlt ▸ hret : (0 : Int) ≤ -1) (by decide)
    obtain ⟨hserves, f, hf, hfile⟩ := syscallFdAlloc_file hs halloc
    refine ⟨vn, hn, rfl, hserves, f, ?_, ?_, ?_⟩
    · exact (congrArg _ hdesc).trans hf
    · exact congrArg File.inode hfile
    · exact congrArg File.device hfile

end Open

section Walk

variable {s s' : VnodeCache ν} {cwd vn : ν} {dev : BitVec 32} {inums : List (BitVec 32)} {free : List ν}
  {chain : Nat → List ν}

private theorem vfsNamev_found (h : s.vfsNamev cwd (inums.map .ok) = some (s', .ok vn)) (hne : inums ≠ []) :
    s'.findVnode (s.vRdev cwd) (inums.getLast hne) = some (some vn) := by
  induction inums generalizing s cwd with
  | nil => exact absurd rfl hne
  | cons inum inums ih =>
    obtain ⟨t, w, hget, h⟩ := vfsNamev_cons h
    have hfound := vget_found hget
    cases inums with
    | nil =>
      cases h
      exact hfound
    | cons inum' inums =>
      have := ih h (cons_ne_nil _ _)
      rwa [(findVnode_key hfound).1] at this

def VnodeCache.refs (s : VnodeCache ν) : BitVec 32 := ∑ vn ∈ s.vnodecache.toFinset, s.vCount vn

private theorem refs_update (s s' : VnodeCache ν) {c : BitVec 32} (hmem : vn ∈ s.vnodecache)
    (hcache : s'.vnodecache = s.vnodecache) (hcount : s'.vCount = update s.vCount vn (s.vCount vn + c)) :
    s'.refs = s.refs + c := by
  have hvn : vn ∈ s.vnodecache.toFinset := mem_toFinset.mpr hmem
  rw [VnodeCache.refs, VnodeCache.refs, hcache, hcount, Finset.sum_update_of_mem hvn,
    Finset.sum_eq_add_sum_sdiff_singleton_of_mem hvn, add_right_comm]

/-- In a cache with a new vnode every inode can be got, which adds a reference. -/
theorem VnodeCache.Inv.vget_new (h : s.Inv free chain) (hnew : ∀ vn ∈ free, s.vFlag vn &&& vNew ≠ 0)
    (hne : free ≠ []) (inum dev : BitVec 32) : ∃ t w free' chain', s.vget true inum dev = some (t, some w) ∧
      t.Inv free' chain' ∧ (∀ vn ∈ free', t.vFlag vn &&& vNew ≠ 0) ∧ free.length ≤ free'.length + 1 ∧
      t.refs = s.refs + 1 ∧ t.vnodecache = s.vnodecache := by
  cases hf : s.findVnode dev inum with
  | none =>
    rw [findVnode_eq h] at hf
    cases hf
  | some found =>
    cases found with
    | some w =>
      obtain ⟨hw, -⟩ := h.of_found hf
      have hfree : w ∉ free := fun hm => h.free_new w hm (hnew w hm) _ hw
      exact ⟨_, w, free, chain, vget_hit hf, h.counted hw hfree _, hnew, Nat.le_succ _,
        refs_update _ _ (h.chain_mem _ w hw) rfl rfl, rfl⟩
    | none =>
      rcases h.ring.prev_head_cases with ⟨rfl, -⟩ | ⟨free', w, rfl, hlast⟩
      · exact absurd rfl hne
      · have hw : w ∈ free' ++ [w] := by simp
        have hmem := h.free_mem w hw
        have hempty : listIsempty s.vnfreelist (.head ()) = false := by
          rw [← Bool.not_eq_true, listIsempty_iff h.ring]
          simp
        refine ⟨_, w, free', _, vget_take hf hempty hlast (h.flag w hmem), h.taken (hnew w hw) (h.of_missed hf),
          fun v hv => hnew v (mem_append_left _ hv), by simp, refs_update _ _ hmem rfl ?_, rfl⟩
        rw [h.free_zero w hw]
        rfl

theorem VnodeCache.Inv.walk (h : s.Inv free chain) (cwd : ν) (hnew : ∀ vn ∈ free, s.vFlag vn &&& vNew ≠ 0)
    (hlen : inums.length ≤ free.length) : ∃ s' vn free' chain', s.vfsNamev cwd (inums.map .ok) = some (s', .ok vn) ∧
      s'.Inv free' chain' ∧ s'.refs = s.refs + BitVec.ofNat 32 inums.length ∧ s'.vnodecache = s.vnodecache := by
  induction inums generalizing s free chain cwd with
  | nil => exact ⟨s, cwd, free, chain, rfl, h, by simp, rfl⟩
  | cons inum inums ih =>
    rw [length_cons] at hlen
    have hne : free ≠ [] := ne_nil_of_length_pos (by omega)
    obtain ⟨t, w, free', chain', hget, hinv, hnew', hlen', hrefs, hcache⟩ := h.vget_new hnew hne inum (s.vRdev cwd)
    obtain ⟨s', vn, free'', chain'', hwalk, hinv', hrefs', hcache'⟩ := ih hinv w hnew' (by omega)
    refine ⟨s', vn, free'', chain'', ?_, hinv', ?_, hcache'.trans hcache⟩
    · rw [map_cons, VnodeCache.vfsNamev, hget]
      exact hwalk
    · rw [hrefs', hrefs, length_cons, Nat.add_comm inums.length, BitVec.ofNat_add, ← add_assoc]
      rfl

end Walk

/-- What the calls should do with a file on the device `dev` that is reached over the inodes `inums`.  All later calls
on the descriptor, as long as it has the numbers of the inode and the vnode is found for them, work on the vnode that
`vfs_open` got.  Closing the file leaves the counts of all vnodes as they were before it was opened. -/
def OpensAndCloses (dev : BitVec 32) (inums : List (BitVec 32)) : Prop :=
  ∀ (τ ρ κ φ ν : Type) [DecidableEq ρ] [DecidableEq κ] [DecidableEq φ] [DecidableEq ν] (s : Vfs τ ρ κ φ ν) (tid : Int)
    (p : ρ) (cwd : ν) (access : BitVec 32) (new : Option φ) (r : VfsOpen τ ρ κ φ ν),
    s.files.Serves tid p → s.cache.NextUnused → s.cache.vRdev cwd = dev →
    s.vfsOpen tid cwd (inums.map .ok) access new = some r → 0 ≤ r.ret → r.ret < 0x10000 →
    ∃ vn, r.vnode = some vn ∧
      (∀ s' : Vfs τ ρ κ φ ν, s'.files.Serves tid p →
        s'.Records p r.ret (r.vfs.cache.vInum vn) (r.vfs.cache.vRdev vn) vn → s'.OperatesOn tid r.ret vn) ∧
      ∀ file r', r.vfs.vfsClose tid r.ret file = some r' → 0 ≤ r'.ret →
        ∀ v, r'.vfs.cache.vCount v = s.cache.vCount v

private theorem opensAndCloses_single (dev : BitVec 32) : OpensAndCloses dev [dev] := by
  intro τ ρ κ φ ν _ _ _ _ s tid p cwd access new r hs hu hcwd hopen hret hret'
  obtain ⟨vn, hwalk, hvn, hserves, hfile⟩ := s.vfsOpen_spec hs hopen hret
  have hget : s.cache.vget true dev dev = some (r.vfs.cache, some vn) := by
    rw [map_singleton, VnodeCache.vfsNamev, hcwd] at hwalk
    split at hwalk
    · cases hwalk
    · cases hwalk
    · rename_i hget
      cases hwalk
      exact hget
  have hfound := vget_found hget
  obtain ⟨hrdev, hinum⟩ := findVnode_key hfound
  rw [hrdev, hinum] at hfile
  refine ⟨vn, hvn, fun s' hs' hrec => ?_, fun file r' hclose _ v => ?_⟩
  · rw [hrdev, hinum] at hrec
    exact (hrec.operatesOn_iff hs' hret hret').mpr rfl
  · have hrec : r.vfs.Records p r.ret dev dev vn := ⟨hfile, hfound⟩
    rw [hrec.vfsClose_eq hserves hret hret', hfound] at hclose
    cases hclose
    rw [vput_count, vget_count hu hget]
    by_cases hv : v = vn
    · simp [hv]
    · simp [hv]

private theorem twoOpen_alloc (file : File) :
    ∃ t, syscallFdAlloc twoOpen 7 (-1) (some file) (some true) = some (t, 0) := by
  have hthread : findByTid twoOpen.sys.k 7 = some () := by decide
  have hsuper : twoOpen.sys.superuser = true := twoOpen_serves.superuser
  simp only [syscallFdAlloc, hsuper, hthread, Bool.not_true, Bool.false_eq_true, if_false, show (7 : Int) ≠ 0 by decide]
  exact ⟨_, rfl⟩

/-- The server of a process with two open files, and a cache. -/
def vfsOf (cache : VnodeCache ν) : Vfs Unit Unit Unit Bool ν := ⟨twoOpen, cache, fun _ _ => fourBytes, fun _ _ => 0⟩

private theorem vfsOf_open {cwd vn : ν} {path : List (Except Int (BitVec 32))}
    (h : c.vfsNamev cwd path = some (c', .ok vn)) :
    ∃ r, (vfsOf c).vfsOpen 7 cwd path 0 (some true) = some r ∧ r.ret = 0 ∧ r.vfs.cache = c' := by
  have hcache : (vfsOf c).cache = c := rfl
  have hfiles : (vfsOf c).files = twoOpen := rfl
  obtain ⟨t, ht⟩ := twoOpen_alloc ⟨0, 0, 0, c'.vInum vn, c'.vRdev vn⟩
  refine ⟨⟨⟨{ vfsOf c with files := t, cache := c' }, 0, some vn⟩, 0⟩, ?_, rfl, rfl⟩
  simp only [Vfs.vfsOpen, hcache, h, hfiles, ht, Option.map_some]
  rfl

private theorem vfsOf_records {cwd vn : ν} (hwalk : c.vfsNamev cwd (inums.map .ok) = some (c', .ok vn))
    (hfound : c'.findVnode (c'.vRdev vn) (c'.vInum vn) = some (some vn)) :
    ∃ r, (vfsOf c).vfsOpen 7 cwd (inums.map .ok) 0 (some true) = some r ∧ r.ret = 0 ∧ r.vnode = some vn ∧
      r.vfs.cache = c' ∧ r.vfs.files.Serves 7 () ∧ r.vfs.Records () r.ret (c'.vInum vn) (c'.vRdev vn) vn := by
  obtain ⟨r, hopen, hret, rfl⟩ := vfsOf_open hwalk
  obtain ⟨w, hwalk', hw, hserves, hfile⟩ := (vfsOf c).vfsOpen_spec twoOpen_serves hopen hret.ge
  obtain rfl : vn = w := Except.ok.inj (Prod.ext_iff.mp (Option.some.inj (hwalk.symm.trans hwalk'))).2
  exact ⟨r, hopen, hret, hw, rfl, hserves, hfile, hfound⟩

theorem OpensAndCloses.spec {dev : BitVec 32} (h : OpensAndCloses dev inums)
    {c c' : VnodeCache Nat} {cwd vn : Nat} (hu : c.NextUnused) (hcwd : c.vRdev cwd = dev)
    (hwalk : c.vfsNamev cwd (inums.map .ok) = some (c', .ok vn))
    (hfound : c'.findVnode (c'.vRdev vn) (c'.vInum vn) = some (some vn)) :
    c'.vInum vn = c'.vRdev vn ∧ (c'.vput vn).vCount = c.vCount := by
  obtain ⟨r, hopen, hret, hvn, rfl, hserves, hrec⟩ := vfsOf_records hwalk hfound
  have hret0 : 0 ≤ r.ret := hret.ge
  have hret1 : r.ret < 0x10000 := by rw [hret]; decide
  obtain ⟨w, hw, hlater, hclose⟩ :=
    h _ _ _ _ _ (vfsOf c) 7 () cwd 0 (some true) r twoOpen_serves hu hcwd hopen hret0 hret1
  cases hvn.symm.trans hw
  have heq := (hrec.operatesOn_iff hserves hret0 hret1).mp (hlater r.vfs hserves hrec)
  refine ⟨heq, funext fun v => ?_⟩
  have hcl := hrec.vfsClose_eq hserves hret0 hret1 ⟨0, 0, 0, 0, 0⟩
  rw [heq] at hcl hfound
  rw [hfound] at hcl
  exact hclose _ _ hcl hret0 v

/-- A cache whose vnodes are all new, with the number of a device in them. -/
def newVnodes (dev : BitVec 32) (n : Nat) : VnodeCache Nat := { vfsInit (List.range n) with vRdev := fun _ => dev }

omit [DecidableEq ν] in
theorem VnodeCache.Inv.nextUnused {s : VnodeCache ν} {free : List ν} {chain : Nat → List ν} (h : s.Inv free chain) :
    s.NextUnused := by
  intro vn hlast
  rcases h.ring.prev_head_cases with ⟨-, hhead⟩ | ⟨free', w, rfl, hw⟩
  · cases hlast.symm.trans hhead
  · cases hlast.symm.trans hw
    exact h.free_zero vn (by simp)

private theorem newVnodes_walk (dev : BitVec 32) (inums : List (BitVec 32)) : (newVnodes dev inums.length).NextUnused ∧
    ∃ c vn free chain, (newVnodes dev inums.length).vfsNamev 0 (inums.map .ok) = some (c, .ok vn) ∧ c.Inv free chain ∧
      c.refs = BitVec.ofNat 32 inums.length ∧ c.vnodecache = (newVnodes dev inums.length).vnodecache := by
  have hinit := vfsInit_unused (nodup_range (n := inums.length))
  have hunused : (newVnodes dev inums.length).Unused := ⟨hinit.ring, hinit.unhashed, hinit.count, hinit.flag⟩
  obtain ⟨free, hperm, hinv⟩ := hunused.inv
  have hrefs : (newVnodes dev inums.length).refs = 0 := Finset.sum_const_zero
  have hlen : inums.length ≤ free.length := by
    rw [hperm.length_eq]
    exact length_range.ge
  obtain ⟨c, vn, free', chain', hwalk, hinv', hrefs', hcache⟩ := hinv.walk 0
    (fun w hw => by rw [hunused.flag w (hperm.mem_iff.mp hw)]; decide) hlen
  rw [hrefs, zero_add] at hrefs'
  exact ⟨hinv.nextUnused, c, vn, free', chain', hwalk, hinv', hrefs', hcache⟩

private theorem not_opensAndCloses_root (dev : BitVec 32) : ¬ OpensAndCloses dev [] := by
  intro h
  obtain ⟨-, c, vn, free, chain, hwalk, hinv, -, -⟩ := newVnodes_walk dev [dev]
  have hfound : c.findVnode dev dev = some (some vn) := vfsNamev_found hwalk (cons_ne_nil _ _)
  obtain ⟨hrdev, hinum⟩ := findVnode_key hfound
  have hroot : c.vfsNamev vn ([].map .ok) = some (c, .ok vn) := rfl
  obtain ⟨-, hcount⟩ := h.spec hinv.nextUnused hrdev hroot (by rwa [hrdev, hinum])
  have hone := congrFun hcount vn
  rw [vput_count, update_self] at hone
  exact absurd (sub_eq_self.mp hone) (by decide)

theorem OpensAndCloses.eq_single {dev : BitVec 32} (hlen : inums.length < 2 ^ 32)
    (hne : inums ≠ []) (h : OpensAndCloses dev inums) : inums = [dev] := by
  obtain ⟨hu, c, vn, free, chain, hwalk, hinv, hrefs, hcache⟩ := newVnodes_walk dev inums
  have hfound : c.findVnode dev (inums.getLast hne) = some (some vn) := vfsNamev_found hwalk hne
  obtain ⟨hrdev, hinum⟩ := findVnode_key hfound
  obtain ⟨heq, hcount⟩ := h.spec hu rfl hwalk (by rwa [hrdev, hinum])
  have hmem : vn ∈ c.vnodecache := hinv.chain_mem _ vn (hinv.of_found hfound).1
  -- all references have been put again
  have hput : (c.vput vn).refs = c.refs + -1 := by
    refine refs_update _ _ hmem (vput_vnodecache c vn) ?_
    rw [vput_count, sub_eq_add_neg]
  have hzero : (c.vput vn).refs = 0 := by
    rw [VnodeCache.refs, hcount]
    exact Finset.sum_const_zero
  rw [hzero, hrefs, eq_comm, ← sub_eq_add_neg, sub_eq_zero, ← BitVec.toNat_inj, BitVec.toNat_ofNat,
    Nat.mod_eq_of_lt hlen] at hput
  obtain ⟨inum, rfl⟩ := length_eq_one_iff.mp hput
  rw [hinum, hrdev, getLast_singleton] at heq
  rw [heq]

/-- The calls do what they should with a file, in every state in which the vnode that `vget` would take is not in use,
exactly if the path of the file is one name and the number of its inode is that of the device. -/
theorem vfs_open_close_iff (dev : BitVec 32) (inums : List (BitVec 32)) (hlen : inums.length < 2 ^ 32) :
    OpensAndCloses dev inums ↔ inums = [dev] := by
  constructor
  · intro h
    by_cases hne : inums = []
    · subst hne
      exact absurd h (not_opensAndCloses_root dev)
    · exact h.eq_single hlen hne
  · rintro rfl
    exact opensAndCloses_single dev

theorem vfs_open_close_iff_five : OpensAndCloses 5 [5] := (vfs_open_close_iff 5 [5] (by decide)).mpr rfl

/-- The root of the device 3 is in use, and the inode 3 of the device 11; one vnode is free. -/
def twoDevices : VnodeCache (Option Bool) :=
  ((vfsInit [none, some false, some true]).taken none 2 3).taken (some false) 3 11

/-- Closing the inode 11 of the device 3 puts the vnode of the inode 3 of the device 11, which is in use, and leaves the
reference to its own.  And with two names in the path the directory is not put. -/
theorem vfs_close_puts_other : (∃ r r', (vfsOf twoDevices).vfsOpen 7 none [.ok 11] 0 (some true) = some r ∧
      r.vnode = some (some true) ∧ r.vfs.vfsClose 7 r.ret ⟨0, 0, 0, 0, 0⟩ = some r' ∧ r'.ret = 0 ∧
      r'.vnode = some (some false) ∧ twoDevices.vCount (some false) = 1 ∧ r'.vfs.cache.vCount (some false) = 0 ∧
      twoDevices.vCount (some true) = 0 ∧ r'.vfs.cache.vCount (some true) = 1) ∧
    ¬ OpensAndCloses 3 [11] ∧ ¬ OpensAndCloses 3 [4, 3] := by
  refine ⟨?_, fun h => ?_, fun h => ?_⟩
  · have hwalk : twoDevices.vfsNamev none ([11].map .ok) =
        some (twoDevices.taken (some true) 11 3, .ok (some true)) := rfl
    obtain ⟨r, hopen, hret, hvn, hcache, hserves, hrec⟩ := vfsOf_records hwalk (by decide)
    have hrec' : r.vfs.Records () r.ret 11 3 (some true) := hrec
    have hclose := hrec'.vfsClose_eq hserves hret.ge (by rw [hret]; decide) ⟨0, 0, 0, 0, 0⟩
    have hother : (twoDevices.taken (some true) 11 3).findVnode 11 3 = some (some (some false)) := by decide
    rw [hcache, hother] at hclose
    refine ⟨r, _, hopen, hvn, hclose, hret, rfl, by decide, ?_, by decide, ?_⟩
    · exact (by decide : ((twoDevices.taken (some true) 11 3).vput (some false)).vCount (some false) = 0)
    · exact (by decide : ((twoDevices.taken (some true) 11 3).vput (some false)).vCount (some true) = 1)
  · exact absurd (h.eq_single (by decide) (by simp)) (by decide)
  · exact absurd (h.eq_single (by decide) (by simp)) (by decide)

end Manrix
