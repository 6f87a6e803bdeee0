import Manrix.FsIo.Ext2Bmap
import Manrix.FsIo.Ext2Lookup
import Manrix.FsIo.VfsOpen

/-!
# From names to vnodes (`fs/ext2fs/ext2dir.c`, `fs/vfs.c`)

The lookup of a path takes `vget`, `ext2_bmap` and `bread` as functions, and the opening of a file takes the results of
the searches along its path as a list.  Here the blocks of a directory are those that `ext2_bmap` gives, a vnode is got
by `vget` from the cache, and the list is that of the searches: what `vfs_open` notes are the numbers of the inode to
which the walk along the names leads.
-/

namespace Manrix

/-- A device with a file system on which nothing is mounted: the fields of its inodes, and the bytes of its blocks. -/
structure Ext2Disk where
  blkSize : BitVec 32
  iMode : BitVec 32 → BitVec 16
  iBlocks : BitVec 32 → BitVec 32
  iBlock : BitVec 32 → Nat → BitVec 32
  bread : BitVec 32 → Nat → BitVec 8

def Ext2Disk.word (d : Ext2Disk) (block : BitVec 32) (k : Nat) : BitVec 32 := bufWord (d.bread block) (4 * k)

/-- The vnodes are named by their inodes. -/
def Ext2Disk.fs (d : Ext2Disk) : Ext2Fs (BitVec 32) where
  blkSize := d.blkSize.toNat
  vType := d.iMode
  mounted _ := false
  iBlocks := d.iBlocks
  block inum k := some (d.bread (ext2Bmap (d.iBlock inum) d.word d.blkSize (BitVec.ofNat 32 k)))
  vget _ inum := some inum

/-- The results of the searches of `ext2_readdir`, up to the first that gives no inode. -/
def Ext2Disk.searches (d : Ext2Disk) : Nat → BitVec 32 → List (BitVec 8) → Option (List (Except Int (BitVec 32)))
  | 0, _, _ => none
  | n + 1, inum, path =>
    if (firstName path).length ≥ ext2NameLen then none
    else
      match d.fs.scanDir inum (firstName path) ((d.fs.getFileBlk inum).toNat + 1) 0 with
      | .error err => some [.error err]
      | .absent => some [.error (-1)]
      | .entry inum =>
        if (afterName path).length ≤ 1 then some [.ok inum]
        else (d.searches n inum (afterName path)).map (.ok inum :: ·)
      | _ => none

variable {d : Ext2Disk} {inum : BitVec 32}

theorem Ext2Disk.directory {blocks : List (List DirEntry)}
    (hsize : (d.iBlocks inum * 512).toNat = blocks.length * d.blkSize.toNat) (hne : blocks ≠ [])
    (hsmall : blocks.length ≤ 12 + d.blkSize.toNat / 4) (hblocks : ∀ k (h : k < blocks.length),
      EntriesAt (d.bread (ext2Layout (d.iBlock inum) d.word (d.blkSize.toNat / 4) k)) d.blkSize.toNat 0 blocks[k]) :
    d.fs.Directory inum blocks where
  size := hsize
  nonempty := hne
  block k hk := by
    have hlt := d.blkSize.isLt
    have hmod : (BitVec.ofNat 32 k).toNat = k := by
      rw [BitVec.toNat_ofNat]
      exact Nat.mod_eq_of_lt (by omega)
    have hmap : ext2Bmap (d.iBlock inum) d.word d.blkSize (BitVec.ofNat 32 k) =
        ext2Layout (d.iBlock inum) d.word (d.blkSize.toNat / 4) k := by
      by_cases hdirect : k < 12
      · rw [ext2Bmap_direct _ _ _ _ (hmod.trans_lt hdirect), hmod, ext2Layout, if_pos hdirect]
      · rw [ext2Bmap_single _ _ _ _ (by omega) (by omega), hmod, ext2Layout, if_neg hdirect, if_pos (by omega)]
    exact ⟨_, rfl, hmap ▸ hblocks k hk⟩

section

variable {ν : Type} [DecidableEq ν] {s s' : VnodeCache ν} {cwd : ν} {n : Nat} {path : List (BitVec 8)}
  {es : List (Except Int (BitVec 32))} {r : Except Int ν}

/-- What a lookup in the cache has to do with one on the disk: the vnode has the inode, or the error is the same. -/
def SameLookup (s' : VnodeCache ν) (dev : BitVec 32) (l : Lookup (BitVec 32)) : Except Int ν → Prop
  | .ok vn => l = .found (s'.vInum vn) ∧ s'.vRdev vn = dev
  | .error err => ∃ parent, l = .error err parent

theorem Ext2Disk.same_of_searches (hes : d.searches n (s.vInum cwd) path = some es)
    (h : s.vfsNamev cwd es = some (s', r)) : SameLookup s' (s.vRdev cwd) (d.fs.ext2Readdir n (s.vInum cwd) path) r := by
  induction n generalizing s cwd path es with
  | zero => cases hes
  | succ n ih =>
    rw [searches] at hes
    rw [Ext2Fs.ext2Readdir]
    split at hes
    · cases hes
    · case isFalse hshort =>
      rw [if_neg hshort]
      cases hscan : d.fs.scanDir (s.vInum cwd) (firstName path) ((d.fs.getFileBlk (s.vInum cwd)).toNat + 1) 0 with
      | error err =>
        simp only [hscan, Option.some.injEq] at hes ⊢
        cases hes
        cases h
        exact ⟨_, rfl⟩
      | absent =>
        simp only [hscan, Option.some.injEq] at hes ⊢
        cases hes
        cases h
        exact ⟨_, rfl⟩
      | mount => simp only [hscan, reduceCtorEq] at hes
      | wild => simp only [hscan, reduceCtorEq] at hes
      | entry inum =>
        simp only [hscan] at hes ⊢
        have hfs : d.fs.vget (s.vInum cwd) inum = some inum := rfl
        rw [hfs]
        by_cases hcomp : (afterName path).length ≤ 1
        · simp only [hcomp, if_true, Option.some.injEq] at hes ⊢
          cases hes
          obtain ⟨t, vn, hget, h⟩ := vfsNamev_cons h
          obtain ⟨hdev, hinum⟩ := findVnode_key (vget_found hget)
          cases h
          exact ⟨by rw [hinum], hdev⟩
        · simp only [hcomp, if_false] at hes ⊢
          obtain ⟨es', hes', rfl⟩ := Option.map_eq_some_iff.mp hes
          obtain ⟨t, vn, hget, h⟩ := vfsNamev_cons h
          -- the vnode of the entry has its numbers
          obtain ⟨hdev, hinum⟩ := findVnode_key (vget_found hget)
          rw [← hinum] at hes' ⊢
          rw [← hdev]
          exact ih hes' h

/-- A path that leads to an inode has its searches. -/
theorem Ext2Disk.searches_isSome {l : BitVec 32} (h : d.fs.ext2Readdir n inum path = .found l) :
    ∃ es, d.searches n inum path = some es := by
  induction n generalizing inum path with
  | zero => cases h
  | succ n ih =>
    rw [Ext2Fs.ext2Readdir] at h
    rw [searches]
    split at h
    · cases h
    · case isFalse hshort =>
      rw [if_neg hshort]
      cases hscan : d.fs.scanDir inum (firstName path) ((d.fs.getFileBlk inum).toNat + 1) 0 with
      | entry inum' =>
        have hfs : d.fs.vget inum inum' = some inum' := rfl
        simp only [hscan, hfs] at h ⊢
        split at h
        · case isTrue hcomp => exact ⟨_, if_pos hcomp⟩
        · case isFalse hcomp =>
          obtain ⟨es, hes⟩ := ih h
          exact ⟨_, by rw [if_neg hcomp, hes]; rfl⟩
      | _ => simp [hscan] at h

/-- When the walk along the names leads to an inode, `vfs_namev` gets a vnode with the numbers of this inode. -/
theorem Ext2Disk.vfsNamev_walk {dirs : BitVec 32 → Option (List (List DirEntry))}
    (h : d.fs.Represents dirs) (hu : Unstale dirs (lookedUp path)) (hp : PlainName path)
    (hlen : ∀ name ∈ pathNames path, name.length < ext2NameLen)
    (hwalk : d.fs.walk dirs (s.vInum cwd) (lookedUp path) = .found inum) :
    ∃ es, d.searches (path.length + 1) (s.vInum cwd) path = some es ∧
      ∀ s' r, s.vfsNamev cwd es = some (s', r) → ∃ vn, r = .ok vn ∧ s'.vInum vn = inum ∧ s'.vRdev vn = s.vRdev cwd := by
  have hread : d.fs.ext2Readdir (path.length + 1) (s.vInum cwd) path = .found inum := by
    rw [← hwalk]
    exact h.ext2Readdir_eq (Nat.lt_succ_self _) hu hp hlen (by rw [hwalk]; simp)
  obtain ⟨es, hes⟩ := searches_isSome hread
  refine ⟨es, hes, fun s' r hr => ?_⟩
  have hsame := same_of_searches hes hr
  rw [hread] at hsame
  cases r with
  | ok vn =>
    obtain ⟨hfound, hdev⟩ := hsame
    exact ⟨vn, rfl, (Lookup.found.inj hfound).symm, hdev⟩
  | error err =>
    obtain ⟨parent, herr⟩ := hsame
    cases herr

end

end Manrix
