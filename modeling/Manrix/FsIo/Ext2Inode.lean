import Manrix.Lib.Records
import Manrix.FsIo.Ext2Sb
import Manrix.FsIo.VfsRead

/-!
# Reading an inode (`servers/fs-io/fs/ext2fs/ext2inode.c`)

`ext2_read_inode` finds the group of an inode and its place in the inode table of the group; `read_inode_index` reads
the block with this place and copies the inode out of it.  On a file system whose inode tables do not overlap, every
inode is read from one block of the table of its group, and different inodes from different bytes of the disk.
-/

namespace Manrix

/-- The field of a group descriptor that is read. -/
structure GroupDesc where
  bgInodeTable : BitVec 32

/-- What `ext2_read_inode` writes of a vnode; `ino` are the bytes of the inode. -/
structure InodeVnode where
  ino : List (BitVec 8)
  vType : BitVec 16
  ops : Option VnodeOps

/-- `sizeof(struct ext2inode)` -/
def inodeSize : Nat := 128

def iMode (ino : List (BitVec 8)) : BitVec 16 := ino.getD 1 0 ++ ino.getD 0 0

/-- `read_inode_index`, where `bread` gives the bytes of a block. -/
def readInodeIndex (sb : SuperBlock) (bread : BitVec 32 → Option (Nat → BitVec 8)) (groupDesc : GroupDesc)
    (index : BitVec 32) (ino : List (BitVec 8)) : List (BitVec 8) × Int :=
  let bindex := index % sb.blockSize
  let block := groupDesc.bgInodeTable + index / sb.blockSize
  match bread block with
  | none => (ino, -1)
  | some bData => ((List.range inodeSize).map fun k => bData (bindex.toNat + k), 0)

def ext2ReadInode (sb : SuperBlock) (ext2gdesc : Nat → GroupDesc) (bread : BitVec 32 → Option (Nat → BitVec 8))
    (vn : InodeVnode) (inum : BitVec 32) : InodeVnode × Int :=
  let groupDesc := ext2gdesc (sb.group inum).toNat
  let index := ((inum - 1) % sb.sInodesPerGroup) * BitVec.ofNat 32 inodeSize
  -- the result of `read_inode_index` is not used
  let ino := (readInodeIndex sb bread groupDesc index vn.ino).1
  (⟨ino, iMode ino, some .ext2⟩, 0)

section

variable (sb : SuperBlock) (ext2gdesc : Nat → GroupDesc) (groups : Nat) (inum : BitVec 32)

/-- A disk, read in blocks. -/
def SuperBlock.breadOf (disk : Nat → BitVec 8) (block : BitVec 32) : Option (Nat → BitVec 8) :=
  some fun k => disk (block.toNat * sb.blockSize.toNat + k)

/-- The blocks of the inode table of a group. -/
def SuperBlock.inodeTable (g : Nat) : Set Nat :=
  Records.blocks sb.blockSize.toNat inodeSize (ext2gdesc g).bgInodeTable.toNat sb.sInodesPerGroup.toNat

/-- The file systems with `groups` groups whose inode tables do not overlap. -/
structure SuperBlock.InodeTables : Prop where
  log_le : sb.sLogBlockSize.toNat ≤ 2
  inodes_pos : 0 < sb.sInodesPerGroup.toNat
  inodes_dvd : sb.blockSize.toNat / inodeSize ∣ sb.sInodesPerGroup.toNat
  disjoint : (Set.Iio groups).PairwiseDisjoint (sb.inodeTable ext2gdesc)

/-- The group of an inode and its number in the group. -/
def SuperBlock.inodeGroup : Nat := (inum.toNat - 1) / sb.sInodesPerGroup.toNat

def SuperBlock.inodeNo : Nat := (inum.toNat - 1) % sb.sInodesPerGroup.toNat

/-- The first byte of an inode on the disk. -/
def SuperBlock.inodeStart : Nat :=
  Records.start sb.blockSize.toNat inodeSize (ext2gdesc (sb.inodeGroup inum)).bgInodeTable.toNat (sb.inodeNo inum)

def SuperBlock.inodeBytes : Set Nat :=
  Records.bytes sb.blockSize.toNat inodeSize (ext2gdesc (sb.inodeGroup inum)).bgInodeTable.toNat (sb.inodeNo inum)

/-- The inodes of the groups whose place is computed without an overflow. -/
structure SuperBlock.IsInode : Prop where
  one_le : 1 ≤ inum.toNat
  le : inum.toNat ≤ groups * sb.sInodesPerGroup.toNat
  index_lt : sb.inodeNo inum * inodeSize < 2 ^ 32
  block_lt : (ext2gdesc (sb.inodeGroup inum)).bgInodeTable.toNat +
    sb.inodeNo inum * inodeSize / sb.blockSize.toNat < 2 ^ 32

end

variable {sb : SuperBlock} {ext2gdesc : Nat → GroupDesc} {groups : Nat} {inum inum' : BitVec 32}

theorem SuperBlock.group_toNat (h : 1 ≤ inum.toNat) : (sb.group inum).toNat = sb.inodeGroup inum := by
  rw [SuperBlock.group, BitVec.toNat_udiv, toNat_sub_one h, SuperBlock.inodeGroup]

theorem SuperBlock.IsInode.inodeGroup_lt (hi : sb.IsInode ext2gdesc groups inum) : sb.inodeGroup inum < groups := by
  rw [← group_toNat hi.one_le]
  exact group_lt hi.one_le hi.le

theorem SuperBlock.IsInode.index_toNat (hi : sb.IsInode ext2gdesc groups inum) :
    ((inum - 1) % sb.sInodesPerGroup * BitVec.ofNat 32 inodeSize).toNat = sb.inodeNo inum * inodeSize := by
  have hlt := hi.index_lt
  rw [inodeNo, ← toNat_sub_one hi.one_le, ← BitVec.toNat_umod] at hlt ⊢
  rw [BitVec.toNat_mul]
  exact Nat.mod_eq_of_lt hlt

theorem SuperBlock.IsInode.ext2ReadInode_eq (hi : sb.IsInode ext2gdesc groups inum) (disk : Nat → BitVec 8)
    (vn : InodeVnode) : (ext2ReadInode sb ext2gdesc (sb.breadOf disk) vn inum).1.ino =
      (List.range inodeSize).map fun k => disk (sb.inodeStart ext2gdesc inum + k) := by
  have hblock : ((ext2gdesc (sb.inodeGroup inum)).bgInodeTable +
      (inum - 1) % sb.sInodesPerGroup * BitVec.ofNat 32 inodeSize / sb.blockSize).toNat =
      (ext2gdesc (sb.inodeGroup inum)).bgInodeTable.toNat + sb.inodeNo inum * inodeSize / sb.blockSize.toNat := by
    rw [BitVec.toNat_add, BitVec.toNat_udiv, hi.index_toNat]
    exact Nat.mod_eq_of_lt hi.block_lt
  simp only [ext2ReadInode, readInodeIndex, breadOf, group_toNat hi.one_le, hblock, BitVec.toNat_umod, hi.index_toNat]
  refine List.map_congr_left fun k _ => ?_
  rw [inodeStart, Records.start, Nat.add_assoc]

namespace SuperBlock.InodeTables

variable (h : sb.InodeTables ext2gdesc groups)

include h

private theorem blockSize_pos : 0 < sb.blockSize.toNat := by
  rcases blockSize_cases h.log_le with hb | hb | hb <;> simp [hb]

private theorem inodeSize_dvd : inodeSize ∣ sb.blockSize.toNat := by
  rcases blockSize_cases h.log_le with hb | hb | hb <;> simp [hb, inodeSize]

private theorem dvd_mul : sb.blockSize.toNat ∣ sb.sInodesPerGroup.toNat * inodeSize := by
  have := Nat.mul_dvd_mul_right h.inodes_dvd inodeSize
  rwa [Nat.div_mul_cancel h.inodeSize_dvd] at this

private theorem inodeNo_lt : sb.inodeNo inum < sb.sInodesPerGroup.toNat := Nat.mod_lt _ h.inodes_pos

private theorem exists_block (inum : BitVec 32) : ∃ b ∈ sb.inodeTable ext2gdesc (sb.inodeGroup inum),
    sb.inodeBytes ext2gdesc inum ⊆ Records.blockBytes sb.blockSize.toNat b :=
  ⟨_, Records.block_mem h.blockSize_pos (by decide) h.dvd_mul h.inodeNo_lt,
    Records.bytes_subset h.inodeSize_dvd h.blockSize_pos⟩

private theorem disjoint_inodeBytes (hi : sb.IsInode ext2gdesc groups inum) (hi' : sb.IsInode ext2gdesc groups inum')
    (hne : inum ≠ inum') : Disjoint (sb.inodeBytes ext2gdesc inum) (sb.inodeBytes ext2gdesc inum') := by
  by_cases hg : sb.inodeGroup inum = sb.inodeGroup inum'
  · -- in one group the numbers in the group are different
    have hno : sb.inodeNo inum ≠ sb.inodeNo inum' := by
      intro hno
      apply hne
      have := Nat.div_add_mod (inum.toNat - 1) sb.sInodesPerGroup.toNat
      have := Nat.div_add_mod (inum'.toNat - 1) sb.sInodesPerGroup.toNat
      have := hi.one_le
      have := hi'.one_le
      unfold inodeGroup at hg
      unfold inodeNo at hno
      rw [← BitVec.toNat_inj]
      rw [hg, hno] at *
      omega
    rw [inodeBytes, inodeBytes, hg]
    exact Records.disjoint_bytes_of_ne hno
  · exact Records.disjoint_bytes_of_disjoint h.blockSize_pos (by decide) h.inodeSize_dvd h.dvd_mul h.dvd_mul
      (h.disjoint hi.inodeGroup_lt hi'.inodeGroup_lt hg) h.inodeNo_lt h.inodeNo_lt

end SuperBlock.InodeTables

/-- For every size of the blocks and every placing of the inode tables, the bytes that are copied for an inode are in
one block of the inode table of its group, and those of different inodes are disjoint. -/
theorem ext2_inode_location (h : sb.InodeTables ext2gdesc groups) : (∀ inum, sb.IsInode ext2gdesc groups inum →
      (∀ disk vn, (ext2ReadInode sb ext2gdesc (sb.breadOf disk) vn inum).1.ino =
        (List.range inodeSize).map fun k => disk (sb.inodeStart ext2gdesc inum + k)) ∧ sb.inodeGroup inum < groups ∧
      ∃ b ∈ sb.inodeTable ext2gdesc (sb.inodeGroup inum),
        Set.Ico (sb.inodeStart ext2gdesc inum) (sb.inodeStart ext2gdesc inum + inodeSize) ⊆
          Records.blockBytes sb.blockSize.toNat b) ∧
    ∀ inum inum', sb.IsInode ext2gdesc groups inum → sb.IsInode ext2gdesc groups inum' → inum ≠ inum' →
      Disjoint (Set.Ico (sb.inodeStart ext2gdesc inum) (sb.inodeStart ext2gdesc inum + inodeSize))
        (Set.Ico (sb.inodeStart ext2gdesc inum') (sb.inodeStart ext2gdesc inum' + inodeSize)) := by
  refine ⟨fun inum hi => ?_, fun inum inum' hi hi' hne => ?_⟩
  · exact ⟨hi.ext2ReadInode_eq, hi.inodeGroup_lt, h.exists_block inum⟩
  · exact h.disjoint_inodeBytes hi hi' hne

/-- Two groups of eight inodes with blocks of 1024 bytes, whose inode tables are the blocks 5 and 9. -/
def twoTables : SuperBlock := ⟨16, 64, 1, 0, 32, 8, ext2SuperMagic⟩

def twoTablesDesc (g : Nat) : GroupDesc := ⟨if g = 0 then 5 else 9⟩

private theorem twoTables_inodeTables : twoTables.InodeTables twoTablesDesc 2 where
  log_le := by decide
  inodes_pos := by decide
  inodes_dvd := by decide
  disjoint := by
    have hsize : twoTables.blockSize.toNat = 1024 := rfl
    have hinodes : twoTables.sInodesPerGroup.toNat = 8 := rfl
    intro g hg g' hg' hne
    refine Set.disjoint_left.mpr fun b hb hb' => hne ?_
    simp only [SuperBlock.inodeTable, Records.blocks, hsize, hinodes, inodeSize, twoTablesDesc, Set.mem_Ico,
      Set.mem_Iio] at hg hg' hb hb'
    split at hb <;> split at hb' <;> simp at hb hb' <;> omega

/-- The inode 9 is the first one of the second group, at the byte 9216 of the disk. -/
theorem ext2_inode_location_nine :
    (∀ disk vn, (ext2ReadInode twoTables twoTablesDesc (twoTables.breadOf disk) vn 9).1.ino =
      (List.range inodeSize).map fun k => disk (9216 + k)) ∧
    Disjoint (Set.Ico (twoTables.inodeStart twoTablesDesc 8) (twoTables.inodeStart twoTablesDesc 8 + inodeSize))
      (Set.Ico 9216 (9216 + inodeSize)) := by
  have h8 : twoTables.IsInode twoTablesDesc 2 8 := ⟨by decide, by decide, by decide, by decide⟩
  have h9 : twoTables.IsInode twoTablesDesc 2 9 := ⟨by decide, by decide, by decide, by decide⟩
  obtain ⟨hread, hdisj⟩ := ext2_inode_location twoTables_inodeTables
  exact ⟨(hread 9 h9).1, hdisj 8 9 h8 h9 (by decide)⟩

end Manrix
