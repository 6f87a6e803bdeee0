import Mathlib.Tactic.IntervalCases
import Manrix.Lib.Memcpy
import Manrix.Kernel.Message

/-!
# The group descriptors of ext2 (`servers/fs-io/fs/ext2fs/ext2sb.c`)

`ext2_read_sb` allocates an array for the group descriptors and `read_group_desc` fills it, block by block.  The number
of groups is rounded down and takes no account of the first data block; the number of blocks is rounded up by a sum that
can wrap around, and then the loop, which counts down to zero, does not stop at the end of the array.
-/

namespace Manrix

open List

structure SuperBlock where
  sInodesCount : BitVec 32
  sBlocksCount : BitVec 32
  sFirstDataBlock : BitVec 32
  sLogBlockSize : BitVec 32
  sBlocksPerGroup : BitVec 32
  sInodesPerGroup : BitVec 32
  sMagic : BitVec 16

def ebadmagic : Int := 0x50

def ext2SuperMagic : BitVec 16 := 0xEF53

/-- `EXT2_BLOCK_SIZE` -/
def SuperBlock.blockSize (sb : SuperBlock) : BitVec 32 := (1024 : BitVec 32) <<< sb.sLogBlockSize.toNat

/-- A memory, and the writes that have led to it: the address and the number of bytes of each. -/
structure Written where
  mem : BitVec 32 → BitVec 8
  writes : List (BitVec 32 × Nat)

/-- The loop of `read_group_desc`, given up after so many rounds; `bread` gives the bytes of a block and never fails. -/
def readGroupLoop (bread : Nat → Nat → BitVec 8) (blockSize : BitVec 32) :
    Nat → Nat → BitVec 32 → BitVec 32 → BitVec 32 → (BitVec 32 → BitVec 8) → Option Written
  | 0, _, _, _, _, _ => none
  | n + 1, index, gsize, nreads, desc, mem =>
    let xfer := if gsize > blockSize then blockSize else gsize
    let mem := memcpy mem desc ((List.range xfer.toNat).map (bread index))
    let rest :=
      if nreads - 1 ≠ 0 then
        readGroupLoop bread blockSize n (index + 1) (gsize - blockSize) (nreads - 1) (desc + xfer) mem
      else some ⟨mem, []⟩
    rest.map fun r => ⟨r.mem, (desc, xfer.toNat) :: r.writes⟩

def readGroupDesc (sb : SuperBlock) (bread : Nat → Nat → BitVec 8) (fuel index : Nat) (desc : BitVec 32)
    (mem : BitVec 32 → BitVec 8) : Option Written :=
  let ngroups := sb.sBlocksCount / sb.sBlocksPerGroup
  let gsize := ngroups * 32
  let nreads := (gsize + (sb.blockSize - 1)) / sb.blockSize
  readGroupLoop bread sb.blockSize fuel index gsize nreads desc mem

/-- The array of group descriptors that a file system keeps, with the size it was allocated with. -/
structure GroupDescs where
  gd : BitVec 32
  size : BitVec 32
  written : Written

/-- `ext2_read_sb`; `blkRead` is what reading the superblock gives. -/
def ext2ReadSb (blkRead : Except Int SuperBlock) (malloc : BitVec 32 → Option (BitVec 32))
    (bread : Nat → Nat → BitVec 8) (fuel : Nat) (mem : BitVec 32 → BitVec 8) : Option (Except Int GroupDescs) :=
  match blkRead with
  | .error ret => some (.error ret)
  | .ok sb =>
    if sb.sMagic ≠ ext2SuperMagic then some (.error (-ebadmagic))
    else
      let ngroups := sb.sBlocksCount / sb.sBlocksPerGroup
      let size := 32 * ngroups
      match malloc size with
      | none => some (.error (-enomem))
      | some gd =>
        let mem := memcpy mem gd (List.replicate size.toNat 0)
        let index := if sb.blockSize ≤ 1024 then 2 else 1
        -- the result of `read_group_desc` is not used
        (readGroupDesc sb bread fuel index gd mem).map fun r =>
          .ok ⟨gd, size, ⟨r.mem, (gd, size.toNat) :: r.writes⟩⟩

/-- The group that `ext2_read_inode` looks an inode up in. -/
def SuperBlock.group (sb : SuperBlock) (inum : BitVec 32) : BitVec 32 := (inum - 1) / sb.sInodesPerGroup

def SuperBlock.groups (sb : SuperBlock) : Nat :=
  (sb.sBlocksCount.toNat - sb.sFirstDataBlock.toNat + sb.sBlocksPerGroup.toNat - 1) / sb.sBlocksPerGroup.toNat

/-- The bytes of the descriptors on the disk, which start in the block behind the one with the superblock, at byte
1024. -/
def descByte (bread : Nat → Nat → BitVec 8) (blockSize k : Nat) : BitVec 8 :=
  bread (1024 / blockSize + 1 + k / blockSize) (k % blockSize)

/-- The array has the descriptors of all groups and nothing else, nothing outside of it has been written, and the group
of every inode is in it. -/
structure HoldsGroups (sb : SuperBlock) (bread : Nat → Nat → BitVec 8) (d : GroupDescs) : Prop where
  inside : ∀ w ∈ d.written.writes, (w.1 - d.gd).toNat + w.2 ≤ d.size.toNat
  size_eq : d.size.toNat = 32 * sb.groups
  content : ∀ k < 32 * sb.groups, d.written.mem (d.gd + BitVec.ofNat 32 k) = descByte bread sb.blockSize.toNat k
  group_inside : sb.sInodesCount.toNat = sb.groups * sb.sInodesPerGroup.toNat →
    ∀ inum : BitVec 32, 1 ≤ inum.toNat → inum.toNat ≤ sb.sInodesCount.toNat →
      32 * (sb.group inum).toNat + 32 ≤ d.size.toNat

section

variable (bread : Nat → Nat → BitVec 8) {bs : BitVec 32}

private theorem memcpy_block (hbs : 0 < bs.toNat) (start q x : Nat) (hx : x ≤ bs.toNat)
    (hlt : q * bs.toNat + x < 2 ^ 32) (mem : BitVec 32 → BitVec 8) (gd : BitVec 32) :
    memcpy (memcpy mem gd ((List.range (q * bs.toNat)).map fun k => bread (start + k / bs.toNat) (k % bs.toNat)))
        (gd + BitVec.ofNat 32 (q * bs.toNat)) ((List.range x).map (bread (start + q))) =
      memcpy mem gd ((List.range (q * bs.toNat + x)).map fun k => bread (start + k / bs.toNat) (k % bs.toNat)) := by
  have hblock : (List.range x).map (bread (start + q)) =
      (List.range x).map fun i => bread (start + (q * bs.toNat + i) / bs.toNat) ((q * bs.toNat + i) % bs.toNat) := by
    refine map_congr_left fun i hi => ?_
    have hi : i < bs.toNat := (mem_range.1 hi).trans_le hx
    rw [Nat.add_comm (q * bs.toNat), Nat.add_mul_div_right _ _ hbs, Nat.div_eq_of_lt hi, Nat.zero_add,
      Nat.add_mul_mod_self_right, Nat.mod_eq_of_lt hi]
  have happ := memcpy_append mem gd ((List.range (q * bs.toNat)).map fun k => bread (start + k / bs.toNat)
    (k % bs.toNat)) ((List.range x).map (bread (start + q))) (by simpa using hlt)
  rw [length_map, length_range] at happ
  rw [happ, range_add, map_append, map_map, hblock]
  rfl

private theorem ofNat_add_toNat (off : Nat) (x : BitVec 32) :
    BitVec.ofNat 32 off + x = BitVec.ofNat 32 (off + x.toNat) := by
  rw [BitVec.ofNat_add, BitVec.ofNat_toNat, BitVec.setWidth_eq]

theorem toNat_sub_one {x : BitVec 32} (h : 1 ≤ x.toNat) : (x - 1).toNat = x.toNat - 1 :=
  BitVec.toNat_sub_of_le (BitVec.le_def.2 h)

private theorem sub_one_ne_zero {x : BitVec 32} (h : 1 < x.toNat) : x - 1 ≠ 0 := by
  intro h0
  have hx := toNat_sub_one h.le
  rw [h0] at hx
  exact absurd hx (by show 0 ≠ _; omega)

section Rounds

variable {fuel index : Nat} {gsize nreads desc : BitVec 32} {mem : BitVec 32 → BitVec 8}

private theorem readGroupLoop_round {xfer : BitVec 32} (hxfer : (if gsize > bs then bs else gsize) = xfer)
    (hne : nreads - 1 ≠ 0) : readGroupLoop bread bs (fuel + 1) index gsize nreads desc mem =
      (readGroupLoop bread bs fuel (index + 1) (gsize - bs) (nreads - 1) (desc + xfer)
        (memcpy mem desc ((List.range xfer.toNat).map (bread index)))).map fun r =>
          ⟨r.mem, (desc, xfer.toNat) :: r.writes⟩ := by
  rw [readGroupLoop, hxfer, if_pos hne]

private theorem readGroupLoop_last (hle : gsize.toNat ≤ bs.toNat) (hone : nreads.toNat = 1) :
    readGroupLoop bread bs (fuel + 1) index gsize nreads desc mem =
      some ⟨memcpy mem desc ((List.range gsize.toNat).map (bread index)), [(desc, gsize.toNat)]⟩ := by
  have hzero : nreads - 1 = 0 := by
    apply BitVec.eq_of_toNat_eq
    rw [toNat_sub_one hone.ge, hone]
    rfl
  rw [readGroupLoop, if_neg (by rw [gt_iff_lt, BitVec.lt_def]; omega), if_neg fun h => h hzero]
  rfl

end Rounds

/-- With as many rounds as there are blocks, the last of them perhaps in part, the loop copies all bytes and stays in
the array.  The induction is on the rounds that are left after this one; `q` blocks have been copied. -/
private theorem readGroupLoop_spec (hbs : 0 < bs.toNat) (start total : Nat) (htotal : total < 2 ^ 32)
    (mem : BitVec 32 → BitVec 8) (gd : BitVec 32) (m : Nat) : ∀ (q fuel : Nat) (gsize nreads : BitVec 32),
    nreads.toNat = m + 1 → q * bs.toNat + gsize.toNat = total → m * bs.toNat < gsize.toNat →
    gsize.toNat ≤ (m + 1) * bs.toNat → m < fuel →
    ∃ r, readGroupLoop bread bs fuel (start + q) gsize nreads (gd + BitVec.ofNat 32 (q * bs.toNat))
        (memcpy mem gd ((List.range (q * bs.toNat)).map fun k => bread (start + k / bs.toNat) (k % bs.toNat))) =
          some r ∧ r.mem = memcpy mem gd ((List.range total).map fun k => bread (start + k / bs.toNat) (k % bs.toNat)) ∧
      ∀ w ∈ r.writes, (w.1 - gd).toNat + w.2 ≤ total := by
  induction m with
  | zero =>
    rintro q (_ | fuel) gsize nreads hn hsum hpos hle hfuel
    · omega
    · rw [readGroupLoop_last bread (by omega) hn, memcpy_block bread hbs start q gsize.toNat (by omega) (by omega),
        hsum]
      refine ⟨_, rfl, rfl, ?_⟩
      rintro w (_ | ⟨_, ⟨⟩⟩)
      rw [add_ofNat_sub_toNat gd (by omega), hsum]
  | succ m ih =>
    rintro q (_ | fuel) gsize nreads hn hsum hpos hle hfuel
    · omega
    · rw [Nat.succ_mul] at hpos hle
      have hbs' : bs.toNat < gsize.toNat := by omega
      have hnreads : (nreads - 1).toNat = m + 1 := by
        rw [toNat_sub_one (by omega), hn]
        rfl
      have hgsize : (gsize - bs).toNat = gsize.toNat - bs.toNat :=
        BitVec.toNat_sub_of_le (BitVec.le_def.2 hbs'.le)
      have hq : (q + 1) * bs.toNat = q * bs.toNat + bs.toNat := Nat.succ_mul ..
      obtain ⟨r, hr, hmem, hin⟩ := ih (q + 1) fuel (gsize - bs) (nreads - 1) hnreads (by omega) (by omega) (by omega)
        (by omega)
      rw [readGroupLoop_round bread (if_pos (BitVec.lt_def.2 hbs')) (sub_one_ne_zero (by omega)),
        memcpy_block bread hbs start q bs.toNat le_rfl (by omega), BitVec.add_assoc, ofNat_add_toNat,
        Nat.add_assoc start q 1, ← hq, hr]
      refine ⟨_, rfl, hmem, ?_⟩
      rintro w (_ | ⟨_, hw⟩)
      · rw [add_ofNat_sub_toNat gd (by omega)]
        omega
      · exact hin w hw

private theorem readGroupLoop_at_end (hbs : 0 < bs.toNat) (total : Nat) (htotal : total < 2 ^ 32) (gd : BitVec 32)
    {fuel index : Nat} {gsize nreads : BitVec 32} {mem : BitVec 32 → BitVec 8} {r : Written} (hgsize : gsize > bs)
    (hr : readGroupLoop bread bs fuel index gsize nreads (gd + BitVec.ofNat 32 total) mem = some r) :
    ∃ w ∈ r.writes, total < (w.1 - gd).toNat + w.2 := by
  cases fuel with
  | zero => cases hr
  | succ fuel =>
    rw [readGroupLoop, if_pos hgsize] at hr
    obtain ⟨rest, -, rfl⟩ := Option.map_eq_some_iff.1 hr
    refine ⟨_, mem_cons_self, ?_⟩
    rw [add_ofNat_sub_toNat gd htotal]
    omega

private theorem sub_gt_of_lt (hbs : bs.toNat < 2 ^ 31) {gsize : BitVec 32} (h : gsize.toNat < bs.toNat) :
    gsize - bs > bs := by
  rw [gt_iff_lt, BitVec.lt_def, BitVec.toNat_sub]
  omega

/-- With two rounds more than bytes the loop passes the end of the array: the size that is left wraps around, at once
or, when the last block is a whole one, in the round after it. -/
private theorem readGroupLoop_outside (hbs : 0 < bs.toNat) (hbs' : bs.toNat < 2 ^ 31) (total : Nat)
    (htotal : total < 2 ^ 32)
    (gd : BitVec 32) (fuel : Nat) : ∀ (index off : Nat) (gsize nreads : BitVec 32) (mem : BitVec 32 → BitVec 8)
    (r : Written), off + gsize.toNat = total → gsize.toNat + 2 ≤ (nreads - 1).toNat →
    readGroupLoop bread bs fuel index gsize nreads (gd + BitVec.ofNat 32 off) mem = some r →
    ∃ w ∈ r.writes, total < (w.1 - gd).toNat + w.2 := by
  induction fuel with
  | zero =>
    rintro index off gsize nreads mem r - - hr
    cases hr
  | succ fuel ih =>
    intro index off gsize nreads mem r hsum hmore hr
    have hne : nreads - 1 ≠ 0 := by
      intro h
      rw [h] at hmore
      exact absurd hmore (by simp)
    have hnext := toNat_sub_one (show 1 ≤ (nreads - 1).toNat by omega)
    rw [readGroupLoop_round bread rfl hne, BitVec.add_assoc, ofNat_add_toNat] at hr
    obtain ⟨rest, hrest, rfl⟩ := Option.map_eq_some_iff.1 hr
    suffices hout : ∃ w ∈ rest.writes, total < (w.1 - gd).toNat + w.2 by
      obtain ⟨w, hw, hout⟩ := hout
      exact ⟨w, mem_cons_of_mem _ hw, hout⟩
    by_cases hgt : gsize > bs
    · have hlt := BitVec.lt_def.1 hgt
      have hgsize : (gsize - bs).toNat = gsize.toNat - bs.toNat :=
        BitVec.toNat_sub_of_le (BitVec.le_def.2 hlt.le)
      rw [if_pos hgt] at hrest
      exact ih _ _ _ _ _ _ (by omega) (by omega) hrest
    · rw [if_neg hgt, hsum] at hrest
      rw [gt_iff_lt, BitVec.lt_def, Nat.not_lt] at hgt
      rcases hgt.lt_or_eq with hlt | heq
      · exact readGroupLoop_at_end bread hbs total htotal gd (sub_gt_of_lt hbs' hlt) hrest
      · -- the next round copies nothing and wraps around
        cases fuel with
        | zero => cases hrest
        | succ fuel =>
          have hzero : gsize - bs = 0#32 := by rw [BitVec.eq_of_toNat_eq heq, BitVec.sub_self]
          have hnone : (if 0#32 > bs then bs else 0#32) = 0#32 := if_neg (BitVec.not_lt_zero)
          rw [hzero, readGroupLoop_round bread hnone (sub_one_ne_zero (by omega)), BitVec.add_zero] at hrest
          obtain ⟨rest', hrest', rfl⟩ := Option.map_eq_some_iff.1 hrest
          have hwrap : 0#32 - bs > bs := sub_gt_of_lt hbs' hbs
          obtain ⟨w, hw, hout⟩ := readGroupLoop_at_end bread hbs total htotal gd hwrap hrest'
          exact ⟨w, mem_cons_of_mem _ hw, hout⟩

end

section

variable {sb : SuperBlock}

theorem blockSize_cases (hlog : sb.sLogBlockSize.toNat ≤ 2) :
    sb.blockSize = 1024 ∨ sb.blockSize = 2048 ∨ sb.blockSize = 4096 := by
  rw [SuperBlock.blockSize]
  generalize sb.sLogBlockSize.toNat = k at hlog
  interval_cases k <;> decide

private theorem index_eq (hlog : sb.sLogBlockSize.toNat ≤ 2) :
    (if sb.blockSize ≤ 1024 then 2 else 1) = 1024 / sb.blockSize.toNat + 1 := by
  rcases blockSize_cases hlog with h | h | h <;> rw [h] <;> decide

private theorem size_toNat : (32 * (sb.sBlocksCount / sb.sBlocksPerGroup)).toNat =
    32 * (sb.sBlocksCount.toNat / sb.sBlocksPerGroup.toNat % 2 ^ 27) := by
  rw [BitVec.toNat_mul, BitVec.toNat_udiv]
  show 32 * _ % 2 ^ 32 = _
  omega

private theorem groups_pos (hbpg : 0 < sb.sBlocksPerGroup.toNat)
    (hcount : sb.sFirstDataBlock.toNat < sb.sBlocksCount.toNat) : 0 < sb.groups :=
  Nat.div_pos (by omega) hbpg

theorem group_lt {inum : BitVec 32} {groups : Nat} (hone : 1 ≤ inum.toNat)
    (hle : inum.toNat ≤ groups * sb.sInodesPerGroup.toNat) : (sb.group inum).toNat < groups := by
  rw [SuperBlock.group, BitVec.toNat_udiv, toNat_sub_one hone]
  exact Nat.div_lt_of_lt_mul (by rw [Nat.mul_comm]; exact Nat.lt_of_lt_of_le (Nat.sub_lt hone Nat.one_pos) hle)

/-- The number of groups is the right one and the number of bytes to read can be rounded up to blocks. -/
def SuperBlock.Counted (sb : SuperBlock) : Prop :=
  sb.sBlocksCount.toNat / sb.sBlocksPerGroup.toNat % 2 ^ 27 = sb.groups ∧
    32 * sb.groups + sb.blockSize.toNat ≤ 2 ^ 32

private theorem ext2ReadSb_eq (hmagic : sb.sMagic = ext2SuperMagic) (malloc : BitVec 32 → Option (BitVec 32))
    {gd : BitVec 32}
    (hgd : malloc (32 * (sb.sBlocksCount / sb.sBlocksPerGroup)) = some gd) (bread : Nat → Nat → BitVec 8) (fuel : Nat)
    (mem : BitVec 32 → BitVec 8) : ext2ReadSb (.ok sb) malloc bread fuel mem =
      (readGroupDesc sb bread fuel (if sb.blockSize ≤ 1024 then 2 else 1) gd
        (memcpy mem gd (List.replicate (32 * (sb.sBlocksCount / sb.sBlocksPerGroup)).toNat 0))).map fun r =>
          .ok ⟨gd, 32 * (sb.sBlocksCount / sb.sBlocksPerGroup), ⟨r.mem,
            (gd, (32 * (sb.sBlocksCount / sb.sBlocksPerGroup)).toNat) :: r.writes⟩⟩ := by
  simp only [ext2ReadSb, hmagic, ne_eq, not_true_eq_false, if_false, hgd]

private theorem nreads_toNat (gsize : BitVec 32) {bs : BitVec 32} (hbs : 0 < bs.toNat) :
    ((gsize + (bs - 1)) / bs).toNat =
    if gsize.toNat + bs.toNat ≤ 2 ^ 32 then (gsize.toNat + bs.toNat - 1) / bs.toNat else 0 := by
  have hbs' := bs.isLt
  have hg := gsize.isLt
  rw [BitVec.toNat_udiv, BitVec.toNat_add, toNat_sub_one hbs]
  split
  · rw [Nat.mod_eq_of_lt (by omega), ← Nat.add_sub_assoc hbs]
  · exact Nat.div_eq_of_lt (by omega)

private theorem readGroupDesc_spec (hbs : 0 < sb.blockSize.toNat) {total : Nat}
    (htotal : (sb.sBlocksCount / sb.sBlocksPerGroup * 32).toNat = total) (hpos : 0 < total)
    (hround : total + sb.blockSize.toNat ≤ 2 ^ 32) (bread : Nat → Nat → BitVec 8) (index : Nat) (gd : BitVec 32)
    (mem : BitVec 32 → BitVec 8) : ∃ fuel r, readGroupDesc sb bread fuel index gd mem = some r ∧
      r.mem = memcpy mem gd ((List.range total).map fun k =>
        bread (index + k / sb.blockSize.toNat) (k % sb.blockSize.toNat)) ∧
      ∀ w ∈ r.writes, (w.1 - gd).toNat + w.2 ≤ total := by
  have hnreads := nreads_toNat (sb.sBlocksCount / sb.sBlocksPerGroup * 32) hbs
  rw [htotal, if_pos hround] at hnreads
  obtain ⟨m, hm⟩ : ∃ m, (total + sb.blockSize.toNat - 1) / sb.blockSize.toNat = m + 1 :=
    Nat.exists_eq_add_one.2 (Nat.div_pos (by omega) hbs)
  have hlow := Nat.div_mul_le_self (total + sb.blockSize.toNat - 1) sb.blockSize.toNat
  have hhigh := Nat.lt_mul_div_succ (total + sb.blockSize.toNat - 1) hbs
  rw [hm, Nat.succ_mul] at hlow
  rw [hm, Nat.mul_comm, Nat.succ_mul] at hhigh
  obtain ⟨r, hr, hmem, hin⟩ := readGroupLoop_spec bread hbs index total (by omega) mem gd m 0 (m + 1) _ _
    (hnreads.trans hm) (by rw [htotal, Nat.zero_mul, Nat.zero_add]) (by rw [htotal]; omega) (by rw [htotal]; omega)
    (Nat.lt_succ_self m)
  rw [Nat.zero_mul, range_zero, map_nil, memcpy_nil, BitVec.add_zero] at hr
  exact ⟨m + 1, r, hr, hmem, hin⟩

private theorem readGroupDesc_outside (hbs : 0 < sb.blockSize.toNat) (hbs' : sb.blockSize.toNat < 2 ^ 31) {total : Nat}
    (htotal : (sb.sBlocksCount / sb.sBlocksPerGroup * 32).toNat = total) (hlt : total + 3 ≤ 2 ^ 32)
    (hwrap : ¬ total + sb.blockSize.toNat ≤ 2 ^ 32) {bread : Nat → Nat → BitVec 8} {fuel index : Nat} {gd : BitVec 32}
    {mem : BitVec 32 → BitVec 8} {r : Written} (hr : readGroupDesc sb bread fuel index gd mem = some r) :
    ∃ w ∈ r.writes, total < (w.1 - gd).toNat + w.2 := by
  have hnreads := nreads_toNat (sb.sBlocksCount / sb.sBlocksPerGroup * 32) hbs
  rw [htotal, if_neg hwrap] at hnreads
  have hzero : (sb.sBlocksCount / sb.sBlocksPerGroup * 32 + (sb.blockSize - 1)) / sb.blockSize = 0 :=
    BitVec.eq_of_toNat_eq hnreads
  rw [readGroupDesc] at hr
  simp only [hzero] at hr
  refine readGroupLoop_outside bread hbs hbs' total (by omega) gd fuel index 0 _ _ mem r ?_ ?_
    (by rwa [BitVec.add_zero])
  · rw [htotal, Nat.zero_add]
  · rw [htotal]
    show total + 2 ≤ 2 ^ 32 - 1
    omega

end

/-- The array holds the group descriptors exactly when the groups are counted as they should be. -/
theorem ext2_read_sb_groups (sb : SuperBlock) (hmagic : sb.sMagic = ext2SuperMagic)
    (hlog : sb.sLogBlockSize.toNat ≤ 2) (hbpg : 0 < sb.sBlocksPerGroup.toNat)
    (hcount : sb.sFirstDataBlock.toNat < sb.sBlocksCount.toNat) (malloc : BitVec 32 → Option (BitVec 32))
    (gd : BitVec 32) (hgd : malloc (32 * (sb.sBlocksCount / sb.sBlocksPerGroup)) = some gd)
    (bread : Nat → Nat → BitVec 8) (mem : BitVec 32 → BitVec 8) :
    (∃ fuel d, ext2ReadSb (.ok sb) malloc bread fuel mem = some (.ok d) ∧ HoldsGroups sb bread d) ↔ sb.Counted := by
  have hpos := groups_pos hbpg hcount
  have hbs : 0 < sb.blockSize.toNat ∧ sb.blockSize.toNat < 2 ^ 31 := by
    rcases blockSize_cases hlog with h | h | h <;> rw [h] <;> decide
  have hsize' : (sb.sBlocksCount / sb.sBlocksPerGroup * 32).toNat =
      (32 * (sb.sBlocksCount / sb.sBlocksPerGroup)).toNat := by rw [BitVec.mul_comm]
  constructor
  · rintro ⟨fuel, d, hd, hholds⟩
    rw [ext2ReadSb_eq hmagic malloc hgd] at hd
    obtain ⟨r, hr, hd⟩ := Option.map_eq_some_iff.1 hd
    cases hd
    have hsize := hholds.size_eq
    rw [size_toNat] at hsize
    refine ⟨by omega, ?_⟩
    by_contra hwrap
    obtain ⟨w, hw, hout⟩ := readGroupDesc_outside hbs.1 hbs.2 (hsize'.trans hholds.size_eq) (by omega) hwrap hr
    have hin := hholds.inside w (mem_cons_of_mem _ hw)
    exact absurd (hin.trans_eq hholds.size_eq) (Nat.not_le.2 hout)
  · rintro ⟨hgroups, hround⟩
    have hsize : (32 * (sb.sBlocksCount / sb.sBlocksPerGroup)).toNat = 32 * sb.groups := by rw [size_toNat, hgroups]
    obtain ⟨fuel, r, hr, hmem, hin⟩ := readGroupDesc_spec hbs.1 (hsize'.trans hsize) (by omega) hround bread
      (if sb.blockSize ≤ 1024 then 2 else 1) gd
      (memcpy mem gd (List.replicate (32 * (sb.sBlocksCount / sb.sBlocksPerGroup)).toNat 0))
    refine ⟨fuel, _, by rw [ext2ReadSb_eq hmagic malloc hgd, hr]; rfl, ?_, hsize, ?_, ?_⟩
    · rintro w (_ | ⟨_, hw⟩)
      · simp
      · rw [hsize]
        exact hin w hw
    · intro k hk
      change r.mem _ = _
      rw [hmem, memcpy_map_range, add_ofNat_sub_toNat gd (by omega), if_pos hk, descByte, index_eq hlog]
    · intro hinodes inum hone hle
      rw [hsize]
      have hlt : (sb.group inum).toNat < sb.groups := group_lt hone (hinodes ▸ hle)
      omega

/-- A disk of four groups of 1 KiB blocks. -/
def fourGroups : SuperBlock := ⟨8192, 32769, 1, 0, 8192, 2048, ext2SuperMagic⟩

theorem ext2_read_sb_groups_four : ∃ fuel d, ext2ReadSb (.ok fourGroups) (fun _ => some 64) (fun _ _ => 0) fuel
    (fun _ => 0) = some (.ok d) ∧ HoldsGroups fourGroups (fun _ _ => 0) d :=
  (ext2_read_sb_groups fourGroups rfl (by decide) (by decide) (by decide) (fun _ => some 64) 64 rfl (fun _ _ => 0)
    (fun _ => 0)).2 ⟨by decide, by decide⟩

/-- A floppy disk of 1440 blocks has one group; no descriptor is allocated, and the loop writes behind the array. -/
def floppy : SuperBlock := ⟨184, 1440, 1, 0, 8192, 184, ext2SuperMagic⟩

theorem floppy_has_no_group : floppy.groups = 1 ∧ 32 * (floppy.sBlocksCount / floppy.sBlocksPerGroup) = 0 ∧
    (floppy.group 1).toNat = 0 ∧ ∀ bread fuel gd mem d,
      ext2ReadSb (.ok floppy) (fun _ => some gd) bread fuel mem = some (.ok d) →
        ∃ w ∈ d.written.writes, d.size.toNat < (w.1 - d.gd).toNat + w.2 := by
  refine ⟨by decide, by decide, by decide, fun bread fuel gd mem d hd => ?_⟩
  rw [ext2ReadSb_eq rfl (fun _ => some gd) rfl] at hd
  obtain ⟨r, hr, hd⟩ := Option.map_eq_some_iff.1 hd
  cases hd
  obtain ⟨w, hw, hout⟩ := readGroupLoop_outside bread (show 0 < floppy.blockSize.toNat by decide) (by decide) 0
    (by decide) gd fuel 2 0 0 0 _ r rfl (by decide) (by rw [BitVec.add_zero]; exact hr)
  exact ⟨w, mem_cons_of_mem _ hw, hout⟩

end Manrix
