import Mathlib.Data.BitVec
import Mathlib.Tactic.Ring

/-!
# The blocks of a file of ext2 (`servers/fs-io/fs/ext2fs/ext2inode.c`)

`ext2_bmap` gives the block of the device for a block of a file.  The first twelve stand in the inode and the next ones
in the block `i_block[12]`.  For all later ones the code takes one and the same index at two levels below `i_block[13]`,
where the layout of ext2 has a quotient and a remainder, and the test for the third level, `offset <= offset + tot`,
fails only when the sum wraps around.
-/

namespace Manrix

/-- `blk[k]` for the buffer of a block: the address of the word wraps around. -/
def blkWord (blk : Nat → BitVec 32) (k : BitVec 32) : BitVec 32 := blk (k.toNat % 2 ^ 30)

/-- `ext2_bmap`.  The words of the inode from `i_block` on are `iBlock`, fifteen of which are block numbers; the words
of a block that has been read are `bread`, with those that lie behind the buffer. -/
def ext2Bmap (iBlock : Nat → BitVec 32) (bread : BitVec 32 → Nat → BitVec 32) (blkSize offset : BitVec 32) :
    BitVec 32 :=
  if offset < 12 then iBlock offset.toNat
  else
    let itotal := blkSize / 4
    let tot := itotal + 12
    if offset ≥ 12 ∧ offset < tot then blkWord (bread (iBlock 12)) (offset - 12)
    else if offset ≥ tot ∧ offset ≤ offset + tot then
      let blkNo := blkWord (bread (iBlock 13)) (offset - tot)
      blkWord (bread blkNo) (offset - tot)
    else
      let totalb := tot * tot
      let blkNo := blkWord (bread (iBlock 15)) (offset - totalb)
      let blkNo := blkWord (bread blkNo) (offset - totalb)
      blkWord (bread blkNo) (offset - totalb)

/-- The layout of ext2, with `n` block numbers in a block. -/
def ext2Layout (iBlock : Nat → BitVec 32) (bread : BitVec 32 → Nat → BitVec 32) (n i : Nat) : BitVec 32 :=
  if i < 12 then iBlock i
  else if i < 12 + n then bread (iBlock 12) (i - 12)
  else if i < 12 + n + n ^ 2 then
    let j := i - 12 - n
    bread (bread (iBlock 13) (j / n)) (j % n)
  else
    let j := i - 12 - n - n ^ 2
    bread (bread (bread (iBlock 14) (j / n ^ 2)) (j / n % n)) (j % n)

section

variable (iBlock : Nat → BitVec 32) (bread : BitVec 32 → Nat → BitVec 32) (blkSize offset : BitVec 32)

private theorem tot_toNat : (blkSize / 4 + 12).toNat = 12 + blkSize.toNat / 4 := by
  have := blkSize.isLt
  rw [BitVec.toNat_add, BitVec.toNat_udiv]
  show (blkSize.toNat / 4 + 12) % 2 ^ 32 = _
  omega

theorem ext2Bmap_direct (h : offset.toNat < 12) : ext2Bmap iBlock bread blkSize offset = iBlock offset.toNat :=
  if_pos (BitVec.lt_def.2 h)

theorem ext2Bmap_single (h : 12 ≤ offset.toNat) (hn : offset.toNat < 12 + blkSize.toNat / 4) :
    ext2Bmap iBlock bread blkSize offset = bread (iBlock 12) (offset.toNat - 12) := by
  have hlt := blkSize.isLt
  have hsub : (offset - 12).toNat = offset.toNat - 12 := BitVec.toNat_sub_of_le (BitVec.le_def.2 h)
  have htot : offset < blkSize / 4 + 12 := by
    rw [BitVec.lt_def, tot_toNat]
    exact hn
  rw [ext2Bmap, if_neg (by rw [BitVec.lt_def]; exact h.not_gt), if_pos ⟨BitVec.le_def.2 h, htot⟩, blkWord, hsub,
    Nat.mod_eq_of_lt (by omega)]

private theorem ext2Bmap_double (h : 12 + blkSize.toNat / 4 ≤ offset.toNat)
    (hsum : offset.toNat + (12 + blkSize.toNat / 4) < 2 ^ 32) : ext2Bmap iBlock bread blkSize offset =
      bread (bread (iBlock 13) ((offset.toNat - 12 - blkSize.toNat / 4) % 2 ^ 30))
        ((offset.toNat - 12 - blkSize.toNat / 4) % 2 ^ 30) := by
  have hle : blkSize / 4 + 12 ≤ offset := by rwa [BitVec.le_def, tot_toNat]
  have hsub : (offset - (blkSize / 4 + 12)).toNat = offset.toNat - 12 - blkSize.toNat / 4 := by
    rw [BitVec.toNat_sub_of_le hle, tot_toNat, Nat.sub_sub]
  have hadd : offset ≤ offset + (blkSize / 4 + 12) := by
    rw [BitVec.le_def, BitVec.toNat_add, tot_toNat, Nat.mod_eq_of_lt hsum]
    omega
  rw [ext2Bmap, if_neg (by rw [BitVec.lt_def]; show ¬ offset.toNat < 12; omega), if_neg (fun hlt => ?_),
    if_pos ⟨hle, hadd⟩, blkWord, blkWord, hsub]
  exact absurd hlt.2 (by rwa [BitVec.not_lt])

private theorem ext2Bmap_triple (h : 12 + blkSize.toNat / 4 ≤ offset.toNat)
    (hsum : 2 ^ 32 ≤ offset.toNat + (12 + blkSize.toNat / 4)) :
    ∃ k, ext2Bmap iBlock bread blkSize offset = bread (bread (bread (iBlock 15) k) k) k := by
  have hlt := blkSize.isLt
  have hadd : ¬ offset ≤ offset + (blkSize / 4 + 12) := by
    rw [BitVec.le_def, BitVec.toNat_add, tot_toNat]
    omega
  rw [ext2Bmap, if_neg (by rw [BitVec.lt_def]; show ¬ offset.toNat < 12; omega), if_neg (fun hlt => ?_),
    if_neg (fun hle => hadd hle.2)]
  · exact ⟨_, rfl⟩
  · exact absurd hlt.2 (by rwa [BitVec.not_lt, BitVec.le_def, tot_toNat])

private theorem ext2Layout_double {n i : Nat} (h : 12 + n ≤ i) (hlt : i < 12 + n + n ^ 2) :
    ext2Layout iBlock bread n i = bread (bread (iBlock 13) ((i - 12 - n) / n)) ((i - 12 - n) % n) := by
  rw [ext2Layout, if_neg (by omega), if_neg (by omega), if_pos hlt]

private theorem ext2Layout_triple {n i : Nat} (h : 12 + n + n ^ 2 ≤ i) :
    ∃ a b c, ext2Layout iBlock bread n i = bread (bread (bread (iBlock 14) a) b) c := by
  rw [ext2Layout, if_neg (by omega), if_neg (by omega), if_neg (by omega)]
  exact ⟨_, _, _, rfl⟩

end

/-- The block is reached without a double indirection, or the index of the code is both the quotient and the remainder
of the layout. -/
def MapsRight (n i : Nat) : Prop :=
  i < 12 + n ∨ (i < 12 + n + n ^ 2 ∧ i + (12 + n) < 2 ^ 32 ∧
    (i - 12 - n) % 2 ^ 30 = (i - 12 - n) / n ∧ (i - 12 - n) % 2 ^ 30 = (i - 12 - n) % n)

private theorem mapsRight_iff {n i : Nat} (hn : n < 2 ^ 15) (h : i < 12 + n + n ^ 2 + n ^ 3) :
    MapsRight n i ↔ i ≤ 12 + n := by
  have hsq : n ^ 2 < 2 ^ 30 := by
    calc n ^ 2 < (2 ^ 15) ^ 2 := Nat.pow_lt_pow_left hn (by decide)
      _ = 2 ^ 30 := by norm_num
  constructor
  · rintro (hlt | ⟨hlt, -, hdiv, hmod⟩)
    · exact hlt.le
    · by_contra hgt
      rw [Nat.mod_eq_of_lt (by omega)] at hdiv hmod
      have hpos : 0 < n := Nat.pos_of_ne_zero (by rintro rfl; omega)
      have hj : i - 12 - n < n := by
        rw [hmod]
        exact Nat.mod_lt _ hpos
      rw [Nat.div_eq_of_lt hj] at hdiv
      omega
  · intro hle
    by_cases hlt : i < 12 + n
    · exact .inl hlt
    · have hi : i = 12 + n := by omega
      have hpos : 0 < n := Nat.pos_of_ne_zero (by rintro rfl; omega)
      have : 0 < n ^ 2 := Nat.pow_pos hpos
      rw [hi]
      refine .inr ⟨by omega, by omega, ?_, ?_⟩ <;> simp

private theorem exists_blocks_ne {q r k : Nat} (h : ¬ (k = q ∧ k = r)) :
    ∃ bread : BitVec 32 → Nat → BitVec 32, bread (bread 0 k) k ≠ bread (bread 0 q) r := by
  by_cases hq : k = q
  · refine ⟨fun b i => if b = 0 then 1 else if i = r then 1 else 2, ?_⟩
    have hr : k ≠ r := fun hr => h ⟨hq, hr⟩
    simp [hr]
  · refine ⟨fun b i => if b = 0 then if i = q then 1 else 2 else b, ?_⟩
    simp [hq]

/-- The code gives the block of the layout, for every inode and every content of the disk, exactly when the index does
not need a double indirection that splits it. -/
theorem ext2_bmap_layout (blkSize i : BitVec 32) (n : Nat) (hn : n = blkSize.toNat / 4)
    (hi : i.toNat < 12 + n + n ^ 2 + n ^ 3) :
    (∀ iBlock bread, ext2Bmap iBlock bread blkSize i = ext2Layout iBlock bread n i.toNat) ↔ MapsRight n i.toNat := by
  subst hn
  generalize hn : blkSize.toNat / 4 = n at *
  by_cases hsingle : i.toNat < 12 + n
  · refine iff_of_true (fun iBlock bread => ?_) (.inl hsingle)
    by_cases hdir : i.toNat < 12
    · rw [ext2Bmap_direct _ _ _ _ hdir, ext2Layout, if_pos hdir]
    · rw [ext2Bmap_single _ _ _ _ (Nat.not_lt.1 hdir) (by rwa [hn]), ext2Layout, if_neg hdir, if_pos hsingle]
  have hge : 12 + n ≤ i.toNat := Nat.not_lt.1 hsingle
  by_cases hsum : i.toNat + (12 + n) < 2 ^ 32
  · have hcode := fun iBlock bread => ext2Bmap_double iBlock bread blkSize i (by rwa [hn]) (by rwa [hn])
    rw [hn] at hcode
    by_cases hdouble : i.toNat < 12 + n + n ^ 2
    · constructor
      · intro hall
        by_contra hnot
        obtain ⟨bread, hne⟩ := exists_blocks_ne fun hjj => hnot (.inr ⟨hdouble, hsum, hjj⟩)
        apply hne
        rw [← hcode (fun _ => 0) bread, hall, ext2Layout_double _ _ hge hdouble]
      · rintro (hlt | ⟨-, -, hdiv, hmod⟩) iBlock bread
        · exact absurd hlt hsingle
        · rw [hcode, ext2Layout_double _ _ hge hdouble, hdiv, ← hmod, hdiv]
    · refine iff_of_false (fun hall => ?_) ?_
      · obtain ⟨a, b, c, hlay⟩ := ext2Layout_triple (fun k => BitVec.ofNat 32 k) (fun b _ => b) (Nat.not_lt.1 hdouble)
        have := (hcode _ _).symm.trans ((hall _ _).trans hlay)
        exact absurd this (by decide)
      · rintro (hlt | ⟨hlt, -⟩)
        exacts [hsingle hlt, hdouble hlt]
  · refine iff_of_false (fun hall => ?_) ?_
    · obtain ⟨k, hcode⟩ := ext2Bmap_triple (fun k => BitVec.ofNat 32 k) (fun b _ => b) blkSize i (by rwa [hn])
        (by rw [hn]; omega)
      have heq := hcode.symm.trans (hall _ _)
      by_cases hdouble : i.toNat < 12 + n + n ^ 2
      · rw [ext2Layout_double _ _ hge hdouble] at heq
        exact absurd heq (by decide)
      · obtain ⟨a, b, c, hlay⟩ := ext2Layout_triple (fun k => BitVec.ofNat 32 k) (fun b _ => b)
          (Nat.not_lt.1 hdouble)
        exact absurd (heq.trans hlay) (by decide)
    · rintro (hlt | ⟨-, hlt, -⟩)
      exacts [hsingle hlt, hsum hlt]

/-- With blocks of 1 KiB the first doubly indirect block, 268, is the last that is found. -/
theorem ext2_bmap_layout_kib : MapsRight 256 268 ∧
    ∀ iBlock bread, ext2Bmap iBlock bread 1024 268 = ext2Layout iBlock bread 256 268 := by
  have h : MapsRight 256 268 := (mapsRight_iff (by decide) (by decide)).2 (by decide)
  exact ⟨h, (ext2_bmap_layout 1024 268 256 (by decide) (by decide)).2 h⟩

/-- Block 13 has the numbers from 20 on, any other block its own. -/
def fromTwenty (b : BitVec 32) (k : Nat) : BitVec 32 := if b = 13 then 20 + k else b

/-- The next one is looked up in the block of entry 1 instead of that of entry 0. -/
theorem second_double_indirect : ext2Bmap (fun k => k) fromTwenty 1024 269 = 21 ∧
    ext2Layout (fun k => k) fromTwenty 256 269 = 20 := by
  decide

end Manrix
