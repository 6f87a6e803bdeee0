import Manrix.Lib.Memcpy
import Manrix.FsIo.VfsRead

/-!
# Reading a file of ext2 into memory (`servers/fs-io/fs/ext2fs/ext2.c`)

`ext2_read` with the memory it writes and the number it returns.  The loop copies what `ext2Loop` of the previous module
collects, so every read writes the part of the file at the offset to the buffer, moves the offset behind it, and a read
of `a` bytes and one of `b` are one of `a + b`.  The number of bytes is unsigned and is returned as an `int`: from 2 GiB
on the caller gets a negative number, which `vfs_read` takes for an error.
-/

namespace Manrix

open List

/-- A file of ext2: `bmap` is `ext2_bmap` for its inode. -/
structure Ext2File where
  iSize : BitVec 32
  blkSize : BitVec 32
  bmap : Nat → BitVec 32
  blkSize_pos : 0 < blkSize.toNat

/-- The file with the bytes of its blocks, where `bread` gives the bytes of a block of the device. -/
def Ext2File.vnode (f : Ext2File) (bread : BitVec 32 → Nat → BitVec 8) : Vnode where
  ops := .ext2
  iSize := f.iSize
  blkSize := f.blkSize
  data i := bread (f.bmap i)
  blkSize_pos := f.blkSize_pos

/-- What a call of `ext2_read` leaves and returns. -/
structure Ext2Ret where
  file : File
  mem : BitVec 32 → BitVec 8
  ret : Int

/-- The loop of `ext2_read`; `bread` never fails. -/
def ext2ReadLoop (f : Ext2File) (bread : BitVec 32 → Nat → BitVec 8) (size : Nat) :
    Nat → File → (BitVec 32 → BitVec 8) → BitVec 32 → Nat → Nat → Option Ext2Ret
  | 0, _, _, _, _, _ => none
  | n + 1, file, mem, bufptr, toread, read =>
    let offset := file.fOffset.toNat
    let blkno := f.bmap (offset / f.blkSize.toNat)
    let off := offset % f.blkSize.toNat
    let sz := (f.vnode bread).sz offset toread
    let mem := memcpy mem bufptr ((List.range sz).map fun i => bread blkno (off + i))
    let file := { file with fOffset := BitVec.ofNat 32 (offset + sz) }
    let read := read + sz
    if file.fOffset.toNat ≥ f.iSize.toNat then some ⟨file, mem, (BitVec.ofNat 32 read).toInt⟩
    else if read < size then
      ext2ReadLoop f bread size n file mem (bufptr + BitVec.ofNat 32 sz) (toread - sz) read
    else some ⟨file, mem, (BitVec.ofNat 32 read).toInt⟩

/-- `ext2_read`, given up after `fuel` rounds of the loop. -/
def ext2ReadTo (f : Ext2File) (bread : BitVec 32 → Nat → BitVec 8) (fuel : Nat) (mem : BitVec 32 → BitVec 8)
    (file : File) (buf : BitVec 32) (size : BitVec 32) : Option Ext2Ret :=
  if file.fOffset.toNat ≥ f.iSize.toNat then some ⟨file, mem, 0⟩
  else ext2ReadLoop f bread size.toNat fuel file mem buf size.toNat 0

section

variable {f : Ext2File} {bread : BitVec 32 → Nat → BitVec 8}

@[simp] theorem vnode_iSize : (f.vnode bread).iSize = f.iSize := rfl

@[simp] theorem vnode_blkSize : (f.vnode bread).blkSize = f.blkSize := rfl

@[simp] theorem vnode_data (i : Nat) : (f.vnode bread).data i = bread (f.bmap i) := rfl

/-- The loop with the memory copies what the loop that collects the bytes does, each round behind the one before. -/
private theorem ext2ReadLoop_eq (hfits : (f.vnode bread).Fits) {size : Nat} (hsize : size < 2 ^ 32)
    (mem : BitVec 32 → BitVec 8)
    (buf : BitVec 32) (n : Nat) (file : File) (toread : Nat) (bytes : List (BitVec 8)) (hn : toread < n)
    (hsum : bytes.length + toread = size) (hlt : file.fOffset.toNat < f.iSize.toNat) :
    ∃ file' bytes', ext2Loop (f.vnode bread) (fun _ => true) size n file toread bytes = .ok (file', bytes') ∧
      ext2ReadLoop f bread size n file (memcpy mem buf bytes) (buf + BitVec.ofNat 32 bytes.length) toread bytes.length =
        some ⟨file', memcpy mem buf bytes', (BitVec.ofNat 32 bytes'.length).toInt⟩ := by
  induction n generalizing file toread bytes with
  | zero => omega
  | succ n ih =>
    obtain ⟨-, hto, hend, hpos⟩ := Vnode.sz_spec hfits hlt toread
    have hmod : (BitVec.ofNat 32 (file.fOffset.toNat + (f.vnode bread).sz file.fOffset.toNat toread)).toNat =
        file.fOffset.toNat + (f.vnode bread).sz file.fOffset.toNat toread :=
      BitVec.toNat_ofNat .. |>.trans (Nat.mod_eq_of_lt (by have := (f.vnode bread).iSize.isLt; omega))
    simp only [ext2Loop, ext2ReadLoop, hmod, vnode_iSize, vnode_blkSize, vnode_data, Bool.not_true,
      Bool.false_eq_true, if_false, length_append, length_map, length_range]
    generalize (f.vnode bread).sz file.fOffset.toNat toread = sz at *
    generalize hmore : ((List.range sz).map fun i => bread (f.bmap (file.fOffset.toNat / f.blkSize.toNat))
      (file.fOffset.toNat % f.blkSize.toNat + i)) = more
    have hlen : (bytes ++ more).length = bytes.length + sz := by
      rw [length_append, ← hmore, length_map, length_range]
    rw [memcpy_append mem buf bytes more (by rw [← length_append]; omega), BitVec.add_assoc,
      ← BitVec.ofNat_add, ← hlen]
    split
    · exact ⟨_, _, rfl, rfl⟩
    · split
      · refine ih _ _ _ (by omega) (by omega) ?_
        rw [hmod]
        omega
      · exact ⟨_, _, rfl, rfl⟩

/-- How many bytes there are of the `size` that are asked for. -/
def Ext2File.count (f : Ext2File) (file : File) (size : BitVec 32) : Nat :=
  min size.toNat (f.iSize.toNat - file.fOffset.toNat)

/-- What a read should leave: the part of the file at the offset is in the buffer and nothing else is written, and the
offset has moved behind it. -/
structure Ext2File.Reads (f : Ext2File) (bread : BitVec 32 → Nat → BitVec 8) (mem : BitVec 32 → BitVec 8) (file : File)
    (buf size : BitVec 32) (r : Ext2Ret) : Prop where
  moved : r.file = { file with fOffset := BitVec.ofNat 32 (file.fOffset.toNat + f.count file size) }
  no_wrap : file.fOffset.toNat + f.count file size < 2 ^ 32
  written : ∀ a, r.mem a =
    if (a - buf).toNat < f.count file size then (f.vnode bread).byte (file.fOffset.toNat + (a - buf).toNat) else mem a

theorem Ext2File.count_le (f : Ext2File) (file : File) (size : BitVec 32) :
    f.count file size ≤ size.toNat ∧ f.count file size ≤ f.iSize.toNat - file.fOffset.toNat :=
  ⟨Nat.min_le_left .., Nat.min_le_right ..⟩

/-- More rounds than bytes asked for are enough, and the read is as it should be. -/
private theorem ext2ReadTo_spec (hfits : (f.vnode bread).Fits) (mem : BitVec 32 → BitVec 8) (file : File)
    (buf size : BitVec 32) {fuel : Nat} (hfuel : size.toNat < fuel) :
    ∃ r, ext2ReadTo f bread fuel mem file buf size = some r ∧ f.Reads bread mem file buf size r ∧
      r.ret = (BitVec.ofNat 32 (f.count file size)).toInt := by
  rw [ext2ReadTo]
  split
  · rename_i hge
    have hcount : f.count file size = 0 := by
      have := f.count_le file size
      omega
    refine ⟨_, rfl, ⟨?_, ?_, ?_⟩, ?_⟩
    · rw [hcount, Nat.add_zero, BitVec.ofNat_toNat, BitVec.setWidth_eq]
    · rw [hcount]
      exact file.fOffset.isLt
    · intro a
      rw [hcount, if_neg (Nat.not_lt_zero _)]
    · rw [hcount]
      rfl
  · rename_i hlt
    obtain ⟨file', bytes, hloop, hread⟩ := ext2ReadLoop_eq hfits size.isLt mem buf fuel file size.toNat [] hfuel
      (Nat.zero_add _) (Nat.not_le.1 hlt)
    obtain ⟨_, rfl, hpart, hfile, hlen⟩ := ext2Loop_spec hfits fuel file file' size.toNat [] _ hfuel (Nat.zero_add _)
      (Nat.not_le.1 hlt) hloop
    change bytes.length = f.count file size at hlen
    rw [memcpy_nil, length_nil, BitVec.add_zero] at hread
    refine ⟨_, hread, ⟨by rw [hfile, hlen], ?_, ?_⟩, by rw [hlen]⟩
    · have := f.count_le file size
      have := f.iSize.isLt
      omega
    · intro a
      change memcpy mem buf bytes a = _
      rw [hpart, memcpy_map_range, hlen]

theorem Ext2File.Reads.unique {mem : BitVec 32 → BitVec 8} {file : File} {buf size : BitVec 32} {r r' : Ext2Ret}
    (h : f.Reads bread mem file buf size r) (h' : f.Reads bread mem file buf size r') (hret : r.ret = r'.ret) :
    r = r' := by
  obtain ⟨file₁, mem₁, ret₁⟩ := r
  obtain ⟨file₂, mem₂, ret₂⟩ := r'
  obtain rfl : mem₁ = mem₂ := funext fun a => (h.written a).trans (h'.written a).symm
  obtain rfl : file₁ = file₂ := h.moved.trans h'.moved.symm
  obtain rfl : ret₁ = ret₂ := hret
  rfl

private theorem toInt_ofNat_eq_iff {n : Nat} (hn : n < 2 ^ 32) : (BitVec.ofNat 32 n).toInt = n ↔ n < 2 ^ 31 := by
  rw [BitVec.toInt_eq_toNat_cond, BitVec.toNat_ofNat, Nat.mod_eq_of_lt hn]
  split <;> omega

/-- A read and another one behind it leave what one read of both leaves. -/
theorem Ext2File.Reads.append {mem : BitVec 32 → BitVec 8} {file : File} {buf a b : BitVec 32} {r₁ r₂ r : Ext2Ret}
    (hab : a.toNat + b.toNat < 2 ^ 32) (h₁ : f.Reads bread mem file buf a r₁)
    (h₂ : f.Reads bread r₁.mem r₁.file (buf + BitVec.ofNat 32 (f.count file a)) b r₂)
    (h : f.Reads bread mem file buf (a + b) r) : r₂.file = r.file ∧ r₂.mem = r.mem := by
  have hoff : r₁.file.fOffset.toNat = file.fOffset.toNat + f.count file a := by
    rw [h₁.moved]
    exact (BitVec.toNat_ofNat ..).trans (Nat.mod_eq_of_lt h₁.no_wrap)
  have hsum : f.count file a + f.count r₁.file b = f.count file (a + b) := by
    simp only [count, hoff, BitVec.toNat_add, Nat.mod_eq_of_lt hab]
    omega
  constructor
  · rw [h₂.moved, h.moved, hoff, Nat.add_assoc, hsum, h₁.moved]
  · funext x
    have hle := (f.count_le file a).1
    have hle' := (f.count_le r₁.file b).1
    rw [h₂.written, h.written, h₁.written, sub_add_ofNat_toNat x buf (by omega), hoff, ← hsum]
    generalize (x - buf).toNat = d
    by_cases hd : f.count file a ≤ d
    · rw [if_pos hd, if_neg (show ¬ d < f.count file a by omega), Nat.add_assoc, Nat.add_sub_of_le hd]
      exact if_congr (by omega) rfl rfl
    · rw [if_neg hd, if_neg (show ¬ d + 2 ^ 32 - f.count file a < f.count r₁.file b by omega),
        if_pos (show d < f.count file a by omega), if_pos (by omega)]

end

/-- A read writes the part of the file at the offset to the buffer and moves the offset behind it, and returns how many
bytes these are exactly when they are less than 2 GiB; and reading `a` bytes and then `b` is reading `a + b`. -/
theorem ext2_read_part (f : Ext2File) (bread : BitVec 32 → Nat → BitVec 8) (mem : BitVec 32 → BitVec 8) (file : File)
    (buf : BitVec 32) (hsize : f.iSize.toNat + f.blkSize.toNat < 2 ^ 32) :
    (∀ size : BitVec 32, ∃ r, (∀ fuel, size.toNat < fuel → ext2ReadTo f bread fuel mem file buf size = some r) ∧
      f.Reads bread mem file buf size r ∧ (r.ret = f.count file size ↔ f.count file size < 2 ^ 31)) ∧
    (∀ a b : BitVec 32, a.toNat + b.toNat < 2 ^ 32 → ∀ fuel, a.toNat + b.toNat < fuel → ∃ r₁ r₂ r,
      ext2ReadTo f bread fuel mem file buf a = some r₁ ∧
      ext2ReadTo f bread fuel r₁.mem r₁.file (buf + BitVec.ofNat 32 (f.count file a)) b = some r₂ ∧
      ext2ReadTo f bread fuel mem file buf (a + b) = some r ∧ r₂.file = r.file ∧ r₂.mem = r.mem) := by
  have hfits : (f.vnode bread).Fits := hsize.le
  refine ⟨fun size => ?_, fun a b hab fuel hfuel => ?_⟩
  · obtain ⟨r, -, hreads, hret⟩ := ext2ReadTo_spec hfits mem file buf size (Nat.lt_succ_self _)
    refine ⟨r, fun fuel hfuel => ?_, hreads, ?_⟩
    · obtain ⟨r', hr', hreads', hret'⟩ := ext2ReadTo_spec hfits mem file buf size hfuel
      rw [hr', Option.some.injEq]
      exact hreads'.unique hreads (hret'.trans hret.symm)
    · rw [hret]
      exact toInt_ofNat_eq_iff (by have := f.count_le file size; have := size.isLt; omega)
  · obtain ⟨r₁, hr₁, h₁, -⟩ := ext2ReadTo_spec hfits mem file buf a (show a.toNat < fuel by omega)
    obtain ⟨r₂, hr₂, h₂, -⟩ := ext2ReadTo_spec hfits r₁.mem r₁.file (buf + BitVec.ofNat 32 (f.count file a)) b
      (show b.toNat < fuel by omega)
    obtain ⟨r, hr, h, -⟩ := ext2ReadTo_spec hfits mem file buf (a + b)
      (show (a + b).toNat < fuel by rwa [BitVec.toNat_add, Nat.mod_eq_of_lt hab])
    exact ⟨r₁, r₂, r, hr₁, hr₂, hr, h₁.append hab h₂ h⟩

/-- A file of 2 GiB with one block of content over and over. -/
def twoGiB : Ext2File where
  iSize := 0x80000000
  blkSize := 1024
  bmap _ := 0
  blkSize_pos := Nat.succ_pos 1023

/-- The first two bytes are read as they should be. -/
theorem ext2_read_part_two : ∃ r, ext2ReadTo twoGiB (fun _ i => BitVec.ofNat 8 i) 3 (fun _ => 9) ⟨0, 0, 0, 0, 0⟩ 16 2 =
    some r ∧ r.ret = 2 ∧ r.mem 17 = 1 ∧ r.mem 18 = 9 := by
  obtain ⟨hread, -⟩ := ext2_read_part twoGiB (fun _ i => BitVec.ofNat 8 i) (fun _ => 9) ⟨0, 0, 0, 0, 0⟩ 16 (by decide)
  obtain ⟨r, hr, hreads, hret⟩ := hread 2
  refine ⟨r, hr 3 (by decide), hret.2 (by decide), ?_, ?_⟩
  · rw [hreads.written]
    decide
  · rw [hreads.written]
    decide

/-- The whole file is read, and the number returned is negative. -/
theorem two_gib_is_an_error : ∃ r, ext2ReadTo twoGiB (fun _ _ => 0) (2 ^ 31 + 1) (fun _ => 0)
    ⟨0, 0, 0, 0, 0⟩ 0 0x80000000 =
    some r ∧ twoGiB.count ⟨0, 0, 0, 0, 0⟩ 0x80000000 = 2147483648 ∧ r.ret = -2147483648 := by
  have hfits : (twoGiB.vnode fun _ _ => 0).Fits := by
    show 0x80000000 + 1024 ≤ 2 ^ 32
    decide
  obtain ⟨r, hr, -, hret⟩ := ext2ReadTo_spec hfits (fun _ => 0) ⟨0, 0, 0, 0, 0⟩ 0 0x80000000
    (Nat.lt_succ_self (2 ^ 31))
  exact ⟨r, hr, by decide, hret⟩

end Manrix
