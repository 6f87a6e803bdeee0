import Manrix.Kernel.OpenFile

/-!
# Reading from a file (`servers/fs-io/fs/file.c`, `fs/ext2fs/ext2.c`)

`vfs_read` gets the open file of a descriptor from the kernel, lets the file system read at its offset and move it, and
puts the file back.  `ext2_read` copies the file block by block and reads the part of the file at the offset, up to the
size asked for or to the end of the file.  That the next read goes on where this one stopped is a matter of
`put_openfile`: `open_file_round_trip`.
-/

namespace Manrix

open Function List

inductive VnodeOps where
  | ext2
  | fat

/-- A file of a file system, with the bytes of its blocks. -/
structure Vnode where
  ops : VnodeOps
  iSize : BitVec 32
  blkSize : BitVec 32
  data : Nat → Nat → BitVec 8
  blkSize_pos : 0 < blkSize.toNat

def Vnode.byte (vn : Vnode) (i : Nat) : BitVec 8 := vn.data (i / vn.blkSize.toNat) (i % vn.blkSize.toNat)

/-- What one round of the loop of `ext2_read` copies when `toread` bytes are asked for. -/
def Vnode.sz (vn : Vnode) (offset toread : Nat) : Nat :=
  let blk := vn.blkSize.toNat - offset % vn.blkSize.toNat
  let sz := if toread < blk then toread else blk
  -- the sum is an unsigned int
  if (offset + sz) % 2 ^ 32 > vn.iSize.toNat then vn.iSize.toNat - offset else sz

/-- The loop of `ext2_read`, where `bread` says of which blocks of the file a buffer can be had.  The bytes copied so
far are `buf`, and their number is `read`. -/
def ext2Loop (vn : Vnode) (bread : Nat → Bool) (size : Nat) :
    Nat → File → Nat → List (BitVec 8) → Except Int (File × List (BitVec 8))
  | 0, file, _, buf => .ok (file, buf)
  | n + 1, file, toread, buf =>
    let offset := file.fOffset.toNat
    let blkindex := offset / vn.blkSize.toNat
    if !bread blkindex then .error (-einval)
    else
      let off := offset % vn.blkSize.toNat
      let sz := vn.sz offset toread
      let buf := buf ++ (List.range sz).map fun i => vn.data blkindex (off + i)
      let file := { file with fOffset := BitVec.ofNat 32 (offset + sz) }
      if file.fOffset.toNat ≥ vn.iSize.toNat then .ok (file, buf)
      else if buf.length < size then ext2Loop vn bread size n file (toread - sz) buf
      else .ok (file, buf)

/-- Every round but the last copies a byte, so that `size + 1` rounds are enough. -/
def ext2Read (vn : Vnode) (bread : Nat → Bool) (file : File) (size : Nat) : Except Int (File × List (BitVec 8)) :=
  if file.fOffset.toNat ≥ vn.iSize.toNat then .ok (file, [])
  else ext2Loop vn bread size (size + 1) file size []

/-- The loop of `fat_read` is in a comment. -/
def fatRead (file : File) : Except Int (File × List (BitVec 8)) := .ok (file, [])

def Vnode.vopRead (vn : Vnode) (bread : Nat → Bool) (file : File) (size : Nat) : Except Int (File × List (BitVec 8)) :=
  match vn.ops with
  | .ext2 => ext2Read vn bread file size
  | .fat => fatRead file

/-- The bytes are those of the file from `offset` on. -/
def Vnode.IsPart (vn : Vnode) (offset : Nat) (buf : List (BitVec 8)) : Prop :=
  buf = (List.range buf.length).map fun i => vn.byte (offset + i)

/-- The end of the file is so far from the end of the offsets that a round does not pass it. -/
def Vnode.Fits (vn : Vnode) : Prop := vn.iSize.toNat + vn.blkSize.toNat ≤ 2 ^ 32

theorem Vnode.isPart_nil (vn : Vnode) (offset : Nat) : vn.IsPart offset [] := rfl

theorem Vnode.IsPart.append {vn : Vnode} {offset : Nat} {buf more : List (BitVec 8)} (h : vn.IsPart offset buf)
    (hmore : vn.IsPart (offset + buf.length) more) : vn.IsPart offset (buf ++ more) := by
  rw [IsPart, length_append, range_add, map_append, ← h, map_map]
  conv_lhs => rw [hmore]
  simp only [Function.comp_def, Nat.add_assoc]

theorem Vnode.isPart_block (vn : Vnode) {offset sz : Nat} (h : offset % vn.blkSize.toNat + sz ≤ vn.blkSize.toNat) :
    vn.IsPart offset ((List.range sz).map fun i =>
      vn.data (offset / vn.blkSize.toNat) (offset % vn.blkSize.toNat + i)) := by
  rw [IsPart, length_map, length_range]
  refine map_congr_left fun i hi => ?_
  have hlt : offset % vn.blkSize.toNat + i < vn.blkSize.toNat := by
    have := mem_range.1 hi
    omega
  have hsum : offset + i = offset % vn.blkSize.toNat + i + vn.blkSize.toNat * (offset / vn.blkSize.toNat) := by
    have := Nat.mod_add_div offset vn.blkSize.toNat
    omega
  rw [byte, hsum, Nat.add_mul_div_left _ _ vn.blkSize_pos, Nat.div_eq_of_lt hlt, Nat.zero_add,
    Nat.add_mul_mod_self_left, Nat.mod_eq_of_lt hlt]

theorem Vnode.sz_spec {vn : Vnode} (hfits : vn.Fits) {offset : Nat} (hlt : offset < vn.iSize.toNat) (toread : Nat) :
    offset % vn.blkSize.toNat + vn.sz offset toread ≤ vn.blkSize.toNat ∧ vn.sz offset toread ≤ toread ∧
    offset + vn.sz offset toread ≤ vn.iSize.toNat ∧ (0 < toread → 0 < vn.sz offset toread) := by
  have hoff := Nat.mod_lt offset vn.blkSize_pos
  have hle := Nat.mod_le offset vn.blkSize.toNat
  simp only [Fits] at hfits
  simp only [sz]
  generalize offset % vn.blkSize.toNat = off at *
  generalize hsz : (if toread < vn.blkSize.toNat - off then toread else vn.blkSize.toNat - off) = sz
  have hsz : sz ≤ toread ∧ sz ≤ vn.blkSize.toNat - off ∧ (0 < toread → 0 < sz) := by
    rw [← hsz]
    split <;> omega
  rw [Nat.mod_eq_of_lt (by omega : offset + sz < 2 ^ 32)]
  split <;> omega

/-- The loop adds the next part of the file, as much as there is of what is asked for. -/
theorem ext2Loop_spec {vn : Vnode} (hfits : vn.Fits) {bread : Nat → Bool} {size : Nat} (n : Nat) (file file' : File)
    (toread : Nat) (buf buf' : List (BitVec 8)) (hn : toread < n) (hsize : buf.length + toread = size)
    (hlt : file.fOffset.toNat < vn.iSize.toNat) (h : ext2Loop vn bread size n file toread buf = .ok (file', buf')) :
    ∃ more, buf' = buf ++ more ∧ vn.IsPart file.fOffset.toNat more ∧
      file' = { file with fOffset := BitVec.ofNat 32 (file.fOffset.toNat + more.length) } ∧
      more.length = min toread (vn.iSize.toNat - file.fOffset.toNat) := by
  induction n generalizing file toread buf with
  | zero => omega
  | succ n ih =>
    obtain ⟨hblk, hto, hend, hpos⟩ := Vnode.sz_spec hfits hlt toread
    have hpart := vn.isPart_block hblk
    have hmod : (BitVec.ofNat 32 (file.fOffset.toNat + vn.sz file.fOffset.toNat toread)).toNat =
        file.fOffset.toNat + vn.sz file.fOffset.toNat toread :=
      BitVec.toNat_ofNat .. |>.trans (Nat.mod_eq_of_lt (by have := vn.iSize.isLt; omega))
    simp only [ext2Loop, hmod] at h
    generalize hsz : vn.sz file.fOffset.toNat toread = sz at *
    generalize hmore : ((List.range sz).map fun i => vn.data (file.fOffset.toNat / vn.blkSize.toNat)
      (file.fOffset.toNat % vn.blkSize.toNat + i)) = more at *
    have hlen : more.length = sz := by rw [← hmore, length_map, length_range]
    split at h
    · cases h
    · split at h
      · cases h
        exact ⟨more, rfl, hpart, by rw [hlen], by omega⟩
      · rw [length_append, hlen] at h
        split at h
        · obtain ⟨rest, hbuf, hrest, hfile, hl⟩ := ih _ _ _ (by omega) (by rw [length_append, hlen]; omega)
            (by rw [hmod]; omega) h
          rw [hmod] at hrest hfile hl
          refine ⟨more ++ rest, by rw [hbuf, append_assoc], hpart.append (by rwa [hlen]), ?_, ?_⟩
          · rw [hfile, length_append, hlen, Nat.add_assoc]
          · rw [length_append, hlen]
            omega
        · cases h
          exact ⟨more, rfl, hpart, by rw [hlen], by omega⟩

/-- A read returns the part of the file at the offset, which moves to its end. -/
theorem Vnode.vopRead_spec {vn : Vnode} (hfits : vn.Fits) {bread : Nat → Bool} {file file' : File} {size : Nat}
    {buf : List (BitVec 8)} (h : vn.vopRead bread file size = .ok (file', buf)) :
    vn.IsPart file.fOffset.toNat buf ∧
    file' = { file with fOffset := BitVec.ofNat 32 (file.fOffset.toNat + buf.length) } ∧
    file.fOffset.toNat + buf.length < 2 ^ 32 := by
  have hnone : ([] : List (BitVec 8)) = buf → file = file' →
      vn.IsPart file.fOffset.toNat buf ∧
      file' = { file with fOffset := BitVec.ofNat 32 (file.fOffset.toNat + buf.length) } ∧
      file.fOffset.toNat + buf.length < 2 ^ 32 := by
    rintro rfl rfl
    exact ⟨vn.isPart_nil _, by simp, file.fOffset.isLt⟩
  simp only [vopRead] at h
  split at h
  · simp only [ext2Read] at h
    split at h
    · cases h
      exact hnone rfl rfl
    · obtain ⟨more, rfl, hpart, hfile, hlen⟩ := ext2Loop_spec hfits _ _ _ _ [] _ (Nat.lt_succ_self size)
        (Nat.zero_add size) (by omega) h
      refine ⟨hpart, hfile, ?_⟩
      have := vn.iSize.isLt
      omega
  · cases h
    exact hnone rfl rfl

/-- What a call leaves and returns, and, when the file system has read, the offset and the bytes. -/
structure VfsRead (τ ρ κ φ : Type*) where
  sys : FileSys τ ρ κ φ
  ret : Int
  part : Option (Nat × List (BitVec 8))

section

variable {τ ρ κ φ : Type*} [DecidableEq ρ] [DecidableEq κ] [DecidableEq φ]

/-- `vfs_read`; `file` is what the structure of the server holds before the call, and locking a vnode does nothing. -/
def vfsRead (s : FileSys τ ρ κ φ) (findVnode : BitVec 32 → BitVec 32 → Option Vnode) (bread : Nat → Bool)
    (tid fdesc : Int) (nsize : Nat) (file : File) : Option (VfsRead τ ρ κ φ) := do
  let (s, err, file) ← getOpenfile s tid fdesc file
  match findVnode file.device file.inode with
  | none => return ⟨s, err, none⟩
  | some vnode =>
    match vnode.vopRead bread file nsize with
    | .error err => return ⟨s, err, none⟩
    | .ok (file', buf) =>
      let err := (BitVec.ofNat 32 buf.length).toInt
      if err < 0 then return ⟨s, err, none⟩
      else
        let (s, _) ← putOpenfile s tid fdesc file'
        return ⟨s, err, some (file.fOffset.toNat, buf)⟩

variable {s : FileSys τ ρ κ φ} {findVnode : BitVec 32 → BitVec 32 → Option Vnode} {tid : Int} {p : ρ}

private theorem vfsRead_part (h : s.Serves tid p) {d : Int} (hd : 0 ≤ d) {fd : φ} (hpd : s.ptr p d = some fd)
    {bread : Nat → Bool} {nsize : Nat} {file : File} {r : VfsRead τ ρ κ φ} {offset : Nat} {buf : List (BitVec 8)}
    (hr : vfsRead s findVnode bread tid d nsize file = some r) (hpart : r.part = some (offset, buf)) :
    ∃ vn file' g, findVnode (s.mem.file fd).device (s.mem.file fd).inode = some vn ∧
      vn.vopRead bread (s.mem.file fd) nsize = .ok (file', buf) ∧ offset = (s.mem.file fd).fOffset.toNat ∧
      s.ptr p 0 = some g ∧ r.sys = s.write g file' := by
  simp only [vfsRead, getOpenfile_eq h hd, hpd, Option.map_some, Option.bind_eq_bind, Option.bind_some] at hr
  split at hr
  · cases hr
    cases hpart
  · rename_i vn hvn
    split at hr
    · cases hr
      cases hpart
    · rename_i file' buf' hread
      split at hr
      · cases hr
        cases hpart
      · rw [putOpenfile_eq h hd] at hr
        cases hg : s.ptr p 0 with
        | none => simp [hg] at hr
        | some g =>
          simp only [hg, Option.map_some, Option.bind_some] at hr
          cases hr
          cases hpart
          exact ⟨vn, file', g, hvn, hread, rfl, rfl, rfl⟩

def FileSys.offset (s : FileSys τ ρ κ φ) (p : ρ) (desc : Int) : Option Nat :=
  (s.ptr p desc).map fun f => (s.mem.file f).fOffset.toNat

def FileSys.vnode (s : FileSys τ ρ κ φ) (findVnode : BitVec 32 → BitVec 32 → Option Vnode) (p : ρ) (desc : Int) :
    Option Vnode :=
  (s.ptr p desc).bind fun f => findVnode (s.mem.file f).device (s.mem.file f).inode

def FileSys.Opened (s : FileSys τ ρ κ φ) (p : ρ) (desc : Int) : Prop :=
  0 ≤ desc ∧ desc < (s.fd p).fdMax ∧ ∃ f, s.ptr p desc = some f

/-- Two reads that succeed, with the offset and the bytes of each. -/
structure TwoReads (s : FileSys τ ρ κ φ) (findVnode : BitVec 32 → BitVec 32 → Option Vnode) (tid d : Int)
    (r₁ r₂ : VfsRead τ ρ κ φ) (x₁ x₂ : Nat × List (BitVec 8)) : Prop where
  first : ∃ bread nsize file, vfsRead s findVnode bread tid d nsize file = some r₁
  first_part : r₁.part = some x₁
  second : ∃ bread nsize file, vfsRead r₁.sys findVnode bread tid d nsize file = some r₂
  second_part : r₂.part = some x₂

/-- Two reads on `d` return consecutive parts of its file and leave the offset of `e`. -/
def ReadsOn (s : FileSys τ ρ κ φ) (findVnode : BitVec 32 → BitVec 32 → Option Vnode) (tid : Int) (p : ρ) (d e : Int) :
    Prop :=
  ∀ r₁ r₂ x₁ x₂, TwoReads s findVnode tid d r₁ r₂ x₁ x₂ →
    (∃ vn, s.vnode findVnode p d = some vn ∧ vn.IsPart x₁.1 x₁.2 ∧ vn.IsPart x₂.1 x₂.2) ∧
    s.offset p d = some x₁.1 ∧ x₂.1 = x₁.1 + x₁.2.length ∧
    r₁.sys.offset p e = s.offset p e ∧ r₂.sys.offset p e = s.offset p e

omit [DecidableEq ρ] [DecidableEq κ] in
private theorem write_offset_of_ne {g fe : φ} {e : Int} (hpe : s.ptr p e = some fe) (hne : g ≠ fe) (file : File) :
    (s.write g file).offset p e = s.offset p e := by
  simp only [FileSys.offset, write_ptr, hpe, write_file, Option.map_some, update_of_ne hne.symm]

private theorem readsOn_of_inPlace (h : s.Serves tid p) {d e : Int} (hd : 0 ≤ d) {fd fe : φ} (hpd : s.ptr p d = some fd)
    (hpe : s.ptr p e = some fe) (hin : InPlace s p d e)
    (hfits : ∀ vn, s.vnode findVnode p d = some vn → vn.Fits) : ReadsOn s findVnode tid p d e := by
  rintro r₁ r₂ ⟨o₁, b₁⟩ ⟨o₂, b₂⟩ ⟨⟨_, _, _, hr₁⟩, hp₁, ⟨_, _, _, hr₂⟩, hp₂⟩
  have hvnode : s.vnode findVnode p d = findVnode (s.mem.file fd).device (s.mem.file fd).inode := by
    rw [FileSys.vnode, hpd, Option.bind_some]
  have hne : fd ≠ fe := fun heq => hin.2 (by rw [hin.1, hpd, hpe, heq])
  obtain ⟨vn, f₁, g, hvn, hread₁, rfl, hg, hs₁⟩ := vfsRead_part h hd hpd hr₁ hp₁
  obtain rfl : g = fd := Option.some.inj (hg.symm.trans (hin.1.trans hpd))
  obtain ⟨hpart₁, hf₁, hlt₁⟩ := Vnode.vopRead_spec (hfits vn (hvnode.trans hvn)) hread₁
  rw [hs₁] at hr₂
  obtain ⟨vn', f₂, g', hvn', hread₂, rfl, hg', hs₂⟩ := vfsRead_part (h.write g f₁) hd hpd hr₂ hp₂
  obtain rfl : g = g' := Option.some.inj (hg.symm.trans hg')
  -- the first read has changed the offset only, so the second is on the same file
  simp only [write_file, update_self] at hvn' hread₂ ⊢
  obtain rfl : vn = vn' := by
    rw [hf₁] at hvn'
    exact Option.some.inj (hvn.symm.trans hvn')
  obtain ⟨hpart₂, -, -⟩ := Vnode.vopRead_spec (hfits vn (hvnode.trans hvn)) hread₂
  refine ⟨⟨vn, hvnode.trans hvn, hpart₁, hpart₂⟩, ?_, ?_, ?_, ?_⟩
  · rw [FileSys.offset, hpd, Option.map_some]
  · rw [hf₁]
    exact (BitVec.toNat_ofNat ..).trans (Nat.mod_eq_of_lt hlt₁)
  · rw [hs₁, write_offset_of_ne hpe hne]
  · rw [hs₂, write_offset_of_ne (s := s.write g f₁) hpe hne, write_offset_of_ne hpe hne]

private theorem reads_again (h : s.Serves tid p) {d : Int} (hd : 0 ≤ d) {fd : φ} (hpd : s.ptr p d = some fd)
    (hne : s.ptr p 0 ≠ s.ptr p d) {r₁ r₂ : VfsRead τ ρ κ φ} {x₁ x₂ : Nat × List (BitVec 8)}
    (htwo : TwoReads s findVnode tid d r₁ r₂ x₁ x₂) : x₂.1 = x₁.1 := by
  obtain ⟨⟨_, _, _, hr₁⟩, hp₁, ⟨_, _, _, hr₂⟩, hp₂⟩ := htwo
  obtain ⟨_, f₁, g, -, -, ho₁, hg, hs₁⟩ := vfsRead_part h hd hpd hr₁ hp₁
  rw [hs₁] at hr₂
  obtain ⟨_, _, _, -, -, ho₂, -, -⟩ := vfsRead_part (h.write g f₁) hd hpd hr₂ hp₂
  have hgd : fd ≠ g := fun heq => hne (by rw [hg, hpd, heq])
  rw [ho₁, ho₂, write_file, update_of_ne hgd]

/-- The round trip for `d` and `e` exactly when descriptor 0 has the file of `d` and not that of `e`; then one read on
`d` goes on where the other stopped, and when `d` has a file of its own, each starts at the same place. -/
theorem open_file_round_trip (s : FileSys τ ρ κ φ) (findVnode : BitVec 32 → BitVec 32 → Option Vnode) (tid : Int)
    (p : ρ) (d e : Int) (h : s.Serves tid p) (hd : s.Opened p d) (he : s.Opened p e) :
    ((∀ file, RoundTrip s tid d e file) ↔ InPlace s p d e) ∧
    (InPlace s p d e → (∀ vn, s.vnode findVnode p d = some vn → vn.Fits) → ReadsOn s findVnode tid p d e) ∧
    (s.ptr p 0 ≠ s.ptr p d → ∀ r₁ r₂ x₁ x₂, TwoReads s findVnode tid d r₁ r₂ x₁ x₂ → x₂.1 = x₁.1) := by
  obtain ⟨hd0, -, fd, hpd⟩ := hd
  obtain ⟨he0, -, fe, hpe⟩ := he
  refine ⟨forall_roundTrip_iff h hd0 he0 hpd hpe, ?_, ?_⟩
  · exact fun hin hfits => readsOn_of_inPlace h hd0 hpd hpe hin hfits
  · exact fun hne _ _ _ _ htwo => reads_again h hd0 hpd hne htwo

end

def fourBytes : Vnode where
  ops := .ext2
  iSize := 4
  blkSize := 1024
  data _ i := BitVec.ofNat 8 i
  blkSize_pos := by decide

/-- The thread 7 of the superuser has the descriptors 0 and 1, for two open files. -/
def twoOpen : FileSys Unit Unit Unit Bool where
  sys :=
    { k := .ofThreads [()] (fun _ => .ready 7 10) ()
      proc := id
      process := fun _ => ⟨0, fun _ => 0, []⟩
      pcIrq := fun _ => ⟨0, ()⟩ }
  fd _ := opened [false, true]
  mem := blankFiles

theorem twoOpen_serves : twoOpen.Serves 7 () := ⟨by decide, by decide, (), by decide, rfl⟩

/-- Descriptor 0 makes the round trip. -/
theorem open_file_round_trip_zero : InPlace twoOpen () 0 1 ∧ (∀ file, RoundTrip twoOpen 7 0 1 file) ∧
    ReadsOn twoOpen (fun _ _ => some fourBytes) 7 () 0 1 := by
  have hin : InPlace twoOpen () 0 1 := ⟨rfl, by decide⟩
  obtain ⟨htrip, hreads, -⟩ := open_file_round_trip twoOpen (fun _ _ => some fourBytes) 7 () 0 1 twoOpen_serves
    ⟨by decide, by decide, false, rfl⟩ ⟨by decide, by decide, true, rfl⟩
  refine ⟨hin, htrip.2 hin, hreads hin ?_⟩
  rintro vn ⟨⟩
  exact (by decide : (4 : Nat) + 1024 ≤ 2 ^ 32)

/-- With descriptor 1 the file of descriptor 0 is written: its offset moves, and the next two bytes of descriptor 1 are
the first two again. -/
theorem one_written_to_zero : ¬ RoundTrip twoOpen 7 1 0 ⟨0, 2, 0, 0, 0⟩ ∧
    ∃ r₁ r₂, vfsRead twoOpen (fun _ _ => some fourBytes) (fun _ => true) 7 1 2 ⟨0, 0, 0, 0, 0⟩ = some r₁ ∧
      vfsRead r₁.sys (fun _ _ => some fourBytes) (fun _ => true) 7 1 2 ⟨0, 0, 0, 0, 0⟩ = some r₂ ∧
      r₁.part = some (0, [0, 1]) ∧ r₂.part = some (0, [0, 1]) ∧
      twoOpen.offset () 0 = some 0 ∧ r₂.sys.offset () 0 = some 2 := by
  constructor
  · have hpd : twoOpen.ptr () 1 = some true := rfl
    have hpe : twoOpen.ptr () 0 = some false := rfl
    rw [roundTrip_iff twoOpen_serves (by decide) (by decide) hpd hpe]
    rintro ⟨g, hg, hgd, -⟩
    cases hg
    exact absurd hgd (by decide)
  · exact ⟨_, _, rfl, rfl, rfl, rfl, rfl, rfl⟩

end Manrix
