import Mathlib.Data.List.TakeWhile
import Manrix.FsIo.Ext2Dir
import Manrix.FsIo.VfsRead

/-!
# Looking up a path (`fs/ext2fs/ext2dir.c`, `fs/ext2fs/ext2.c`, `fs/vfs_namei.c`)

`ext2_readdir` takes the names of a path one after the other and looks each of them up in the entries of a directory,
block by block.  On a file system whose directories are well formed this is the walk along the names, with these
exceptions.  Whether a file is a directory is asked with `VNODE_DIR`, but what stands in `v_type` is the mode of the
inode, so it is the permission to read for others that is asked for: a directory without it is refused, and a file with
it is searched like a directory.  An entry that is not in use is found, too.  And behind the last name there may be one
slash, not two, because the empty string between two of them is taken for a name.

The `v_type` that `ext2_namei` reads through `ndata->vn` after an error has no effect and is left out.
-/

namespace Manrix

open List

def slash : BitVec 8 := 0x2F

def eintr : Int := 0x1c
def eexist : Int := 0x15
def oCreat : BitVec 32 := 1
def oExcl : BitVec 32 := 2
def ext2NameLen : Nat := 255
def vnodeDir : BitVec 16 := 4

/-- The vnodes of an ext2 file system: what `ext2_readdir` reads of them, the blocks it gets by `ext2_bmap` and `bread`,
and what `vget` makes of the inode number of an entry. -/
structure Ext2Fs (ν : Type*) where
  blkSize : Nat
  vType : ν → BitVec 16
  mounted : ν → Bool
  iBlocks : ν → BitVec 32
  block : ν → Nat → Option (Nat → BitVec 8)
  vget : ν → BitVec 32 → Option ν

variable {ν : Type*}

/-- The half word and the word at a place in a buffer. -/
def bufHalf (buf : Nat → BitVec 8) (i : Nat) : BitVec 16 := buf (i + 1) ++ buf i

def bufWord (buf : Nat → BitVec 8) (i : Nat) : BitVec 32 := bufHalf buf (i + 2) ++ bufHalf buf i

/-- How the search for a name in a directory ends; `wild` when `check_name` reads behind the name. -/
inductive DirEnd where
  | entry (inum : BitVec 32)
  | absent
  | mount
  | error (err : Int)
  | wild
  deriving DecidableEq

/-- The loop over the entries of a block.  Each of them has a byte at least, so that `n` rounds are enough for a block
with less than `n` bytes. -/
def scanBlock (buf : Nat → BitVec 8) (datasz : Nat) (name : List (BitVec 8)) : Nat → Nat → DirEnd
  | 0, _ => .absent
  | n + 1, dir =>
    let recLen := (bufHalf buf (dir + 4)).toNat
    if recLen = 0 then .absent
    else
      -- `namelen` is a byte and not above `EXT2_NAME_LEN`
      match checkName (fun k => buf (dir + 8 + k)) (buf (dir + 6)).toNat name with
      | .overread => .wild
      | .ret r =>
        if r = 0 then .entry (bufWord buf dir)
        else if dir + recLen ≥ datasz then .absent
        else scanBlock buf datasz name n (dir + recLen)

/-- `get_file_blk` -/
def Ext2Fs.getFileBlk (fs : Ext2Fs ν) (vn : ν) : BitVec 32 := fs.iBlocks vn * 512

/-- The loop over the blocks of a directory, with the rounds that are left at most. -/
def Ext2Fs.scanDir (fs : Ext2Fs ν) (vn : ν) (name : List (BitVec 8)) : Nat → Nat → DirEnd
  | 0, _ => .absent
  | n + 1, blkindex =>
    if fs.vType vn &&& vnodeDir = 0 then .error (-einval)
    else if fs.mounted vn then .mount
    else
      match fs.block vn blkindex with
      | none => .error (-eintr)
      | some buf =>
        match scanBlock buf fs.blkSize name (fs.blkSize + 1) 0 with
        | .absent =>
          if (blkindex + 1) * fs.blkSize ≥ (fs.getFileBlk vn).toNat then .absent
          else fs.scanDir vn name n (blkindex + 1)
        | r => r

/-- What `ext2_readdir` returns: 0 and a vnode, 1 at a mount point, or an error, with the directory in which the last
name was not found. -/
inductive Lookup (ν : Type*) where
  | found (vn : ν)
  | mount (vn : ν)
  | error (err : Int) (parent : Option ν)
  | wild

/-- The first name of a path: what is behind leading slashes, up to the next one; and the path behind it. -/
def firstName (path : List (BitVec 8)) : List (BitVec 8) := (path.dropWhile (· == slash)).takeWhile (· != slash)

def afterName (path : List (BitVec 8)) : List (BitVec 8) := (path.dropWhile (· == slash)).dropWhile (· != slash)

/-- `ext2_readdir`.  Each name takes a character of the path, or is the last one. -/
def Ext2Fs.ext2Readdir (fs : Ext2Fs ν) : Nat → ν → List (BitVec 8) → Lookup ν
  | 0, _, _ => .wild
  | n + 1, vn, path =>
    let name := firstName path
    let pth := afterName path
    -- the array for the name has room for its terminator
    if name.length ≥ ext2NameLen then .wild
    else
      let comp := pth.length ≤ 1
      match fs.scanDir vn name ((fs.getFileBlk vn).toNat + 1) 0 with
      | .error err => .error err none
      | .mount => .mount vn
      | .wild => .wild
      | .absent => .error (-1) (if comp then some vn else none)
      | .entry inum =>
        match fs.vget vn inum with
        | none => .error (-1) none
        | some vn => if comp then .found vn else fs.ext2Readdir n vn pth

/-- The end of `ext2_namei`: a file that exists is an error with either of the two flags. -/
def Lookup.check (access : BitVec 32) : Lookup ν → Lookup ν
  | .found vn => if access &&& oCreat ≠ 0 ∨ access &&& oExcl ≠ 0 then .error (-eexist) none else .found vn
  | r => r

/-- `ext2_namei` -/
def Ext2Fs.ext2Namei (fs : Ext2Fs ν) (vn : ν) (path : List (BitVec 8)) (access : BitVec 32) : Lookup ν :=
  (fs.ext2Readdir (path.length + 1) vn path).check access

/-- `vfs_namev`, as far as the first mount point. -/
def Ext2Fs.vfsNamev (fs : Ext2Fs ν) (root cwd : ν) (path : List (BitVec 8)) (access : BitVec 32) : Lookup ν :=
  if path.head? = some slash then
    if path = [slash] then .found root else fs.ext2Namei root path access
  else fs.ext2Namei cwd path access

structure DirEntry where
  inum : BitVec 32
  recLen : Nat
  name : List (BitVec 8)

/-- The entry is in a block at the offset `dir`. -/
structure EntryAt (buf : Nat → BitVec 8) (dir : Nat) (e : DirEntry) : Prop where
  inum : bufWord buf dir = e.inum
  recLen : (bufHalf buf (dir + 4)).toNat = e.recLen
  namelen : (buf (dir + 6)).toNat = e.name.length
  name : ∀ k (h : k < e.name.length), buf (dir + 8 + k) = e.name[k]
  fits : 8 + e.name.length ≤ e.recLen

/-- The entries fill the block from the offset on. -/
def EntriesAt (buf : Nat → BitVec 8) (datasz : Nat) : Nat → List DirEntry → Prop
  | dir, [] => dir = datasz
  | dir, e :: es => EntryAt buf dir e ∧ EntriesAt buf datasz (dir + e.recLen) es

/-- The blocks of a vnode are those of a directory with these entries. -/
structure Ext2Fs.Directory (fs : Ext2Fs ν) (vn : ν) (blocks : List (List DirEntry)) : Prop where
  size : (fs.getFileBlk vn).toNat = blocks.length * fs.blkSize
  nonempty : blocks ≠ []
  block : ∀ k (h : k < blocks.length), ∃ buf, fs.block vn k = some buf ∧ EntriesAt buf fs.blkSize 0 blocks[k]

section

variable {buf : Nat → BitVec 8} {datasz dir : Nat} {name : List (BitVec 8)} {e : DirEntry} {es : List DirEntry}

def PlainName (name : List (BitVec 8)) : Prop := asterisk ∉ name ∧ question ∉ name

instance (name : List (BitVec 8)) : Decidable (PlainName name) := inferInstanceAs (Decidable (_ ∧ _))

theorem PlainName.mono {path : List (BitVec 8)} (h : PlainName path) (hsub : name ⊆ path) : PlainName name :=
  ⟨fun hc => h.1 (hsub hc), fun hc => h.2 (hsub hc)⟩

private theorem agrees_iff {dest : Nat → BitVec 8} {j : Nat} (hq : question ∉ name) :
    Agrees dest j name ↔ ∀ k (h : k < name.length), dest (j + k) = name[k] := by
  induction name generalizing j with
  | nil => simp [Agrees]
  | cons c rest ih =>
    rw [mem_cons, not_or] at hq
    rw [Agrees, ih hq.2]
    constructor
    · rintro ⟨hc, hrest⟩ k hk
      cases k with
      | zero => exact (hc.resolve_left (Ne.symm hq.1)).symm
      | succ k =>
        rw [getElem_cons_succ, ← hrest k (Nat.lt_of_succ_lt_succ hk), Nat.add_right_comm, Nat.add_assoc]
    · intro h
      refine ⟨.inr (h 0 (Nat.zero_lt_succ _)).symm, fun k hk => ?_⟩
      rw [Nat.add_right_comm, Nat.add_assoc]
      exact h (k + 1) (Nat.succ_lt_succ hk)

theorem EntryAt.checkName (h : EntryAt buf dir e) (hp : PlainName name) :
    checkName (fun k => buf (dir + 8 + k)) (buf (dir + 6)).toNat name = if e.name = name then .ret 0 else .ret 1 := by
  rw [checkName_of_notMem _ _ hp.1, h.namelen]
  refine if_congr ?_ rfl rfl
  rw [agrees_iff hp.2]
  constructor
  · rintro ⟨hlen, hget⟩
    refine ext_getElem hlen.symm fun k hk hk' => ?_
    rw [← h.name k hk, ← hget k hk', Nat.zero_add]
  · rintro rfl
    exact ⟨rfl, fun k hk => by rw [Nat.zero_add]; exact h.name k hk⟩

theorem EntriesAt.lt (h : EntriesAt buf datasz dir (e :: es)) : dir < datasz := by
  induction es generalizing dir e with
  | nil =>
    have := h.1.fits
    have := h.2
    rw [EntriesAt] at this
    omega
  | cons e' es ih =>
    have := ih h.2
    omega

theorem EntryAt.scanBlock_succ (h : EntryAt buf dir e) (hp : PlainName name) (n : Nat) :
    scanBlock buf datasz name (n + 1) dir = if e.name = name then .entry e.inum
      else if dir + e.recLen ≥ datasz then .absent else scanBlock buf datasz name n (dir + e.recLen) := by
  have hne : e.recLen ≠ 0 := by
    have := h.fits
    omega
  simp only [scanBlock, h.recLen, h.checkName hp, h.inum, if_neg hne]
  by_cases hname : e.name = name
  · simp only [if_pos hname, if_pos]
  · simp only [if_neg hname, one_ne_zero, if_false]

/-- What a search finds, as the loops return it. -/
def DirEnd.ofEntry : Option DirEntry → DirEnd
  | none => .absent
  | some e => .entry e.inum

theorem EntriesAt.scanBlock {n : Nat} (h : EntriesAt buf datasz dir (e :: es)) (hp : PlainName name)
    (hn : datasz - dir < n) : scanBlock buf datasz name n dir = .ofEntry ((e :: es).find? fun e => e.name = name) := by
  induction n generalizing dir e es with
  | zero => omega
  | succ n ih =>
    have hfits := h.1.fits
    rw [h.1.scanBlock_succ hp, find?_cons]
    by_cases hname : e.name = name
    · simp [hname, DirEnd.ofEntry]
    · cases es with
      | nil =>
        have hend : dir + e.recLen = datasz := h.2
        simp [hname, DirEnd.ofEntry, hend]
      | cons e' es =>
        have hlt := EntriesAt.lt h.2
        rw [if_neg hname, if_neg (by omega), ih h.2 (by omega)]
        simp [hname]

end

section

variable {fs : Ext2Fs ν} {vn : ν} {blocks : List (List DirEntry)} {name : List (BitVec 8)}

/-- The first entry of a directory with the name is found. -/
theorem Ext2Fs.Directory.scanDir_drop (h : fs.Directory vn blocks) (hv : fs.vType vn &&& vnodeDir ≠ 0)
    (hm : fs.mounted vn = false) (hblk : 0 < fs.blkSize) (hp : PlainName name) {k n : Nat} (hk : k < blocks.length)
    (hn : blocks.length - k < n) :
    fs.scanDir vn name n k = .ofEntry ((blocks.drop k).flatten.find? fun e => e.name = name) := by
  induction n generalizing k with
  | zero => omega
  | succ n ih =>
    obtain ⟨buf, hbuf, hes⟩ := h.block k hk
    rw [drop_eq_getElem_cons hk, flatten_cons, find?_append]
    -- a block is not empty
    obtain ⟨e, es, he⟩ : ∃ e es, blocks[k] = e :: es := by
      cases hb : blocks[k] with
      | nil =>
        rw [hb] at hes
        exact absurd hes hblk.ne
      | cons e es => exact ⟨e, es, rfl⟩
    rw [he] at hes ⊢
    have hscan := hes.scanBlock hp (n := fs.blkSize + 1) (by omega)
    simp only [scanDir, if_neg hv, hm, hbuf, hscan, Bool.false_eq_true, if_false]
    cases hfind : (e :: es).find? (fun e => e.name = name) with
    | some e' => rfl
    | none =>
      simp only [DirEnd.ofEntry, h.size, Option.none_or]
      by_cases hlast : k + 1 = blocks.length
      · rw [if_pos (by rw [hlast]), drop_eq_nil_of_le hlast.ge]
        rfl
      · have hlt : (k + 1) * fs.blkSize < blocks.length * fs.blkSize := Nat.mul_lt_mul_of_pos_right (by omega) hblk
        rw [if_neg (by omega), ih (by omega) (by omega)]
        rfl

theorem Ext2Fs.Directory.scanDir (h : fs.Directory vn blocks) (hv : fs.vType vn &&& vnodeDir ≠ 0)
    (hm : fs.mounted vn = false) (hblk : 0 < fs.blkSize) (hp : PlainName name) :
    fs.scanDir vn name ((fs.getFileBlk vn).toNat + 1) 0 = .ofEntry (blocks.flatten.find? fun e => e.name = name) := by
  have hpos := length_pos_iff.2 h.nonempty
  have hle : blocks.length ≤ blocks.length * fs.blkSize := Nat.le_mul_of_pos_right _ hblk
  have := h.size
  exact h.scanDir_drop hv hm hblk hp hpos (by omega)

end

/-- The names between the slashes of a path. -/
def pathNames (path : List (BitVec 8)) : List (List (BitVec 8)) := (path.splitOnP (· == slash)).filter (· ≠ [])

section

variable {path name rest : List (BitVec 8)}

private theorem pathNames_slash (path : List (BitVec 8)) : pathNames (slash :: path) = pathNames path := by
  rw [pathNames, ← nil_append (slash :: path),
    splitOnP_append_cons_of_forall_mem (by simp) slash (by simp), filter_cons_of_neg (by simp)]
  rfl

private theorem pathNames_dropWhile (path : List (BitVec 8)) :
    pathNames (path.dropWhile (· == slash)) = pathNames path := by
  induction path with
  | nil => rfl
  | cons c path ih =>
    by_cases hc : c = slash
    · rw [hc, dropWhile_cons_of_pos (by simp), ih, pathNames_slash]
    · rw [dropWhile_cons_of_neg (by simpa using hc)]

private theorem pathNames_append (hne : name ≠ []) (hname : slash ∉ name) (hrest : ∀ c ∈ rest.head?, c = slash) :
    pathNames (name ++ rest) = name :: pathNames rest := by
  have hfree : ∀ c ∈ name, (c == slash) = false := by
    intro c hc
    simpa using ne_of_mem_of_not_mem hc hname
  cases rest with
  | nil => rw [append_nil, pathNames, splitOnP_eq_singleton hfree, filter_cons_of_pos (by simpa)]; rfl
  | cons c rest =>
    obtain rfl : c = slash := hrest c rfl
    rw [pathNames_slash, pathNames, splitOnP_append_cons_of_forall_mem hfree slash (by simp),
      filter_cons_of_pos (by simpa)]
    rfl

private theorem firstName_append_afterName (path : List (BitVec 8)) :
    firstName path ++ afterName path = path.dropWhile (· == slash) := takeWhile_append_dropWhile

private theorem slash_notMem_firstName (path : List (BitVec 8)) : slash ∉ firstName path := by
  intro h
  simpa using mem_takeWhile_imp h

private theorem head?_afterName (path : List (BitVec 8)) : ∀ c ∈ (afterName path).head?, c = slash := by
  intro c hc
  have := head?_dropWhile_not (· != slash) (path.dropWhile (· == slash))
  rw [show (path.dropWhile (· == slash)).dropWhile (· != slash) = afterName path from rfl, hc] at this
  simpa using this

private theorem afterName_suffix (path : List (BitVec 8)) : afterName path <:+ path :=
  (dropWhile_suffix _).trans (dropWhile_suffix _)

private theorem dropWhile_of_firstName (h : firstName path = []) : path.dropWhile (· == slash) = [] := by
  have happ := firstName_append_afterName path
  rw [h, nil_append] at happ
  cases hp : path.dropWhile (· == slash) with
  | nil => rfl
  | cons c rest =>
    have h1 : c = slash := head?_afterName path c (by rw [happ, hp]; rfl)
    have h2 := head?_dropWhile_not (· == slash) path
    rw [hp] at h2
    simp [h1] at h2

private theorem pathNames_of_firstName (h : firstName path = []) : pathNames path = [] := by
  rw [← pathNames_dropWhile, dropWhile_of_firstName h]
  rfl

private theorem pathNames_eq (h : firstName path ≠ []) :
    pathNames path = firstName path :: pathNames (afterName path) := by
  rw [← pathNames_dropWhile, ← firstName_append_afterName]
  exact pathNames_append h (slash_notMem_firstName path) (head?_afterName path)

private theorem exists_suffix (h : firstName path ≠ []) : ∃ c ≠ slash, c :: afterName path <:+ path := by
  refine ⟨(firstName path).getLast h, ne_of_mem_of_not_mem (getLast_mem h) (slash_notMem_firstName path), ?_⟩
  have hsuf : firstName path ++ afterName path <:+ path := by
    rw [firstName_append_afterName]
    exact dropWhile_suffix _
  refine List.IsSuffix.trans ⟨(firstName path).dropLast, ?_⟩ hsuf
  rw [← singleton_append, ← append_assoc, dropLast_append_getLast]

private theorem length_afterName (h : firstName path ≠ []) : (afterName path).length < path.length := by
  obtain ⟨c, -, hsuf⟩ := exists_suffix h
  exact hsuf.length_le

/-- The path has a name and at most one slash behind the last one. -/
def Ends (path : List (BitVec 8)) : Prop := pathNames path ≠ [] ∧ ¬ [slash, slash] <:+ path

instance (path : List (BitVec 8)) : Decidable (Ends path) := inferInstanceAs (Decidable (_ ∧ _))

/-- The names that are looked up. -/
def lookedUp (path : List (BitVec 8)) : List (List (BitVec 8)) :=
  if Ends path then pathNames path else pathNames path ++ [[]]

private theorem lookedUp_of_firstName (h : firstName path = []) : lookedUp path = [[]] := by
  have hnames := pathNames_of_firstName h
  rw [lookedUp, if_neg fun he => he.1 hnames, hnames]
  rfl

private theorem slashes_suffix (h : pathNames path = []) (hlen : 2 ≤ path.length) : [slash, slash] <:+ path := by
  have hfirst : firstName path = [] := by
    by_contra hne
    rw [pathNames_eq hne] at h
    cases h
  have hall : path = List.replicate path.length slash := by
    refine eq_replicate_iff.2 ⟨rfl, fun c hc => ?_⟩
    simpa using dropWhile_eq_nil_iff.1 (dropWhile_of_firstName hfirst) c hc
  refine ⟨List.replicate (path.length - 2) slash, ?_⟩
  conv_rhs => rw [hall, ← Nat.sub_add_cancel hlen, replicate_add]
  rfl

private theorem ends_afterName (h : firstName path ≠ []) (hlen : 1 < (afterName path).length) :
    Ends path ↔ Ends (afterName path) := by
  have hsuf : [slash, slash] <:+ path ↔ [slash, slash] <:+ afterName path :=
    ⟨fun hs => suffix_of_suffix_length_le hs (afterName_suffix path) hlen,
      fun hs => hs.trans (afterName_suffix path)⟩
  rw [Ends, Ends, hsuf, pathNames_eq h]
  constructor
  · rintro ⟨-, hs⟩
    exact ⟨fun hnil => hs (slashes_suffix hnil hlen), hs⟩
  · rintro ⟨-, hs⟩
    exact ⟨cons_ne_nil _ _, hs⟩

private theorem ends_of_length (h : firstName path ≠ []) (hlen : (afterName path).length ≤ 1) : Ends path := by
  refine ⟨by rw [pathNames_eq h]; exact cons_ne_nil _ _, fun hs => ?_⟩
  obtain ⟨c, hc, hsuf⟩ := exists_suffix h
  have := (suffix_of_suffix_length_le hsuf hs (by simpa using hlen)).subset mem_cons_self
  simp at this
  exact hc this

private theorem pathNames_of_length (hhead : ∀ c ∈ rest.head?, c = slash) (hlen : rest.length ≤ 1) :
    pathNames rest = [] := by
  cases rest with
  | nil => rfl
  | cons c rest =>
    obtain rfl : c = slash := hhead c rfl
    obtain rfl : rest = [] := length_eq_zero_iff.1 (by simpa using hlen)
    rw [pathNames_slash]
    rfl

private theorem lookedUp_eq (path : List (BitVec 8)) : lookedUp path =
    firstName path :: if (afterName path).length ≤ 1 then [] else lookedUp (afterName path) := by
  by_cases h : firstName path = []
  · have hafter : afterName path = [] := by
      rw [afterName, dropWhile_of_firstName h]
      rfl
    rw [lookedUp_of_firstName h, h, hafter]
    rfl
  · split
    · rename_i hlen
      rw [lookedUp, if_pos (ends_of_length h hlen), pathNames_eq h, pathNames_of_length (head?_afterName path) hlen]
    · rename_i hlen
      rw [lookedUp, lookedUp, pathNames_eq h]
      simp only [ends_afterName h (Nat.lt_of_not_le hlen)]
      split <;> rfl

private theorem lookedUp_ne_nil (path : List (BitVec 8)) : lookedUp path ≠ [] := by
  rw [lookedUp_eq]
  exact cons_ne_nil _ _

end

/-- The directories of a file system, with their entries block by block; the other vnodes have none. -/
structure Ext2Fs.Represents (fs : Ext2Fs ν) (dirs : ν → Option (List (List DirEntry))) : Prop where
  blkSize : 0 < fs.blkSize
  directory : ∀ vn blocks, dirs vn = some blocks → fs.Directory vn blocks
  name : ∀ vn blocks, dirs vn = some blocks → ∀ e ∈ blocks.flatten, e.inum ≠ 0 → e.name ≠ []

/-- The walk along the names, with the entries that are in use, as far as the first mount point.  Every vnode on it has
to be one that others may read; what comes out when it is not a directory is left open. -/
def Ext2Fs.walk (fs : Ext2Fs ν) (dirs : ν → Option (List (List DirEntry))) : ν → List (List (BitVec 8)) → Lookup ν
  | vn, [] => .found vn
  | vn, name :: names =>
    if fs.vType vn &&& vnodeDir = 0 then .error (-einval) none
    else if fs.mounted vn then .mount vn
    else
      match dirs vn with
      | none => .wild
      | some blocks =>
        match blocks.flatten.find? fun e => e.inum ≠ 0 ∧ e.name = name with
        | none => .error (-1) (if names = [] then some vn else none)
        | some e =>
          match fs.vget vn e.inum with
          | none => .error (-1) none
          | some vn => fs.walk dirs vn names

/-- No entry that is not in use has one of the names. -/
def Unstale (dirs : ν → Option (List (List DirEntry))) (names : List (List (BitVec 8))) : Prop :=
  ∀ vn blocks, dirs vn = some blocks → ∀ e ∈ blocks.flatten, e.inum = 0 → e.name ∉ names

section

variable {fs : Ext2Fs ν} {dirs : ν → Option (List (List DirEntry))} {names : List (List (BitVec 8))}

private theorem find?_of_unstale {es : List DirEntry} {name : List (BitVec 8)}
    (h : ∀ e ∈ es, e.inum = 0 → e.name ≠ name) :
    (es.find? fun e => e.name = name) = es.find? fun e => e.inum ≠ 0 ∧ e.name = name := by
  induction es with
  | nil => rfl
  | cons e es ih =>
    rw [forall_mem_cons] at h
    rw [find?_cons, find?_cons, ih h.2]
    by_cases hname : e.name = name
    · have : e.inum ≠ 0#32 := fun h0 => h.1 h0 hname
      simp [hname, this]
    · simp [hname]

theorem Ext2Fs.Represents.scanDir (h : fs.Represents dirs) (hu : Unstale dirs names) {name : List (BitVec 8)}
    (hname : name ∈ names) (hp : PlainName name) {vn : ν} (hv : fs.vType vn &&& vnodeDir ≠ 0)
    (hm : fs.mounted vn = false) {blocks : List (List DirEntry)} (hd : dirs vn = some blocks) :
    fs.scanDir vn name ((fs.getFileBlk vn).toNat + 1) 0 =
      .ofEntry (blocks.flatten.find? fun e => e.inum ≠ 0 ∧ e.name = name) := by
  rw [(h.directory vn blocks hd).scanDir hv hm h.blkSize hp, find?_of_unstale]
  intro e he h0 heq
  exact hu vn blocks hd e he h0 (heq ▸ hname)

theorem Unstale.mono {names' : List (List (BitVec 8))} (h : Unstale dirs names) (hsub : names' ⊆ names) :
    Unstale dirs names' := fun vn blocks hd e he h0 hmem => h vn blocks hd e he h0 (hsub hmem)

theorem Ext2Fs.Represents.ext2Readdir_eq (h : fs.Represents dirs) {n : Nat} {vn : ν} {path : List (BitVec 8)}
    (hn : path.length < n) (hu : Unstale dirs (lookedUp path)) (hp : PlainName path)
    (hlen : ∀ name ∈ pathNames path, name.length < ext2NameLen) (hw : fs.walk dirs vn (lookedUp path) ≠ .wild) :
    fs.ext2Readdir n vn path = fs.walk dirs vn (lookedUp path) := by
  induction n generalizing vn path with
  | zero => omega
  | succ n ih =>
    have hsub : firstName path ⊆ path := fun c hc =>
      (dropWhile_suffix _).subset ((List.takeWhile_prefix _).subset hc)
    have hshort : ¬ (firstName path).length ≥ ext2NameLen := by
      by_cases hf : firstName path = []
      · rw [hf]
        decide
      · exact Nat.not_le.2 (hlen _ (by rw [pathNames_eq hf]; exact mem_cons_self))
    have hmem : firstName path ∈ lookedUp path := by
      rw [lookedUp_eq]
      exact mem_cons_self
    rw [lookedUp_eq, walk] at hw ⊢
    by_cases hv : fs.vType vn &&& vnodeDir = 0
    · simp only [ext2Readdir, if_neg hshort, Ext2Fs.scanDir, if_pos hv]
    rw [if_neg hv] at hw ⊢
    cases hm : fs.mounted vn with
    | true => simp only [ext2Readdir, if_neg hshort, Ext2Fs.scanDir, if_neg hv, hm, if_true]
    | false =>
      simp only [hm, Bool.false_eq_true, if_false] at hw ⊢
      cases hd : dirs vn with
      | none => exact absurd (by rw [hd]) hw
      | some blocks =>
        simp only [hd] at hw ⊢
        simp only [ext2Readdir, if_neg hshort, h.scanDir hu hmem (hp.mono hsub) hv hm hd]
        cases hfind : blocks.flatten.find? fun e => e.inum ≠ 0 ∧ e.name = firstName path with
        | none =>
          by_cases hc : (afterName path).length ≤ 1
          · simp [DirEnd.ofEntry, hc]
          · simp [DirEnd.ofEntry, hc, lookedUp_ne_nil]
        | some e =>
          simp only [hfind, DirEnd.ofEntry] at hw ⊢
          cases hget : fs.vget vn e.inum with
          | none => rfl
          | some vn' =>
            simp only [hget] at hw ⊢
            by_cases hc : (afterName path).length ≤ 1
            · simp [hc, walk]
            · have hf : firstName path ≠ [] := by
                intro hf
                rw [afterName, dropWhile_of_firstName hf] at hc
                simp at hc
              have hlt := length_afterName hf
              simp only [hc, if_false] at hw ⊢
              refine ih (by omega) (hu.mono ?_) (hp.mono (afterName_suffix path).subset) (fun name hm => ?_) hw
              · rw [lookedUp_eq path, if_neg hc]
                exact subset_cons_self _ _
              · exact hlen name (by rw [pathNames_eq hf]; exact mem_cons_of_mem _ hm)

end

end Manrix
