import Mathlib.Data.Set.Insert
import Manrix.Kernel.Id
import Manrix.Kernel.Message

/-!
# File descriptors (`kernel/fd.c`)

A process has 32 pointers to open files in its record, with a bitmap of those in use, and, once `grow_fd` has been
called, a page with 1024 more.  There a null pointer is a free entry.

`alloc_fdesc` tries the entry `fd_hint` of the page first, without a look at the size of the table, and then searches
the first `fd_max` entries, where only `fd_max - 32` belong to it.  `free_fdesc` puts the descriptor into `fd_hint`,
which is 32 more than its entry, and does not clear the entry.  So a call for a further descriptor goes wrong when the
hint has left the table or all entries are taken, though they may be closed again: `descriptor_table`.
-/

namespace Manrix

open Function List Runs

def maxDefFd : Int := 32

/-- `struct file`. -/
structure File where
  fAccess : BitVec 32
  fOffset : BitVec 32
  fRef : BitVec 32
  inode : BitVec 32
  device : BitVec 32
  deriving DecidableEq

/-- `struct fd`, without the working directory; `fileptr[MAX_DEF_FD]` is `table`. -/
structure Fd (κ φ : Type*) where
  fdMax : Int
  fdHint : Int
  bitmap : BitVec 32
  fileptr : Int → Option φ
  table : Option κ

/-- The open files, and the entries of the pages of pointers together with the memory around them. -/
structure FileMem (κ φ : Type*) where
  file : φ → File
  entry : κ → Int → Option φ

/-- What a call leaves and returns, the entries of the page that it looked at, and the files that it freed. -/
structure FdCall (κ φ : Type*) where
  mem : FileMem κ φ
  fd : Fd κ φ
  ret : Int
  accessed : List Int
  freed : List φ

variable {κ φ : Type*} [DecidableEq κ]

def FileMem.setEntry (m : FileMem κ φ) (k : κ) (i : Int) (f : Option φ) : FileMem κ φ :=
  { m with entry := update m.entry k (update (m.entry k) i f) }

omit [DecidableEq κ] in
/-- The loop of `alloc_fdesc`, for `n` more entries from `i` on: what it looks at, and the free entry. -/
def searchTable (table : Int → Option φ) : Nat → Int → List Int × Option Int
  | 0, _ => ([], none)
  | n + 1, i =>
    if (table i).isNone then ([i], some i)
    else
      let (accessed, r) := searchTable table n (i + 1)
      (i :: accessed, r)

/-- `alloc_fdesc`; `new` is what `kmem_cache_alloc` returns.  When no bit is clear, the result of `ffc` is not in
`0..31`. -/
def allocFdesc (m : FileMem κ φ) (fd : Fd κ φ) (new : Option φ) : FdCall κ φ :=
  match ffc fd.bitmap with
  | some desc =>
    ⟨m, { fd with bitmap := setBit fd.bitmap desc, fileptr := update fd.fileptr desc new }, desc, [], []⟩
  | none =>
    if fd.fdMax ≤ maxDefFd then ⟨m, fd, -1, [], []⟩
    else
      match fd.table with
      | none => ⟨m, fd, -1, [], []⟩
      | some k =>
        -- the hint may be behind the table, and the search goes 32 entries beyond it
        if (m.entry k fd.fdHint).isNone then
          ⟨m.setEntry k fd.fdHint new, { fd with fdHint := fd.fdHint + 1 }, fd.fdHint + maxDefFd, [fd.fdHint], []⟩
        else
          match searchTable (m.entry k) fd.fdMax.toNat 0 with
          | (accessed, some i) =>
            ⟨m.setEntry k i new, { fd with fdHint := i + 1 }, i + maxDefFd, fd.fdHint :: accessed, []⟩
          | (accessed, none) => ⟨m, fd, -1, fd.fdHint :: accessed, []⟩

omit [DecidableEq κ] in
def freeFdesc (m : FileMem κ φ) (fd : Fd κ φ) (desc : Int) : FdCall κ φ :=
  if desc < 0 ∨ desc > fd.fdMax then ⟨m, fd, -1, [], []⟩
  else
    let fd := { fd with fdHint := desc }
    if desc < maxDefFd then
      ⟨m, { fd with bitmap := clearBit fd.bitmap desc }, 0, [], (fd.fileptr desc).toList⟩
    else
      ⟨m, fd, 0, [desc - maxDefFd], (fd.table.bind fun k => m.entry k (desc - maxDefFd)).toList⟩

/-- `grow_fd`; `page` is what `kmem_alloc` returns. -/
def growFd (m : FileMem κ φ) (fd : Fd κ φ) (fdmax : Int) (page : Option κ) : FileMem κ φ × Fd κ φ × Int :=
  if fdmax ≤ maxDefFd then (m, fd, 0)
  else
    match page with
    | none => (m, fd, -enomem)
    | some k =>
      ({ m with entry := update m.entry k fun i => if 0 ≤ i ∧ i < 1024 then none else m.entry k i },
        { fd with table := some k, fdMax := fdmax }, 0)

/-- The table of a process, and the descriptors that are open. -/
structure FdState (κ φ : Type*) where
  mem : FileMem κ φ
  fd : Fd κ φ
  opened : Set Int

inductive FdOp (κ φ : Type*) where
  | alloc (new : Option φ)
  | free (desc : Int)
  | grow (fdmax : Int) (page : Option κ)

def FdOp.call (s : FdState κ φ) : FdOp κ φ → FdCall κ φ
  | .alloc new => allocFdesc s.mem s.fd new
  | .free desc => freeFdesc s.mem s.fd desc
  | .grow fdmax page =>
    let (m, fd, ret) := growFd s.mem s.fd fdmax page
    ⟨m, fd, ret, [], []⟩

/-- Open descriptors are freed, and the table grows once. -/
def FdStep (s : FdState κ φ) (op : FdOp κ φ) (s' : FdState κ φ) : Prop :=
  let call := op.call s
  match op with
  | .alloc _ => s' = ⟨call.mem, call.fd, if 0 ≤ call.ret then insert call.ret s.opened else s.opened⟩
  | .free desc => desc ∈ s.opened ∧ s' = ⟨call.mem, call.fd, s.opened \ {desc}⟩
  | .grow fdmax _ => s.fd.fdMax = maxDefFd ∧ maxDefFd < fdmax ∧ fdmax ≤ maxDefFd + 1024 ∧
      s' = ⟨call.mem, call.fd, s.opened⟩

/-- A new descriptor is one of the table that is not open, there is none exactly when all are open, and the entries of
the page are within it. -/
def FdStepOk (x : FdState κ φ × FdOp κ φ × FdState κ φ) : Prop :=
  let call := x.2.1.call x.1
  (∀ i ∈ call.accessed, 0 ≤ i ∧ i < 1024) ∧
  match x.2.1 with
  | .alloc _ =>
    (0 ≤ call.ret → call.ret < x.1.fd.fdMax ∧ call.ret ∉ x.1.opened) ∧
    (call.ret = -1 ↔ ∀ d, 0 ≤ d → d < x.1.fd.fdMax → d ∈ x.1.opened)
  | _ => True

/-- A further descriptor is asked for when one of the first 32 is free, or the table has not grown, or the hint is a
free entry of the table, or it is within the page and some entry of the table is free. -/
def FdGuard (x : FdState κ φ × FdOp κ φ × FdState κ φ) : Prop :=
  match x.2.1 with
  | .alloc _ =>
    let fd := x.1.fd
    ffc fd.bitmap ≠ none ∨ fd.fdMax = maxDefFd ∨ ∃ k, fd.table = some k ∧ fd.fdHint < 1024 ∧
      if (x.1.mem.entry k fd.fdHint).isNone then fd.fdHint < fd.fdMax - maxDefFd
      else ∃ i, 0 ≤ i ∧ i < fd.fdMax - maxDefFd ∧ (x.1.mem.entry k i).isNone
  | _ => True

omit [DecidableEq κ] in
/-- `kmem_cache_alloc` returns a file for a further descriptor. -/
def GetsFile (x : FdState κ φ × FdOp κ φ × FdState κ φ) : Prop :=
  match x.2.1 with
  | .alloc new => ffc x.1.fd.bitmap = none → new ≠ none
  | _ => True

section Search

omit [DecidableEq κ]

variable {table : Int → Option φ} {n : Nat} {i j : Int} {l : List Int}

private theorem searchTable_some (h : searchTable table n i = (l, some j)) :
    i ≤ j ∧ j < i + n ∧ (table j).isNone ∧ (∀ x, i ≤ x → x < j → ¬ (table x).isNone) ∧ ∀ x ∈ l, i ≤ x ∧ x ≤ j := by
  induction n generalizing i l with
  | zero => cases h
  | succ n ih =>
    unfold searchTable at h
    split at h
    · rename_i hn
      obtain ⟨rfl, hj⟩ := Prod.mk.inj h
      cases hj
      refine ⟨Int.le_refl _, by omega, hn, fun x h1 h2 => by omega, ?_⟩
      intro x hx
      rw [mem_singleton.1 hx]
      exact ⟨Int.le_refl _, Int.le_refl _⟩
    · rename_i hn
      obtain ⟨rfl, hr⟩ := Prod.mk.inj h
      obtain ⟨h1, h2, h3, h4, h5⟩ := ih (l := (searchTable table n (i + 1)).1) (Prod.ext rfl hr)
      refine ⟨by omega, by push_cast; omega, h3, fun x hx1 hx2 => ?_, fun x hx => ?_⟩
      · by_cases hx : x = i
        · rwa [hx]
        · exact h4 x (by omega) hx2
      · rcases mem_cons.1 hx with rfl | hx
        · exact ⟨Int.le_refl _, by omega⟩
        · have := h5 x hx
          omega

private theorem searchTable_none (h : searchTable table n i = (l, none)) :
    ∀ x, i ≤ x → x < i + n → ¬ (table x).isNone ∧ x ∈ l := by
  induction n generalizing i l with
  | zero =>
    intro x h1 h2
    omega
  | succ n ih =>
    unfold searchTable at h
    split at h
    · cases (Prod.mk.inj h).2
    · rename_i hn
      obtain ⟨rfl, hr⟩ := Prod.mk.inj h
      have hrest := ih (l := (searchTable table n (i + 1)).1) (Prod.ext rfl hr)
      intro x h1 h2
      by_cases hx : x = i
      · subst hx
        exact ⟨hn, mem_cons_self ..⟩
      · obtain ⟨h3, h4⟩ := hrest x (by omega) (by push_cast at h2; omega)
        exact ⟨h3, mem_cons_of_mem _ h4⟩

end Search

/-- The entries of a table that has grown: those of open descriptors are taken, and those behind the table are free. -/
structure TableInv (s : FdState κ φ) (k : κ) : Prop where
  table : s.fd.table = some k
  grown : maxDefFd < s.fd.fdMax
  max : s.fd.fdMax ≤ maxDefFd + 1024
  taken : ∀ d ∈ s.opened, maxDefFd ≤ d → ¬ (s.mem.entry k (d - maxDefFd)).isNone
  behind : ∀ i, s.fd.fdMax - maxDefFd ≤ i → i < 1024 → (s.mem.entry k i).isNone

structure FdInv (s : FdState κ φ) : Prop where
  bits : ∀ d : Nat, d < 32 → (s.fd.bitmap.getLsbD d = true ↔ (d : Int) ∈ s.opened)
  range : ∀ d ∈ s.opened, 0 ≤ d ∧ d < s.fd.fdMax
  hint : 0 ≤ s.fd.fdHint
  table : s.fd.fdMax = maxDefFd ∨ ∃ k, TableInv s k

section Steps

variable {s s' : FdState κ φ} {op : FdOp κ φ} {new : Option φ} {desc : Int} {k : κ}

omit [DecidableEq κ] in
theorem FdInv.maxDefFd_le (hi : FdInv s) : maxDefFd ≤ s.fd.fdMax := by
  rcases hi.table with h | ⟨k, ht⟩
  · exact Int.le_of_eq h.symm
  · exact Int.le_of_lt ht.grown

omit [DecidableEq κ] in
theorem FdInv.not_opened {d : Nat} (hi : FdInv s) (h : ffc s.fd.bitmap = some d) : d < 32 ∧ (d : Int) ∉ s.opened := by
  obtain ⟨hd, hbit⟩ := Bitmap.firstClear_some h
  refine ⟨hd, fun hm => ?_⟩
  rw [(hi.bits d hd).2 hm] at hbit
  cases hbit

omit [DecidableEq κ] in
theorem FdInv.opened_of_full (hi : FdInv s) (h : ffc s.fd.bitmap = none) (h0 : 0 ≤ desc) (hd : desc < maxDefFd) :
    desc ∈ s.opened := by
  have hlt : desc.toNat < 32 := by
    unfold maxDefFd at hd
    omega
  have hbit : s.fd.bitmap.getLsbD desc.toNat = true := by
    rw [Bitmap.firstClear_eq_none_iff.1 h, BitVec.getLsbD_allOnes, decide_eq_true hlt]
  have := (hi.bits desc.toNat hlt).1 hbit
  rwa [Int.toNat_of_nonneg h0] at this

private theorem allocFdesc_table (hf : ffc s.fd.bitmap = none) (ht : TableInv s k) :
    allocFdesc s.mem s.fd new =
      if (s.mem.entry k s.fd.fdHint).isNone then
        ⟨s.mem.setEntry k s.fd.fdHint new, { s.fd with fdHint := s.fd.fdHint + 1 }, s.fd.fdHint + maxDefFd,
          [s.fd.fdHint], []⟩
      else
        match searchTable (s.mem.entry k) s.fd.fdMax.toNat 0 with
        | (accessed, some i) =>
          ⟨s.mem.setEntry k i new, { s.fd with fdHint := i + 1 }, i + maxDefFd, s.fd.fdHint :: accessed, []⟩
        | (accessed, none) => ⟨s.mem, s.fd, -1, s.fd.fdHint :: accessed, []⟩ := by
  have hgrown := ht.grown
  unfold allocFdesc
  rw [hf]
  dsimp only
  rw [if_neg (Int.not_le.2 hgrown), ht.table]

/-- A descriptor is taken from the page: the entry `i`, and what is looked at. -/
theorem TableInv.alloc (hi : FdInv s) (hf : ffc s.fd.bitmap = none) (ht : TableInv s k)
    (hg : FdGuard (s, .alloc new, s')) :
    ∃ i accessed, allocFdesc s.mem s.fd new =
        ⟨s.mem.setEntry k i new, { s.fd with fdHint := i + 1 }, i + maxDefFd, accessed, []⟩ ∧
      0 ≤ i ∧ i < s.fd.fdMax - maxDefFd ∧ (s.mem.entry k i).isNone ∧ ∀ x ∈ accessed, 0 ≤ x ∧ x < 1024 := by
  have hmax := ht.max
  have h0 := hi.hint
  obtain ⟨k', hk, hlt, hcase⟩ := (hg.resolve_left (not_not.2 hf)).resolve_left (Int.ne_of_gt ht.grown)
  cases ht.table.symm.trans hk
  dsimp only at hlt hcase
  rw [allocFdesc_table hf ht]
  split
  · rename_i hnone
    rw [if_pos hnone] at hcase
    refine ⟨s.fd.fdHint, [s.fd.fdHint], rfl, h0, hcase, hnone, ?_⟩
    intro x hx
    rw [mem_singleton.1 hx]
    exact ⟨h0, hlt⟩
  · rename_i hsome
    rw [if_neg hsome] at hcase
    obtain ⟨i₀, hi0, hin, hfree⟩ := hcase
    rcases hs : searchTable (s.mem.entry k) s.fd.fdMax.toNat 0 with ⟨accessed, r⟩
    have hin' : i₀ < 0 + (s.fd.fdMax.toNat : Int) := by
      unfold maxDefFd at hin
      omega
    cases r with
    | none => exact absurd hfree (searchTable_none hs i₀ hi0 hin').1
    | some i =>
      obtain ⟨h1, -, h3, h4, h5⟩ := searchTable_some hs
      have hle : i ≤ i₀ := by
        by_contra hlt'
        exact h4 i₀ hi0 (by omega) hfree
      refine ⟨i, s.fd.fdHint :: accessed, rfl, h1, by omega, h3, ?_⟩
      intro x hx
      rcases mem_cons.1 hx with rfl | hx
      · exact ⟨h0, hlt⟩
      · have := h5 x hx
        omega

/-- Otherwise the result or what is looked at is not within the table. -/
theorem TableInv.alloc_not_ok (hi : FdInv s) (hf : ffc s.fd.bitmap = none) (ht : TableInv s k)
    (hg : ¬ FdGuard (s, .alloc new, s')) : ¬ FdStepOk (s, .alloc new, s') := by
  have hmax := ht.max
  have hgrown := ht.grown
  have h0 := hi.hint
  have hm : maxDefFd = 32 := rfl
  rintro ⟨haccess, hret, -⟩
  simp only [FdOp.call, allocFdesc_table hf ht] at haccess hret
  by_cases hnone : (s.mem.entry k s.fd.fdHint).isNone = true
  · -- the hint is a free entry behind the table, or behind the page
    rw [if_pos hnone] at haccess hret
    have hlt := (haccess _ (mem_singleton_self _)).2
    have := (hret (by dsimp only; omega)).1
    refine hg (.inr (.inr ⟨k, ht.table, hlt, ?_⟩))
    rw [if_pos hnone]
    dsimp only at this ⊢
    omega
  · rw [if_neg hnone] at haccess hret
    rcases hs : searchTable (s.mem.entry k) s.fd.fdMax.toNat 0 with ⟨accessed, r⟩
    rw [hs] at haccess hret
    have guard : ∀ i, s.fd.fdHint < 1024 → 0 ≤ i → i < s.fd.fdMax - maxDefFd → (s.mem.entry k i).isNone →
        FdGuard (s, .alloc new, s') := by
      intro i hlt h1 h2 h3
      refine .inr (.inr ⟨k, ht.table, hlt, ?_⟩)
      rw [if_neg hnone]
      exact ⟨i, h1, h2, h3⟩
    cases r with
    | some i =>
      -- the first free entry is behind the table
      obtain ⟨h1, -, h3, -⟩ := searchTable_some hs
      have := (hret (by dsimp only; omega)).1
      dsimp only at this
      exact hg (guard i (haccess _ (mem_cons_self ..)).2 h1 (by omega) h3)
    | none =>
      -- there is no free entry up to the end of the page
      have hall := searchTable_none hs
      by_cases hn : s.fd.fdMax - maxDefFd < 1024
      · exact (hall (s.fd.fdMax - maxDefFd) (by omega) (by omega)).1 (ht.behind _ (Int.le_refl _) hn)
      · have := (haccess 1024 (mem_cons_of_mem _ (hall 1024 (by omega) (by omega)).2)).2
        omega

private theorem allocFdesc_small {d : Nat} (hf : ffc s.fd.bitmap = some d) : allocFdesc s.mem s.fd new =
      ⟨s.mem, { s.fd with bitmap := setBit s.fd.bitmap d, fileptr := update s.fd.fileptr d new }, d, [], []⟩ := by
  unfold allocFdesc
  rw [hf]

private theorem allocFdesc_full (hf : ffc s.fd.bitmap = none) (hmax : s.fd.fdMax = maxDefFd) :
    allocFdesc s.mem s.fd new = ⟨s.mem, s.fd, -1, [], []⟩ := by
  unfold allocFdesc
  rw [hf]
  dsimp only
  rw [if_pos (Int.le_of_eq hmax)]

omit [DecidableEq κ] in
theorem TableInv.not_opened {i : Int} (ht : TableInv s k) (h0 : 0 ≤ i) (hn : (s.mem.entry k i).isNone) :
    i + maxDefFd ∉ s.opened := by
  intro hm
  have := ht.taken _ hm (by omega)
  rw [Int.add_sub_cancel] at this
  exact this hn

theorem FdInv.alloc_ok (hi : FdInv s) (hg : FdGuard (s, .alloc new, s')) : FdStepOk (s, .alloc new, s') := by
  have hle := hi.maxDefFd_le
  have hm : maxDefFd = 32 := rfl
  unfold FdStepOk
  simp only [FdOp.call]
  cases hf : ffc s.fd.bitmap with
  | some d =>
    obtain ⟨hd, hno⟩ := hi.not_opened hf
    rw [allocFdesc_small hf]
    refine ⟨by simp, fun _ => ⟨by dsimp only; omega, hno⟩, iff_of_false (by dsimp only; omega) fun hall => ?_⟩
    exact hno (hall d (by omega) (by omega))
  | none =>
    rcases hi.table with hmax | ⟨k, ht⟩
    · rw [allocFdesc_full hf hmax]
      refine ⟨by simp, fun h => by dsimp only at h; omega, iff_of_true rfl fun d h0 hd => ?_⟩
      exact hi.opened_of_full hf h0 (hmax ▸ hd)
    · obtain ⟨i, accessed, hcall, h0, hlt, hnone, hacc⟩ := ht.alloc hi hf hg
      have hno := ht.not_opened h0 hnone
      rw [hcall]
      refine ⟨hacc, fun _ => ⟨by dsimp only; omega, hno⟩, iff_of_false (by dsimp only; omega) fun hall => ?_⟩
      exact hno (hall _ (by omega) (by omega))

omit [DecidableEq κ] in
theorem FdInv.openSmall (hi : FdInv s) {d : Nat} (hd : d < 32) (new : Option φ) :
    FdInv ⟨s.mem, { s.fd with bitmap := setBit s.fd.bitmap d, fileptr := update s.fd.fileptr d new },
      insert (d : Int) s.opened⟩ := by
  have hle := hi.maxDefFd_le
  have hm : maxDefFd = 32 := rfl
  refine ⟨fun j hj => ?_, fun j hj => ?_, hi.hint, hi.table.imp_right ?_⟩
  · rw [getLsbD_setBit (by omega) hj, hi.bits j hj, Set.mem_insert_iff, or_comm]
  · rcases Set.mem_insert_iff.1 hj with rfl | hj
    · dsimp only
      omega
    · exact hi.range j hj
  · rintro ⟨k, ht⟩
    refine ⟨k, ht.table, ht.grown, ht.max, fun j hj hj32 => ?_, ht.behind⟩
    refine ht.taken j ((Set.mem_insert_iff.1 hj).resolve_left ?_) hj32
    omega

/-- A further descriptor is opened, for the entry `i`. -/
theorem FdInv.openFurther (hi : FdInv s) (ht : TableInv s k) {i : Int} (h0 : 0 ≤ i) (hlt : i < s.fd.fdMax - maxDefFd)
    (hsome : new ≠ none) :
    FdInv ⟨s.mem.setEntry k i new, { s.fd with fdHint := i + 1 }, insert (i + maxDefFd) s.opened⟩ := by
  have hle := hi.maxDefFd_le
  have hm : maxDefFd = 32 := rfl
  refine ⟨fun j hj => ?_, fun j hj => ?_, by dsimp only; omega, .inr ⟨k, ht.table, ht.grown, ht.max, ?_, ?_⟩⟩
  · have hne : (j : Int) ≠ i + maxDefFd := by omega
    rw [Set.mem_insert_iff]
    simp only [hne, false_or]
    exact hi.bits j hj
  · rcases Set.mem_insert_iff.1 hj with rfl | hj
    · dsimp only
      omega
    · exact hi.range j hj
  · intro j hj hj32
    simp only [FileMem.setEntry, update_self]
    rcases Set.mem_insert_iff.1 hj with rfl | hj
    · rw [Int.add_sub_cancel, update_self]
      simpa using hsome
    · rw [update_apply]
      split
      · simpa using hsome
      · exact ht.taken j hj hj32
  · intro j hj hj1024
    dsimp only at hj
    have hne : j ≠ i := by omega
    simp only [FileMem.setEntry, update_self, update_of_ne hne]
    exact ht.behind j hj hj1024

theorem FdInv.alloc (hi : FdInv s) (hg : FdGuard (s, .alloc new, s')) (hnew : GetsFile (s, .alloc new, s'))
    (h : FdStep s (.alloc new) s') : FdInv s' := by
  simp only [FdStep, FdOp.call] at h
  cases hf : ffc s.fd.bitmap with
  | some d =>
    obtain ⟨hd, -⟩ := hi.not_opened hf
    simp only [allocFdesc_small hf, Int.natCast_nonneg, if_true] at h
    subst h
    exact hi.openSmall hd new
  | none =>
    rcases hi.table with hmax | ⟨k, ht⟩
    · simp only [allocFdesc_full hf hmax] at h
      subst h
      exact hi
    · obtain ⟨i, accessed, hcall, h0, hlt, -, -⟩ := ht.alloc hi hf hg
      have hret : 0 ≤ i + maxDefFd := Int.add_nonneg h0 (by decide)
      simp only [hcall, if_pos hret] at h
      subst h
      exact hi.openFurther ht h0 hlt (hnew hf)

/-- A closed descriptor leaves its entry. -/
theorem FdInv.free (hi : FdInv s) (h : FdStep s (.free desc) s') : FdInv s' := by
  obtain ⟨hopen, rfl⟩ := h
  obtain ⟨h0, hlt⟩ := hi.range desc hopen
  have hm : maxDefFd = 32 := rfl
  have htable : ∀ fd : Fd κ φ, fd.fdMax = s.fd.fdMax → fd.table = s.fd.table → fd.fdMax = maxDefFd ∨
      ∃ k, TableInv ⟨s.mem, fd, s.opened \ {desc}⟩ k := by
    intro fd hmax htab
    rw [hmax]
    refine hi.table.imp_right ?_
    rintro ⟨k, ht⟩
    exact ⟨k, htab.trans ht.table, hmax ▸ ht.grown, hmax ▸ ht.max, fun d hd => ht.taken d hd.1, hmax ▸ ht.behind⟩
  simp only [FdOp.call, freeFdesc]
  rw [if_neg (by omega)]
  split
  · refine ⟨fun j hj => ?_, fun j hj => hi.range j hj.1, h0, htable _ rfl rfl⟩
    rw [getLsbD_clearBit (by omega) hj, hi.bits j hj]
    rfl
  · refine ⟨fun j hj => ?_, fun j hj => hi.range j hj.1, h0, htable _ rfl rfl⟩
    rw [hi.bits j hj]
    refine ⟨fun hd => ⟨hd, ?_⟩, fun hd => hd.1⟩
    rintro rfl
    omega

theorem FdInv.grow {fdmax : Int} {page : Option κ} (hi : FdInv s) (h : FdStep s (.grow fdmax page) s') : FdInv s' := by
  obtain ⟨hmax, h1, h2, rfl⟩ := h
  simp only [FdOp.call, growFd]
  rw [if_neg (Int.not_le.2 h1)]
  cases page with
  | none => exact hi
  | some k =>
    refine ⟨hi.bits, fun d hd => ?_, hi.hint, .inr ⟨k, rfl, h1, h2, fun d hd hd32 => ?_, fun i hi1 hi2 => ?_⟩⟩
    · have := hi.range d hd
      dsimp only
      omega
    · have := hi.range d hd
      omega
    · dsimp only at hi1
      simp only [update_self]
      rw [if_pos ⟨by omega, hi2⟩]
      rfl

theorem FdInv.step (hi : FdInv s) (hg : FdGuard (s, op, s')) (hnew : GetsFile (s, op, s')) (h : FdStep s op s') :
    FdInv s' := by
  cases op with
  | alloc new => exact hi.alloc hg hnew h
  | free desc => exact hi.free h
  | grow fdmax page => exact hi.grow h

theorem FdInv.ok_iff (hi : FdInv s) (h : FdStep s op s') : FdStepOk (s, op, s') ↔ FdGuard (s, op, s') := by
  cases op with
  | alloc new =>
    refine ⟨fun hok => ?_, hi.alloc_ok⟩
    by_contra hg
    have hf : ffc s.fd.bitmap = none := by
      by_contra hf
      exact hg (.inl hf)
    rcases hi.table with hmax | ⟨k, ht⟩
    · exact hg (.inr (.inl hmax))
    · exact ht.alloc_not_ok hi hf hg hok
  | free desc =>
    obtain ⟨h0, hlt⟩ := hi.range desc h.1
    have hm : maxDefFd = 32 := rfl
    refine iff_of_true ⟨fun i hmem => ?_, trivial⟩ trivial
    simp only [FdOp.call, freeFdesc] at hmem
    rw [if_neg (by omega)] at hmem
    split at hmem
    · cases hmem
    · rename_i hge
      obtain rfl := mem_singleton.1 hmem
      rcases hi.table with hmax | ⟨k, ht⟩
      · omega
      · have := ht.max
        omega
  | grow fdmax page => exact iff_of_true ⟨by simp [FdOp.call], trivial⟩ trivial

end Steps

/-- The table of a new process. -/
def newFd (m : FileMem κ φ) (fileptr : Int → Option φ) (table : Option κ) : FdState κ φ :=
  ⟨m, ⟨maxDefFd, 0, 0, fileptr, table⟩, ∅⟩

/-- Descriptors are given out right exactly as long as the calls for further ones find the hint in the page and a free
entry in the table. -/
theorem descriptor_table (m : FileMem κ φ) (fileptr : Int → Option φ) (table : Option κ)
    {tr : List (FdState κ φ × FdOp κ φ × FdState κ φ)} {s : FdState κ φ}
    (hr : Run FdStep (newFd m fileptr table) tr s) (hnew : ∀ x ∈ tr, GetsFile x) :
    (∀ x ∈ tr, FdStepOk x) ↔ ∀ x ∈ tr, FdGuard x := by
  refine (hr.restrict hnew).forall_iff FdInv FdGuard FdStepOk ?_ ?_ ?_
  · exact ⟨fun d _ => by simp [newFd], fun d hd => hd.elim, Int.le_refl 0, .inl rfl⟩
  · exact fun s op s' hi hg h => hi.step hg h.2 h.1
  · exact fun s op s' hi h => hi.ok_iff h.1

/-- A process whose table has 33 entries, after `n` calls of `alloc_fdesc`. -/
def fdStart : FdState Unit Unit := newFd ⟨fun _ => ⟨0, 0, 0, 0, 0⟩, fun _ _ => none⟩ (fun _ => none) none

def fdAfter : Nat → FdState Unit Unit
  | 0 =>
    let (m, fd, _) := growFd fdStart.mem fdStart.fd 33 (some ())
    ⟨m, fd, ∅⟩
  | n + 1 =>
    let s := fdAfter n
    let call := allocFdesc s.mem s.fd (some ())
    ⟨call.mem, call.fd, if 0 ≤ call.ret then insert call.ret s.opened else s.opened⟩

private theorem fdStart_step : FdStep fdStart (.grow 33 (some ())) (fdAfter 0) := ⟨rfl, by decide, by decide, rfl⟩

private theorem fdAfter_step (n : Nat) : FdStep (fdAfter n) (.alloc (some ())) (fdAfter (n + 1)) := rfl

private theorem fdAfter_run (n : Nat) : ∃ tr, Run FdStep fdStart tr (fdAfter n) ∧ ∀ x ∈ tr, GetsFile x := by
  induction n with
  | zero =>
    refine ⟨_, .snoc .nil fdStart_step, ?_⟩
    simp [GetsFile]
  | succ n ih =>
    obtain ⟨tr, hr, hnew⟩ := ih
    refine ⟨_, .snoc hr (fdAfter_step n), ?_⟩
    intro x hx
    rcases mem_append.1 hx with hx | hx
    · exact hnew x hx
    · rw [mem_singleton.1 hx]
      simp [GetsFile]

theorem descriptor_table_grown : Run FdStep fdStart [(fdStart, .grow 33 (some ()), fdAfter 0),
      (fdAfter 0, .alloc (some ()), fdAfter 1)] (fdAfter 1) ∧ FdStepOk (fdAfter 0, .alloc (some ()), fdAfter 1) := by
  have hr : Run FdStep fdStart
      [(fdStart, .grow 33 (some ()), fdAfter 0), (fdAfter 0, .alloc (some ()), fdAfter 1)] (fdAfter 1) :=
    .snoc (.snoc .nil fdStart_step) (fdAfter_step 0)
  refine ⟨hr, (descriptor_table _ _ _ hr (by simp [GetsFile])).2 ?_ _ (by simp)⟩
  simp only [mem_cons, not_mem_nil, or_false, forall_eq_or_imp, forall_eq]
  exact ⟨trivial, .inl (by decide)⟩

/-- When all 33 descriptors are open, `alloc_fdesc` returns a 34th. -/
theorem descriptor_behind_table : (∃ tr, Run FdStep fdStart tr (fdAfter 33) ∧ ∀ x ∈ tr, GetsFile x) ∧
    FdStep (fdAfter 33) (.alloc (some ())) (fdAfter 34) ∧ (fdAfter 33).fd.fdMax = 33 ∧
    (allocFdesc (fdAfter 33).mem (fdAfter 33).fd (some ())).ret = 33 ∧
    ¬ FdStepOk (fdAfter 33, .alloc (some ()), fdAfter 34) := by
  have hmax : (fdAfter 33).fd.fdMax = 33 := by decide +kernel
  have hret : (allocFdesc (fdAfter 33).mem (fdAfter 33).fd (some ())).ret = 33 := by decide +kernel
  refine ⟨fdAfter_run 33, fdAfter_step 33, hmax, hret, ?_⟩
  rintro ⟨-, hlt, -⟩
  simp only [FdOp.call, hret, hmax] at hlt
  omega

end Manrix
