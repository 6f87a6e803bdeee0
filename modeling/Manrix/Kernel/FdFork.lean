import Manrix.Kernel.Fd

/-!
# Descriptors of a forked process (`kernel/fd.c`)

`do_fork` copies the record of the parent, with its pointers to open files, and calls `fd_fork` to give the child files
of its own.  `fd_fork` allocates a file for every pointer that is not null and copies the parent's into it, but the new
file is put nowhere: the child keeps the pointers it was copied with, and with them the parent's page of further
pointers.  The two share every file, and `fd_free` frees it once for each of them: `forked_files_owned`.
-/

namespace Manrix

open Function

variable {κ φ : Type*}

def Fd.ptr (m : FileMem κ φ) (fd : Fd κ φ) (desc : Int) : Option φ :=
  if desc < maxDefFd then fd.fileptr desc else fd.table.bind fun k => m.entry k (desc - maxDefFd)

/-- A loop of `fd_fork`, for `n` more pointers from `index` on.  `alloc c` is what the call of `kmem_cache_alloc` after
`c` others returns; the result has the number of calls and the memory. -/
def forkFiles [DecidableEq φ] (alloc : Nat → Option φ) (ptable : Int → Option φ) :
    Nat → Int → Nat × FileMem κ φ → Except Int (Nat × FileMem κ φ)
  | 0, _, s => .ok s
  | n + 1, index, (c, m) =>
    match ptable index with
    | none => forkFiles alloc ptable n (index + 1) (c, m)
    | some pfile =>
      match alloc c with
      | none => .error (-enomem)
      | some cfile =>
        -- no pointer to `cfile` is kept
        forkFiles alloc ptable n (index + 1) (c + 1, { m with file := update m.file cfile (m.file pfile) })

/-- `fd_fork`: the memory and the descriptors of the child. -/
def fdFork [DecidableEq φ] (m : FileMem κ φ) (chld parent : Fd κ φ) (alloc : Nat → Option φ) :
    Except Int (FileMem κ φ × Fd κ φ) := do
  let (c, m) ← forkFiles alloc parent.fileptr 32 0 (0, m)
  match parent.table with
  | none => return (m, chld)
  | some ptable =>
    let (_, m) ← forkFiles alloc (m.entry ptable) (parent.fdMax - maxDefFd).toNat 0 (c, m)
    return (m, chld)

/-- What `fd_free` gives to `kmem_cache_free`, in this order. -/
def fdFree (m : FileMem κ φ) (fd : Fd κ φ) : List φ :=
  ((List.range 32).filterMap fun index : Nat => fd.fileptr index) ++
    (List.range (fd.fdMax - maxDefFd).toNat).filterMap fun index : Nat => fd.table.bind fun k => m.entry k index

section

variable [DecidableEq φ] {m m' : FileMem κ φ} {chld chld' parent : Fd κ φ} {alloc : Nat → Option φ}

private theorem forkFiles_frame {ptable : Int → Option φ} (n : Nat) (index : Int) (s s' : Nat × FileMem κ φ)
    (h : forkFiles alloc ptable n index s = .ok s') :
    s'.2.entry = s.2.entry ∧ ∀ f, (∀ c, alloc c ≠ some f) → s'.2.file f = s.2.file f := by
  induction n generalizing index s with
  | zero =>
    cases h
    exact ⟨rfl, fun _ _ => rfl⟩
  | succ n ih =>
    simp only [forkFiles] at h
    split at h
    · exact ih _ _ h
    · split at h
      · cases h
      · rename_i cfile hc
        obtain ⟨hentry, hfile⟩ := ih _ _ h
        refine ⟨hentry, fun f hf => (hfile f hf).trans ?_⟩
        have hne : f ≠ cfile := fun h => hf s.1 (h ▸ hc)
        exact update_of_ne hne _ _

private theorem fdFork_frame (h : fdFork m chld parent alloc = .ok (m', chld')) :
    chld' = chld ∧ m'.entry = m.entry ∧ ∀ f, (∀ c, alloc c ≠ some f) → m'.file f = m.file f := by
  simp only [fdFork] at h
  cases h₁ : forkFiles alloc parent.fileptr 32 0 (0, m) with
  | error e => simp [h₁, bind, Except.bind] at h
  | ok s₁ =>
    obtain ⟨hentry, hfile⟩ := forkFiles_frame _ _ _ _ h₁
    simp only [h₁, bind, Except.bind] at h
    split at h
    · cases h
      exact ⟨rfl, hentry, hfile⟩
    · rename_i k _
      cases h₂ : forkFiles alloc (s₁.2.entry k) (parent.fdMax - maxDefFd).toNat 0 (s₁.1, s₁.2) with
      | error e => simp [h₂] at h
      | ok s₂ =>
        obtain ⟨hentry', hfile'⟩ := forkFiles_frame _ _ _ _ h₂
        simp only [h₂] at h
        cases h
        exact ⟨rfl, hentry'.trans hentry, fun f hf => (hfile' f hf).trans (hfile f hf)⟩

end

/-- No pointer of the first 32, or of the further ones below `fd_max`, leads to a file. -/
def NoneOpen (m : FileMem κ φ) (fd : Fd κ φ) : Prop :=
  ∀ i, 0 ≤ i → i < fd.fdMax → fd.ptr m i = none

/-- The files of the child hold what those of the parent held in `m`, and none of them is a file of the parent. -/
def OwnFiles (m m' : FileMem κ φ) (parent chld : Fd κ φ) : Prop :=
  ∀ i f, 0 ≤ i → i < chld.fdMax → chld.ptr m' i = some f →
    (∃ g, parent.ptr m i = some g ∧ m'.file f = m.file g) ∧
    ∀ j, 0 ≤ j → j < parent.fdMax → parent.ptr m' j ≠ some f

/-- `fd_free` for both frees no file twice. -/
def FreedOnce (m' : FileMem κ φ) (parent chld : Fd κ φ) : Prop :=
  (fdFree m' chld ++ fdFree m' parent).Nodup

/-- A new offset in a file of the child changes no file of the parent. -/
def OffsetUnseen [DecidableEq φ] (m' : FileMem κ φ) (parent chld : Fd κ φ) : Prop :=
  ∀ i f offset, 0 ≤ i → i < chld.fdMax → chld.ptr m' i = some f →
    ∀ j g, 0 ≤ j → j < parent.fdMax → parent.ptr m' j = some g →
      update m'.file f { m'.file f with fOffset := offset } g = m'.file g

section

variable {m m' : FileMem κ φ} {parent : Fd κ φ}

theorem Fd.ptr_of_lt (fd : Fd κ φ) {desc : Int} (h : desc < 32) : fd.ptr m desc = fd.fileptr desc :=
  if_pos h

theorem Fd.ptr_of_le (fd : Fd κ φ) {desc : Int} (h : 32 ≤ desc) :
    fd.ptr m desc = fd.table.bind fun k => m.entry k (desc - 32) :=
  if_neg (Int.not_lt.2 h)

theorem Fd.ptr_congr (h : m'.entry = m.entry) (fd : Fd κ φ) (desc : Int) : fd.ptr m' desc = fd.ptr m desc := by
  simp only [Fd.ptr, h]

private theorem noneOpen_congr (h : m'.entry = m.entry) (fd : Fd κ φ) : NoneOpen m' fd ↔ NoneOpen m fd := by
  simp only [NoneOpen, Fd.ptr_congr h]

private theorem fdFree_eq_nil_iff {fd : Fd κ φ} (hmax : maxDefFd ≤ fd.fdMax) : fdFree m fd = [] ↔ NoneOpen m fd := by
  simp only [fdFree, List.append_eq_nil_iff, List.filterMap_eq_nil_iff, List.mem_range]
  simp only [maxDefFd] at hmax ⊢
  constructor
  · rintro ⟨hdef, hext⟩ i hi hlt
    rcases Int.lt_or_le i 32 with h | h
    · have := hdef i.toNat (by omega)
      rwa [Int.toNat_of_nonneg hi, ← fd.ptr_of_lt h] at this
    · have := hext (i - 32).toNat (by omega)
      rwa [Int.toNat_of_nonneg (by omega), ← fd.ptr_of_le h] at this
  · intro h
    constructor
    · intro i hi
      rw [← fd.ptr_of_lt (by omega)]
      exact h i (by omega) (by omega)
    · intro i hi
      have := h (i + 32) (by omega) (by omega)
      rwa [fd.ptr_of_le (by omega), Int.add_sub_cancel] at this

private theorem freedOnce_self_iff (hmax : maxDefFd ≤ parent.fdMax) :
    FreedOnce m parent parent ↔ NoneOpen m parent := by
  rw [← fdFree_eq_nil_iff hmax, FreedOnce, List.nodup_append]
  constructor
  · rintro ⟨-, -, hdis⟩
    exact List.eq_nil_iff_forall_not_mem.2 fun f hf => hdis f hf f hf rfl
  · intro h
    simp [h]

private theorem ownFiles_self_iff (h : m'.entry = m.entry) : OwnFiles m m' parent parent ↔ NoneOpen m parent := by
  rw [← noneOpen_congr h]
  constructor
  · intro hown i hi hlt
    cases hf : parent.ptr m' i with
    | none => rfl
    | some f => exact absurd hf ((hown i f hi hlt hf).2 i hi hlt)
  · intro hnone i f hi hlt hf
    simp [hnone i hi hlt] at hf

private theorem offsetUnseen_self_iff [DecidableEq φ] : OffsetUnseen m parent parent ↔ NoneOpen m parent := by
  constructor
  · intro hun i hi hlt
    cases hf : parent.ptr m i with
    | none => rfl
    | some f =>
      -- one byte further is another offset of the file that both have
      have := hun i f ((m.file f).fOffset + 1) hi hlt hf i f hi hlt hf
      have hoff := congrArg File.fOffset this
      simp at hoff
  · intro hnone i f offset hi hlt hf
    simp [hnone i hi hlt] at hf

end

/-- A fork that succeeds gives the child files of its own, that are freed once and whose offsets the parent does not
see, exactly when the parent has no open file. -/
theorem forked_files_owned [DecidableEq φ] (m m' : FileMem κ φ) (parent chld : Fd κ φ) (alloc : Nat → Option φ)
    (hmax : maxDefFd ≤ parent.fdMax) (h : fdFork m parent parent alloc = .ok (m', chld)) :
    (OwnFiles m m' parent chld ↔ NoneOpen m parent) ∧ (FreedOnce m' parent chld ↔ NoneOpen m parent) ∧
    (OffsetUnseen m' parent chld ↔ NoneOpen m parent) := by
  obtain ⟨rfl, hentry, -⟩ := fdFork_frame h
  refine ⟨ownFiles_self_iff hentry, ?_, ?_⟩
  · rw [freedOnce_self_iff hmax, noneOpen_congr hentry]
  · rw [offsetUnseen_self_iff, noneOpen_congr hentry]

/-- The table of a process that has opened the files `p`, the first of them with descriptor 0. -/
def opened (p : List Bool) : Fd Unit Bool where
  fdMax := maxDefFd
  fdHint := 0
  bitmap := 0
  fileptr i := p[i.toNat]?
  table := none

def blankFiles : FileMem Unit Bool where
  file _ := ⟨0, 0, 0, 0, 0⟩
  entry _ _ := none

theorem forked_files_owned_none : NoneOpen blankFiles (opened []) ∧
    OwnFiles blankFiles blankFiles (opened []) (opened []) := by
  have hnone : NoneOpen blankFiles (opened []) := by
    intro i _ _
    simp [Fd.ptr, opened]
  exact ⟨hnone, (forked_files_owned blankFiles blankFiles (opened []) (opened []) (fun _ => none) (by decide)
    rfl).1.2 hnone⟩

/-- The parent has one open file.  The new file is a copy of it, but the child has the parent's. -/
theorem forked_file_freed_twice : ∃ m', fdFork blankFiles (opened [false]) (opened [false]) (fun _ => some true) =
      .ok (m', opened [false]) ∧ ¬ OwnFiles blankFiles m' (opened [false]) (opened [false]) ∧
    fdFree m' (opened [false]) ++ fdFree m' (opened [false]) = [false, false] := by
  refine ⟨_, rfl, ?_, by decide⟩
  intro h
  exact (h 0 false (by decide) (by decide) rfl).2 0 (by decide) (by decide) rfl

end Manrix
