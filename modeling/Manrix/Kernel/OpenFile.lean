import Manrix.Kernel.Sleep
import Manrix.Kernel.FdFork

/-!
# Open files of the servers (`arch/i386/syscall.c`)

The files of a process are in the kernel.  A server reads one with `get_openfile`, which is `syscall_fd_free`, and
writes it with `put_openfile`, which is `syscall_fd_alloc`.  The second argument of `syscall_fd_alloc` is the descriptor
for `put_openfile`, and -1 when a new one is asked for.  The call looks at its sign only: for a descriptor it goes on
with the descriptor 0, and the file of the process that is written is always the one of descriptor 0.
-/

namespace Manrix

open Function

structure FileSys (τ ρ κ φ : Type*) where
  sys : Sys τ ρ
  fd : ρ → Fd κ φ
  mem : FileMem κ φ

variable {τ ρ κ φ : Type*} [DecidableEq ρ] [DecidableEq κ] [DecidableEq φ]

/-- `syscall_fd_alloc`, with the structure that `edx` points to; `new` is what `kmem_cache_alloc` returns.  There is no
result when the copy goes to a null pointer. -/
def syscallFdAlloc (s : FileSys τ ρ κ φ) (ebx ecx : Int) (edx : Option File) (new : Option φ) :
    Option (FileSys τ ρ κ φ × Int) :=
  if !s.sys.superuser then some (s, -eperm)
  else if ebx = 0 then some (s, -einval)
  else
    match findByTid s.sys.k ebx with
    | none => some (s, -einval)
    | some thread =>
      let p := s.sys.proc thread
      let (s, desc) :=
        if ecx < 0 then
          let call := allocFdesc s.mem (s.fd p) new
          ({ s with mem := call.mem, fd := update s.fd p call.fd }, call.ret)
        -- a descriptor in `ecx` is not looked at again
        else (s, 0)
      match edx with
      | none => some (s, desc)
      | some table =>
        ((s.fd p).ptr s.mem desc).map fun file =>
          ({ s with mem := { s.mem with file := update s.mem.file file table } }, desc)

omit [DecidableEq κ] [DecidableEq φ] in
/-- `syscall_fd_free`, which copies a file when `edx` is not null.  There is no result when the copy comes from a null
pointer. -/
def syscallFdFree (s : FileSys τ ρ κ φ) (ebx ecx : Int) (edx : Bool) : Option (FileSys τ ρ κ φ × Int × Option File) :=
  if !s.sys.superuser then some (s, -eperm, none)
  else if ebx = 0 then some (s, -einval, none)
  else
    match findByTid s.sys.k ebx with
    | none => some (s, -einval, none)
    | some thread =>
      let p := s.sys.proc thread
      let s :=
        if ecx < 0 then
          let call := freeFdesc s.mem (s.fd p) ecx
          { s with mem := call.mem, fd := update s.fd p call.fd }
        else s
      if !edx then some (s, ecx, none)
      else ((s.fd p).ptr s.mem ecx).map fun file => (s, ecx, some (s.mem.file file))

/-- What the library makes of the result of a system call. -/
def libcRet (ret : Int) : Int := if ret < 0 then -1 else ret

def putOpenfile (s : FileSys τ ρ κ φ) (tid desc : Int) (file : File) : Option (FileSys τ ρ κ φ × Int) :=
  (syscallFdAlloc s tid desc (some file) none).map fun r => (r.1, libcRet r.2)

omit [DecidableEq κ] [DecidableEq φ] in
/-- `get_openfile`; `file` is the structure of the server, which keeps what it holds when the call fails. -/
def getOpenfile (s : FileSys τ ρ κ φ) (tid desc : Int) (file : File) : Option (FileSys τ ρ κ φ × Int × File) :=
  (syscallFdFree s tid desc true).map fun r => (r.1, libcRet r.2.1, r.2.2.getD file)

/-- The current thread may make the calls, and `tid` is a thread of `p`. -/
structure FileSys.Serves (s : FileSys τ ρ κ φ) (tid : Int) (p : ρ) : Prop where
  superuser : s.sys.superuser = true
  tid_ne : tid ≠ 0
  proc : ∃ thread, findByTid s.sys.k tid = some thread ∧ s.sys.proc thread = p

def FileSys.ptr (s : FileSys τ ρ κ φ) (p : ρ) (desc : Int) : Option φ := (s.fd p).ptr s.mem desc

def FileSys.write (s : FileSys τ ρ κ φ) (g : φ) (file : File) : FileSys τ ρ κ φ :=
  { s with mem := { s.mem with file := update s.mem.file g file } }

section

omit [DecidableEq ρ] [DecidableEq κ]

@[simp] theorem write_ptr (s : FileSys τ ρ κ φ) (g : φ) (file : File) (p : ρ) (desc : Int) :
    (s.write g file).ptr p desc = s.ptr p desc := rfl

@[simp] theorem write_file (s : FileSys τ ρ κ φ) (g : φ) (file : File) :
    (s.write g file).mem.file = update s.mem.file g file := rfl

theorem FileSys.Serves.write {s : FileSys τ ρ κ φ} {tid : Int} {p : ρ} (h : s.Serves tid p) (g : φ) (file : File) :
    (s.write g file).Serves tid p :=
  ⟨h.superuser, h.tid_ne, h.proc⟩

end

section

variable {s : FileSys τ ρ κ φ} {tid : Int} {p : ρ}

theorem putOpenfile_eq (h : s.Serves tid p) {desc : Int} (hd : 0 ≤ desc) (file : File) :
    putOpenfile s tid desc file = (s.ptr p 0).map fun g => (s.write g file, 0) := by
  obtain ⟨thread, ht, rfl⟩ := h.proc
  simp only [putOpenfile, syscallFdAlloc, h.superuser, h.tid_ne, ht, Int.not_lt.2 hd, FileSys.ptr, Bool.not_true,
    Bool.false_eq_true, if_false, Option.map_map]
  rfl

omit [DecidableEq κ] [DecidableEq φ] in
theorem getOpenfile_eq (h : s.Serves tid p) {desc : Int} (hd : 0 ≤ desc) (file : File) :
    getOpenfile s tid desc file = (s.ptr p desc).map fun g => (s, desc, s.mem.file g) := by
  obtain ⟨thread, ht, rfl⟩ := h.proc
  have hret : libcRet desc = desc := if_neg (Int.not_lt.2 hd)
  simp only [getOpenfile, syscallFdFree, h.superuser, h.tid_ne, ht, Int.not_lt.2 hd, FileSys.ptr, Bool.not_true,
    Bool.false_eq_true, if_false, Option.map_map, Function.comp_def, hret, Option.getD_some]

/-- After `put_openfile` for `d`, `get_openfile` returns the file for `d` and what it returned before for `e`. -/
def RoundTrip (s : FileSys τ ρ κ φ) (tid d e : Int) (file : File) : Prop :=
  ∃ s' ret, putOpenfile s tid d file = some (s', ret) ∧ ∀ buf,
    (getOpenfile s' tid d buf).map (·.2.2) = some file ∧
    (getOpenfile s' tid e buf).map (·.2.2) = (getOpenfile s tid e buf).map (·.2.2)

/-- Descriptor 0 has the file of `d`, and `e` has another. -/
def InPlace (s : FileSys τ ρ κ φ) (p : ρ) (d e : Int) : Prop :=
  s.ptr p 0 = s.ptr p d ∧ s.ptr p 0 ≠ s.ptr p e

section

variable {m : φ → File} {g f : φ} {file : File}

private theorem update_eq_new_iff : update m g file f = file ↔ g = f ∨ m f = file := by
  by_cases h : f = g
  · simp [h]
  · simp [h, Ne.symm h]

private theorem update_eq_old_iff : update m g file f = m f ↔ g ≠ f ∨ m g = file := by
  by_cases h : f = g
  · simp [h, eq_comm]
  · simp [h, Ne.symm h]

end

theorem roundTrip_iff (h : s.Serves tid p) {d e : Int} (hd : 0 ≤ d) (he : 0 ≤ e) {fd fe : φ}
    (hpd : s.ptr p d = some fd) (hpe : s.ptr p e = some fe) (file : File) : RoundTrip s tid d e file ↔
      ∃ g, s.ptr p 0 = some g ∧ (g = fd ∨ s.mem.file fd = file) ∧ (g ≠ fe ∨ s.mem.file g = file) := by
  have hget (g : φ) (buf : File) {desc : Int} {f : φ} (h0 : 0 ≤ desc) (hp : s.ptr p desc = some f) :
      (getOpenfile (s.write g file) tid desc buf).map (·.2.2) = some (update s.mem.file g file f) := by
    rw [getOpenfile_eq (h.write g file) h0, write_ptr, hp]
    rfl
  simp only [← update_eq_new_iff, ← update_eq_old_iff]
  constructor
  · rintro ⟨s', ret, hput, hbuf⟩
    obtain ⟨g, hg, hs⟩ := Option.map_eq_some_iff.1 ((putOpenfile_eq h hd file).symm.trans hput)
    cases hs
    obtain ⟨hfd, hfe⟩ := hbuf file
    rw [hget g file hd hpd] at hfd
    rw [hget g file he hpe, getOpenfile_eq h he, hpe] at hfe
    exact ⟨g, hg, Option.some.inj hfd, Option.some.inj hfe⟩
  · rintro ⟨g, hg, hfd, hfe⟩
    refine ⟨s.write g file, 0, by rw [putOpenfile_eq h hd, hg]; rfl, fun buf => ⟨?_, ?_⟩⟩
    · rw [hget g buf hd hpd, hfd]
    · rw [hget g buf he hpe, getOpenfile_eq h he, hpe, hfe]
      rfl

private theorem exists_file_ne (a b : File) : ∃ file, a ≠ file ∧ b ≠ file := by
  by_cases h : b.fOffset = a.fOffset + 1
  · refine ⟨{ a with fOffset := a.fOffset + 2 }, fun heq => ?_, fun heq => ?_⟩ <;>
      have := congrArg File.fOffset heq <;> simp only [h] at this <;> bv_omega
  · exact ⟨{ a with fOffset := a.fOffset + 1 }, fun heq => by simpa using congrArg File.fOffset heq,
      fun heq => h (congrArg File.fOffset heq)⟩

theorem forall_roundTrip_iff (h : s.Serves tid p) {d e : Int} (hd : 0 ≤ d) (he : 0 ≤ e) {fd fe : φ}
    (hpd : s.ptr p d = some fd) (hpe : s.ptr p e = some fe) : (∀ file, RoundTrip s tid d e file) ↔ InPlace s p d e := by
  simp only [roundTrip_iff h hd he hpd hpe, InPlace, hpd, hpe]
  constructor
  · intro hall
    obtain ⟨g, hg, -, -⟩ := hall (s.mem.file fd)
    -- a file that is in neither place shows where it is written
    obtain ⟨file, hne, hne'⟩ := exists_file_ne (s.mem.file fd) (s.mem.file g)
    obtain ⟨g', hg', hfd, hfe⟩ := hall file
    cases hg.symm.trans hg'
    have hgd : g = fd := hfd.resolve_right hne
    have hge : g ≠ fe := hfe.resolve_right hne'
    exact ⟨hg.trans (congrArg some hgd), fun h => hge (Option.some.inj (hg.symm.trans h))⟩
  · rintro ⟨hg, hne⟩ file
    exact ⟨fd, hg, .inl rfl, .inl fun h => hne (hg.trans (congrArg some h))⟩

end

end Manrix
