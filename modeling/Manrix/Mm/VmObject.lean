import Manrix.Mm.VmMap
import Manrix.Mm.PageHash

/-!
# Memory objects and several maps (`mm/vm_object.c`, `vm_entry_copy`)

The entries of all maps refer to objects, and the objects have lists of resident pages.  The functions of `mm/vm_map.c`
that work on one map see the state through `VmState.vm`.  An object or an entry that is in its cache is marked as freed,
also before it is used for the first time.  The list `page` of an object has its first page in front, the list of free
pages the one that was freed first.

`delete_object` returns when the decremented reference count is 0 and frees the object and its pages when it is not.
-/

namespace Manrix

open Function Links

variable {μ ε ω ρ : Type*}

def cowInProgress : BitVec 32 := 1
def copyOnWrite : BitVec 32 := 2

/-- The maps, the entries, the objects and the pages. -/
structure VmState (μ ε ω ρ : Type*) where
  maps : μ → VmMap ε
  entries : Links ε
  entry : ε → VmMapEntry ω
  entryFreed : ε → Bool
  refCount : ω → BitVec 32
  objectFreed : ω → Bool
  objectAttribute : ω → BitVec 32
  page : ω → List ρ
  pages : PageHash ρ
  freePageList : List ρ

/-- One of the maps with the entries and the objects. -/
def VmState.vm (s : VmState μ ε ω ρ) (m : μ) : Vm ε ω :=
  ⟨s.maps m, s.entries, s.entry, s.entryFreed, s.refCount, s.objectFreed⟩

section Functions

variable [DecidableEq μ] [DecidableEq ε] [DecidableEq ω] [DecidableEq ρ]

omit [DecidableEq ε] [DecidableEq ω] [DecidableEq ρ] in
def VmState.setVm (s : VmState μ ε ω ρ) (m : μ) (vm : Vm ε ω) : VmState μ ε ω ρ :=
  { s with
    maps := update s.maps m vm.map, entries := vm.entries, entry := vm.entry
    entryFreed := vm.entryFreed, refCount := vm.refCount, objectFreed := vm.objectFreed }

omit [DecidableEq μ] [DecidableEq ε] [DecidableEq ρ] in
/-- `object` is the one that `kmem_cache_alloc` returns; the field `attribute` is not initialised. -/
def vmObjectCreate (s : VmState μ ε ω ρ) (object : ω) : VmState μ ε ω ρ :=
  { s with
    objectFreed := update s.objectFreed object false
    refCount := update s.refCount object 1, page := update s.page object [] }

omit [DecidableEq μ] [DecidableEq ε] in
/-- The loop of `free_pages`, which returns at a page that is still counted. -/
def freePagesLoop (fuel : Nat) (object : ω) : List ρ → VmState μ ε ω ρ → Option (VmState μ ε ω ρ)
  | [], s => some s
  | page :: rest, s =>
    let s := { s with page := update s.page object rest }
    let s := { s with pages := s.pages.modPage page fun p => { p with count := p.count - 1 } }
    if (s.pages.page page).count ≠ 0 then some s
    else
      match vmPageRemove s.pages fuel page with
      | none => none
      | some pages =>
        freePagesLoop fuel object rest { s with pages := pages, freePageList := s.freePageList ++ [page] }

omit [DecidableEq μ] [DecidableEq ε] in
def freePages (s : VmState μ ε ω ρ) (fuel : Nat) (object : ω) : Option (VmState μ ε ω ρ) :=
  freePagesLoop fuel object (s.page object) s

omit [DecidableEq μ] [DecidableEq ε] in
/-- `delete_object` with the pages of the object. -/
def VmState.deleteObject (s : VmState μ ε ω ρ) (fuel : Nat) (object : ω) : Option (VmState μ ε ω ρ) :=
  let s := { s with refCount := update s.refCount object (s.refCount object - 1) }
  if s.refCount object = 0 then some s
  else
    match freePages s fuel object with
    | none => none
    | some s => some { s with objectFreed := update s.objectFreed object true }

/-- `delete_vm_map_entry` for an entry with an object. -/
def VmState.deleteVmMapEntry (s : VmState μ ε ω ρ) (fuel : Nat) (m : μ) (entry : ε) : Option (VmState μ ε ω ρ) :=
  match (s.entry entry).object with
  | none => none -- a null pointer
  | some object =>
    match s.deleteObject fuel object with
    | none => none
    | some s => some (s.setVm m (deallocVmMapEntry (s.vm m) entry))

omit [DecidableEq ρ] in
/-- A round of the first loop of `vm_entry_copy`. -/
def copyEntry (s : VmState μ ε ω ρ) (new : μ) (newEntry iterate : ε) (niterate : Option ε) : Option (VmState μ ε ω ρ) :=
  let s := s.setVm new ((createVmEntry (s.vm new) newEntry niterate).modEntry newEntry fun _ => s.entry iterate)
  match (s.entry newEntry).object with
  | none => none -- a null pointer
  | some object =>
    some { s with
      objectAttribute := update s.objectAttribute object (s.objectAttribute object ||| (copyOnWrite ||| cowInProgress))
      refCount := update s.refCount object (s.refCount object + 1) }

omit [DecidableEq ρ] in
/-- The first loop, with the entries that the cache supplies. -/
def copyEntries (new : μ) (vmentry : ε) : List ε → ε → Option ε → VmState μ ε ω ρ →
    Option (VmState μ ε ω ρ)
  | [], _, _, _ => none
  | newEntry :: news, iterate, niterate, s =>
    match copyEntry s new newEntry iterate niterate with
    | none => none
    | some s =>
      if s.entries.next iterate = vmentry then some s
      else copyEntries new vmentry news (s.entries.next iterate) (some newEntry) s

omit [DecidableEq μ] [DecidableEq ε] [DecidableEq ρ] in
/-- A round of the second loop. -/
def clearCow (s : VmState μ ε ω ρ) (iterate : ε) (objectAttribute : ω → BitVec 32) : Unit ⊕ (ω → BitVec 32) :=
  match (s.entry iterate).object with
  | none => .inl () -- a null pointer
  | some object => .inr (update objectAttribute object (objectAttribute object &&& ~~~cowInProgress))

omit [DecidableEq ρ] in
def vmEntryCopy (s : VmState μ ε ω ρ) (fuel : Nat) (news : List ε) (new old : μ) : Option (VmState μ ε ω ρ) :=
  match (s.maps old).vmentry with
  | none => none -- a null pointer
  | some vmentry =>
    match copyEntries new vmentry news vmentry none s with
    | none => none
    | some s =>
      match circleLoop s.entries.next vmentry (clearCow s) fuel vmentry s.objectAttribute with
      | some (.inr objectAttribute) => some { s with objectAttribute := objectAttribute }
      | _ => none

end Functions

private theorem copyEntries_pages [DecidableEq μ] [DecidableEq ε] [DecidableEq ω] {s s' : VmState μ ε ω ρ} {new : μ}
    {v : ε}
    {news : List ε} {iterate : ε} {niterate : Option ε} (h : copyEntries new v news iterate niterate s = some s') :
    s'.pages = s.pages ∧ s'.freePageList = s.freePageList := by
  induction news generalizing s iterate niterate with
  | nil => cases h
  | cons newEntry news ih =>
    rw [copyEntries] at h
    split at h
    · cases h
    · rename_i t ht
      have hsame : t.pages = s.pages ∧ t.freePageList = s.freePageList := by
        unfold copyEntry at ht
        dsimp only at ht
        split at ht
        · cases ht
        · rw [← Option.some.inj ht]
          exact ⟨rfl, rfl⟩
      split at h
      · rw [← Option.some.inj h]
        exact hsame
      · exact ⟨(ih h).1.trans hsame.1, (ih h).2.trans hsame.2⟩

theorem vmEntryCopy_pages [DecidableEq μ] [DecidableEq ε] [DecidableEq ω] {s s' : VmState μ ε ω ρ} {new old : μ}
    {fuel : Nat} {news : List ε} (h : vmEntryCopy s fuel news new old = some s') :
    s'.pages = s.pages ∧ s'.freePageList = s.freePageList := by
  unfold vmEntryCopy at h
  split at h
  · cases h
  · split at h
    · cases h
    · rename_i t ht
      have hsame := copyEntries_pages ht
      split at h
      · rw [← Option.some.inj h]
        exact hsame
      · cases h

section View

variable [DecidableEq μ] {s s' : VmState μ ε ω ρ} {m : μ} {fuel : Nat}

omit [DecidableEq μ] in
private theorem freePagesLoop_vm [DecidableEq ω] [DecidableEq ρ] {o : ω} {ps : List ρ}
    (h : freePagesLoop fuel o ps s = some s') (m : μ) : s'.vm m = s.vm m := by
  induction ps generalizing s with
  | nil =>
    cases h
    rfl
  | cons p ps ih =>
    simp only [freePagesLoop] at h
    split at h
    · cases h
      rfl
    · split at h
      · cases h
      · exact (ih h).trans rfl

omit [DecidableEq μ] in
theorem VmState.deleteObject_vm [DecidableEq ε] [DecidableEq ω] [DecidableEq ρ] {o : ω}
    (h : s.deleteObject fuel o = some s') (m : μ) : s'.vm m = Manrix.deleteObject (s.vm m) o := by
  unfold VmState.deleteObject at h
  unfold Manrix.deleteObject
  by_cases h0 : update s.refCount o (s.refCount o - 1) o = 0
  · rw [if_pos h0] at h
    rw [← Option.some.inj h]
    exact (if_pos h0).symm
  · rw [if_neg h0] at h
    refine Eq.trans ?_ (if_neg h0).symm
    split at h
    · cases h
    · rename_i t hf
      have ht := freePagesLoop_vm hf m
      rw [← Option.some.inj h]
      simp only [VmState.vm, Vm.mk.injEq] at ht ⊢
      obtain ⟨h1, h2, h3, h4, h5, h6⟩ := ht
      rw [h1, h2, h3, h4, h5, h6]
      simp

end View

end Manrix
