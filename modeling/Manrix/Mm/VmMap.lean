import Mathlib.Data.BitVec
import Manrix.Lib.Circle
import Manrix.LinkedList

/-!
# Address maps (`mm/vm_map.c`)

A map has a circular list of entries, each with a range `[start, end)` of 32-bit addresses; `vmentry` is the entry the
list is anchored at, and `hint` the entry that the last lookup found.  The list has no head of its own, and
`vmentry->entries` is the first field of the entry, so that in the macros of `list.h` the address of the head is that of
the entry.  A call that goes through the null pointer of an entry without an object has no result.

The entries are cells of a type `ε` of pointers, the objects of a type `ω`.  A function that may obtain an entry from
`vm_map_entry_cache` takes the pointer it would get as an argument.  The loops follow `next_entry` until they are back
at `vmentry`, which a damaged list need not allow: they take fuel and have no result when it runs out.  Links are never
null, since every entry is linked when it is made.  The locks are not modelled.
-/

namespace Manrix

open Function Links

variable {ε ω : Type*}

def vmMapEntryZeroFill : BitVec 32 := 1
def vmMapEntryObjectAnywhere : BitVec 32 := 2
def vmMapEntryObjectFixed : BitVec 32 := 4

def errEinval : Int := -0x1d
def errEnomem : Int := -0x31

/-- An entry without its links; `endAddr` is the field `end`. -/
structure VmMapEntry (ω : Type*) where
  start : BitVec 32
  endAddr : BitVec 32
  object : Option ω
  type : BitVec 16
  attr : BitVec 16
  deriving DecidableEq

structure VmMap (ε : Type*) where
  vmentry : Option ε
  start : BitVec 32
  endAddr : BitVec 32
  hint : Option ε

/-- A map with the memory of the entries and of the objects' reference counts.  `entryFreed` and `objectFreed` tell
which entries and objects have been given back to their caches. -/
structure Vm (ε ω : Type*) where
  map : VmMap ε
  entries : Links ε
  entry : ε → VmMapEntry ω
  entryFreed : ε → Bool
  refCount : ω → BitVec 32
  objectFreed : ω → Bool

/-- The range of the entry, with its last address taken for inside, as the lookup does. -/
def VmMapEntry.within (e : VmMapEntry ω) (address : BitVec 32) : Bool :=
  decide (e.start ≤ address) && decide (address ≤ e.endAddr)

section Functions

variable [DecidableEq ε]

def Vm.modEntry (vm : Vm ε ω) (e : ε) (g : VmMapEntry ω → VmMapEntry ω) : Vm ε ω :=
  { vm with entry := update vm.entry e (g (vm.entry e)) }

def Vm.setHint (vm : Vm ε ω) (hint : Option ε) : Vm ε ω := { vm with map := { vm.map with hint := hint } }

def lookupBody (vm : Vm ε ω) (address : BitVec 32) (tmp : ε) (_ : Unit) : ε ⊕ Unit :=
  if (vm.entry tmp).within address then .inl tmp else .inr ()

/-- The map, whose hint may have changed, and the entry found. -/
def vmMapLookupEntry (vm : Vm ε ω) (fuel : Nat) (address : BitVec 32) : Option (Vm ε ω × Option ε) :=
  match vm.map.vmentry with
  | none => some (vm, none)
  | some v =>
    if vm.map.hint.any fun h => (vm.entry h).within address then some (vm, vm.map.hint)
    else
      match circleLoop vm.entries.next v (lookupBody vm address) fuel v () with
      | none => none
      | some (.inl tmp) => some (vm.setHint (some tmp), some tmp)
      | some (.inr _) => some (vm, none)

/-- `new` is the entry that `kmem_cache_alloc` returns. -/
def createVmEntry (vm : Vm ε ω) (new : ε) (nextentry : Option ε) : Vm ε ω :=
  let vm := { vm with entryFreed := update vm.entryFreed new false }
  match vm.map.vmentry with
  | some v =>
    match nextentry with
    | some n => { vm with entries := listAddNext vm.entries n new }
    | none => { vm with entries := listAdd vm.entries v new }
  | none => { vm with map := { vm.map with vmentry := some new }, entries := listInit vm.entries new }

/-- What is asked of `vm_map_enter`, and the entry it gets if it makes a new one. -/
structure Request (ε ω : Type*) where
  new : ε
  address : BitVec 32
  size : BitVec 32
  object : Option ω
  attributes : BitVec 32

/-- `vm_map_enter` from the label `createntry`: the map, the returned value and `*address`. -/
def createntry (vm : Vm ε ω) (r : Request ε ω) (newentry : Option ε) (start endAddr : BitVec 32) :
    Vm ε ω × Int × BitVec 32 :=
  if endAddr > vm.map.endAddr then (vm, errEnomem, r.address)
  else
    let vm := createVmEntry vm r.new newentry
    let vm := vm.modEntry r.new fun e =>
      { e with object := r.object, start := start, endAddr := endAddr, type := r.attributes.setWidth 16 }
    (vm, 0, start)

/-- The loop that looks for room: where `end` is compared, it is still computed from the entry before `newentry`. -/
def searchBody (vm : Vm ε ω) (v : ε) (size : BitVec 32) (newentry : ε) (endAddr : BitVec 32) : ε ⊕ BitVec 32 :=
  let next := vm.entries.next newentry
  if next = v then .inl newentry
  else if endAddr < (vm.entry next).start then .inl newentry
  else .inr ((vm.entry newentry).endAddr + size)

/-- The entry found can be made longer instead of creating a new one. -/
def Request.merges (r : Request ε ω) (e : VmMapEntry ω) : Bool :=
  r.object.isNone && (e.type.setWidth 32 &&& r.attributes != 0)

/-- `vm_map_enter` from the label `confirm`. -/
def confirm (vm : Vm ε ω) (r : Request ε ω) (newentry : ε) : Vm ε ω × Int × BitVec 32 :=
  let start := (vm.entry newentry).endAddr
  if r.merges (vm.entry newentry) then
    (vm.modEntry newentry fun e => { e with endAddr := e.endAddr + r.size }, 0, start)
  else createntry vm r (some newentry) start (start + r.size)

/-- The loop of the label `handle_fixed`; `none` as its result means that the range is refused. -/
def fixedBody (vm : Vm ε ω) (start endAddr : BitVec 32) (entry : ε) (_ : Unit) : Option ε ⊕ Unit :=
  let e := vm.entry entry
  if endAddr > e.start ∧ endAddr < e.endAddr then .inl none
  else if start < e.start then
    if endAddr > e.start then .inl none else .inl (some entry)
  else .inr ()

def handleFixed (vm : Vm ε ω) (fuel : Nat) (v : ε) (r : Request ε ω) (start endAddr : BitVec 32) :
    Option (Vm ε ω × Int × BitVec 32) :=
  match circleLoop vm.entries.next v (fixedBody vm start endAddr) fuel v () with
  | none => none
  | some (.inl none) => some (vm, errEnomem, r.address)
  | some (.inl (some entry)) => some (createntry vm r (some entry) start endAddr)
  | some (.inr _) => some (createntry vm r (some v) start endAddr)

/-- The search for room behind the entry that the lookup found. -/
def searchRoom (vm : Vm ε ω) (fuel : Nat) (v : ε) (r : Request ε ω) (newentry : ε) :
    Option (Vm ε ω × Int × BitVec 32) :=
  match circleLoop vm.entries.next v (searchBody vm v r.size) fuel newentry
    ((vm.entry newentry).endAddr + r.size) with
  | none => none
  | some (.inl newentry) => some (confirm vm r newentry)
  | some (.inr _) => none -- not met: the body stops before the list is back at `vmentry`

def vmMapEnter (vm : Vm ε ω) (fuel : Nat) (r : Request ε ω) : Option (Vm ε ω × Int × BitVec 32) :=
  let start := r.address
  let endAddr := r.address + r.size
  match vm.map.vmentry with
  | none => some (createntry vm r none start endAddr)
  | some v =>
    match vmMapLookupEntry vm fuel r.address with
    | none => none
    | some (vm, some newentry) =>
      if r.attributes &&& vmMapEntryObjectFixed ≠ 0 then some (vm, errEinval, r.address)
      else searchRoom vm fuel v r newentry
    | some (vm, none) => handleFixed vm fuel v r start endAddr

/-- `align_page`. -/
def alignPage (size : BitVec 32) : BitVec 32 := (size + (0x1000 - 1)) &&& ~~~(0x1000 - 1)

/-- `vm_allocate` returns 0 whatever `vm_map_enter` does; the address is the one it leaves in `*address`. -/
def vmAllocate (vm : Vm ε ω) (fuel : Nat) (new : ε) (size : BitVec 32) : Option (Vm ε ω × Int × BitVec 32) :=
  match vmMapEnter vm fuel ⟨new, vm.map.start, alignPage size, none, vmMapEntryZeroFill⟩ with
  | none => none
  | some (vm, _, address) => some (vm, 0, address)

variable [DecidableEq ω]

/-- `atomic_inc(&object->ref_count)`. -/
def incRefCount (vm : Vm ε ω) (object : ω) : Vm ε ω :=
  { vm with refCount := update vm.refCount object (vm.refCount object + 1) }

/-- The map and the entry that starts at `start`. -/
def vmMapEntryClip (vm : Vm ε ω) (new entry : ε) (start : BitVec 32) : Option (Vm ε ω × Option ε) :=
  if start = (vm.entry entry).start then some (vm, some entry)
  else if start > (vm.entry entry).start ∧ start < (vm.entry entry).endAddr then
    let vm := createVmEntry vm new (some entry)
    -- `*nextentry = *entry` copies the link fields, too
    let vm := { vm with
      entries := (vm.entries.setNext new (vm.entries.next entry)).setPrev new (vm.entries.prev entry) }
    let vm := vm.modEntry new fun _ => vm.entry entry
    match (vm.entry entry).object with
    | none => none -- a null pointer
    | some object =>
      let vm := incRefCount vm object
      let vm := vm.modEntry new fun e => { e with start := start }
      let vm := vm.modEntry entry fun e => { e with endAddr := start }
      some (vm, some new)
  else some (vm, none)

/-- The object is given back unless the count has become 0. -/
def deleteObject (vm : Vm ε ω) (object : ω) : Vm ε ω :=
  let vm := { vm with refCount := update vm.refCount object (vm.refCount object - 1) }
  if vm.refCount object = 0 then vm else { vm with objectFreed := update vm.objectFreed object true }

def deallocVmMapEntry (vm : Vm ε ω) (entry : ε) : Vm ε ω :=
  match vm.map.vmentry with
  | none => vm -- not met: the entry was found in the map
  | some v =>
    { vm with entries := listDel vm.entries v entry, entryFreed := update vm.entryFreed entry true }

def deleteVmMapEntry (vm : Vm ε ω) (entry : ε) : Option (Vm ε ω) :=
  match (vm.entry entry).object with
  | none => none -- a null pointer
  | some object => some (deallocVmMapEntry (deleteObject vm object) entry)

/-- `vm_map_remove` once the entry at the offset is found; `new` and `new'` are the entries for the two clips. -/
def removeFound (vm : Vm ε ω) (new new' entry : ε) (offset size : BitVec 32) : Option (Vm ε ω × Int) :=
  match vmMapEntryClip vm new entry offset with
  | none => none
  | some (vm, none) => some (vm, -1)
  | some (vm, some newentry) =>
    match vmMapEntryClip vm new' newentry (offset + size) with
    | none => none
    | some (vm, _) => (deleteVmMapEntry vm newentry).map (·, 0)

def vmMapRemove (vm : Vm ε ω) (fuel : Nat) (new new' : ε) (offset size : BitVec 32) : Option (Vm ε ω × Int) :=
  match vmMapLookupEntry vm fuel offset with
  | none => none
  | some (vm, none) => some (vm, -1)
  | some (vm, some entry) => removeFound vm new new' entry offset size

end Functions

private theorem alignPage_eq (x : BitVec 32) : alignPage x = (x + 0xfff) >>> 12 <<< 12 := by
  have hmask : ~~~(0x1000 - 1 : BitVec 32) = BitVec.allOnes 32 <<< 12 := by decide
  unfold alignPage
  rw [hmask]
  ext i hi
  simp only [BitVec.getElem_and, BitVec.getElem_shiftLeft, BitVec.getElem_ushiftRight, BitVec.getElem_allOnes]
  by_cases h : i < 12
  · simp [h]
  · have : 12 + (i - 12) = i := by omega
    simp only [h, this, decide_false, Bool.not_false, Bool.true_and, Bool.and_true]
    exact (BitVec.getLsbD_eq_getElem hi).symm

theorem toNat_alignPage (x : BitVec 32) : (alignPage x).toNat = (x.toNat + 0xfff) % 2 ^ 32 / 0x1000 * 0x1000 := by
  have : (0xfff : BitVec 32).toNat = 0xfff := rfl
  rw [alignPage_eq]
  simp only [BitVec.toNat_shiftLeft, BitVec.toNat_ushiftRight, BitVec.toNat_add, Nat.shiftLeft_eq,
    Nat.shiftRight_eq_div_pow]
  omega

theorem toNat_alignPage_mod (x : BitVec 32) : (alignPage x).toNat % 0x1000 = 0 := by
  rw [toNat_alignPage]
  omega

theorem le_toNat_alignPage {x : BitVec 32} (h : x.toNat ≤ 2 ^ 32 - 0x1000) : x.toNat ≤ (alignPage x).toNat := by
  rw [toNat_alignPage]
  omega

/-- The entry is reached from `vmentry` along `next_entry`. -/
def Vm.Linked (vm : Vm ε ω) (e : ε) : Prop := ∃ v, vm.map.vmentry = some v ∧ Reaches vm.entries.next v e

/-- The entries form a circle, and the hint, if there is one, is on it. -/
structure Vm.Wf (vm : Vm ε ω) : Prop where
  circle : ∀ v, vm.map.vmentry = some v → ∃ xs, IsCircle vm.entries.next v xs
  hint : ∀ h, vm.map.hint = some h → vm.Linked h

/-- The address is in the range `[start, end)` of the entry. -/
def VmMapEntry.Covers (e : VmMapEntry ω) (x : BitVec 32) : Prop := e.start ≤ x ∧ x < e.endAddr

/-- No address is in the ranges of two linked entries. -/
def Vm.DisjointEntries (vm : Vm ε ω) : Prop :=
  ∀ e f, vm.Linked e → vm.Linked f → e ≠ f → ∀ x, (vm.entry e).Covers x → ¬ (vm.entry f).Covers x

theorem VmMapEntry.within_iff (e : VmMapEntry ω) (x : BitVec 32) : e.within x = true ↔ e.start ≤ x ∧ x ≤ e.endAddr := by
  simp [VmMapEntry.within]

theorem Vm.linked_iff_reaches {vm : Vm ε ω} {v e : ε} (hv : vm.map.vmentry = some v) :
    vm.Linked e ↔ Reaches vm.entries.next v e := by
  constructor
  · intro h
    obtain ⟨v', hv', h⟩ := h
    rw [hv] at hv'
    rwa [Option.some.inj hv']
  · exact fun h => ⟨v, hv, h⟩

theorem Vm.linked_iff {vm : Vm ε ω} {v e : ε} {xs : List ε} (hv : vm.map.vmentry = some v)
    (hc : IsCircle vm.entries.next v xs) : vm.Linked e ↔ e ∈ v :: xs := by
  rw [Vm.linked_iff_reaches hv, hc.reaches_iff]

theorem Vm.Linked.next {vm : Vm ε ω} {e : ε} (h : vm.Linked e) : vm.Linked (vm.entries.next e) := by
  obtain ⟨v, hv, h⟩ := h
  exact ⟨v, hv, h.step⟩

theorem Vm.not_linked_of_empty {vm : Vm ε ω} {e : ε} (hv : vm.map.vmentry = none) : ¬ vm.Linked e := by
  intro h
  obtain ⟨v, hv', -⟩ := h
  rw [hv] at hv'
  cases hv'

@[simp] theorem Vm.setHint_linked {vm : Vm ε ω} {h : Option ε} {e : ε} : (vm.setHint h).Linked e ↔ vm.Linked e :=
  Iff.rfl

theorem Vm.Wf.setHint {vm : Vm ε ω} (hw : vm.Wf) {h : Option ε} (hh : ∀ e, h = some e → vm.Linked e) :
    (vm.setHint h).Wf :=
  ⟨hw.circle, hh⟩

theorem vmMapEntryClip_of_not_inside [DecidableEq ε] [DecidableEq ω] {vm : Vm ε ω} {new e : ε}
    {start : BitVec 32} (h : ¬ ((vm.entry e).start < start ∧ start < (vm.entry e).endAddr)) :
    vmMapEntryClip vm new e start = some (vm, if start = (vm.entry e).start then some e else none) := by
  unfold vmMapEntryClip
  by_cases hs : start = (vm.entry e).start
  · rw [if_pos hs, if_pos hs]
  · rw [if_neg hs, if_neg h, if_neg hs]

section Lookup

variable {vm vm' : Vm ε ω} {address : BitVec 32} {fuel : Nat} {res : Option ε}

private theorem lookupBody_inl {tmp e : ε} (h : lookupBody vm address tmp () = .inl e) :
    e = tmp ∧ (vm.entry e).within address = true := by
  unfold lookupBody at h
  split at h
  · obtain rfl := Sum.inl.inj h
    exact ⟨rfl, ‹_›⟩
  · cases h

private theorem lookupBody_inr {tmp : ε} (h : lookupBody vm address tmp () = .inr ()) :
    ¬ (vm.entry tmp).within address = true := by
  unfold lookupBody at h
  split at h
  · cases h
  · assumption

variable [DecidableEq ε]

theorem vmMapLookupEntry_hint (h : vmMapLookupEntry vm fuel address = some (vm', res)) :
    vm' = vm.setHint (res.or vm.map.hint) := by
  unfold vmMapLookupEntry at h
  split at h
  · cases h
    rfl
  · split at h
    · cases h
      rw [Option.or_self]
      rfl
    · split at h
      · cases h
      · cases h
        rfl
      · cases h
        rfl

/-- What a lookup does: it changes the hint only, to a linked entry, and what it finds is a linked entry that the
address is within; if it finds none, there is none. -/
theorem vmMapLookupEntry_spec (hw : vm.Wf) (h : vmMapLookupEntry vm fuel address = some (vm', res)) :
    (∃ hint, vm' = vm.setHint hint ∧ ∀ e, hint = some e → vm.Linked e) ∧
    (∀ e, res = some e → vm.Linked e ∧ (vm.entry e).within address = true) ∧
    (res = none → ∀ e, vm.Linked e → ¬ (vm.entry e).within address = true) := by
  unfold vmMapLookupEntry at h
  cases hv : vm.map.vmentry with
  | none =>
    simp only [hv, Option.some.injEq, Prod.mk.injEq] at h
    obtain ⟨rfl, rfl⟩ := h
    exact ⟨⟨vm.map.hint, rfl, hw.hint⟩, by simp, fun _ e he => absurd he (Vm.not_linked_of_empty hv)⟩
  | some v =>
    obtain ⟨xs, hc⟩ := hw.circle v hv
    have hnd := List.nodup_cons.1 hc.nodup
    simp only [hv] at h
    split at h
    · -- the hint is tried first
      rename_i hany
      obtain ⟨rfl, rfl⟩ := Prod.mk.injEq .. ▸ Option.some.inj h
      obtain ⟨e, he, hin⟩ := (Option.any_eq_true ..).1 hany
      refine ⟨⟨vm.map.hint, rfl, hw.hint⟩, fun e' he' => ?_, fun hnone => ?_⟩
      · rw [he] at he'
        cases he'
        exact ⟨hw.hint e he, hin⟩
      · rw [hnone] at he
        cases he
    · cases hl : circleLoop vm.entries.next v (lookupBody vm address) fuel v () with
      | none => simp [hl] at h
      | some t =>
        have ht := circleLoop_some hc.path hnd.1 hl
        simp only [hl] at h
        cases t with
        | inl tmp =>
          simp only [Option.some.injEq, Prod.mk.injEq] at h
          obtain ⟨rfl, rfl⟩ := h
          obtain ⟨us, y, vs, hsplit, -, hy⟩ := scan_inl ht.symm
          obtain ⟨rfl, hin⟩ := lookupBody_inl hy
          have hmem : vm.Linked tmp := (Vm.linked_iff hv hc).2 (by rw [hsplit]; simp)
          refine ⟨⟨some tmp, rfl, ?_⟩, ?_, by simp⟩
          · intro e he
            rwa [← Option.some.inj he]
          · intro e he
            rw [← Option.some.inj he]
            exact ⟨hmem, hin⟩
        | inr u =>
          simp only [Option.some.injEq, Prod.mk.injEq] at h
          obtain ⟨rfl, rfl⟩ := h
          refine ⟨⟨vm.map.hint, rfl, hw.hint⟩, by simp, fun _ e he => ?_⟩
          exact lookupBody_inr (scan_inr ht.symm e ((Vm.linked_iff hv hc).1 he))

theorem vmMapLookupEntry_total (hw : vm.Wf) (address : BitVec 32) :
    ∃ n, ∀ fuel, n < fuel → ∃ t, vmMapLookupEntry vm fuel address = some t := by
  cases hv : vm.map.vmentry with
  | none => exact ⟨0, fun fuel _ => ⟨(vm, none), by simp only [vmMapLookupEntry, hv]⟩⟩
  | some v =>
    obtain ⟨xs, hc⟩ := hw.circle v hv
    refine ⟨xs.length, fun fuel hf => ?_⟩
    simp only [vmMapLookupEntry, hv, circleLoop_eq hc.path (List.nodup_cons.1 hc.nodup).1 hf]
    split
    · exact ⟨_, rfl⟩
    · split
      · contradiction
      · exact ⟨_, rfl⟩
      · exact ⟨_, rfl⟩

/-- The result does not depend on the fuel. -/
theorem vmMapLookupEntry_unique (hw : vm.Wf) {fuel' : Nat} {t t' : Vm ε ω × Option ε}
    (h : vmMapLookupEntry vm fuel address = some t) (h' : vmMapLookupEntry vm fuel' address = some t') : t = t' := by
  unfold vmMapLookupEntry at h h'
  cases hv : vm.map.vmentry with
  | none =>
    simp only [hv, Option.some.injEq] at h h'
    rw [← h, ← h']
  | some v =>
    obtain ⟨xs, hc⟩ := hw.circle v hv
    simp only [hv] at h h'
    split at h
    · rename_i hany
      rw [if_pos hany] at h'
      exact Option.some.inj (h.symm.trans h')
    · rename_i hany
      rw [if_neg hany] at h'
      cases hl : circleLoop vm.entries.next v (lookupBody vm address) fuel v () with
      | none => simp [hl] at h
      | some u =>
        cases hl' : circleLoop vm.entries.next v (lookupBody vm address) fuel' v () with
        | none => simp [hl'] at h'
        | some u' =>
          have hu := circleLoop_some hc.path (List.nodup_cons.1 hc.nodup).1 hl
          have hu' := circleLoop_some hc.path (List.nodup_cons.1 hc.nodup).1 hl'
          rw [hl, hu] at h
          rw [hl', hu'] at h'
          exact Option.some.inj (h.symm.trans h')

end Lookup

end Manrix
