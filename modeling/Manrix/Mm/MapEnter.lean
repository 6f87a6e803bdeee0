import Manrix.Lib.Runs
import Manrix.Mm.MapPlace

/-!
# Entering ranges into a map (`vm_map_enter`)

`vm_map_enter` is meant to keep the ranges of the entries disjoint and below the end of the map.  `map_enter_disjoint`
says which sequences of requests keep the ranges disjoint, `map_enter_bounds` which requests keep them below the end of
the map; both are read off the effect of the place that a request comes to.  `vmMapEnter_total` adds that every request
is served.
-/

namespace Manrix

open Function Links List Runs

variable {ε ω : Type*} [DecidableEq ε]

/-- No linked entry but `c` has an address of `[start, en)`. -/
def Vm.ClearBut (vm : Vm ε ω) (c : ε) (start en : BitVec 32) : Prop :=
  ∀ f, vm.Linked f → f ≠ c → ∀ x, start ≤ x → x < en → ¬ (vm.entry f).Covers x

/-- There is room for the request.  An entry that is made longer, and a new one behind the entry `c`, must find no other
entry in their range; at the requested address no other entry may start inside the range, so that the scan for a
conflict misses it only if it was blocked by another one. -/
def Place.Room (vm : Vm ε ω) (r : Request ε ω) : Place ε → Prop
  | .refused => True
  | .extend c => vm.ClearBut c (vm.entry c).start ((vm.entry c).endAddr + r.size)
  | .behind c => (vm.entry c).endAddr + r.size > vm.map.endAddr ∨
      vm.ClearBut r.new (vm.entry c).endAddr ((vm.entry c).endAddr + r.size)
  | .gap => r.address + r.size > vm.map.endAddr ∨ ∀ f, vm.Linked f → r.address < (vm.entry f).start →
      (vm.entry f).start < r.address + r.size → (vm.entry f).endAddr ≤ (vm.entry f).start

section Disjoint

variable {vm vm' : Vm ε ω} {r : Request ε ω} {ret : Int} {address start : BitVec 32}

omit [DecidableEq ε] in
theorem SameEntries.disjoint_iff (h : SameEntries vm vm') : vm'.DisjointEntries ↔ vm.DisjointEntries := by
  obtain ⟨hl, he⟩ := h
  unfold Vm.DisjointEntries
  simp only [hl, he]

private theorem disjoint_update_iff (hd : vm.DisjointEntries) {c : ε} {e' : VmMapEntry ω}
    (hl : ∀ e, vm'.Linked e ↔ e = c ∨ vm.Linked e) (he : vm'.entry = update vm.entry c e') :
    vm'.DisjointEntries ↔ vm.ClearBut c e'.start e'.endAddr := by
  have hc : vm'.entry c = e' := by rw [he, update_self]
  have hne : ∀ f, f ≠ c → vm'.entry f = vm.entry f := fun f hf => by rw [he, update_of_ne hf]
  constructor
  · intro h f hf hfc x h1 h2 hx
    refine h c f ((hl c).2 (.inl rfl)) ((hl f).2 (.inr hf)) (Ne.symm hfc) x ?_ (by rwa [hne f hfc])
    rw [hc]
    exact ⟨h1, h2⟩
  · intro h e f hle hlf hef x hx hx'
    by_cases hec : e = c
    · subst hec
      rw [hc] at hx
      rw [hne f (Ne.symm hef)] at hx'
      exact h f (((hl f).1 hlf).resolve_left (Ne.symm hef)) (Ne.symm hef) x hx.1 hx.2 hx'
    · have hle' := ((hl e).1 hle).resolve_left hec
      rw [hne e hec] at hx
      by_cases hfc : f = c
      · subst hfc
        rw [hc] at hx'
        exact h e hle' hec x hx'.1 hx'.2 hx
      · rw [hne f hfc] at hx'
        exact hd e f hle' (((hl f).1 hlf).resolve_left hfc) hef x hx hx'

theorem CreateEffect.disjoint_iff (hd : vm.DisjointEntries) (h : CreateEffect vm r start vm' ret address) :
    vm'.DisjointEntries ↔ start + r.size > vm.map.endAddr ∨ vm.ClearBut r.new start (start + r.size) := by
  rcases h with ⟨hend, -, hs⟩ | ⟨hend, -, -, hl, he⟩
  · rw [hs.disjoint_iff]
    exact ⟨fun _ => .inl hend, fun _ => hd⟩
  · rw [disjoint_update_iff hd hl he]
    exact ⟨.inr, fun h => h.resolve_left hend⟩

omit [DecidableEq ε] in
private theorem clearBut_iff_of_not_within (hnew : ¬ vm.Linked r.new)
    (hout : ∀ f, vm.Linked f → ¬ (vm.entry f).within r.address = true) :
    vm.ClearBut r.new r.address (r.address + r.size) ↔ ∀ f, vm.Linked f → r.address < (vm.entry f).start →
      (vm.entry f).start < r.address + r.size → (vm.entry f).endAddr ≤ (vm.entry f).start := by
  constructor
  · intro h f hf h1 h2
    have hne : f ≠ r.new := by
      rintro rfl
      exact hnew hf
    have := h f hf hne (vm.entry f).start (by bv_omega) h2
    unfold VmMapEntry.Covers at this
    bv_omega
  · intro h f hf _ x h1 h2 hx
    have hf' := hout f hf
    rw [VmMapEntry.within_iff] at hf'
    have := h f hf
    unfold VmMapEntry.Covers at hx
    bv_omega

/-- The ranges stay disjoint exactly if there is room at the place. -/
theorem Place.Effect.disjoint_iff {p : Place ε} (hw : vm.Wf) (hnew : ¬ vm.Linked r.new) (hd : vm.DisjointEntries)
    (hs : Settles vm r p) (h : p.Effect vm r vm' ret address) : vm'.DisjointEntries ↔ p.Room vm r := by
  cases p with
  | refused =>
    rw [h.2.disjoint_iff]
    exact ⟨fun _ => trivial, fun _ => hd⟩
  | extend c =>
    obtain ⟨hc, -, -, hl, he⟩ := h
    refine disjoint_update_iff hd (fun e => ?_) he
    rw [hl]
    exact ⟨.inr, fun h => h.elim (fun h => h ▸ hc) id⟩
  | behind c => exact h.2.disjoint_iff hd
  | gap =>
    have hout : ∀ f, vm.Linked f → ¬ (vm.entry f).within r.address = true := by
      cases hs with
      | empty hv => exact fun f hf => absurd hf (Vm.not_linked_of_empty hv)
      | gap _ hfind =>
        obtain ⟨fuel, vm₁, hl⟩ := hfind
        exact (vmMapLookupEntry_spec hw hl).2.2 rfl
    unfold Place.Room
    rw [← clearBut_iff_of_not_within hnew hout]
    exact CreateEffect.disjoint_iff hd h

end Disjoint

/-- The requests of the system: positive sizes and ends that do not wrap, and the new entry, if one is made, is not in
use. -/
def Request.Enabled (vm : Vm ε ω) (r : Request ε ω) : Prop :=
  0 < r.size ∧ r.address.toNat + r.size.toNat < 2 ^ 32 ∧ ¬ vm.Linked r.new

def EnterStep (vm : Vm ε ω) (r : Request ε ω) (vm' : Vm ε ω) : Prop :=
  r.Enabled vm ∧ ∃ fuel ret address, vmMapEnter vm fuel r = some (vm', ret, address)

/-- There is room for the request, whatever it comes to. -/
def RoomFor (vm : Vm ε ω) (r : Request ε ω) : Prop := ∀ p, Settles vm r p → p.Room vm r

def Vm.Empty (vm : Vm ε ω) : Prop := vm.map.vmentry = none ∧ vm.map.hint = none

section Runs

variable {vm vm' : Vm ε ω} {r : Request ε ω}

omit [DecidableEq ε] in
theorem Vm.Empty.wf (h : vm.Empty) : vm.Wf := by
  refine ⟨fun v hv => ?_, fun e he => ?_⟩
  · rw [h.1] at hv
    cases hv
  · rw [h.2] at he
    cases he

omit [DecidableEq ε] in
theorem Vm.Empty.disjointEntries (h : vm.Empty) : vm.DisjointEntries :=
  fun _ _ he => absurd he (Vm.not_linked_of_empty h.1)

private theorem searchRoom_total {v e : ε} {vs : List ε} {fuel : Nat} (hp : Path vm.entries.next e vs v)
    (hvs : v ∉ vs) (hf : vs.length < fuel) : ∃ t, searchRoom vm fuel v r e = some t := by
  have hs : circleLoop vm.entries.next v (searchBody vm v r.size) fuel e ((vm.entry e).endAddr + r.size) =
      some (scan (searchBody vm v r.size) (e :: vs) ((vm.entry e).endAddr + r.size)) :=
    circleLoop_eq hp hvs hf
  unfold searchRoom
  cases ht : scan (searchBody vm v r.size) (e :: vs) ((vm.entry e).endAddr + r.size) with
  | inl c => exact ⟨confirm vm r c, by rw [hs, ht]⟩
  | inr t => exact absurd (hs.trans (by rw [ht])) searchLoop_not_inr

private theorem handleFixed_total {v : ε} {xs : List ε} {start en : BitVec 32} {fuel : Nat}
    (hc : IsCircle vm.entries.next v xs) (hf : xs.length < fuel) : ∃ t, handleFixed vm fuel v r start en = some t := by
  unfold handleFixed
  rw [circleLoop_eq hc.path (nodup_cons.1 hc.nodup).1 hf]
  cases scan (fixedBody vm start en) (v :: xs) () with
  | inl o => cases o <;> exact ⟨_, rfl⟩
  | inr u => exact ⟨_, rfl⟩

/-- A request is served: the loops come to an end. -/
theorem vmMapEnter_total (hw : vm.Wf) (r : Request ε ω) :
    ∃ n, ∀ fuel, n < fuel → ∃ t, vmMapEnter vm fuel r = some t := by
  cases hv : vm.map.vmentry with
  | none =>
    refine ⟨0, fun fuel _ => ⟨createntry vm r none r.address (r.address + r.size), ?_⟩⟩
    simp only [vmMapEnter, hv]
  | some v =>
    obtain ⟨xs, hc⟩ := hw.circle v hv
    obtain ⟨n, hn⟩ := vmMapLookupEntry_total hw r.address
    refine ⟨max n xs.length, fun fuel hf => ?_⟩
    obtain ⟨⟨vm₁, res⟩, hl⟩ := hn fuel (by omega)
    obtain ⟨⟨hint, rfl, -⟩, hres, -⟩ := vmMapLookupEntry_spec hw hl
    cases res with
    | none =>
      simp only [vmMapEnter, hv, hl]
      exact handleFixed_total hc (by omega)
    | some e =>
      simp only [vmMapEnter, hv, hl]
      obtain ⟨vs, hp, hvs, -, hlen⟩ := hc.path_back ((Vm.linked_iff hv hc).1 (hres e rfl).1)
      split
      · exact ⟨_, rfl⟩
      · exact searchRoom_total hp hvs (by omega)

theorem EnterStep.wf (hw : vm.Wf) (h : EnterStep vm r vm') : vm'.Wf := by
  obtain ⟨⟨-, -, hnew⟩, fuel, ret, address, h⟩ := h
  exact (vmMapEnter_effect hw hnew h).1

theorem EnterStep.disjoint_iff (hw : vm.Wf) (hd : vm.DisjointEntries) (h : EnterStep vm r vm') :
    vm'.DisjointEntries ↔ RoomFor vm r := by
  obtain ⟨⟨-, -, hnew⟩, fuel, ret, address, h⟩ := h
  obtain ⟨-, -, p, hs, heff⟩ := vmMapEnter_effect hw hnew h
  rw [heff.disjoint_iff hw hnew hd hs]
  constructor
  · intro hroom p' hs'
    rwa [hs'.unique hw hs]
  · exact fun hroom => hroom p hs

end Runs

/-- From an empty map on, the ranges of the entries are disjoint after every request of a sequence exactly if every
request of it found room. -/
theorem map_enter_disjoint {vm₀ vm : Vm ε ω} {tr : List (Vm ε ω × Request ε ω × Vm ε ω)} (h₀ : vm₀.Empty)
    (hr : Run EnterStep vm₀ tr vm) : (∀ x ∈ tr, x.2.2.DisjointEntries) ↔ ∀ x ∈ tr, RoomFor x.1 x.2.1 := by
  refine hr.forall_iff (fun vm => vm.Wf ∧ vm.DisjointEntries) (fun x => RoomFor x.1 x.2.1)
    (fun x => x.2.2.DisjointEntries) ⟨h₀.wf, h₀.disjointEntries⟩ ?_ ?_
  · intro vm r vm' hi hroom hst
    exact ⟨hst.wf hi.1, (hst.disjoint_iff hi.1 hi.2).2 hroom⟩
  · intro vm r vm' hi hst
    exact hst.disjoint_iff hi.1 hi.2

theorem EnterStep.of_enabled (vm : Vm ε ω) (fuel : Nat) (r : Request ε ω) (h : r.Enabled vm)
    (hs : (vmMapEnter vm fuel r).isSome) : EnterStep vm r ((vmMapEnter vm fuel r).get hs).1 :=
  ⟨h, fuel, _, _, (Option.some_get hs).symm⟩

/-- A map of the addresses below the kernel with no entries. -/
def emptyMap : Vm Nat Unit where
  map := { vmentry := none, start := 0, endAddr := 0xDFFFFFFF, hint := none }
  entries := ⟨id, id⟩
  entry _ := ⟨0, 0, none, 0, 0⟩
  entryFreed _ := false
  refCount _ := 0
  objectFreed _ := false

/-- A request for zero-filled memory. -/
def zeroFill (new : Nat) (address size : BitVec 32) : Request Nat Unit :=
  ⟨new, address, size, none, vmMapEntryZeroFill⟩

private theorem emptyMap_enabled {new : Nat} {address size : BitVec 32} (hp : 0 < size)
    (hs : address.toNat + size.toNat < 2 ^ 32) : (zeroFill new address size).Enabled emptyMap :=
  ⟨hp, hs, Vm.not_linked_of_empty rfl⟩

/-- A new entry, and one more request that makes it longer. -/
theorem map_enter_disjoint_extend : ∃ tr vm, Run EnterStep emptyMap tr vm ∧ tr.length = 2 ∧
    ∀ x ∈ tr, x.2.2.DisjointEntries := by
  have hst := EnterStep.of_enabled emptyMap 4 (zeroFill 0 0x1000 0x1000)
    (emptyMap_enabled (by decide) (by decide)) rfl
  have hw := hst.wf (Vm.Empty.wf ⟨rfl, rfl⟩)
  have hc : IsCircle ((vmMapEnter emptyMap 4 (zeroFill 0 0x1000 0x1000)).get rfl).1.entries.next 0 [] :=
    ⟨by decide, rfl⟩
  have hr := (Run.nil.snoc hst).snoc (EnterStep.of_enabled _ 4 (zeroFill 1 0x1000 0x1000)
    ⟨by decide, by decide, fun h => absurd ((Vm.linked_iff rfl hc).1 h) (by decide)⟩ rfl)
  refine ⟨_, _, hr, rfl, (map_enter_disjoint ⟨rfl, rfl⟩ hr).2 fun x hx => ?_⟩
  simp only [nil_append, cons_append, mem_cons, not_mem_nil, or_false] at hx
  rcases hx with rfl | rfl
  · intro p hp
    rw [hp.unique (Vm.Empty.wf ⟨rfl, rfl⟩) (.empty rfl)]
    exact .inr fun f hf => absurd hf (Vm.not_linked_of_empty rfl)
  · intro p hp
    rw [hp.unique hw (.extend (v := 0) (e := 0) (c := 0) rfl ⟨4, _, rfl⟩
      (by unfold Request.fixed; decide) (.last rfl) rfl)]
    exact fun f hf hne => absurd (mem_singleton.1 ((Vm.linked_iff rfl hc).1 hf)) hne

/-- The entry made for the second request is behind the first one in the list although its range is below, so it is the
last one, and the third request makes it longer without looking at any other. -/
theorem extension_overlaps_first_entry : ∃ tr vm, Run EnterStep emptyMap tr vm ∧ tr.length = 3 ∧
    vm.entry 0 = ⟨0x3000, 0x4000, none, 1, 0⟩ ∧ vm.entry 1 = ⟨0x1000, 0x4000, none, 1, 0⟩ ∧ ¬ vm.DisjointEntries := by
  have h1 := Run.nil.snoc (EnterStep.of_enabled emptyMap 4 (zeroFill 0 0x3000 0x1000)
    (emptyMap_enabled (by decide) (by decide)) rfl)
  have hc1 : IsCircle ((vmMapEnter emptyMap 4 (zeroFill 0 0x3000 0x1000)).get rfl).1.entries.next 0 [] :=
    ⟨by decide, rfl⟩
  have h2 := h1.snoc (EnterStep.of_enabled _ 4 (zeroFill 1 0x1000 0x1000)
    ⟨by decide, by decide, fun h => absurd ((Vm.linked_iff rfl hc1).1 h) (by decide)⟩ rfl)
  have hc2 : IsCircle ((vmMapEnter ((vmMapEnter emptyMap 4 (zeroFill 0 0x3000 0x1000)).get rfl).1 4
      (zeroFill 1 0x1000 0x1000)).get rfl).1.entries.next 0 [1] :=
    ⟨by decide, rfl, rfl⟩
  have h3 := h2.snoc (EnterStep.of_enabled _ 4 (zeroFill 2 0x1000 0x2000)
    ⟨by decide, by decide, fun h => absurd ((Vm.linked_iff rfl hc2).1 h) (by decide)⟩ rfl)
  refine ⟨_, _, h3, rfl, by decide +kernel, by decide +kernel, fun hd => ?_⟩
  refine hd 0 1 ((Vm.linked_iff rfl hc2).2 (by decide)) ((Vm.linked_iff rfl hc2).2 (by decide))
    (by decide) 0x3000 ?_ ?_
  · unfold VmMapEntry.Covers
    decide +kernel
  · unfold VmMapEntry.Covers
    decide +kernel

/-- Every linked entry has a range that does not end before it starts or past the end of the map. -/
def Vm.Bounded (vm : Vm ε ω) : Prop :=
  ∀ e, vm.Linked e → (vm.entry e).start ≤ (vm.entry e).endAddr ∧ (vm.entry e).endAddr ≤ vm.map.endAddr

/-- The `size` bytes from `address` on are in the range of one linked entry. -/
def Vm.InOneEntry (vm : Vm ε ω) (address size : BitVec 32) : Prop :=
  ∃ e, vm.Linked e ∧ (vm.entry e).start ≤ address ∧ address.toNat + size.toNat ≤ (vm.entry e).endAddr.toNat

/-- The range from the place on ends in the map, as a sum of naturals; a new entry is also refused if its end, a sum
modulo `2 ^ 32`, is past the end of the map. -/
def Place.Fits (vm : Vm ε ω) (r : Request ε ω) : Place ε → Prop
  | .refused => True
  | .extend c => (vm.entry c).endAddr.toNat + r.size.toNat ≤ vm.map.endAddr.toNat
  | .behind c => (vm.entry c).endAddr + r.size > vm.map.endAddr ∨
      (vm.entry c).endAddr.toNat + r.size.toNat ≤ vm.map.endAddr.toNat
  | .gap => r.address + r.size > vm.map.endAddr ∨ r.address.toNat + r.size.toNat ≤ vm.map.endAddr.toNat

section Bounds

variable {vm vm' : Vm ε ω} {r : Request ε ω} {ret : Int} {address start : BitVec 32}

omit [DecidableEq ε] in
theorem Vm.Bounded.le_of_inOneEntry {size : BitVec 32} (hb : vm.Bounded) (h : vm.InOneEntry address size) :
    address.toNat + size.toNat ≤ vm.map.endAddr.toNat := by
  obtain ⟨e, hl, -, he⟩ := h
  have := (hb e hl).2
  bv_omega

theorem Vm.Bounded.update (hb : vm.Bounded) {c : ε} {e' : VmMapEntry ω} (hm : vm'.map.endAddr = vm.map.endAddr)
    (hl : ∀ e, vm'.Linked e → e = c ∨ vm.Linked e) (he : vm'.entry = update vm.entry c e')
    (h1 : e'.start ≤ e'.endAddr) (h2 : e'.endAddr ≤ vm.map.endAddr) : vm'.Bounded := by
  intro e hle
  rw [hm, he]
  by_cases hec : e = c
  · rw [hec, update_self]
    exact ⟨h1, h2⟩
  · rw [update_of_ne hec]
    exact hb e ((hl e hle).resolve_left hec)

theorem CreateEffect.fits_iff (hb : vm.Bounded) (hm : vm'.map.endAddr = vm.map.endAddr)
    (h : CreateEffect vm r start vm' ret address) : (ret = 0 → vm'.Bounded ∧ vm'.InOneEntry address r.size) ↔
      start + r.size > vm.map.endAddr ∨ start.toNat + r.size.toNat ≤ vm.map.endAddr.toNat := by
  rcases h with ⟨hend, hret, -⟩ | ⟨hend, hret, rfl, hl, he⟩
  · exact ⟨fun _ => .inl hend, fun _ h0 => absurd h0 (by omega)⟩
  · constructor
    · intro h
      obtain ⟨hb', hin⟩ := h hret
      have := hb'.le_of_inOneEntry hin
      rw [hm] at this
      exact .inr this
    · intro h _
      have hle := h.resolve_left hend
      have hlt := vm.map.endAddr.isLt
      refine ⟨hb.update hm (fun e => (hl e).1) he ?_ ?_, r.new, (hl _).2 (.inl rfl), ?_⟩
      · show address ≤ address + r.size
        bv_omega
      · show address + r.size ≤ vm.map.endAddr
        bv_omega
      · rw [he, update_self]
        refine ⟨BitVec.le_refl _, ?_⟩
        show _ ≤ (address + r.size).toNat
        bv_omega

/-- A request that is granted keeps the bounds and gets its range exactly if the range fits at the place. -/
theorem Place.Effect.fits_iff {p : Place ε} (hb : vm.Bounded) (hm : vm'.map.endAddr = vm.map.endAddr)
    (h : p.Effect vm r vm' ret address) : (ret = 0 → vm'.Bounded ∧ vm'.InOneEntry address r.size) ↔ p.Fits vm r := by
  cases p with
  | refused => exact ⟨fun _ => trivial, fun _ h0 => absurd h0 (by have := h.1; omega)⟩
  | behind c => exact h.2.fits_iff hb hm
  | gap => exact CreateEffect.fits_iff hb hm h
  | extend c =>
    obtain ⟨hc, hret, rfl, hl, he⟩ := h
    constructor
    · intro h
      obtain ⟨hb', hin⟩ := h hret
      have := hb'.le_of_inOneEntry hin
      rwa [hm] at this
    · intro hle _
      unfold Place.Fits at hle
      have hlt := vm.map.endAddr.isLt
      have hbc := hb c hc
      refine ⟨hb.update hm (fun e h => .inr ((hl e).1 h)) he ?_ ?_, c, (hl c).2 hc, ?_⟩
      · show (vm.entry c).start ≤ (vm.entry c).endAddr + r.size
        bv_omega
      · show (vm.entry c).endAddr + r.size ≤ vm.map.endAddr
        bv_omega
      · rw [he, update_self]
        refine ⟨hbc.1, ?_⟩
        show _ ≤ ((vm.entry c).endAddr + r.size).toNat
        bv_omega

/-- A request that is granted keeps the bounds of all entries and gets `size` bytes in one entry exactly if the range
fits at the place that the request comes to. -/
theorem map_enter_bounds {fuel : Nat} (hw : vm.Wf) (hb : vm.Bounded) (hnew : ¬ vm.Linked r.new)
    (h : vmMapEnter vm fuel r = some (vm', ret, address)) :
    (ret = 0 → vm'.Bounded ∧ vm'.InOneEntry address r.size) ↔ ∀ p, Settles vm r p → p.Fits vm r := by
  obtain ⟨-, hm, p, hs, heff⟩ := vmMapEnter_effect hw hnew h
  rw [heff.fits_iff hb hm]
  constructor
  · intro hfits p' hs'
    rwa [hs'.unique hw hs]
  · exact fun hfits => hfits p hs

end Bounds

/-- A map with one zero-filled page at its start. -/
def onePageMap : Vm Nat Unit where
  map := { vmentry := some 0, start := 0, endAddr := 0xDFFFFFFF, hint := none }
  entries := ⟨id, id⟩
  entry _ := ⟨0, 0x1000, none, 1, 0⟩
  entryFreed _ := false
  refCount _ := 0
  objectFreed _ := false

private theorem onePageMap_circle : IsCircle onePageMap.entries.next 0 [] := ⟨by decide, rfl⟩

private theorem onePageMap_wf : onePageMap.Wf := by
  refine ⟨fun v hv => ?_, fun h hh => ?_⟩
  · cases hv
    exact ⟨[], onePageMap_circle⟩
  · cases hh

private theorem onePageMap_bounded : onePageMap.Bounded := by
  intro e _
  show (0 : BitVec 32) ≤ 0x1000 ∧ (0x1000 : BitVec 32) ≤ 0xDFFFFFFF
  decide

private theorem onePageMap_not_linked : ¬ onePageMap.Linked 1 :=
  fun h => absurd ((Vm.linked_iff rfl onePageMap_circle).1 h) (by decide)

/-- One more page. -/
theorem map_enter_bounds_page : ∃ vm, vmMapEnter onePageMap 4 (zeroFill 1 0 0x1000) = some (vm, 0, 0x1000) ∧
    vm.Bounded ∧ vm.InOneEntry 0x1000 0x1000 := by
  have h : vmMapEnter onePageMap 4 (zeroFill 1 0 0x1000) =
      some (((vmMapEnter onePageMap 4 (zeroFill 1 0 0x1000)).get rfl).1, 0, 0x1000) := rfl
  refine ⟨_, h, (map_enter_bounds onePageMap_wf onePageMap_bounded onePageMap_not_linked h).2
    (fun p hp => ?_) rfl⟩
  rw [hp.unique onePageMap_wf (.extend (v := 0) (e := 0) (c := 0) rfl ⟨4, _, rfl⟩
    (by unfold Request.fixed; decide) (.last rfl) rfl)]
  unfold Place.Fits
  decide

/-- `vm_allocate` with a size that reaches into the kernel's addresses makes the page longer by that size. -/
theorem vm_allocate_reaches_kernel : onePageMap.Wf ∧ onePageMap.Bounded ∧
    ∃ vm, vmMapEnter onePageMap 4 (zeroFill 1 0 0xF0000000) = some (vm, 0, 0x1000) ∧
      vmAllocate onePageMap 4 1 0xF0000000 = some (vm, 0, 0x1000) ∧
      vm.entry 0 = ⟨0, 0xF0001000, none, 1, 0⟩ ∧ ¬ vm.Bounded := by
  refine ⟨onePageMap_wf, onePageMap_bounded, _, rfl, rfl, by decide +kernel, fun hb => ?_⟩
  have := (hb 0 ((Vm.linked_iff rfl onePageMap_circle).2 (by decide))).2
  revert this
  decide +kernel

end Manrix
