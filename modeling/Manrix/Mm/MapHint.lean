import Manrix.Lib.Runs
import Manrix.Mm.MapRemove

/-!
# The hint of a map

A lookup tries `hint` before it goes round the list, and it leaves in `hint` what it has found, so that which entries
have been looked up before may decide what is found now.  Both tests take the end of an entry for one of its addresses:
an address at which one entry ends belongs to it or to the entry that starts there, as the hint has it. `vm_map_remove`
looks up an entry, so the hint is that entry, and does nothing about the hint when it takes the entry off the list.  A
removal from an entry without an object, as zero-fill memory has it before the first access, has no result.

`lookup_independent_of_hint` says for which calls the hint does no harm.
-/

namespace Manrix

open Function Links List Runs

variable {ε ω : Type*}

/-- The entries are on a ring, have disjoint ranges and are live. -/
structure Vm.RingOk (vm : Vm ε ω) : Prop where
  ring : ∀ v, vm.map.vmentry = some v → ∃ xs, IsRing vm.entries v xs
  disjoint : vm.DisjointEntries
  live : ∀ e, vm.Linked e → vm.entryFreed e = false

/-- The hint is null or a live entry of the list. -/
def Vm.HintOk (vm : Vm ε ω) (hint : Option ε) : Prop :=
  ∀ h, hint = some h → vm.Linked h ∧ vm.entryFreed h = false

/-- What is found is the entry with the address in its range `[start, end)`. -/
def LookupCorrect (vm : Vm ε ω) (address : BitVec 32) (res : Option ε) : Prop :=
  ∀ e, res = some e ↔ vm.Linked e ∧ (vm.entry e).Covers address

/-- The address is the first one behind the range of the entry. -/
def VmMapEntry.EndsAt (e : VmMapEntry ω) (address : BitVec 32) : Prop :=
  e.start ≤ address ∧ address = e.endAddr

/-- A lookup, or a removal with the two entries it would get for its clips. -/
inductive HintOp (ε : Type*) where
  | lookup (address : BitVec 32)
  | remove (n n' : ε) (offset size : BitVec 32)

variable [DecidableEq ε] [DecidableEq ω]

/-- The calls are made on maps whose list is well formed, and the entries obtained for the clips are new.  What comes
after a removal without a result is not known. -/
def HintStep (vm : Vm ε ω) (op : HintOp ε) (vm' : Vm ε ω) : Prop :=
  vm.RingOk ∧
  match op with
  | .lookup address => ∃ fuel res, vmMapLookupEntry vm fuel address = some (vm', res)
  | .remove n n' offset size => ¬ vm.Linked n ∧ ¬ vm.Linked n' ∧ n ≠ n' ∧
      ∀ fuel r, vmMapRemove vm fuel n n' offset size = some r → r.1 = vm'

/-- Whatever entry the hint was before, the call returns, it finds the right entry if it is a lookup, and the hint is
one of the list afterwards. -/
def HintStepOk (x : Vm ε ω × HintOp ε × Vm ε ω) : Prop :=
  match x.2.1 with
  | .lookup address => ∀ hint, x.1.HintOk hint → ∃ m, ∀ fuel, m < fuel → ∃ vm' res,
      vmMapLookupEntry (x.1.setHint hint) fuel address = some (vm', res) ∧
        LookupCorrect x.1 address res ∧ vm'.HintOk vm'.map.hint
  | .remove n n' offset size => ∀ hint, x.1.HintOk hint → ∃ m, ∀ fuel, m < fuel → ∃ vm' ret,
      vmMapRemove (x.1.setHint hint) fuel n n' offset size = some (vm', ret) ∧ vm'.HintOk vm'.map.hint

/-- No entry ends at the address looked up; no entry starts at the offset of a removal, and if one has it inside, then
it is the anchor and has an object. -/
def HintGuard (x : Vm ε ω × HintOp ε × Vm ε ω) : Prop :=
  match x.2.1 with
  | .lookup address => ∀ e, x.1.Linked e → ¬ (x.1.entry e).EndsAt address
  | .remove _ _ offset _ => ∀ e, x.1.Linked e → (x.1.entry e).within offset = true →
      offset ≠ (x.1.entry e).start ∧
        (offset < (x.1.entry e).endAddr → x.1.map.vmentry = some e ∧ (x.1.entry e).object ≠ none)

section Lookup

variable {vm vm' : Vm ε ω} {hint : Option ε} {address : BitVec 32} {fuel : Nat} {res : Option ε}

omit [DecidableEq ε] [DecidableEq ω] in
theorem VmMapEntry.within_iff_covers_or (e : VmMapEntry ω) (x : BitVec 32) :
    e.within x = true ↔ e.Covers x ∨ e.EndsAt x := by
  rw [VmMapEntry.within_iff]
  unfold VmMapEntry.Covers VmMapEntry.EndsAt
  bv_omega

omit [DecidableEq ε] [DecidableEq ω] in
theorem Vm.RingOk.wf (hok : vm.RingOk) (hh : vm.HintOk hint) : (vm.setHint hint).Wf := by
  refine ⟨fun v hv => ?_, fun h he => (hh h he).1⟩
  obtain ⟨xs, hx⟩ := hok.ring v hv
  exact ⟨xs, hx.nodup, hx.next⟩

omit [DecidableEq ω] in
private theorem vmMapLookupEntry_of_hint {v e : ε} (fuel : Nat) (hv : vm.map.vmentry = some v)
    (he : (vm.entry e).within address = true) :
    vmMapLookupEntry (vm.setHint (some e)) fuel address = some (vm.setHint (some e), some e) := by
  have hv' : (vm.setHint (some e)).map.vmentry = some v := hv
  have hany : (vm.setHint (some e)).map.hint.any (fun h => ((vm.setHint (some e)).entry h).within address) =
      true := he
  unfold vmMapLookupEntry
  rw [hv']
  exact if_pos hany

omit [DecidableEq ω] in
private theorem lookup_hintOk (hok : vm.RingOk) (hh : vm.HintOk hint)
    (h : vmMapLookupEntry (vm.setHint hint) fuel address = some (vm', res)) : vm'.HintOk vm'.map.hint := by
  obtain ⟨⟨hint', rfl, hl⟩, -, -⟩ := vmMapLookupEntry_spec (hok.wf hh) h
  exact fun e he => ⟨hl e he, hok.live e (hl e he)⟩

omit [DecidableEq ω] in
private theorem lookupCorrect_of_guard (hok : vm.RingOk) (hg : ∀ e, vm.Linked e → ¬ (vm.entry e).EndsAt address)
    (hh : vm.HintOk hint) (h : vmMapLookupEntry (vm.setHint hint) fuel address = some (vm', res)) :
    LookupCorrect vm address res := by
  obtain ⟨-, hsome, hnone⟩ := vmMapLookupEntry_spec (hok.wf hh) h
  have hcov : ∀ e, res = some e → vm.Linked e ∧ (vm.entry e).Covers address := by
    intro e he
    obtain ⟨hl, hin⟩ := hsome e he
    exact ⟨hl, ((VmMapEntry.within_iff_covers_or ..).1 hin).resolve_right (hg e hl)⟩
  refine fun e => ⟨hcov e, fun he => ?_⟩
  cases res with
  | none => exact absurd ((VmMapEntry.within_iff_covers_or ..).2 (.inl he.2)) (hnone rfl e he.1)
  | some f =>
    obtain ⟨hf, hfc⟩ := hcov f rfl
    by_contra hne
    exact hok.disjoint f e hf he.1 (fun h => hne (h ▸ rfl)) address hfc he.2

private theorem lookup_step_iff (hok : vm.RingOk) :
    HintStepOk (vm, .lookup address, vm') ↔ HintGuard (vm, .lookup address, vm') := by
  constructor
  · intro h e he hend
    -- with the entry that ends there for a hint the lookup finds this entry
    obtain ⟨m, hm⟩ := h (some e) fun f hf => Option.some.inj hf ▸ ⟨he, hok.live e he⟩
    obtain ⟨vm₁, res, hl, hc, -⟩ := hm (m + 1) (Nat.lt_succ_self m)
    obtain ⟨v, hv, -⟩ := id he
    have hin := (VmMapEntry.within_iff_covers_or (vm.entry e) address).2 (.inr hend)
    have hl' := vmMapLookupEntry_of_hint (m + 1) hv hin
    have hres : res = some e := congrArg Prod.snd (Option.some.inj (hl.symm.trans hl'))
    have hcov := ((hc e).1 hres).2
    unfold VmMapEntry.EndsAt at hend
    unfold VmMapEntry.Covers at hcov
    bv_omega
  · intro hg hint hh
    obtain ⟨m, hm⟩ := vmMapLookupEntry_total (hok.wf hh) address
    refine ⟨m, fun fuel hf => ?_⟩
    obtain ⟨⟨vm₁, res⟩, hl⟩ := hm fuel hf
    exact ⟨vm₁, res, hl, lookupCorrect_of_guard hok hg hh hl, lookup_hintOk hok hh hl⟩

end Lookup

section Remove

variable {vm vm' : Vm ε ω} {v e n n' : ε} {us vs : List ε} {hint : Option ε} {offset size : BitVec 32}
  {fuel : Nat} {ret : Int}

omit [DecidableEq ω] in
private theorem not_linked_of_bypass {N : ε → Prop} (hring : IsRing vm.entries v (us ++ e :: vs))
    (hv' : vm'.map.vmentry = some v) (hN : ∀ a, N a → N (vm'.entries.next a)) (hne : ¬ N e)
    (hp : N (vm'.entries.next (vm.entries.prev e)))
    (hg : ∀ a, a ≠ vm.entries.prev e → a ≠ e → ¬ N a → vm'.entries.next a = vm.entries.next a) : ¬ vm'.Linked e := by
  have hmet : ¬ vm.Met v e e := by
    rw [met_iff_of_ring hring]
    have hnd := hring.nodup
    rw [← cons_append] at hnd
    exact fun h => (nodup_append.1 hnd).2.2 e h e (mem_cons_self ..) rfl
  rw [Vm.linked_iff_reaches hv']
  intro h
  have hor : vm.Met v e e ∨ N e := by
    refine h.induct (P := fun f => vm.Met v e f ∨ N f) (.inl (Reaches.refl ..)) fun a _ ha => ?_
    by_cases hNa : N a
    · exact .inr (hN a hNa)
    · have ham := ha.resolve_right hNa
      by_cases hap : a = vm.entries.prev e
      · exact .inr (hap ▸ hp)
      · have hae : a ≠ e := fun h => hmet (h ▸ ham)
        rw [hg a hap hae hNa]
        exact .inl (ham.step_stopAt (by simp [hap, hae]))
  exact hor.elim hmet hne

private theorem removeFound_inside (hv : vm.map.vmentry = some v) (hne : n ≠ e) (hne' : n' ≠ e) (hnn : n ≠ n')
    (h1 : (vm.entry e).start < offset) (h2 : offset < (vm.entry e).endAddr)
    (h : removeFound vm n n' e offset size = some (vm', ret)) :
    vm'.map = vm.map ∧ vm'.entryFreed e = vm.entryFreed e ∧ (vm.entry e).object ≠ none ∧
    ∃ m, (m = n ∨ m = n') ∧ ∀ a, vm'.entries.next a =
      if a = vm.entries.prev e ∨ a = n ∨ a = m then m else if a = e then n else vm.entries.next a := by
  obtain ⟨-, vm₁, r, vm₂, r', hc, hc', hd⟩ := removeFound_of_inside hv hne h1 h2 h
  have hobj : (vm.entry e).object ≠ none := (vmMapEntryClip_object h1 h2 hne).1 ⟨_, hc⟩
  have hcn : vm₁.entry n = { vm.entry e with start := offset } := by
    rw [(vmMapEntryClip_inside hv hne h1 h2 hc).2.2.2.2.1, update_of_ne hne, update_self]
  by_cases hen : offset < offset + size ∧ offset + size < (vm.entry e).endAddr
  · obtain ⟨dm, dn, -, df⟩ := delete_middle_spec hv hne hne' hnn h1 hen.1 hen.2 hc hc' hd
    refine ⟨dm, ?_, hobj, n', .inr rfl, dn⟩
    rw [df, if_neg hne.symm, if_neg hne'.symm]
  · -- the second clip makes no entry
    rw [vmMapEntryClip_of_not_inside (by rw [hcn]; exact hen)] at hc'
    cases hc'
    obtain ⟨dm, dn, -, df⟩ := delete_new_spec hv hne h1 h2 hc hd
    refine ⟨dm, by rw [df, if_neg hne.symm], hobj, n, .inl rfl, fun a => ?_⟩
    rw [dn]
    grind

/-- The hint after the removal of a range from the entry `e`, which the lookup has found. -/
private theorem removeFound_hintOk_iff (hok : vm.RingOk) (he : vm.Linked e) (hhint : vm.map.hint = some e)
    (hn : ¬ vm.Linked n) (hn' : ¬ vm.Linked n') (hnn : n ≠ n') (hin : (vm.entry e).within offset = true) :
    (∃ vm' ret, removeFound vm n n' e offset size = some (vm', ret) ∧ vm'.HintOk vm'.map.hint) ↔
      offset ≠ (vm.entry e).start ∧
        (offset < (vm.entry e).endAddr → vm.map.vmentry = some e ∧ (vm.entry e).object ≠ none) := by
  obtain ⟨v, hv, -⟩ := id he
  have hne : n ≠ e := fun h => hn (h ▸ he)
  have hne' : n' ≠ e := fun h => hn' (h ▸ he)
  rw [VmMapEntry.within_iff] at hin
  by_cases hs : offset = (vm.entry e).start
  · -- the entry itself is deleted
    refine ⟨?_, fun h => absurd hs h.1⟩
    rintro ⟨vm', ret, hrem, h⟩
    obtain ⟨-, vm₁, r, hc, hd⟩ := removeFound_of_start hs hrem
    have hm := (vmMapEntryClip_objects hv hne' hc).2.2
    obtain ⟨dm, -, -, df⟩ := deleteVmMapEntry_spec (hm ▸ hv) hd
    have hfree := (h e (by rw [dm, hm, hhint])).2
    rw [df, update_self] at hfree
    cases hfree
  · by_cases hb : offset < (vm.entry e).endAddr
    · have hlow : (vm.entry e).start < offset := by bv_omega
      constructor
      · rintro ⟨vm', ret, hrem, h⟩
        obtain ⟨dm, -, hobj, m, hm, dn⟩ := removeFound_inside hv hne hne' hnn hlow hb hrem
        refine ⟨hs, fun _ => ⟨?_, hobj⟩⟩
        by_contra hve
        have hev : e ≠ v := fun h => hve (h ▸ hv)
        obtain ⟨xs, hring⟩ := hok.ring v hv
        obtain ⟨us, vs, rfl⟩ := append_of_mem
          (((linked_iff_of_ring hv hring).1 he |> mem_cons.1).resolve_left hev)
        refine not_linked_of_bypass (N := fun a => a = n ∨ a = m) hring (dm ▸ hv) (fun a ha => ?_) ?_ ?_
          (fun a h1 h2 h3 => ?_) (h e (by rw [dm, hhint])).1
        · rw [dn, if_pos (.inr ha)]
          exact .inr rfl
        · rintro (rfl | rfl)
          · exact hne rfl
          · exact hm.elim (fun h => hne h.symm) fun h => hne' h.symm
        · rw [dn, if_pos (.inl rfl)]
          exact .inr rfl
        · rw [dn, if_neg (by tauto), if_neg h2]
      · intro h
        obtain ⟨⟨vm', ret⟩, hrem⟩ := removeFound_total hv hne hne' hnn (h.2 hb).2
        obtain ⟨dm, df, -⟩ := removeFound_inside hv hne hne' hnn hlow hb hrem
        refine ⟨vm', ret, hrem, fun f hf => ?_⟩
        rw [dm, hhint] at hf
        cases hf
        refine ⟨⟨e, dm ▸ (h.2 hb).1, Reaches.refl ..⟩, ?_⟩
        rw [df, hok.live e he]
    · -- the offset is the end of the entry: nothing is clipped
      have hrem : removeFound vm n n' e offset size = some (vm, -1) := by
        rw [removeFound, vmMapEntryClip_none hs hb]
      refine ⟨fun _ => ⟨hs, fun h => absurd h hb⟩, fun _ => ⟨vm, -1, hrem, fun f hf => ?_⟩⟩
      rw [hhint] at hf
      cases hf
      exact ⟨he, hok.live e he⟩

private theorem remove_step_iff (hok : vm.RingOk) (hn : ¬ vm.Linked n) (hn' : ¬ vm.Linked n') (hnn : n ≠ n') :
    HintStepOk (vm, .remove n n' offset size, vm') ↔ HintGuard (vm, .remove n n' offset size, vm') := by
  have hok' : ∀ e, (vm.setHint (some e)).RingOk := fun e => ⟨hok.ring, hok.disjoint, hok.live⟩
  constructor
  · intro h e he hin
    obtain ⟨m, hm⟩ := h (some e) fun f hf => Option.some.inj hf ▸ ⟨he, hok.live e he⟩
    obtain ⟨vm₁, ret, hr, hh⟩ := hm (m + 1) (Nat.lt_succ_self m)
    obtain ⟨v, hv, -⟩ := id he
    unfold vmMapRemove at hr
    rw [vmMapLookupEntry_of_hint _ hv hin] at hr
    exact (removeFound_hintOk_iff (hok' e) he rfl hn hn' hnn hin).1 ⟨vm₁, ret, hr, hh⟩
  · intro hg hint hh
    obtain ⟨m, hm⟩ := vmMapLookupEntry_total (hok.wf hh) offset
    refine ⟨m, fun fuel hf => ?_⟩
    obtain ⟨⟨vm₁, res⟩, hl⟩ := hm fuel hf
    have hhint := vmMapLookupEntry_hint hl
    obtain ⟨-, hsome, -⟩ := vmMapLookupEntry_spec (hok.wf hh) hl
    unfold vmMapRemove
    rw [hl]
    cases res with
    | none => exact ⟨vm₁, -1, rfl, lookup_hintOk hok hh hl⟩
    | some e =>
      obtain ⟨he, hin⟩ := hsome e rfl
      subst hhint
      exact (removeFound_hintOk_iff (hok' e) he rfl hn hn' hnn hin).2 (hg e he hin)

end Remove

theorem HintStep.hintOk {vm vm' : Vm ε ω} {op : HintOp ε} (hh : vm.HintOk vm.map.hint)
    (hst : HintStep vm op vm') (hs : HintStepOk (vm, op, vm')) : vm'.HintOk vm'.map.hint := by
  obtain ⟨hok, hst⟩ := hst
  cases op with
  | lookup address =>
    obtain ⟨fuel, res, hl⟩ := hst
    exact lookup_hintOk hok hh hl
  | remove n n' offset size =>
    obtain ⟨m, hm⟩ := hs vm.map.hint hh
    obtain ⟨vm₁, ret, hr, hh'⟩ := hm (m + 1) (Nat.lt_succ_self m)
    exact hst.2.2.2 _ _ hr ▸ hh'

/-- In every run of lookups and removals the hint does no harm exactly if every call meets the condition. -/
theorem lookup_independent_of_hint {vm₀ vm : Vm ε ω} {tr : List (Vm ε ω × HintOp ε × Vm ε ω)}
    (h₀ : vm₀.HintOk vm₀.map.hint) (hr : Run HintStep vm₀ tr vm) :
    (∀ x ∈ tr, HintStepOk x) ↔ ∀ x ∈ tr, HintGuard x := by
  have hiff : ∀ (vm : Vm ε ω) (op : HintOp ε) (vm' : Vm ε ω), HintStep vm op vm' →
      (HintStepOk (vm, op, vm') ↔ HintGuard (vm, op, vm')) := by
    intro vm op vm' hst
    cases op with
    | lookup address => exact lookup_step_iff hst.1
    | remove n n' offset size => exact remove_step_iff hst.1 hst.2.1 hst.2.2.1 hst.2.2.2.1
  refine hr.forall_iff (fun vm => vm.HintOk vm.map.hint) HintGuard HintStepOk h₀ ?_ ?_
  · intro vm op vm' hh hg hst
    exact hst.hintOk hh ((hiff vm op vm' hst).2 hg)
  · intro vm op vm' _ hst
    exact hiff vm op vm' hst

/-- Two entries, the second of which starts where the first ends. -/
def adjacentMap : Vm Nat Unit where
  map := { vmentry := some 0, start := 0, endAddr := 0xDFFFFFFF, hint := none }
  entries := ⟨fun a => if a = 0 then 1 else 0, fun a => if a = 0 then 1 else 0⟩
  entry a := if a = 0 then ⟨0x1000, 0x2000, some (), 2, 0⟩ else ⟨0x2000, 0x3000, some (), 2, 0⟩
  entryFreed _ := false
  refCount _ := 2
  objectFreed _ := false

private theorem adjacentMap_ring : IsRing adjacentMap.entries 0 [1] := by decide

private theorem adjacentMap_linked {e : Nat} : adjacentMap.Linked e ↔ e = 0 ∨ e = 1 := by
  rw [linked_iff_of_ring rfl adjacentMap_ring, mem_cons, mem_singleton]

private theorem adjacentMap_ok : adjacentMap.RingOk := by
  have h01 : ∀ x, (adjacentMap.entry 0).Covers x → ¬ (adjacentMap.entry 1).Covers x := by
    intro x hx hx'
    have h1 : x < 0x2000 := hx.2
    have h2 : 0x2000 ≤ x := hx'.1
    bv_omega
  refine ⟨fun v hv => ?_, fun e f he hf hne x hx hx' => ?_, fun _ _ => rfl⟩
  · cases hv
    exact ⟨[1], adjacentMap_ring⟩
  · rcases adjacentMap_linked.1 he with rfl | rfl <;> rcases adjacentMap_linked.1 hf with rfl | rfl
    · exact hne rfl
    · exact h01 x hx hx'
    · exact h01 x hx' hx
    · exact hne rfl

/-- Looking up an address inside of the second entry, and removing a part of the first one. -/
theorem lookup_independent_of_hint_inside : ∃ tr vm, Run HintStep adjacentMap tr vm ∧
    tr.map (·.2.1) = [.lookup 0x2800, .remove 2 3 0x1800 0x100] ∧ ∀ x ∈ tr, HintStepOk x := by
  have s1 : HintStep adjacentMap (.lookup 0x2800) (adjacentMap.setHint (some 1)) :=
    ⟨adjacentMap_ok, 4, some 1, rfl⟩
  have hok : (adjacentMap.setHint (some 1)).RingOk :=
    ⟨adjacentMap_ok.ring, adjacentMap_ok.disjoint, adjacentMap_ok.live⟩
  have hh : adjacentMap.HintOk (some 1) := fun h he => Option.some.inj he ▸ ⟨adjacentMap_linked.2 (.inr rfl), rfl⟩
  have s2 : HintStep (adjacentMap.setHint (some 1)) (.remove 2 3 0x1800 0x100)
      ((vmMapRemove (adjacentMap.setHint (some 1)) 4 2 3 0x1800 0x100).get rfl).1 :=
    ⟨hok, by simp [adjacentMap_linked], by simp [adjacentMap_linked], by decide, fun fuel r hr => congrArg Prod.fst
      (vmMapRemove_unique (adjacentMap_ok.wf hh) hr (Option.some_get _).symm)⟩
  have h2 := (Run.nil.snoc s1).snoc s2
  refine ⟨_, _, h2, rfl, (lookup_independent_of_hint (by simp [Vm.HintOk, adjacentMap]) h2).2 ?_⟩
  intro x hx
  simp only [nil_append, cons_append, mem_cons, not_mem_nil, or_false] at hx
  rcases hx with rfl | rfl
  · intro e he
    rcases adjacentMap_linked.1 he with rfl | rfl <;> unfold VmMapEntry.EndsAt <;> decide
  · intro e he hin
    rcases adjacentMap_linked.1 he with rfl | rfl
    · exact ⟨by decide, fun _ => ⟨rfl, by decide⟩⟩
    · exact absurd hin (by decide)

/-- At the address where one entry ends and the other starts the lookup finds the first one, and when this one is
removed the hint is left pointing to it. -/
theorem lookup_at_boundary_and_stale_hint : adjacentMap.RingOk ∧ adjacentMap.map.hint = none ∧
    (adjacentMap.entry 1).Covers 0x2000 ∧ (∃ vm, vmMapLookupEntry adjacentMap 4 0x2000 = some (vm, some 0)) ∧
    ¬ LookupCorrect adjacentMap 0x2000 (some 0) ∧
    ∃ vm, vmMapRemove adjacentMap 4 2 3 0x1000 0x1000 = some (vm, 0) ∧ vm.map.hint = some 0 ∧
      vm.entryFreed 0 = true ∧ ¬ vm.HintOk vm.map.hint := by
  have hcov : (adjacentMap.entry 1).Covers 0x2000 := by
    unfold VmMapEntry.Covers
    decide
  refine ⟨adjacentMap_ok, rfl, hcov, ⟨_, rfl⟩, fun h => ?_, _, rfl, rfl, rfl, fun h => ?_⟩
  · have := (h 1).2 ⟨adjacentMap_linked.2 (.inr rfl), hcov⟩
    cases this
  · cases (h 0 rfl).2

end Manrix
