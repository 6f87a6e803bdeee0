import Manrix.Mm.MapPlace

/-!
# Removing a range from a map (`vm_map_remove`)

`vm_map_remove` looks up the entry at the start of the range, clips it there and at the end of the range, and deletes
the entry in between.  Clipping copies the whole entry into the new one, so the new entry is its own successor, and the
entries behind it are lost; deleting uses `prev_entry`, which `list_add_next` does not maintain; the range may cover
more entries than the one that is deleted; and the deleted entry may be the one the list is anchored at.

In each of four cases, by where the range starts and ends in the entry, the linked entries after the call are computed,
and from them when it has removed just the range (`RemoveOk`).  For a list that is well formed in both directions
`removeOkAt_iff_of_ring` and `removeOkAt_anchor_iff_of_ring` spell this out.
-/

namespace Manrix

open Function Links List

variable {ε ω : Type*}

/-! ### The condition -/

/-- The address is in the range to be removed. -/
def InRange (offset size x : BitVec 32) : Prop := offset ≤ x ∧ x < offset + size

/-- Every address of the entry is in the range. -/
def VmMapEntry.Inside (e : VmMapEntry ω) (offset size : BitVec 32) :
    Prop := ∀ x, e.Covers x → InRange offset size x

/-- No address of the entry is in the range. -/
def VmMapEntry.Outside (e : VmMapEntry ω) (offset size : BitVec 32) :
    Prop := ∀ x, e.Covers x → ¬ InRange offset size x

/-- The range and nothing else has been removed, and the list is anchored at a live entry. -/
structure Removed (vm vm' : Vm ε ω) (offset size : BitVec 32) : Prop where
  gone : ∀ e, vm'.Linked e → (vm'.entry e).Outside offset size
  kept : ∀ e, vm.Linked e → ∀ x, (vm.entry e).Covers x → ¬ InRange offset size x → ∃ f, vm'.Linked f ∧
    (vm'.entry f).Covers x ∧ (vm'.entry f).object = (vm.entry e).object ∧
    (vm'.entry f).type = (vm.entry e).type ∧ (vm'.entry f).attr = (vm.entry e).attr
  anchor : ∀ v, vm'.map.vmentry = some v → vm'.entryFreed v = false

/-- A call that returns 0 has removed the range; a call that fails has changed no entry. -/
def RemoveCorrect (vm vm' : Vm ε ω) (offset size : BitVec 32) (ret : Int) : Prop :=
  (ret = 0 → Removed vm vm' offset size) ∧ (ret < 0 → SameEntries vm vm')

variable [DecidableEq ε]

/-- The entry `f` is met on the way from `v` along `next_entry` that ends at `e` or at the entry that `e` has for its
predecessor. -/
def Vm.Met (vm : Vm ε ω) (v e f : ε) : Prop :=
  Reaches (stopAt vm.entries.next fun a => a = vm.entries.prev e ∨ a = e) v f

/-- The call, which finds the entry `e`, removes just the range if the range starts where `e` starts, and
* it does not end inside of `e`: the entry is not the anchor, the entries that the list still has when the
  predecessor of `e` is linked to its successor are outside of the range, and the other ones inside; or
* it ends inside of `e`: the predecessor is met before the entry, and the entries not met on the way to it are
  inside of the range;

or if the range lies properly inside of `e`, which is its own predecessor, and the entries behind are inside
of the range. -/
def RemoveOkAt (vm : Vm ε ω) (v e : ε) (offset size : BitVec 32) : Prop :=
  (offset = (vm.entry e).start → ¬ offset + size < (vm.entry e).endAddr →
    e ≠ v ∧ ∀ f, vm.Linked f →
      (Reaches (update vm.entries.next (vm.entries.prev e) (vm.entries.next e)) v f →
        (vm.entry f).Outside offset size) ∧
      (¬ Reaches (update vm.entries.next (vm.entries.prev e) (vm.entries.next e)) v f →
        (vm.entry f).Inside offset size)) ∧
  (offset = (vm.entry e).start → offset + size < (vm.entry e).endAddr →
    ¬ vm.Met v e e ∧ ∀ f, vm.Linked f → f ≠ e → vm.Met v e f ∨ (vm.entry f).Inside offset size) ∧
  ((vm.entry e).start < offset → offset < (vm.entry e).endAddr →
    offset + size < (vm.entry e).endAddr ∧ vm.entries.prev e = e ∧
      ∀ f, vm.Linked f → vm.Met v e f ∨ (vm.entry f).Inside offset size)

/-- The condition for the entry that is found, if there is one. -/
def RemoveOk (vm : Vm ε ω) (offset size : BitVec 32) : Prop :=
  ∀ v e, vm.map.vmentry = some v → vm.Finds offset (some e) → RemoveOkAt vm v e offset size

/-! ### Clipping and deleting -/

section Effects

variable [DecidableEq ω] {vm vm₁ vm₂ vm' : Vm ε ω} {v e new : ε} {start : BitVec 32} {r r' : Option ε}

theorem deleteVmMapEntry_spec (hv : vm.map.vmentry = some v) (h : deleteVmMapEntry vm e = some vm') :
    vm'.map = vm.map ∧ vm'.entry = vm.entry ∧ vm'.entries = vm.entries.unlink e ∧
    vm'.entryFreed = update vm.entryFreed e true := by
  unfold deleteVmMapEntry at h
  split at h
  · cases h
  · rename_i o _
    have hobj : (deleteObject vm o).map = vm.map ∧ (deleteObject vm o).entry = vm.entry ∧
        (deleteObject vm o).entries = vm.entries ∧ (deleteObject vm o).entryFreed = vm.entryFreed := by
      simp only [deleteObject]
      split <;> exact ⟨rfl, rfl, rfl, rfl⟩
    obtain ⟨h1, h2, h3, h4⟩ := hobj
    rw [← Option.some.inj h]
    simp only [deallocVmMapEntry, h1, hv, h2, h3, h4, listDel_eq, and_self]

/-- Clipping inside of an entry: the new entry has the upper part, and is its own successor. -/
theorem vmMapEntryClip_inside (hv : vm.map.vmentry = some v) (hne : new ≠ e)
    (h1 : (vm.entry e).start < start) (h2 : start < (vm.entry e).endAddr)
    (h : vmMapEntryClip vm new e start = some (vm', r)) :
    r = some new ∧ vm'.map = vm.map ∧
    vm'.entries.next = update (update vm.entries.next e new) new new ∧
    vm'.entries.prev = update vm.entries.prev new (vm.entries.prev e) ∧
    vm'.entry = update (update vm.entry new
      { vm.entry e with start := start }) e { vm.entry e with endAddr := start } ∧
    vm'.entryFreed = update vm.entryFreed new false := by
  have hs : ¬ start = (vm.entry e).start := by bv_omega
  unfold vmMapEntryClip at h
  rw [if_neg hs, if_pos ⟨h1, h2⟩] at h
  simp only [createVmEntry, hv] at h
  split at h
  · cases h
  · cases h
    simp only [Vm.modEntry, incRefCount, listAddNext, setNext_next, setNext_prev, setPrev_next, setPrev_prev]
    refine ⟨trivial, trivial, ?_, ?_, ?_, trivial⟩
    · rw [update_of_ne hne.symm, update_self, update_idem]
    · rw [update_of_ne hne.symm, update_idem]
    · simp only [update_self, update_idem, update_of_ne hne.symm]

private theorem vmMapEntryClip_start (h : start = (vm.entry e).start) :
    vmMapEntryClip vm new e start = some (vm, some e) :=
  if_pos h

theorem vmMapEntryClip_none (h : start ≠ (vm.entry e).start) (h' : ¬ start < (vm.entry e).endAddr) :
    vmMapEntryClip vm new e start = some (vm, none) := by
  rw [vmMapEntryClip_of_not_inside fun h => h' h.2, if_neg h]

theorem vmMapEntryClip_object (h1 : (vm.entry e).start < start) (h2 : start < (vm.entry e).endAddr) (hne : new ≠ e) :
    (∃ t, vmMapEntryClip vm new e start = some t) ↔ (vm.entry e).object ≠ none := by
  have hs : ¬ start = (vm.entry e).start := by bv_omega
  have he : (createVmEntry vm new (some e)).entry = vm.entry := by
    cases hv : vm.map.vmentry <;> simp only [createVmEntry, hv]
  unfold vmMapEntryClip
  rw [if_neg hs, if_pos ⟨h1, h2⟩]
  simp only [Vm.modEntry, update_of_ne hne.symm, he]
  cases (vm.entry e).object <;> simp

private theorem delete_clip_spec (hv : vm.map.vmentry = some v) (hne : new ≠ e) (h1 : (vm.entry e).start < start)
    (h2 : start < (vm.entry e).endAddr) (h : vmMapEntryClip vm new e start = some (vm₁, r))
    (hd : deleteVmMapEntry vm₁ e = some vm') :
    vm'.map = vm.map ∧
    (∀ a, vm'.entries.next a = if a = vm.entries.prev e ∨ a = e ∨ a = new then new else vm.entries.next a) ∧
    (∀ a, vm'.entry a = if a = e then { vm.entry e with endAddr := start }
      else if a = new then { vm.entry e with start := start } else vm.entry a) ∧
    ∀ a, vm'.entryFreed a = if a = e then true else if a = new then false else vm.entryFreed a := by
  obtain ⟨-, hm, hn, hp, he, hf⟩ := vmMapEntryClip_inside hv hne h1 h2 h
  obtain ⟨dm, de, dn, df⟩ := deleteVmMapEntry_spec (hm ▸ hv) hd
  refine ⟨dm.trans hm, fun a => ?_, fun a => ?_, fun a => ?_⟩
  · rw [dn]
    simp only [Links.unlink, setPrev_next, setNext_next, hn, hp, update_apply, hne.symm, if_true,
      if_false]
    grind
  · rw [de, he]
    simp only [update_apply]
  · rw [df, hf]
    simp only [update_apply]

theorem delete_new_spec (hv : vm.map.vmentry = some v) (hne : new ≠ e) (h1 : (vm.entry e).start < start)
    (h2 : start < (vm.entry e).endAddr) (h : vmMapEntryClip vm new e start = some (vm₁, r))
    (hd : deleteVmMapEntry vm₁ new = some vm') :
    vm'.map = vm.map ∧
    (∀ a, vm'.entries.next a = if a = vm.entries.prev e ∨ a = e ∨ a = new then new else vm.entries.next a) ∧
    vm'.entry new = { vm.entry e with start := start } ∧
    ∀ a, vm'.entryFreed a = if a = new then true else vm.entryFreed a := by
  obtain ⟨-, hm, hn, hp, he, hf⟩ := vmMapEntryClip_inside hv hne h1 h2 h
  obtain ⟨dm, de, dn, df⟩ := deleteVmMapEntry_spec (hm ▸ hv) hd
  refine ⟨dm.trans hm, fun a => ?_, ?_, fun a => ?_⟩
  · rw [dn]
    simp only [Links.unlink, setPrev_next, setNext_next, hn, hp, update_apply, if_true]
    grind
  · rw [de, he, update_of_ne hne, update_self]
  · rw [df, hf, update_idem, update_apply]

/-- Clipping twice inside of an entry and deleting the entry in the middle. -/
theorem delete_middle_spec {new' : ε} {en : BitVec 32} (hv : vm.map.vmentry = some v) (hne : new ≠ e)
    (hne' : new' ≠ e)
    (hnn : new ≠ new') (h1 : (vm.entry e).start < start) (h2 : start < en) (h3 : en < (vm.entry e).endAddr)
    (h : vmMapEntryClip vm new e start = some (vm₁, r)) (h' : vmMapEntryClip vm₁ new' new en = some (vm₂, r'))
    (hd : deleteVmMapEntry vm₂ new = some vm') :
    vm'.map = vm.map ∧
    (∀ a, vm'.entries.next a = if a = vm.entries.prev e ∨ a = new ∨ a = new' then new'
      else if a = e then new else vm.entries.next a) ∧
    (∀ a, vm'.entry a = if a = e then { vm.entry e with endAddr := start }
      else if a = new then { vm.entry e with start := start, endAddr := en }
      else if a = new' then { vm.entry e with start := en } else vm.entry a) ∧
    ∀ a, vm'.entryFreed a = if a = new then true else if a = new' then false else vm.entryFreed a := by
  have hlt : start < (vm.entry e).endAddr := by bv_omega
  obtain ⟨-, hm, hn, hp, he, hf⟩ := vmMapEntryClip_inside hv hne h1 hlt h
  have hnew : vm₁.entry new = { vm.entry e with start := start } := by
    rw [he, update_of_ne hne, update_self]
  have hprev : vm₁.entries.prev new = vm.entries.prev e := by
    rw [hp, update_self]
  obtain ⟨dm, dn, de, df⟩ := delete_clip_spec (hm ▸ hv) hnn.symm (by rw [hnew]; exact h2)
    (by rw [hnew]; exact h3) h' hd
  refine ⟨dm.trans hm, fun a => ?_, fun a => ?_, fun a => ?_⟩
  · rw [dn, hprev, hn]
    simp only [update_apply]
    grind
  · rw [de, hnew, he]
    simp only [update_apply]
    grind
  · rw [df, hf]
    simp only [update_apply]
    grind

end Effects

/-! ### The four cases -/

/-- The entry `e` is found in a map whose entries are disjoint and live. -/
structure Removable (vm : Vm ε ω) (v e : ε) (offset size : BitVec 32) : Prop where
  vmentry : vm.map.vmentry = some v
  linked : vm.Linked e
  disjoint : vm.DisjointEntries
  live : ∀ f, vm.Linked f → vm.entryFreed f = false
  size_pos : 0 < size
  no_wrap : offset.toNat + size.toNat < 2 ^ 32

section Cases

variable {vm vm' : Vm ε ω} {v e f n n' : ε} {offset size : BitVec 32}

theorem Vm.Met.linked (hv : vm.map.vmentry = some v) (h : vm.Met v e f) : vm.Linked f :=
  (Vm.linked_iff_reaches hv).2 (h.of_stopAt fun _ _ _ => rfl)

omit [DecidableEq ε] in
theorem Removable.anchor_linked (hr : Removable vm v e offset size) : vm.Linked v :=
  (Vm.linked_iff_reaches hr.vmentry).2 (Reaches.refl ..)

theorem Removable.exists_stop (hr : Removable vm v e offset size) :
    ∃ s, (s = vm.entries.prev e ∨ s = e) ∧ vm.Met v e s :=
  ((Vm.linked_iff_reaches hr.vmentry).1 hr.linked).exists_stop (.inr rfl)

theorem Removable.linked_redirect (hr : Removable vm v e offset size) (hv' : vm'.map.vmentry = some v)
    (hg : ∀ a, vm.Met v e a → vm'.entries.next a = if a = vm.entries.prev e ∨ a = e then n else vm.entries.next a)
    (hn : vm'.entries.next n = n) : vm'.Linked f ↔ vm.Met v e f ∨ f = n := by
  rw [Vm.linked_iff_reaches hv']
  exact reaches_redirect_iff hg hn hr.exists_stop

/-- The range starts with the entry and does not end inside of it. -/
theorem Removable.whole_iff (hr : Removable vm v e offset size) (hv' : vm'.map.vmentry = some v)
    (hn : vm'.entries.next = update vm.entries.next (vm.entries.prev e) (vm.entries.next e))
    (he : vm'.entry = vm.entry) (hf : vm'.entryFreed = update vm.entryFreed e true) :
    Removed vm vm' offset size ↔ e ≠ v ∧ ∀ f, vm.Linked f →
      (Reaches (update vm.entries.next (vm.entries.prev e) (vm.entries.next e)) v f →
        (vm.entry f).Outside offset size) ∧
      (¬ Reaches (update vm.entries.next (vm.entries.prev e) (vm.entries.next e)) v f →
        (vm.entry f).Inside offset size) := by
  have hl : ∀ f, vm'.Linked f ↔
      Reaches (update vm.entries.next (vm.entries.prev e) (vm.entries.next e)) v f := by
    intro f
    rw [Vm.linked_iff_reaches hv', hn]
  have hsub : ∀ f, vm'.Linked f → vm.Linked f := by
    intro f h
    refine ((hl f).1 h).induct (P := vm.Linked) hr.anchor_linked fun a _ ha => ?_
    rw [update_apply]
    split
    · exact hr.linked.next
    · exact ha.next
  constructor
  · intro h
    refine ⟨?_, fun f hlf => ⟨fun hk => ?_, fun hk x hx => ?_⟩⟩
    · rintro rfl
      have := h.anchor e hv'
      rw [hf, update_self] at this
      cases this
    · have := h.gone f ((hl f).2 hk)
      rwa [he] at this
    · by_contra hx'
      obtain ⟨g, hg, hgx, -⟩ := h.kept f hlf x hx hx'
      rw [he] at hgx
      by_cases hfg : f = g
      · exact hk ((hl f).1 (hfg ▸ hg))
      · exact hr.disjoint f g hlf (hsub g hg) hfg x hx hgx
  · intro h
    refine ⟨fun f hlf => ?_, fun f hlf x hx hx' => ?_, fun u hu => ?_⟩
    · rw [he]
      exact (h.2 f (hsub f hlf)).1 ((hl f).1 hlf)
    · refine ⟨f, ?_, by rwa [he], by rw [he], by rw [he], by rw [he]⟩
      by_contra hk
      exact hx' ((h.2 f hlf).2 (fun hk' => hk ((hl f).2 hk')) x hx)
    · rw [hv'] at hu
      cases hu
      rw [hf, update_of_ne (Ne.symm h.1)]
      exact hr.live v hr.anchor_linked

/-- If the range is a part of the entry `e`, and afterwards the linked entries are some of the other ones, `M`, and
pieces of `e`, then the range has been removed if the pieces are `e` without the range, and what is not in `M` had no
address. -/
theorem Removable.removed_iff {M Q : ε → Prop} (hr : Removable vm v e offset size)
    (hin : ∀ x, InRange offset size x → (vm.entry e).Covers x) (hl : ∀ f, vm'.Linked f ↔ M f ∨ Q f)
    (hM : ∀ f, M f → vm.Linked f ∧ f ≠ e ∧ vm'.entry f = vm.entry f)
    (hQ : ∀ q, Q q → (∀ x, (vm'.entry q).Covers x → (vm.entry e).Covers x) ∧
      (vm'.entry q).object = (vm.entry e).object ∧ (vm'.entry q).type = (vm.entry e).type ∧
      (vm'.entry q).attr = (vm.entry e).attr) : Removed vm vm' offset size ↔
      (∀ q, Q q → (vm'.entry q).Outside offset size) ∧
      (∀ x, (vm.entry e).Covers x → ¬ InRange offset size x → ∃ q, Q q ∧ (vm'.entry q).Covers x) ∧
      (∀ f, vm.Linked f → f ≠ e → M f ∨ (vm.entry f).Inside offset size) ∧
      ∀ u, vm'.map.vmentry = some u → vm'.entryFreed u = false := by
  constructor
  · intro h
    refine ⟨fun q hq => h.gone q ((hl q).2 (.inr hq)), fun x hx hx' => ?_, fun f hlf hfe => ?_, h.anchor⟩
    · obtain ⟨g, hg, hgx, -⟩ := h.kept e hr.linked x hx hx'
      rcases (hl g).1 hg with hg | hg
      · obtain ⟨hlg, hge, heq⟩ := hM g hg
        rw [heq] at hgx
        exact absurd hx (hr.disjoint g e hlg hr.linked hge x hgx)
      · exact ⟨g, hg, hgx⟩
    · by_contra hor
      rw [not_or] at hor
      refine hor.2 fun x hx => ?_
      by_contra hx'
      obtain ⟨g, hg, hgx, -⟩ := h.kept f hlf x hx hx'
      rcases (hl g).1 hg with hg | hg
      · obtain ⟨hlg, hge, heq⟩ := hM g hg
        rw [heq] at hgx
        by_cases hfg : f = g
        · exact hor.1 (hfg ▸ hg)
        · exact hr.disjoint f g hlf hlg hfg x hx hgx
      · exact hr.disjoint f e hlf hr.linked hfe x hx ((hQ g hg).1 x hgx)
  · intro h
    obtain ⟨hout, hrest, hother, hanchor⟩ := h
    refine ⟨fun f hlf x hx hx' => ?_, fun f hlf x hx hx' => ?_, hanchor⟩
    · rcases (hl f).1 hlf with hf | hf
      · obtain ⟨hlf', hfe, heq⟩ := hM f hf
        rw [heq] at hx
        exact hr.disjoint f e hlf' hr.linked hfe x hx (hin x hx')
      · exact hout f hf x hx hx'
    · by_cases hfe : f = e
      · subst hfe
        obtain ⟨q, hq, hqx⟩ := hrest x hx hx'
        exact ⟨q, (hl q).2 (.inr hq), hqx, (hQ q hq).2⟩
      · have hf := (hother f hlf hfe).resolve_right fun h => hx' (h x hx)
        have heq := (hM f hf).2.2
        exact ⟨f, (hl f).2 (.inl hf), by rwa [heq], by rw [heq], by rw [heq], by rw [heq]⟩

theorem Vm.met_or_iff : vm.Met v e f ∨ f = n ↔ (vm.Met v e f ∧ f ≠ e) ∨ f = n ∨ f = e ∧ vm.Met v e e := by
  by_cases hfe : f = e
  · subst hfe
    tauto
  · tauto

omit [DecidableEq ε] in
theorem VmMapEntry.covers_lower {d : VmMapEntry ω} {b x : BitVec 32} (h : b ≤ d.endAddr) :
    ({ d with endAddr := b } : VmMapEntry ω).Covers x ↔ d.Covers x ∧ x < b := by
  show d.start ≤ x ∧ x < b ↔ (d.start ≤ x ∧ x < d.endAddr) ∧ x < b
  bv_omega

theorem VmMapEntry.covers_upper {d : VmMapEntry ω} {b x : BitVec 32} (h : d.start ≤ b) :
    ({ d with start := b } : VmMapEntry ω).Covers x ↔ d.Covers x ∧ b ≤ x := by
  show b ≤ x ∧ x < d.endAddr ↔ (d.start ≤ x ∧ x < d.endAddr) ∧ b ≤ x
  bv_omega

/-- What is left of the entry `e` and the other ones by a call whose range is a part of `e`: `e` itself ends at `b`, `n`
has the rest behind the range. -/
structure Cut (vm vm' : Vm ε ω) (e n : ε) (b offset size : BitVec 32) : Prop where
  start_le : (vm.entry e).start ≤ offset
  lt_end : offset + size < (vm.entry e).endAddr
  le_end : b ≤ (vm.entry e).endAddr
  self : vm'.entry e = { vm.entry e with endAddr := b }
  rest : vm'.entry n = { vm.entry e with start := offset + size }
  other : ∀ f, vm.Linked f → f ≠ e → vm'.entry f = vm.entry f

/-- If the entries met and `n` are linked afterwards, the range has been removed if `n`, and `e` if it is met, are `e`
without the range, and what is not met had no address outside of the range. -/
theorem Cut.removed_iff {b : BitVec 32} (hc : Cut vm vm' e n b offset size) (hr : Removable vm v e offset size)
    (hl : ∀ f, vm'.Linked f ↔ vm.Met v e f ∨ f = n) : Removed vm vm' offset size ↔
      (vm.Met v e e → (vm'.entry e).Outside offset size) ∧
      (∀ x, (vm.entry e).Covers x → x < offset → vm.Met v e e ∧ x < b) ∧
      (∀ f, vm.Linked f → f ≠ e → vm.Met v e f ∨ (vm.entry f).Inside offset size) ∧
      ∀ u, vm'.map.vmentry = some u → vm'.entryFreed u = false := by
  have hwrap := hr.no_wrap
  have hstart := hc.start_le
  have hend := hc.lt_end
  have hrest : ∀ x, (vm'.entry n).Covers x ↔ (vm.entry e).Covers x ∧ offset + size ≤ x := by
    intro x
    rw [hc.rest, VmMapEntry.covers_upper (by bv_omega)]
  have hself : ∀ x, (vm'.entry e).Covers x ↔ (vm.entry e).Covers x ∧ x < b := by
    intro x
    rw [hc.self, VmMapEntry.covers_lower hc.le_end]
  have hin : ∀ x, InRange offset size x → (vm.entry e).Covers x := by
    intro x hx
    unfold InRange at hx
    unfold VmMapEntry.Covers
    bv_omega
  rw [hr.removed_iff (M := fun f => vm.Met v e f ∧ f ≠ e) (Q := fun f => f = n ∨ f = e ∧ vm.Met v e e) hin
    (fun f => (hl f).trans Vm.met_or_iff)
    (fun f hf => ⟨hf.1.linked hr.vmentry, hf.2, hc.other f (hf.1.linked hr.vmentry) hf.2⟩) ?_]
  · refine and_congr ?_ (and_congr ?_ (and_congr_left fun _ => ?_))
    · refine ⟨fun h hm => h e (.inr ⟨rfl, hm⟩), fun h q hq => ?_⟩
      rcases hq with rfl | ⟨rfl, hm⟩
      · intro x hx hx'
        have := ((hrest x).1 hx).2
        unfold InRange at hx'
        bv_omega
      · exact h hm
    · refine forall_congr' fun x => ⟨fun h hx hlt => ?_, fun h hx hx' => ?_⟩
      · obtain ⟨q, hq, hqx⟩ := h hx (by unfold InRange; bv_omega)
        rcases hq with rfl | ⟨rfl, hm⟩
        · have := ((hrest x).1 hqx).2
          bv_omega
        · exact ⟨hm, ((hself x).1 hqx).2⟩
      · by_cases hlt : x < offset
        · exact ⟨e, .inr ⟨rfl, (h hx hlt).1⟩, (hself x).2 ⟨hx, (h hx hlt).2⟩⟩
        · unfold InRange at hx'
          exact ⟨n, .inl rfl, (hrest x).2 ⟨hx, by bv_omega⟩⟩
    · exact forall_congr' fun f => imp_congr_right fun _ => imp_congr_right fun hfe =>
        or_congr_left (and_iff_left hfe)
  · rintro q (rfl | ⟨rfl, -⟩)
    · exact ⟨fun x hx => ((hrest x).1 hx).1, by rw [hc.rest], by rw [hc.rest], by rw [hc.rest]⟩
    · exact ⟨fun x hx => ((hself x).1 hx).1, by rw [hc.self], by rw [hc.self], by rw [hc.self]⟩

/-- What is left by a call whose range starts with the entry and ends inside of it: the new entry `n` has the rest. -/
structure FrontCut (vm vm' : Vm ε ω) (v e n : ε) (offset size : BitVec 32) : Prop where
  vmentry : vm'.map.vmentry = some v
  new : ¬ vm.Linked n
  start_eq : offset = (vm.entry e).start
  lt_end : offset + size < (vm.entry e).endAddr
  next : ∀ a, vm'.entries.next a = if a = vm.entries.prev e ∨ a = e ∨ a = n then n else vm.entries.next a
  entry : ∀ a, vm'.entry a = if a = e then { vm.entry e with endAddr := offset + size }
    else if a = n then { vm.entry e with start := offset + size } else vm.entry a
  freed : ∀ a, vm'.entryFreed a = if a = e then true else if a = n then false else vm.entryFreed a

section Front

variable (hr : Removable vm v e offset size) (hc : FrontCut vm vm' v e n offset size)

include hr hc

theorem FrontCut.cut : Cut vm vm' e n (offset + size) offset size := by
  have hne : ∀ {a}, vm.Linked a → a ≠ n := fun ha h => hc.new (h ▸ ha)
  have hend := hc.lt_end
  have hstart := hc.start_eq
  refine ⟨by bv_omega, hend, by bv_omega, by rw [hc.entry, if_pos rfl], ?_, fun f hf hfe => ?_⟩
  · rw [hc.entry, if_neg (hne hr.linked).symm, if_pos rfl]
  · rw [hc.entry, if_neg hfe, if_neg (hne hf)]

theorem FrontCut.linked_iff (f : ε) : vm'.Linked f ↔ vm.Met v e f ∨ f = n := by
  refine hr.linked_redirect hc.vmentry (fun a ha => ?_) (by rw [hc.next, if_pos (by simp)])
  have hne : a ≠ n := fun h => hc.new (h ▸ ha.linked hr.vmentry)
  rw [hc.next]
  simp only [hne, or_false]

theorem FrontCut.anchor_live (hme : ¬ vm.Met v e e) (u : ε) (hu : vm'.map.vmentry = some u) :
    vm'.entryFreed u = false := by
  rw [hc.vmentry] at hu
  cases hu
  have hve : v ≠ e := by
    rintro rfl
    exact hme (Reaches.refl ..)
  have hvn : v ≠ n := fun h => hc.new (h ▸ hr.anchor_linked)
  rw [hc.freed, if_neg hve, if_neg hvn]
  exact hr.live v hr.anchor_linked

theorem Removable.front_iff : Removed vm vm' offset size ↔
    ¬ vm.Met v e e ∧ ∀ f, vm.Linked f → f ≠ e → vm.Met v e f ∨ (vm.entry f).Inside offset size := by
  have hpos := hr.size_pos
  have hwrap := hr.no_wrap
  have hend := hc.lt_end
  have hstart := hc.start_eq
  rw [(hc.cut hr).removed_iff hr (hc.linked_iff hr)]
  constructor
  · intro h
    refine ⟨fun hme => ?_, h.2.2.1⟩
    -- an old entry that is still linked covers the range
    have hout := h.1 hme offset
    rw [(hc.cut hr).self] at hout
    unfold VmMapEntry.Covers InRange at hout
    bv_omega
  · intro h
    refine ⟨fun hme => absurd hme h.1, fun x hx hlt => ?_, h.2, hc.anchor_live hr h.1⟩
    unfold VmMapEntry.Covers at hx
    bv_omega

end Front

/-- What is left by a call whose range starts and ends properly inside of the entry: `n` has the range and is deleted,
`n'` has the rest. -/
structure MiddleCut (vm vm' : Vm ε ω) (v e n n' : ε) (offset size : BitVec 32) : Prop where
  vmentry : vm'.map.vmentry = some v
  new : ¬ vm.Linked n
  new' : ¬ vm.Linked n'
  new_ne : n ≠ n'
  start_lt : (vm.entry e).start < offset
  lt_end : offset + size < (vm.entry e).endAddr
  next : ∀ a, vm'.entries.next a = if a = vm.entries.prev e ∨ a = n ∨ a = n' then n'
    else if a = e then n else vm.entries.next a
  entry : ∀ a, vm'.entry a = if a = e then { vm.entry e with endAddr := offset }
    else if a = n then { vm.entry e with start := offset, endAddr := offset + size }
    else if a = n' then { vm.entry e with start := offset + size } else vm.entry a
  freed : ∀ a, vm'.entryFreed a = if a = n then true else if a = n' then false else vm.entryFreed a

section Middle

variable (hr : Removable vm v e offset size) (hc : MiddleCut vm vm' v e n n' offset size)

include hc

theorem MiddleCut.ne {a : ε} (ha : vm.Linked a) : a ≠ n ∧ a ≠ n' :=
  ⟨fun h => hc.new (h ▸ ha), fun h => hc.new' (h ▸ ha)⟩

include hr

theorem MiddleCut.cut : Cut vm vm' e n' offset offset size := by
  have hend := hc.lt_end
  have hstart := hc.start_lt
  have hwrap := hr.no_wrap
  refine ⟨by bv_omega, hend, by bv_omega, by rw [hc.entry, if_pos rfl], ?_, fun f hf hfe => ?_⟩
  · rw [hc.entry, if_neg (hc.ne hr.linked).2.symm, if_neg hc.new_ne.symm, if_pos rfl]
  · rw [hc.entry, if_neg hfe, if_neg (hc.ne hf).1, if_neg (hc.ne hf).2]

theorem MiddleCut.anchor_live (u : ε) (hu : vm'.map.vmentry = some u) : vm'.entryFreed u = false := by
  rw [hc.vmentry] at hu
  cases hu
  obtain ⟨h1, h2⟩ := hc.ne hr.anchor_linked
  rw [hc.freed, if_neg h1, if_neg h2]
  exact hr.live v hr.anchor_linked

theorem MiddleCut.linked_iff (hpe : vm.entries.prev e = e ∨ ¬ vm.Met v e e) (f : ε) :
    vm'.Linked f ↔ vm.Met v e f ∨ f = n' := by
  refine hr.linked_redirect hc.vmentry (fun a ha => ?_) (by rw [hc.next, if_pos (by simp)])
  obtain ⟨h1, h2⟩ := hc.ne (Vm.Met.linked hr.vmentry ha)
  rw [hc.next]
  simp only [h1, h2, or_false]
  by_cases hp : a = vm.entries.prev e
  · rw [if_pos hp, if_pos (.inl hp)]
  · have hae : a ≠ e := by
      rintro rfl
      rcases hpe with hpe | hpe
      · exact hp hpe.symm
      · exact hpe ha
    rw [if_neg hp, if_neg hae, if_neg (by simp [hp, hae])]

theorem MiddleCut.removed_iff (hpe : vm.entries.prev e = e ∨ ¬ vm.Met v e e) : Removed vm vm' offset size ↔
    vm.Met v e e ∧ ∀ f, vm.Linked f → f ≠ e → vm.Met v e f ∨ (vm.entry f).Inside offset size := by
  have hwrap := hr.no_wrap
  have hend := hc.lt_end
  have hstart := hc.start_lt
  rw [(hc.cut hr).removed_iff hr (hc.linked_iff hr hpe)]
  constructor
  · intro h
    -- only the old entry has the addresses below the range
    exact ⟨(h.2.1 (vm.entry e).start (by unfold VmMapEntry.Covers; bv_omega) hstart).1, h.2.2.1⟩
  · intro h
    refine ⟨fun _ x hx hx' => ?_, fun x _ hlt => ⟨h.1, hlt⟩, h.2, hc.anchor_live hr⟩
    rw [(hc.cut hr).self] at hx
    unfold VmMapEntry.Covers at hx
    unfold InRange at hx'
    bv_omega

theorem MiddleCut.deleted_linked (hpe : vm.entries.prev e ≠ e) (hme : vm.Met v e e) : vm'.Linked n := by
  have hle : vm'.Linked e := by
    rw [Vm.linked_iff_reaches hc.vmentry]
    refine hme.of_stopAt fun a ha hS => ?_
    rw [not_or] at hS
    obtain ⟨h1, h2⟩ := hc.ne (Vm.Met.linked hr.vmentry ha)
    rw [hc.next, if_neg (by simp [hS.1, h1, h2]), if_neg hS.2]
  have hln := hle.next
  obtain ⟨h1, h2⟩ := hc.ne hr.linked
  rwa [hc.next, if_neg (by simp [Ne.symm hpe, h1, h2]), if_pos rfl] at hln

theorem Removable.middle_iff : Removed vm vm' offset size ↔
    vm.entries.prev e = e ∧ ∀ f, vm.Linked f → vm.Met v e f ∨ (vm.entry f).Inside offset size := by
  by_cases hpe : vm.entries.prev e = e
  · have hme : vm.Met v e e := by
      obtain ⟨s, hs, hms⟩ := hr.exists_stop
      rw [hpe, or_self] at hs
      exact hs ▸ hms
    rw [hc.removed_iff hr (.inl hpe)]
    refine ⟨fun h => ⟨hpe, fun f hlf => ?_⟩, fun h => ⟨hme, fun f hlf _ => h.2 f hlf⟩⟩
    by_cases hfe : f = e
    · exact .inl (hfe ▸ hme)
    · exact h.2 f hlf hfe
  · refine ⟨fun h => ?_, fun h => absurd h.1 hpe⟩
    have hme : vm.Met v e e := by
      by_contra hme
      exact hme ((hc.removed_iff hr (.inr hme)).1 h).1
    have hpos := hr.size_pos
    have hwrap := hr.no_wrap
    have hout := h.gone n (hc.deleted_linked hr hpe hme) offset
    rw [hc.entry, if_neg (hc.ne hr.linked).1.symm, if_pos rfl] at hout
    unfold VmMapEntry.Covers InRange at hout
    bv_omega

end Middle

theorem Removable.back_not (hr : Removable vm v e offset size) (hv' : vm'.map.vmentry = some v)
    (hnew : ¬ vm.Linked n) (hend : offset < (vm.entry e).endAddr)
    (hn : ∀ a, vm'.entries.next a = if a = vm.entries.prev e ∨ a = e ∨ a = n then n else vm.entries.next a)
    (he : vm'.entry n = { vm.entry e with start := offset }) : ¬ Removed vm vm' offset size := by
  intro h
  have hpos := hr.size_pos
  have hwrap := hr.no_wrap
  have hl : vm'.Linked n := by
    refine (hr.linked_redirect hv' (fun a ha => ?_) (by rw [hn, if_pos (by simp)])).2 (.inr rfl)
    have hna : a ≠ n := fun h => hnew (h ▸ ha.linked hr.vmentry)
    rw [hn]
    simp only [hna, or_false]
  refine h.gone n hl offset ?_ ?_
  · rw [he]
    exact ⟨BitVec.le_refl _, hend⟩
  · unfold InRange
    bv_omega

end Cases

/-! ### The call -/

section Call

variable [DecidableEq ω] {vm vm' : Vm ε ω} {v e n n' : ε} {offset size : BitVec 32} {fuel : Nat} {ret : Int}

omit [DecidableEq ε] [DecidableEq ω] in
private theorem removeCorrect_zero : RemoveCorrect vm vm' offset size 0 ↔ Removed vm vm' offset size :=
  ⟨fun h => h.1 rfl, fun h => ⟨fun _ => h, fun h => absurd h (by omega)⟩⟩

omit [DecidableEq ε] [DecidableEq ω] in
private theorem removeCorrect_failed (hint : Option ε) : RemoveCorrect vm (vm.setHint hint) offset size (-1) :=
  ⟨fun h => absurd h (by omega), fun _ => ⟨fun _ => Iff.rfl, rfl⟩⟩

omit [DecidableEq ε] [DecidableEq ω] in
private theorem removeCorrect_setHint (hint : Option ε) :
    RemoveCorrect (vm.setHint hint) vm' offset size ret ↔ RemoveCorrect vm vm' offset size ret :=
  ⟨fun h => ⟨fun h0 => ⟨(h.1 h0).gone, (h.1 h0).kept, (h.1 h0).anchor⟩, h.2⟩,
    fun h => ⟨fun h0 => ⟨(h.1 h0).gone, (h.1 h0).kept, (h.1 h0).anchor⟩, h.2⟩⟩

theorem removeFound_of_start (hs : offset = (vm.entry e).start)
    (h : removeFound vm n n' e offset size = some (vm', ret)) :
    ret = 0 ∧ ∃ vm₁ r, vmMapEntryClip vm n' e (offset + size) = some (vm₁, r) ∧ deleteVmMapEntry vm₁ e = some vm' := by
  unfold removeFound at h
  rw [vmMapEntryClip_start hs] at h
  simp only at h
  split at h
  · cases h
  · rename_i vm₁ r hc
    obtain ⟨vm₂, hd, heq⟩ := Option.map_eq_some_iff.1 h
    cases heq
    exact ⟨rfl, vm₁, r, hc, hd⟩

theorem removeFound_of_inside (hv : vm.map.vmentry = some v) (hne : n ≠ e)
    (h1 : (vm.entry e).start < offset) (h2 : offset < (vm.entry e).endAddr)
    (h : removeFound vm n n' e offset size = some (vm', ret)) :
    ret = 0 ∧ ∃ vm₁ r vm₂ r', vmMapEntryClip vm n e offset = some (vm₁, r) ∧
      vmMapEntryClip vm₁ n' n (offset + size) = some (vm₂, r') ∧ deleteVmMapEntry vm₂ n = some vm' := by
  unfold removeFound at h
  split at h
  · cases h
  · rename_i hc
    cases (vmMapEntryClip_inside hv hne h1 h2 hc).1
  · rename_i vm₁ m hc
    cases (vmMapEntryClip_inside hv hne h1 h2 hc).1
    split at h
    · cases h
    · rename_i vm₂ r' hc'
      obtain ⟨vm₃, hd, heq⟩ := Option.map_eq_some_iff.1 h
      cases heq
      exact ⟨rfl, vm₁, _, vm₂, r', hc, hc', hd⟩

theorem Removable.start_correct (hr : Removable vm v e offset size) (hnew' : ¬ vm.Linked n')
    (hs : offset = (vm.entry e).start) (h : removeFound vm n n' e offset size = some (vm', ret)) :
    RemoveCorrect vm vm' offset size ret ↔ RemoveOkAt vm v e offset size := by
  have hpos := hr.size_pos
  have hwrap := hr.no_wrap
  have hlow : ¬ (vm.entry e).start < offset := by bv_omega
  obtain ⟨rfl, vm₁, r, hclip, hd⟩ := removeFound_of_start hs h
  rw [removeCorrect_zero]
  by_cases hend : offset + size < (vm.entry e).endAddr
  · have hne' : n' ≠ e := fun h => hnew' (h ▸ hr.linked)
    obtain ⟨dm, dn, de, df⟩ := delete_clip_spec hr.vmentry hne' (by bv_omega) hend hclip hd
    rw [hr.front_iff ⟨dm ▸ hr.vmentry, hnew', hs, hend, dn, de, df⟩]
    exact ⟨fun h => ⟨fun _ h' => absurd hend h', fun _ _ => h, fun h' => absurd h' hlow⟩,
      fun h => h.2.1 hs hend⟩
  · rw [vmMapEntryClip_none (by bv_omega) hend] at hclip
    cases hclip
    obtain ⟨dm, de, dn, df⟩ := deleteVmMapEntry_spec hr.vmentry hd
    rw [hr.whole_iff (dm ▸ hr.vmentry) (by rw [dn]; rfl) de df]
    exact ⟨fun h => ⟨fun _ _ => h, fun _ h' => absurd h' hend, fun h' => absurd h' hlow⟩,
      fun h => h.1 hs hend⟩

theorem Removable.inside_correct (hr : Removable vm v e offset size) (hnew : ¬ vm.Linked n)
    (hnew' : ¬ vm.Linked n') (hnn : n ≠ n') (hlow : (vm.entry e).start < offset) (hb : offset < (vm.entry e).endAddr)
    (h : removeFound vm n n' e offset size = some (vm', ret)) :
    RemoveCorrect vm vm' offset size ret ↔ RemoveOkAt vm v e offset size := by
  have hpos := hr.size_pos
  have hwrap := hr.no_wrap
  have hs : ¬ offset = (vm.entry e).start := by bv_omega
  have hne : n ≠ e := fun h => hnew (h ▸ hr.linked)
  have hne' : n' ≠ e := fun h => hnew' (h ▸ hr.linked)
  obtain ⟨rfl, vm₁, r, vm₂, r', hclip, hclip', hd⟩ := removeFound_of_inside hr.vmentry hne hlow hb h
  rw [removeCorrect_zero]
  by_cases hend : offset + size < (vm.entry e).endAddr
  · have hlt : offset < offset + size := by bv_omega
    obtain ⟨dm, dn, de, df⟩ := delete_middle_spec hr.vmentry hne hne' hnn hlow hlt hend hclip hclip' hd
    rw [hr.middle_iff ⟨dm ▸ hr.vmentry, hnew, hnew', hnn, hlow, hend, dn, de, df⟩]
    exact ⟨fun h => ⟨fun h' => absurd h' hs, fun h' => absurd h' hs, fun _ _ => ⟨hend, h⟩⟩,
      fun h => (h.2.2 hlow hb).2⟩
  · have hcn : vm₁.entry n = { vm.entry e with start := offset } := by
      rw [(vmMapEntryClip_inside hr.vmentry hne hlow hb hclip).2.2.2.2.1, update_of_ne hne,
        update_self]
    rw [vmMapEntryClip_of_not_inside (by rw [hcn]; exact fun h => hend h.2)] at hclip'
    cases hclip'
    obtain ⟨dm, dn, de, -⟩ := delete_new_spec hr.vmentry hne hlow hb hclip hd
    exact ⟨fun h => absurd h (hr.back_not (dm ▸ hr.vmentry) hnew hb dn de),
      fun h => absurd (h.2.2 hlow hb).1 hend⟩

omit [DecidableEq ω] in
private theorem removeOk_iff (hw : vm.Wf) (hv : vm.map.vmentry = some v) (hfind : vm.Finds offset (some e)) :
    RemoveOk vm offset size ↔ RemoveOkAt vm v e offset size := by
  refine ⟨fun h => h v e hv hfind, fun h v' e' hv' hfind' => ?_⟩
  cases hfind.unique hw hfind'
  rw [hv] at hv'
  cases hv'
  exact h

/-- For every map with disjoint entries and every range, the call is correct exactly if the condition holds. -/
theorem map_remove_correct (hw : vm.Wf) (hd : vm.DisjointEntries) (hlive : ∀ f, vm.Linked f → vm.entryFreed f = false)
    (_hobj : ∀ f, vm.Linked f → (vm.entry f).object ≠ none) (hpos : 0 < size)
    (hwrap : offset.toNat + size.toNat < 2 ^ 32) (hnew : ¬ vm.Linked n) (hnew' : ¬ vm.Linked n') (hnn : n ≠ n')
    (h : vmMapRemove vm fuel n n' offset size = some (vm', ret)) :
    RemoveCorrect vm vm' offset size ret ↔ RemoveOk vm offset size := by
  unfold vmMapRemove at h
  cases hl : vmMapLookupEntry vm fuel offset with
  | none => simp [hl] at h
  | some t =>
    obtain ⟨vm₁, res⟩ := t
    have hfind : vm.Finds offset res := ⟨fuel, vm₁, hl⟩
    obtain ⟨⟨hint, rfl, -⟩, hres, -⟩ := vmMapLookupEntry_spec hw hl
    cases res with
    | none =>
      simp only [hl, Option.some.injEq, Prod.mk.injEq] at h
      obtain ⟨rfl, rfl⟩ := h
      refine ⟨fun _ v e _ hfind' => ?_, fun _ => removeCorrect_failed hint⟩
      cases hfind.unique hw hfind'
    | some e =>
      obtain ⟨he, hin⟩ := hres e rfl
      rw [VmMapEntry.within_iff] at hin
      obtain ⟨v, hv, -⟩ := id he
      -- the hint is read by the lookup only
      have hr : Removable (vm.setHint hint) v e offset size := ⟨hv, he, hd, hlive, hpos, hwrap⟩
      rw [removeOk_iff hw hv hfind]
      simp only [hl] at h
      rw [← removeCorrect_setHint hint]
      by_cases hs : offset = (vm.entry e).start
      · exact hr.start_correct hnew' hs h
      · by_cases hb : offset < (vm.entry e).endAddr
        · exact hr.inside_correct hnew hnew' hnn (show (vm.entry e).start < offset by bv_omega) hb h
        · have hclip : vmMapEntryClip (vm.setHint hint) n e offset = some (vm.setHint hint, none) :=
            vmMapEntryClip_none hs hb
          simp only [removeFound, hclip] at h
          cases h
          exact ⟨fun _ => ⟨fun h => absurd h hs, fun h => absurd h hs, fun _ h => absurd h hb⟩,
            fun _ => removeCorrect_failed (vm.setHint hint).map.hint⟩

theorem vmMapEntryClip_objects {vm₁ : Vm ε ω} {start : BitVec 32} {r : Option ε} (hv : vm.map.vmentry = some v)
    (hne : n ≠ e) (h : vmMapEntryClip vm n e start = some (vm₁, r)) :
    (vm₁.entry e).object = (vm.entry e).object ∧ (r = some e ∨ r = none ∨ r = some n ∧
      (vm₁.entry n).object = (vm.entry e).object) ∧ vm₁.map = vm.map := by
  by_cases hin : (vm.entry e).start < start ∧ start < (vm.entry e).endAddr
  · obtain ⟨rfl, hm, -, -, he, -⟩ := vmMapEntryClip_inside hv hne hin.1 hin.2 h
    rw [he, update_self, update_of_ne hne, update_self]
    exact ⟨rfl, .inr (.inr ⟨rfl, rfl⟩), hm⟩
  · rw [vmMapEntryClip_of_not_inside hin] at h
    cases h
    refine ⟨rfl, ?_, rfl⟩
    split
    · exact .inl rfl
    · exact .inr (.inl rfl)

private theorem vmMapEntryClip_total (start : BitVec 32) (hne : n ≠ e) (ho : (vm.entry e).object ≠ none) :
    ∃ t, vmMapEntryClip vm n e start = some t := by
  by_cases hin : (vm.entry e).start < start ∧ start < (vm.entry e).endAddr
  · exact (vmMapEntryClip_object hin.1 hin.2 hne).2 ho
  · exact ⟨_, vmMapEntryClip_of_not_inside hin⟩

theorem removeFound_total (hv : vm.map.vmentry = some v) (hne : n ≠ e) (hne' : n' ≠ e) (hnn : n ≠ n')
    (ho : (vm.entry e).object ≠ none) : ∃ t, removeFound vm n n' e offset size = some t := by
  have hdel : ∀ {vm₁ : Vm ε ω} {m : ε}, vm₁.map = vm.map → n' ≠ m → (vm₁.entry m).object ≠ none →
      ∃ vm₂ r vm₃, vmMapEntryClip vm₁ n' m (offset + size) = some (vm₂, r) ∧ deleteVmMapEntry vm₂ m = some vm₃ := by
    intro vm₁ m hm hnm hom
    obtain ⟨⟨vm₂, r⟩, hc⟩ := vmMapEntryClip_total (offset + size) hnm hom
    obtain ⟨o, ho'⟩ := Option.ne_none_iff_exists'.1 hom
    rw [← (vmMapEntryClip_objects (hm ▸ hv) hnm hc).1] at ho'
    exact ⟨vm₂, r, _, hc, by rw [deleteVmMapEntry, ho']⟩
  obtain ⟨⟨vm₁, r⟩, hc⟩ := vmMapEntryClip_total offset hne ho
  obtain ⟨hobj, hr, hm⟩ := vmMapEntryClip_objects hv hne hc
  unfold removeFound
  rw [hc]
  rcases hr with rfl | rfl | ⟨rfl, hon⟩
  · obtain ⟨vm₂, r', vm₃, hc', hd⟩ := hdel hm hne' (hobj ▸ ho)
    exact ⟨(vm₃, 0), by simp only [hc', hd, Option.map_some]⟩
  · exact ⟨_, rfl⟩
  · obtain ⟨vm₂, r', vm₃, hc', hd⟩ := hdel hm hnn.symm (hon ▸ ho)
    exact ⟨(vm₃, 0), by simp only [hc', hd, Option.map_some]⟩

theorem vmMapRemove_total (hw : vm.Wf) (hobj : ∀ f, vm.Linked f → (vm.entry f).object ≠ none) (hnew : ¬ vm.Linked n)
    (hnew' : ¬ vm.Linked n') (hnn : n ≠ n') (offset size : BitVec 32) :
    ∃ m, ∀ fuel, m < fuel → ∃ t, vmMapRemove vm fuel n n' offset size = some t := by
  obtain ⟨m, hm⟩ := vmMapLookupEntry_total hw offset
  refine ⟨m, fun fuel hf => ?_⟩
  obtain ⟨⟨vm₁, res⟩, hl⟩ := hm fuel hf
  obtain ⟨⟨hint, rfl, -⟩, hsome, -⟩ := vmMapLookupEntry_spec hw hl
  unfold vmMapRemove
  rw [hl]
  cases res with
  | none => exact ⟨_, rfl⟩
  | some e =>
    obtain ⟨he, -⟩ := hsome e rfl
    obtain ⟨v, hv, -⟩ := id he
    exact removeFound_total hv (fun h => hnew (h ▸ he)) (fun h => hnew' (h ▸ he)) hnn (hobj e he)

theorem vmMapRemove_unique (hw : vm.Wf) {fuel' : Nat} {t t' : Vm ε ω × Int}
    (h : vmMapRemove vm fuel n n' offset size = some t) (h' : vmMapRemove vm fuel' n n' offset size = some t') :
    t = t' := by
  unfold vmMapRemove at h h'
  cases hl : vmMapLookupEntry vm fuel offset with
  | none => simp [hl] at h
  | some u =>
    cases hl' : vmMapLookupEntry vm fuel' offset with
    | none => simp [hl'] at h'
    | some u' =>
      obtain rfl := vmMapLookupEntry_unique hw hl hl'
      rw [hl] at h
      rw [hl'] at h'
      exact Option.some.inj (h.symm.trans h')

end Call

/-! ### Lists that are well formed in both directions -/

section Ring

variable {vm : Vm ε ω} {v e f : ε} {us vs xs : List ε} {offset size : BitVec 32}

/-- The walk to `e` meets the entries in front of `e`. -/
theorem met_iff_of_ring (hring : IsRing vm.entries v (us ++ e :: vs)) : vm.Met v e f ↔ f ∈ v :: us := by
  have hnd := hring.nodup
  rw [← cons_append] at hnd
  have hsep := (nodup_append.1 hnd).2.2
  have hprev := hring.prev_mid
  constructor
  · intro h
    refine h.induct (P := fun f => f ∈ v :: us) (mem_cons_self ..) fun a _ ha => ?_
    unfold stopAt
    split
    · exact ha
    · rename_i hS
      obtain ⟨us₁, us₂, rfl, hlast⟩ := exists_split ha
      have hn := hring.next
      rw [append_assoc] at hn
      have hn := hn.apply_split
      rw [hlast] at hn
      cases us₂ with
      | nil =>
        rw [append_nil] at hprev
        exact absurd (.inl (hlast.symm.trans hprev.symm)) hS
      | cons u us₂ =>
        rw [hn]
        simp
  · intro h
    rcases mem_cons.1 h with rfl | h
    · exact Reaches.refl ..
    · obtain ⟨as, bs, rfl⟩ := append_of_mem h
      have hn := hring.next
      rw [append_assoc, cons_append, path_append_cons] at hn
      refine Path.reaches (hn.1.congr fun y hy => ?_)
      have hy' : y ∈ v :: (as ++ f :: bs) := mem_append_left (f :: bs) hy
      have hye : y ≠ e := hsep y hy' e (mem_cons_self ..)
      have hyp : y ≠ vm.entries.prev e := by
        rw [hprev]
        intro he
        have hl : y ∈ f :: bs := by
          rw [he]
          have := getLast_mem (l := f :: bs) (by simp)
          rwa [← getLast_append_of_ne_nil (l := v :: as) (by simp)] at this
        have hnd' := (nodup_append.1 hnd).1
        rw [← cons_append] at hnd'
        exact (nodup_append.1 hnd').2.2 y hy y hl rfl
      exact if_neg (by simp [hyp, hye])

private theorem reaches_unlink_iff_of_ring (hring : IsRing vm.entries v (us ++ e :: vs)) :
    Reaches (update vm.entries.next (vm.entries.prev e) (vm.entries.next e)) v f ↔ f ∈ v :: (us ++ vs) := by
  have hu := hring.unlink
  have hc : IsCircle (vm.entries.unlink e).next v (us ++ vs) := ⟨hu.nodup, hu.next⟩
  exact hc.reaches_iff

omit [DecidableEq ε] in
theorem linked_iff_of_ring (hv : vm.map.vmentry = some v) (hring : IsRing vm.entries v xs) :
    vm.Linked f ↔ f ∈ v :: xs :=
  Vm.linked_iff hv ⟨hring.nodup, hring.next⟩

/-- For an entry behind the anchor: if the range starts with the entry and does not end inside of it, no other entry may
have an address of the range; if it ends inside of it, the entry must be the last one; and the range may not start
properly inside of the entry. -/
theorem removeOkAt_iff_of_ring (hv : vm.map.vmentry = some v) (hring : IsRing vm.entries v (us ++ e :: vs))
    (hd : vm.DisjointEntries) (hne : ∀ f, vm.Linked f → (vm.entry f).start < (vm.entry f).endAddr) :
    RemoveOkAt vm v e offset size ↔ (offset = (vm.entry e).start → ¬ offset + size < (vm.entry e).endAddr →
        ∀ f, vm.Linked f → f ≠ e → (vm.entry f).Outside offset size) ∧
      (offset = (vm.entry e).start → offset + size < (vm.entry e).endAddr → vs = []) ∧
      ¬ ((vm.entry e).start < offset ∧ offset < (vm.entry e).endAddr) := by
  have hl : ∀ f, vm.Linked f ↔ f = e ∨ f ∈ v :: (us ++ vs) := by
    intro f
    rw [linked_iff_of_ring hv hring]
    simp only [mem_cons, mem_append]
    tauto
  have hle : vm.Linked e := (hl e).2 (.inl rfl)
  have hmem : e ∉ v :: (us ++ vs) := by
    have hnd := hring.nodup
    rw [← cons_append, nodup_middle] at hnd
    exact (nodup_cons.1 hnd).1
  have hev : e ≠ v := fun h => hmem (h ▸ mem_cons_self ..)
  refine and_congr ?_ (and_congr ?_ ?_)
  · refine imp_congr_right fun hs => imp_congr_right fun hend =>
      ⟨fun h f hf hfe => ?_, fun h => ⟨hev, fun f hf => ?_⟩⟩
    · exact (h.2 f hf).1 ((reaches_unlink_iff_of_ring hring).2 (((hl f).1 hf).resolve_left hfe))
    · rw [reaches_unlink_iff_of_ring hring]
      refine ⟨fun hm => h f hf fun hfe => hmem (hfe ▸ hm), fun hm x hx => ?_⟩
      obtain rfl := ((hl f).1 hf).resolve_right hm
      unfold VmMapEntry.Covers at hx
      unfold InRange
      bv_omega
  · refine imp_congr_right fun hs => imp_congr_right fun hend =>
      ⟨fun h => ?_, fun h => ⟨?_, fun f hf hfe => .inl ?_⟩⟩
    · -- an entry behind `e` would have to be inside of the range, and so of `e`
      by_contra hvs
      obtain ⟨g, gs, rfl⟩ := exists_cons_of_ne_nil hvs
      have hg : vm.Linked g := (hl g).2 (.inr (by simp))
      have hge : g ≠ e := fun h => hmem (h ▸ by simp)
      rcases h.2 g hg hge with hm | hin
      · rw [met_iff_of_ring hring] at hm
        have hnd := hring.nodup
        rw [← cons_append] at hnd
        exact (nodup_append.1 hnd).2.2 g hm g (by simp) rfl
      · have hcov : (vm.entry g).Covers (vm.entry g).start := ⟨BitVec.le_refl _, hne g hg⟩
        have hr := hin _ hcov
        refine hd g e hg hle hge _ hcov ?_
        unfold InRange at hr
        unfold VmMapEntry.Covers
        bv_omega
    · rw [met_iff_of_ring hring]
      exact fun hm => hmem (mem_append_left vs hm)
    · subst h
      rw [met_iff_of_ring hring]
      simpa using ((hl f).1 hf).resolve_left hfe
  · refine ⟨fun h hb => ?_, fun h h1 h2 => absurd ⟨h1, h2⟩ h⟩
    exact hring.prev_ne (by simp) (h hb.1 hb.2).2.1

/-- For the anchor: the range may not start with it, and a range that starts properly inside of it must end inside of
it, and there may be no other entry. -/
theorem removeOkAt_anchor_iff_of_ring (hv : vm.map.vmentry = some v) (hring : IsRing vm.entries v xs) :
    RemoveOkAt vm v v offset size ↔ offset ≠ (vm.entry v).start ∧
      ((vm.entry v).start < offset → offset < (vm.entry v).endAddr →
        offset + size < (vm.entry v).endAddr ∧ xs = []) := by
  have hmet : vm.Met v v v := Reaches.refl ..
  have hprev : vm.entries.prev v = v ↔ xs = [] := by
    constructor
    · intro hp
      rcases eq_nil_or_concat xs with h | ⟨ys, y, rfl⟩
      · exact h
      · rw [concat_eq_append] at hring
        have hy := lastEntry_concat hring
        unfold lastEntry at hy
        have hnd := hring.nodup
        rw [← hy, hp] at hnd
        simp at hnd
    · rintro rfl
      exact hring.prev
  constructor
  · intro h
    refine ⟨fun hs => ?_, fun h1 h2 => ?_⟩
    · by_cases hend : offset + size < (vm.entry v).endAddr
      · exact (h.2.1 hs hend).1 hmet
      · exact (h.1 hs hend).1 rfl
    · exact ⟨(h.2.2 h1 h2).1, hprev.1 (h.2.2 h1 h2).2.1⟩
  · intro h
    refine ⟨fun hs => absurd hs h.1, fun hs => absurd hs h.1, fun h1 h2 => ?_⟩
    obtain ⟨hend, hxs⟩ := h.2 h1 h2
    refine ⟨hend, hprev.2 hxs, fun f hf => .inl ?_⟩
    rw [linked_iff_of_ring hv hring, hxs, mem_singleton] at hf
    rw [hf]
    exact hmet

end Ring

/-! ### A map with two entries -/

/-- Two entries on a list that is well formed in both directions. -/
def twoEntryMap : Vm Nat Unit where
  map := { vmentry := some 0, start := 0, endAddr := 0xDFFFFFFF, hint := none }
  entries := ⟨fun a => if a = 0 then 1 else 0, fun a => if a = 0 then 1 else 0⟩
  entry a := if a = 0 then ⟨0x1000, 0x3000, some (), 2, 0⟩ else ⟨0x5000, 0x6000, some (), 2, 0⟩
  entryFreed _ := false
  refCount _ := 2
  objectFreed _ := false

theorem twoEntryMap_circle : IsCircle twoEntryMap.entries.next 0 [1] := ⟨by decide, rfl, rfl⟩

private theorem twoEntryMap_linked {e : Nat} : twoEntryMap.Linked e ↔ e = 0 ∨ e = 1 := by
  rw [Vm.linked_iff rfl twoEntryMap_circle, mem_cons, mem_singleton]

private theorem twoEntryMap_wf : twoEntryMap.Wf := by
  refine ⟨fun v hv => ?_, fun h hh => ?_⟩
  · cases hv
    exact ⟨[1], twoEntryMap_circle⟩
  · cases hh

private theorem twoEntryMap_disjoint : twoEntryMap.DisjointEntries := by
  have h01 : ∀ x, (twoEntryMap.entry 0).Covers x → ¬ (twoEntryMap.entry 1).Covers x := by
    intro x hx hx'
    have h1 : x < 0x3000 := hx.2
    have h2 : 0x5000 ≤ x := hx'.1
    bv_omega
  intro e f he hf hne x hx hx'
  rcases twoEntryMap_linked.1 he with rfl | rfl <;> rcases twoEntryMap_linked.1 hf with rfl | rfl
  · exact hne rfl
  · exact h01 x hx hx'
  · exact h01 x hx' hx
  · exact hne rfl

theorem twoEntryMap_object {e : Nat} : (twoEntryMap.entry e).object ≠ none := by
  simp only [twoEntryMap]
  split <;> simp

/-- The entry behind the anchor is removed as a whole. -/
theorem map_remove_correct_whole : ∃ vm, vmMapRemove twoEntryMap 4 2 3 0x5000 0x1000 = some (vm, 0) ∧
    RemoveCorrect twoEntryMap vm 0x5000 0x1000 0 := by
  have h : vmMapRemove twoEntryMap 4 2 3 0x5000 0x1000 =
      some (((vmMapRemove twoEntryMap 4 2 3 0x5000 0x1000).get rfl).1, 0) := rfl
  refine ⟨_, h, (map_remove_correct twoEntryMap_wf twoEntryMap_disjoint (fun _ _ => rfl)
    (fun _ _ => twoEntryMap_object) (by decide) (by decide) (by simp [twoEntryMap_linked])
    (by simp [twoEntryMap_linked]) (by decide) h).2 ?_⟩
  rw [removeOk_iff (v := 0) (e := 1) twoEntryMap_wf rfl ⟨4, _, rfl⟩]
  have hstay : ∀ f, Reaches (update twoEntryMap.entries.next (twoEntryMap.entries.prev 1)
      (twoEntryMap.entries.next 1)) 0 f → f = 0 := by
    intro f hf
    refine hf.induct (P := fun f => f = 0) rfl fun a _ ha => ?_
    rw [ha]
    rfl
  refine ⟨fun _ _ => ⟨by decide, fun f hf => ⟨fun hk => ?_, fun hk => ?_⟩⟩, fun _ h => absurd h (by decide),
    fun h => absurd h (by decide)⟩
  · rw [hstay f hk]
    intro x hx hx'
    have h1 : x < 0x3000 := hx.2
    have h2 : 0x5000 ≤ x := hx'.1
    bv_omega
  · rcases twoEntryMap_linked.1 hf with rfl | rfl
    · exact absurd (Reaches.refl ..) hk
    · exact fun x hx => hx

/-- Removing the upper half of the first entry returns 0, but the new entry with that half stays on the list, and the
second entry is lost. -/
theorem remove_keeps_range_and_loses_entry : twoEntryMap.Wf ∧ twoEntryMap.DisjointEntries ∧
    (∀ e, (twoEntryMap.entry e).object ≠ none) ∧ ∃ vm, vmMapRemove twoEntryMap 4 2 3 0x2000 0x1000 = some (vm, 0) ∧
      vm.Linked 2 ∧ vm.entry 2 = ⟨0x2000, 0x3000, some (), 2, 0⟩ ∧ ¬ vm.Linked 1 ∧
      ¬ RemoveCorrect twoEntryMap vm 0x2000 0x1000 0 := by
  refine ⟨twoEntryMap_wf, twoEntryMap_disjoint, fun _ => twoEntryMap_object, _, rfl, ⟨0, rfl, 1, rfl⟩,
    by decide +kernel, fun h => ?_, fun h => ?_⟩
  · obtain ⟨v, hv, h⟩ := h
    cases hv
    have hor : 1 = 0 ∨ 1 = 2 := h.induct (P := fun f => f = 0 ∨ f = 2) (.inl rfl) fun a _ ha => by
      rcases ha with rfl | rfl <;> exact .inr rfl
    omega
  · refine (h.1 rfl).gone 2 ⟨0, rfl, 1, rfl⟩ 0x2000 ?_ ?_
    · unfold VmMapEntry.Covers
      decide +kernel
    · unfold InRange
      decide

end Manrix
