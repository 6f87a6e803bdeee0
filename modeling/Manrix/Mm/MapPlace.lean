import Manrix.Mm.VmMap

/-!
# What a request to a map comes to

The map before a request decides what `vm_map_enter` does with it (`Settles`): it is refused, an entry is made longer,
or a new entry is put behind another one's range or at the requested address.  `vmMapEnter_effect` says what becomes of
the set of linked entries.

The loops rely on a list sorted by address, but a new entry is put behind the first higher one, and the search for room
compares the end computed from the entry before the one it stops at.  `SearchStops` and `Blocked` are these two loops.
-/

namespace Manrix

open Function Links

variable {ε ω : Type*} [DecidableEq ε]

/-- The lookup of the address has the result `res`. -/
def Vm.Finds (vm : Vm ε ω) (address : BitVec 32) (res : Option ε) : Prop :=
  ∃ fuel vm', vmMapLookupEntry vm fuel address = some (vm', res)

section Scans

variable (next : ε → ε) (entry : ε → VmMapEntry ω) (v : ε)

/-- The search for room that has come to an entry with the value `en` of `end` stops at the entry `c`: at the last one,
or at one whose successor starts above `en`.  Behind the entry `e` the search goes on with `e->end + size`. -/
inductive SearchStops (size : BitVec 32) : ε → BitVec 32 → ε → Prop
  | last {e : ε} {en : BitVec 32} : next e = v → SearchStops size e en e
  | room {e : ε} {en : BitVec 32} : en < (entry (next e)).start → SearchStops size e en e
  | next {e c : ε} {en : BitVec 32} : next e ≠ v → ¬ en < (entry (next e)).start →
      SearchStops size (next e) ((entry e).endAddr + size) c → SearchStops size e en c

/-- The scan for a conflict with `[start, en)` that has come to an entry meets one before it meets an entry that starts
above `start` and not below `en`. -/
inductive Blocked (start en : BitVec 32) : ε → Prop
  | inside {e : ε} : (entry e).start < en → en < (entry e).endAddr → Blocked start en e
  | above {e : ε} : start < (entry e).start → (entry e).start < en → Blocked start en e
  | next {e : ε} : ¬ start < (entry e).start → next e ≠ v → Blocked start en (next e) → Blocked start en e

end Scans

/-- What becomes of a request. -/
inductive Place (ε : Type*) where
  | refused
  | extend (c : ε)
  | behind (c : ε)
  | gap

def Request.fixed (r : Request ε ω) : Prop := r.attributes &&& vmMapEntryObjectFixed ≠ 0

/-- The request comes to `p`. -/
inductive Settles (vm : Vm ε ω) (r : Request ε ω) : Place ε → Prop
  | empty : vm.map.vmentry = none → Settles vm r .gap
  | fixed {v e : ε} : vm.map.vmentry = some v → vm.Finds r.address (some e) → r.fixed → Settles vm r .refused
  | extend {v e c : ε} : vm.map.vmentry = some v → vm.Finds r.address (some e) → ¬ r.fixed →
      SearchStops vm.entries.next vm.entry v r.size e ((vm.entry e).endAddr + r.size) c →
      r.merges (vm.entry c) = true → Settles vm r (.extend c)
  | behind {v e c : ε} : vm.map.vmentry = some v → vm.Finds r.address (some e) → ¬ r.fixed →
      SearchStops vm.entries.next vm.entry v r.size e ((vm.entry e).endAddr + r.size) c →
      r.merges (vm.entry c) = false → Settles vm r (.behind c)
  | blocked {v : ε} : vm.map.vmentry = some v → vm.Finds r.address none →
      Blocked vm.entries.next vm.entry v r.address (r.address + r.size) v → Settles vm r .refused
  | gap {v : ε} : vm.map.vmentry = some v → vm.Finds r.address none →
      ¬ Blocked vm.entries.next vm.entry v r.address (r.address + r.size) v → Settles vm r .gap

omit [DecidableEq ε] in
theorem SearchStops.unique {next : ε → ε} {entry : ε → VmMapEntry ω} {v e c c' : ε} {size en : BitVec 32}
    (h : SearchStops next entry v size e en c) (h' : SearchStops next entry v size e en c') : c = c' := by
  induction h with
  | last hl =>
    cases h' with
    | last => rfl
    | room => rfl
    | next hn => exact absurd hl hn
  | room hr =>
    cases h' with
    | last => rfl
    | room => rfl
    | next _ hn => exact absurd hr hn
  | next hn hr _ ih =>
    cases h' with
    | last hl => exact absurd hl hn
    | room hr' => exact absurd hr' hr
    | next _ _ h => exact ih h

theorem Vm.Finds.unique {vm : Vm ε ω} (hw : vm.Wf) {address : BitVec 32} {res res' : Option ε}
    (h : vm.Finds address res) (h' : vm.Finds address res') : res = res' := by
  obtain ⟨fuel, vm₁, h⟩ := h
  obtain ⟨fuel', vm₂, h'⟩ := h'
  exact congrArg Prod.snd (vmMapLookupEntry_unique hw h h')

theorem Settles.unique {vm : Vm ε ω} (hw : vm.Wf) {r : Request ε ω} {p p' : Place ε} (h : Settles vm r p)
    (h' : Settles vm r p') : p = p' := by
  -- the entry found, the entry the search stops at and whether the scan is blocked are determined
  have hfind {a b : Option ε} (ha : vm.Finds r.address a) (hb : vm.Finds r.address b) : a = b :=
    ha.unique hw hb
  cases h <;> cases h' <;> grind [SearchStops.unique]

section Loops

variable {vm : Vm ε ω} {v e c : ε} {size start en : BitVec 32} {fuel : Nat}

omit [DecidableEq ε] in
theorem SearchStops.linked (h : SearchStops vm.entries.next vm.entry v size e en c) (he : vm.Linked e) :
    vm.Linked c := by
  induction h with
  | last => exact he
  | room => exact he
  | next _ _ _ ih => exact ih he.next

private theorem searchLoop_inl (h : circleLoop vm.entries.next v (searchBody vm v size) fuel e en = some (.inl c)) :
    SearchStops vm.entries.next vm.entry v size e en c := by
  induction fuel generalizing e en with
  | zero => exact absurd h (by simp [circleLoop])
  | succ fuel ih =>
    unfold circleLoop searchBody at h
    by_cases hl : vm.entries.next e = v
    · simp only [if_pos hl, Option.some.injEq, Sum.inl.injEq] at h
      exact h ▸ .last hl
    · by_cases hr : en < (vm.entry (vm.entries.next e)).start
      · simp only [if_neg hl, if_pos hr, Option.some.injEq, Sum.inl.injEq] at h
        exact h ▸ .room hr
      · simp only [if_neg hl, if_neg hr] at h
        exact .next hl hr (ih h)

theorem searchLoop_not_inr {t : BitVec 32} :
    circleLoop vm.entries.next v (searchBody vm v size) fuel e en ≠ some (.inr t) := by
  induction fuel generalizing e en with
  | zero => simp [circleLoop]
  | succ fuel ih =>
    unfold circleLoop searchBody
    by_cases hl : vm.entries.next e = v
    · simp [hl]
    · by_cases hr : en < (vm.entry (vm.entries.next e)).start
      · simp [hl, hr]
      · simp only [if_neg hl, if_neg hr]
        exact ih

omit [DecidableEq ε] in
private theorem blocked_iff : Blocked vm.entries.next vm.entry v start en e ↔
    (en > (vm.entry e).start ∧ en < (vm.entry e).endAddr) ∨ (start < (vm.entry e).start ∧ en > (vm.entry e).start) ∨
    (¬ start < (vm.entry e).start ∧ vm.entries.next e ≠ v ∧
      Blocked vm.entries.next vm.entry v start en (vm.entries.next e)) := by
  constructor
  · intro h
    cases h with
    | inside h1 h2 => exact .inl ⟨h1, h2⟩
    | above h1 h2 => exact .inr (.inl ⟨h1, h2⟩)
    | next h1 h2 h3 => exact .inr (.inr ⟨h1, h2, h3⟩)
  · rintro (⟨h1, h2⟩ | ⟨h1, h2⟩ | ⟨h1, h2, h3⟩)
    exacts [.inside h1 h2, .above h1 h2, .next h1 h2 h3]

/-- The scan is refused exactly if it is blocked, and otherwise the entry it stops at is linked. -/
private theorem fixedLoop_spec {t : Option ε ⊕ Unit}
    (h : circleLoop vm.entries.next v (fixedBody vm start en) fuel e () = some t) (he : vm.Linked e) :
    (t = .inl none ↔ Blocked vm.entries.next vm.entry v start en e) ∧ ∀ c, t = .inl (some c) → vm.Linked c := by
  induction fuel generalizing e with
  | zero => exact absurd h (by simp [circleLoop])
  | succ fuel ih =>
    rw [blocked_iff]
    unfold circleLoop fixedBody at h
    by_cases h1 : en > (vm.entry e).start ∧ en < (vm.entry e).endAddr
    · simp only [if_pos h1, Option.some.injEq] at h
      subst h
      exact ⟨iff_of_true rfl (.inl h1), by simp⟩
    · by_cases h2 : start < (vm.entry e).start
      · by_cases h3 : en > (vm.entry e).start
        · simp only [if_neg h1, if_pos h2, if_pos h3, Option.some.injEq] at h
          subst h
          exact ⟨iff_of_true rfl (.inr (.inl ⟨h2, h3⟩)), by simp⟩
        · simp only [if_neg h1, if_pos h2, if_neg h3, Option.some.injEq] at h
          subst h
          refine ⟨iff_of_false (by simp) (by simp [h2, h3]), fun c hc => ?_⟩
          cases hc
          exact he
      · by_cases h4 : vm.entries.next e = v
        · simp only [if_neg h1, if_neg h2, if_pos h4, Option.some.injEq] at h
          subst h
          exact ⟨iff_of_false (by simp) (by simp [h1, h2, h4]), by simp⟩
        · simp only [if_neg h1, if_neg h2, if_neg h4] at h
          obtain ⟨hb, hc⟩ := ih h he.next
          exact ⟨hb.trans (by simp [h1, h2, h4]), hc⟩

end Loops

/-- The entries are the same. -/
def SameEntries (vm vm' : Vm ε ω) : Prop := (∀ e, vm'.Linked e ↔ vm.Linked e) ∧ vm'.entry = vm.entry

/-- A new entry with the range of `size` bytes from `start` on, unless the range ends past the end of the map. -/
def CreateEffect (vm : Vm ε ω) (r : Request ε ω) (start : BitVec 32) (vm' : Vm ε ω) (ret : Int)
    (address : BitVec 32) : Prop :=
  (start + r.size > vm.map.endAddr ∧ ret < 0 ∧ SameEntries vm vm') ∨
  (¬ start + r.size > vm.map.endAddr ∧ ret = 0 ∧ address = start ∧
    (∀ e, vm'.Linked e ↔ e = r.new ∨ vm.Linked e) ∧
    vm'.entry = update vm.entry r.new { vm.entry r.new with
      object := r.object, start := start, endAddr := start + r.size, type := r.attributes.setWidth 16 })

/-- What a request that comes to a place does. -/
def Place.Effect (vm : Vm ε ω) (r : Request ε ω) (vm' : Vm ε ω) (ret : Int) (address : BitVec 32) :
    Place ε → Prop
  | .refused => ret < 0 ∧ SameEntries vm vm'
  | .extend c => vm.Linked c ∧ ret = 0 ∧ address = (vm.entry c).endAddr ∧ (∀ e, vm'.Linked e ↔ vm.Linked e) ∧
      vm'.entry = update vm.entry c { vm.entry c with endAddr := (vm.entry c).endAddr + r.size }
  | .behind c => vm.Linked c ∧ CreateEffect vm r (vm.entry c).endAddr vm' ret address
  | .gap => CreateEffect vm r r.address vm' ret address

section Effect

variable {vm vm' : Vm ε ω} {r : Request ε ω} {fuel : Nat} {ret : Int} {address : BitVec 32}

/-- The new entry becomes linked, and nothing else changes. -/
private theorem createVmEntry_spec (hw : vm.Wf) {new : ε} (hnew : ¬ vm.Linked new) {nextentry : Option ε}
    (hn : vm.map.vmentry = none ∨ ∃ n, nextentry = some n ∧ vm.Linked n) : (createVmEntry vm new nextentry).Wf ∧
    (∀ e, (createVmEntry vm new nextentry).Linked e ↔ e = new ∨ vm.Linked e) ∧
    (createVmEntry vm new nextentry).entry = vm.entry ∧
    (createVmEntry vm new nextentry).map.endAddr = vm.map.endAddr := by
  cases hv : vm.map.vmentry with
  | none =>
    have hc : IsCircle (createVmEntry vm new nextentry).entries.next new [] := by
      refine ⟨by simp, ?_⟩
      simp [createVmEntry, hv, listInit]
    have hv' : (createVmEntry vm new nextentry).map.vmentry = some new := by simp only [createVmEntry, hv]
    have hl : ∀ e, (createVmEntry vm new nextentry).Linked e ↔ e = new ∨ vm.Linked e := by
      intro e
      rw [Vm.linked_iff hv' hc, List.mem_singleton]
      exact ⟨.inl, fun h => h.resolve_right (Vm.not_linked_of_empty hv)⟩
    refine ⟨⟨fun v hv'' => ?_, fun h hh => ?_⟩, hl, by simp only [createVmEntry, hv],
      by simp only [createVmEntry, hv]⟩
    · rw [hv'] at hv''
      cases hv''
      exact ⟨[], hc⟩
    · have : vm.map.hint = some h := by simpa only [createVmEntry, hv] using hh
      exact (hl h).2 (.inr (hw.hint h this))
  | some v =>
    obtain ⟨n, rfl, hln⟩ := hn.resolve_left (by simp [hv])
    obtain ⟨xs, hc⟩ := hw.circle v hv
    obtain ⟨ys, hc', hys⟩ := hc.insert ((Vm.linked_iff hv hc).1 hln) (x := new)
      (mt (Vm.linked_iff hv hc).2 hnew)
    have heq : createVmEntry vm new (some n) = { vm with
        entries := listAddNext vm.entries n new, entryFreed := update vm.entryFreed new false } := by
      simp only [createVmEntry, hv]
    have hv' : (createVmEntry vm new (some n)).map.vmentry = some v := by rw [heq]; exact hv
    have hc' : IsCircle (createVmEntry vm new (some n)).entries.next v ys := by rw [heq]; exact hc'
    have hl : ∀ e, (createVmEntry vm new (some n)).Linked e ↔ e = new ∨ vm.Linked e := by
      intro e
      rw [Vm.linked_iff hv' hc', hys, Vm.linked_iff hv hc]
    refine ⟨⟨fun v' hv'' => ?_, fun h hh => ?_⟩, hl, by rw [heq], by rw [heq]⟩
    · rw [hv'] at hv''
      cases hv''
      exact ⟨ys, hc'⟩
    · rw [heq] at hh
      exact (hl h).2 (.inr (hw.hint h hh))

private theorem createntry_effect (hw : vm.Wf) (hnew : ¬ vm.Linked r.new) {newentry : Option ε} {start : BitVec 32}
    (hn : vm.map.vmentry = none ∨ ∃ n, newentry = some n ∧ vm.Linked n)
    (h : createntry vm r newentry start (start + r.size) = (vm', ret, address)) :
    vm'.Wf ∧ vm'.map.endAddr = vm.map.endAddr ∧ CreateEffect vm r start vm' ret address := by
  unfold createntry at h
  split at h
  · rename_i hend
    simp only [Prod.mk.injEq] at h
    obtain ⟨rfl, rfl, rfl⟩ := h
    exact ⟨hw, rfl, .inl ⟨hend, by decide, fun e => Iff.rfl, rfl⟩⟩
  · rename_i hend
    obtain ⟨hw', hl, he, hm⟩ := createVmEntry_spec hw hnew hn
    simp only [Prod.mk.injEq] at h
    obtain ⟨rfl, rfl, rfl⟩ := h
    refine ⟨⟨hw'.circle, hw'.hint⟩, hm, .inr ⟨hend, rfl, rfl, hl, ?_⟩⟩
    simp only [Vm.modEntry, he]

private theorem searchRoom_effect (hw : vm.Wf) (hnew : ¬ vm.Linked r.new) {v e : ε} (he : vm.Linked e)
    (h : searchRoom vm fuel v r e = some (vm', ret, address)) : vm'.Wf ∧ vm'.map.endAddr = vm.map.endAddr ∧
    ∃ c, SearchStops vm.entries.next vm.entry v r.size e ((vm.entry e).endAddr + r.size) c ∧
      (if r.merges (vm.entry c) then Place.extend c else Place.behind c).Effect vm r vm' ret address := by
  unfold searchRoom at h
  cases hs : circleLoop vm.entries.next v (searchBody vm v r.size) fuel e ((vm.entry e).endAddr + r.size) with
  | none => simp [hs] at h
  | some t =>
    cases t with
    | inr t => exact absurd hs searchLoop_not_inr
    | inl c =>
      have hstop := searchLoop_inl hs
      have hc := hstop.linked he
      simp only [hs, confirm, Option.some.injEq] at h
      by_cases hm : r.merges (vm.entry c) = true
      · rw [if_pos hm, Prod.mk.injEq, Prod.mk.injEq] at h
        obtain ⟨rfl, rfl, rfl⟩ := h
        refine ⟨⟨hw.circle, hw.hint⟩, rfl, c, hstop, ?_⟩
        rw [if_pos hm]
        exact ⟨hc, rfl, rfl, fun _ => Iff.rfl, rfl⟩
      · rw [if_neg hm] at h
        obtain ⟨h1, h2, h3⟩ := createntry_effect hw hnew (.inr ⟨c, rfl, hc⟩) h
        refine ⟨h1, h2, c, hstop, ?_⟩
        rw [if_neg hm]
        exact ⟨hc, h3⟩

private theorem handleFixed_effect (hw : vm.Wf) (hnew : ¬ vm.Linked r.new) {v : ε} (hv : vm.map.vmentry = some v)
    (h : handleFixed vm fuel v r r.address (r.address + r.size) = some (vm', ret, address)) :
    vm'.Wf ∧ vm'.map.endAddr = vm.map.endAddr ∧
    (Blocked vm.entries.next vm.entry v r.address (r.address + r.size) v ∧ ret < 0 ∧ SameEntries vm vm' ∨
      ¬ Blocked vm.entries.next vm.entry v r.address (r.address + r.size) v ∧
        CreateEffect vm r r.address vm' ret address) := by
  unfold handleFixed at h
  have hl : vm.Linked v := ⟨v, hv, 0, rfl⟩
  cases hs : circleLoop vm.entries.next v (fixedBody vm r.address (r.address + r.size)) fuel v () with
  | none => simp [hs] at h
  | some t =>
    obtain ⟨hb, hc⟩ := fixedLoop_spec hs hl
    cases t with
    | inr u =>
      simp only [hs, Option.some.injEq] at h
      obtain ⟨h1, h2, h3⟩ := createntry_effect hw hnew (.inr ⟨v, rfl, hl⟩) h
      exact ⟨h1, h2, .inr ⟨mt hb.2 (by simp), h3⟩⟩
    | inl o =>
      cases o with
      | none =>
        simp only [hs, Option.some.injEq, Prod.mk.injEq] at h
        obtain ⟨rfl, rfl, rfl⟩ := h
        exact ⟨hw, rfl, .inl ⟨hb.1 rfl, by decide, fun _ => Iff.rfl, rfl⟩⟩
      | some c =>
        simp only [hs, Option.some.injEq] at h
        obtain ⟨h1, h2, h3⟩ := createntry_effect hw hnew (.inr ⟨c, rfl, hc c rfl⟩) h
        exact ⟨h1, h2, .inr ⟨mt hb.2 (by simp), h3⟩⟩

/-- What `vm_map_enter` does is the effect of what the request comes to. -/
theorem vmMapEnter_effect (hw : vm.Wf) (hnew : ¬ vm.Linked r.new)
    (h : vmMapEnter vm fuel r = some (vm', ret, address)) :
    vm'.Wf ∧ vm'.map.endAddr = vm.map.endAddr ∧ ∃ p, Settles vm r p ∧ p.Effect vm r vm' ret address := by
  unfold vmMapEnter at h
  cases hv : vm.map.vmentry with
  | none =>
    simp only [hv, Option.some.injEq] at h
    obtain ⟨h1, h2, h3⟩ := createntry_effect hw hnew (.inl hv) h
    exact ⟨h1, h2, .gap, .empty hv, h3⟩
  | some v =>
    simp only [hv] at h
    cases hl : vmMapLookupEntry vm fuel r.address with
    | none => simp [hl] at h
    | some t =>
      obtain ⟨vm₁, res⟩ := t
      have hfind : vm.Finds r.address res := ⟨fuel, vm₁, hl⟩
      obtain ⟨⟨hint, rfl, hhint⟩, hres, -⟩ := vmMapLookupEntry_spec hw hl
      have hw₁ := hw.setHint hhint
      cases res with
      | none =>
        simp only [hl] at h
        obtain ⟨h1, h2, h3⟩ := handleFixed_effect hw₁ hnew hv h
        refine ⟨h1, h2, ?_⟩
        rcases h3 with ⟨hb, h3⟩ | ⟨hb, h3⟩
        · exact ⟨.refused, .blocked hv hfind hb, h3⟩
        · exact ⟨.gap, .gap hv hfind hb, h3⟩
      | some e =>
        have he := (hres e rfl).1
        simp only [hl] at h
        by_cases hx : r.attributes &&& vmMapEntryObjectFixed ≠ 0
        · simp only [if_pos hx, Option.some.injEq, Prod.mk.injEq] at h
          obtain ⟨rfl, rfl, rfl⟩ := h
          exact ⟨hw₁, rfl, .refused, .fixed hv hfind hx, by decide, fun _ => Iff.rfl, rfl⟩
        · rw [if_neg hx] at h
          obtain ⟨h1, h2, c, hstop, h3⟩ := searchRoom_effect hw₁ hnew he h
          refine ⟨h1, h2, _, ?_, h3⟩
          split
          · exact .extend hv hfind hx hstop ‹_›
          · exact .behind hv hfind hx hstop (Bool.eq_false_of_not_eq_true ‹_›)

end Effect

end Manrix
