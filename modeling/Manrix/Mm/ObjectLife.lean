import Manrix.Lib.RefCount
import Manrix.Lib.Runs
import Manrix.Mm.VmObject

/-!
# The lifetime of memory objects

Entries are made, clipped and copied, and objects are put into them; the reference count of an object is the number of
entries that refer to it, in whatever map they are.  An object and its pages should be freed at the deletion of the last
of these entries.  But `delete_object` tests the decremented count the wrong way round: it frees the object when entries
still refer to it, and keeps it when there are none.  So the objects live as they should exactly in the runs that delete
no entry: `object_freed_with_last_reference`.
-/

namespace Manrix

open Function Links RefCount Runs

variable {μ ε ω ρ : Type*}

/-- The object that an entry in use refers to. -/
def VmState.refersTo (s : VmState μ ε ω ρ) (e : ε) : Option ω :=
  if s.entryFreed e then none else (s.entry e).object

/-- The state, and the objects that have been made and not yet put into an entry. -/
structure LifeState (μ ε ω ρ : Type*) where
  st : VmState μ ε ω ρ
  pending : ω → Bool

inductive LifeOp (μ ε ω : Type*) where
  | create (object : ω)
  | enter (m : μ) (r : Request ε ω) (newentry : Option ε) (start endAddr : BitVec 32)
  | install (entry : ε) (object : ω)
  | copy (new old : μ)
  | clip (m : μ) (new entry : ε) (start : BitVec 32)
  | delete (m : μ) (entry : ε)

section System

variable [DecidableEq μ] [DecidableEq ε] [DecidableEq ω] [DecidableEq ρ]

/-- The operations work on entries in use, and get unused entries and objects from the caches.  A pending object is put
into a new entry by `vm_map_enter` or into an entry that has none.  The entries that `vm_entry_copy` gets are distinct.
-/
def LifeStep (s : LifeState μ ε ω ρ) (op : LifeOp μ ε ω) (s' : LifeState μ ε ω ρ) : Prop :=
  match op with
  | .create object => s.st.objectFreed object = true ∧
      s' = ⟨vmObjectCreate s.st object, update s.pending object true⟩
  | .enter m r newentry start endAddr => s.st.entryFreed r.new = true ∧
      (∀ n, newentry = some n → s.st.entryFreed n = false) ∧ (∀ o, r.object = some o → s.pending o = true) ∧
      ∃ vm ret address, createntry (s.st.vm m) r newentry start endAddr = (vm, ret, address) ∧
        s' = ⟨s.st.setVm m vm, fun o => s.pending o && !(decide (ret = 0) && decide (r.object = some o))⟩
  | .install entry object => s.st.entryFreed entry = false ∧ (s.st.entry entry).object = none ∧
      s.pending object = true ∧
      s' = ⟨{ s.st with entry := update s.st.entry entry { s.st.entry entry with
          object := some object } }, update s.pending object false⟩
  | .copy new old => ∃ fuel news st, news.Nodup ∧ (∀ n ∈ news, s.st.entryFreed n = true) ∧
      vmEntryCopy s.st fuel news new old = some st ∧ s' = ⟨st, s.pending⟩
  | .clip m new entry start => s.st.entryFreed new = true ∧ s.st.entryFreed entry = false ∧
      ∃ vm r, vmMapEntryClip (s.st.vm m) new entry start = some (vm, r) ∧ s' = ⟨s.st.setVm m vm, s.pending⟩
  | .delete m entry => s.st.entryFreed entry = false ∧ (s.st.maps m).vmentry ≠ none ∧
      ∃ fuel st, s.st.deleteVmMapEntry fuel m entry = some st ∧ s' = ⟨st, s.pending⟩

/-- An entry refers to the object before the step, and none after it. -/
def DropsLast (x : LifeState μ ε ω ρ × LifeOp μ ε ω × LifeState μ ε ω ρ) (o : ω) : Prop :=
  (∃ e, x.1.st.refersTo e = some o) ∧ ∀ e, x.2.2.st.refersTo e ≠ some o

/-- An object is freed, with all its pages, if the step drops the last reference to it, and otherwise both the object
and its pages stay. -/
def LifetimeOk (x : LifeState μ ε ω ρ × LifeOp μ ε ω × LifeState μ ε ω ρ) : Prop :=
  ∀ o, x.1.st.objectFreed o = false →
    (DropsLast x o → x.2.2.st.objectFreed o = true ∧ x.2.2.st.page o = [] ∧
      ∀ p ∈ x.1.st.page o, p ∈ x.2.2.st.freePageList) ∧
    (¬ DropsLast x o → x.2.2.st.objectFreed o = false ∧ x.2.2.st.page o = x.1.st.page o)

/-- The links of entries in use, and of the maps, lead to entries in use. -/
structure VmState.LinksLive (s : VmState μ ε ω ρ) : Prop where
  next : ∀ e, s.entryFreed e = false → s.entryFreed (s.entries.next e) = false
  vmentry : ∀ m v, (s.maps m).vmentry = some v → s.entryFreed v = false

/-- What every step but a deletion does to references and objects. -/
structure Grows (s s' : VmState μ ε ω ρ) : Prop where
  refersTo : ∀ e o, s.refersTo e = some o → s'.refersTo e = some o
  freed : ∀ o, s.objectFreed o = false → s'.objectFreed o = false
  page : ∀ o, s.objectFreed o = false → s'.page o = s.page o

end System

section Steps

variable {s s' s'' : VmState μ ε ω ρ} {m : μ} {e new : ε} {o : ω} {pending : ω → Bool}

theorem VmState.refersTo_of_freed (h : s.entryFreed e = true) : s.refersTo e = none := if_pos h

theorem VmState.refersTo_of_live (h : s.entryFreed e = false) : s.refersTo e = (s.entry e).object := by
  unfold VmState.refersTo
  rw [h]
  rfl

theorem Grows.refl (s : VmState μ ε ω ρ) : Grows s s := ⟨fun _ _ h => h, fun _ h => h, fun _ _ => rfl⟩

theorem Grows.trans (h : Grows s s') (h' : Grows s' s'') : Grows s s'' where
  refersTo e o he := h'.refersTo e o (h.refersTo e o he)
  freed o ho := h'.freed o (h.freed o ho)
  page o ho := (h'.page o (h.freed o ho)).trans (h.page o ho)

variable [DecidableEq ε]

theorem Grows.of_update {v : Option ω} (hr : s'.refersTo = update s.refersTo e v)
    (he : s.refersTo e = none) (hf : s'.objectFreed = s.objectFreed) (hp : s'.page = s.page) : Grows s s' := by
  refine ⟨fun a o ha => ?_, fun o ho => by rwa [hf], fun o _ => by rw [hp]⟩
  rw [hr, update_of_ne, ha]
  rintro rfl
  rw [he] at ha
  cases ha

private theorem refersTo_eq_update {v : Option ω} (hf : s'.entryFreed = update s.entryFreed new false)
    (hn : (s'.entry new).object = v) (ho : ∀ a, a ≠ new → (s'.entry a).object = (s.entry a).object) :
    s'.refersTo = update s.refersTo new v := by
  funext a
  unfold VmState.refersTo
  rw [hf]
  by_cases ha : a = new
  · subst ha
    simp [hn]
  · simp [ha, ho a ha]

private theorem createVmEntry_refs (vm : Vm ε ω) (new : ε) (nextentry : Option ε) :
    (createVmEntry vm new nextentry).entry = vm.entry ∧
    (createVmEntry vm new nextentry).entryFreed = update vm.entryFreed new false ∧
    (createVmEntry vm new nextentry).refCount = vm.refCount ∧
    (createVmEntry vm new nextentry).objectFreed = vm.objectFreed := by
  cases hv : vm.map.vmentry with
  | none => simp only [createVmEntry, hv, and_self]
  | some v => cases nextentry <;> simp only [createVmEntry, hv, and_self]

variable [DecidableEq μ]

theorem VmState.LinksLive.setVm (h : s.LinksLive) {vm : Vm ε ω} (hf : vm.entryFreed = update s.entryFreed new false)
    (hn : ∀ a, vm.entryFreed a = false → vm.entryFreed (vm.entries.next a) = false)
    (hv : ∀ v, vm.map.vmentry = some v → vm.entryFreed v = false) : (s.setVm m vm).LinksLive := by
  refine ⟨hn, fun m' v hv' => ?_⟩
  by_cases hm : m' = m
  · subst hm
    simp only [VmState.setVm, update_self] at hv'
    exact hv v hv'
  · simp only [VmState.setVm, update_of_ne hm] at hv'
    have := h.vmentry m' v hv'
    change vm.entryFreed v = false
    rw [hf]
    by_cases hvn : v = new
    · rw [hvn, update_self]
    · rwa [update_of_ne hvn]

omit [DecidableEq μ] in
private theorem createVmEntry_links (vm : Vm ε ω) (new : ε) (nextentry : Option ε) :
    (vm.map.vmentry = none ∧ (createVmEntry vm new nextentry).map.vmentry = some new ∧
      (createVmEntry vm new nextentry).entries.next = update vm.entries.next new new) ∨
    ∃ n, (vm.map.vmentry = some n ∨ nextentry = some n) ∧
      (createVmEntry vm new nextentry).map.vmentry = vm.map.vmentry ∧ (createVmEntry vm new nextentry).entries.next =
        update (update vm.entries.next n new) new (vm.entries.next n) := by
  cases hvm : vm.map.vmentry with
  | none => exact .inl ⟨rfl, by simp [createVmEntry, hvm], by simp [createVmEntry, hvm, listInit]⟩
  | some v =>
    cases nextentry with
    | none => exact .inr ⟨v, .inl rfl, by simp [createVmEntry, hvm],
        by simp [createVmEntry, hvm, listAdd, listEnqueue_eq, splice]⟩
    | some n => exact .inr ⟨n, .inr rfl, by simp [createVmEntry, hvm],
        by simp [createVmEntry, hvm, listAddNext]⟩

omit [DecidableEq μ] in
/-- Links that lead to entries in use still do after a new one was linked behind one in use. -/
private theorem createVmEntry_live (vm : Vm ε ω) (new : ε) {nextentry : Option ε}
    (hn : ∀ a, vm.entryFreed a = false → vm.entryFreed (vm.entries.next a) = false)
    (hv : ∀ v, vm.map.vmentry = some v → vm.entryFreed v = false)
    (he : ∀ n, nextentry = some n → vm.entryFreed n = false) :
    (∀ a, (createVmEntry vm new nextentry).entryFreed a = false →
      (createVmEntry vm new nextentry).entryFreed ((createVmEntry vm new nextentry).entries.next a) = false) ∧
    ∀ v, (createVmEntry vm new nextentry).map.vmentry = some v →
      (createVmEntry vm new nextentry).entryFreed v = false := by
  rw [(createVmEntry_refs vm new nextentry).2.1]
  have hlive : ∀ a, vm.entryFreed a = false → update vm.entryFreed new false a = false := by
    intro a ha
    by_cases hne : a = new
    · rw [hne, update_self]
    · rwa [update_of_ne hne]
  have hnew : update vm.entryFreed new false new = false := update_self ..
  have hold : ∀ a, a ≠ new → update vm.entryFreed new false a = false →
      update vm.entryFreed new false (vm.entries.next a) = false := by
    intro a hne ha
    rw [update_of_ne hne] at ha
    exact hlive _ (hn a ha)
  rcases createVmEntry_links vm new nextentry with ⟨-, hm, hl⟩ | ⟨n, hnl, hm, hl⟩
  · rw [hm, hl]
    refine ⟨fun a ha => ?_, fun v hv => Option.some.inj hv ▸ hnew⟩
    by_cases hne : a = new
    · rw [hne, update_self, hnew]
    · rw [update_of_ne hne]
      exact hold a hne ha
  · rw [hm, hl]
    refine ⟨fun a ha => ?_, fun v hvm => hlive v (hv v hvm)⟩
    by_cases hne : a = new
    · rw [hne, update_self]
      exact hlive _ (hn n (hnl.elim (hv n) (he n)))
    · rw [update_of_ne hne]
      by_cases han : a = n
      · rw [han, update_self, hnew]
      · rw [update_of_ne han]
        exact hold a hne ha

omit [DecidableEq ε] in
theorem VmState.setVm_vm (s : VmState μ ε ω ρ) (m : μ) : s.setVm m (s.vm m) = s := by
  simp [VmState.setVm, VmState.vm]

end Steps

section Invariant

variable [Fintype ε] [DecidableEq μ] [DecidableEq ε] [DecidableEq ω]
variable {s s' : VmState μ ε ω ρ} {m : μ} {e new : ε} {o : ω} {pending : ω → Bool}

/-- The reference counts are right, and the links lead to entries in use. -/
structure LifeInv (s : VmState μ ε ω ρ) (pending : ω → Bool) : Prop where
  counted : Counted s.refersTo pending s.objectFreed s.refCount
  live : s.LinksLive

omit [DecidableEq μ] [DecidableEq ε] in
theorem LifeInv.create (hi : LifeInv s pending) (ho : s.objectFreed o = true) :
    LifeInv (vmObjectCreate s o) (update pending o true) ∧ Grows s (vmObjectCreate s o) := by
  refine ⟨⟨hi.counted.create ho, hi.live.1, hi.live.2⟩, fun _ _ h => h, fun o' ho' => ?_, fun o' ho' => ?_⟩
  · by_cases h : o' = o
    · rw [h]
      exact update_self ..
    · exact (update_of_ne h ..).trans ho'
  · refine update_of_ne ?_ _ _
    rintro rfl
    rw [ho] at ho'
    cases ho'

theorem LifeInv.live_newEntry (hi : LifeInv s pending) (m : μ) (new : ε) {nextentry : Option ε}
    (hn : ∀ n, nextentry = some n → s.entryFreed n = false) (g : VmMapEntry ω → VmMapEntry ω) :
    (s.setVm m ((createVmEntry (s.vm m) new nextentry).modEntry new g)).LinksLive := by
  obtain ⟨h1, h2⟩ := createVmEntry_live (s.vm m) new hi.live.next (hi.live.vmentry m) hn
  exact hi.live.setVm (createVmEntry_refs (s.vm m) new nextentry).2.1 h1 h2

omit [Fintype ε] [DecidableEq ω] in
private theorem refersTo_newEntry (s : VmState μ ε ω ρ) (m : μ) (new : ε) (nextentry : Option ε)
    (g : VmMapEntry ω → VmMapEntry ω) : (s.setVm m ((createVmEntry (s.vm m) new nextentry).modEntry new g)).refersTo =
      update s.refersTo new (g (s.entry new)).object := by
  obtain ⟨he, hf, -, -⟩ := createVmEntry_refs (s.vm m) new nextentry
  refine refersTo_eq_update hf ?_ fun a ha => ?_
  · simp only [VmState.setVm, Vm.modEntry, update_self, he]
    rfl
  · simp only [VmState.setVm, Vm.modEntry, update_of_ne ha, he]
    rfl

theorem LifeInv.enter (hi : LifeInv s pending) {r : Request ε ω} {newentry : Option ε}
    {start endAddr address : BitVec 32} {vm : Vm ε ω} {ret : Int} (hnew : s.entryFreed r.new = true)
    (hn : ∀ n, newentry = some n → s.entryFreed n = false) (hp : ∀ o, r.object = some o → pending o = true)
    (h : createntry (s.vm m) r newentry start endAddr = (vm, ret, address)) :
    LifeInv (s.setVm m vm) (fun o => pending o && !(decide (ret = 0) && decide (r.object = some o))) ∧
      Grows s (s.setVm m vm) := by
  have hnone : s.refersTo r.new = none := VmState.refersTo_of_freed hnew
  unfold createntry at h
  split at h
  · obtain ⟨rfl, rfl, -⟩ := Prod.mk.injEq .. ▸ (Prod.mk.injEq .. ▸ h)
    rw [VmState.setVm_vm]
    have hpend : (fun o => pending o && !(decide (errEnomem = 0) && decide (r.object = some o))) = pending := by
      funext o
      simp [errEnomem]
    rw [hpend]
    exact ⟨hi, .refl s⟩
  · obtain ⟨rfl, rfl, -⟩ := Prod.mk.injEq .. ▸ (Prod.mk.injEq .. ▸ h)
    have href := refersTo_newEntry s m r.new newentry fun e =>
      { e with object := r.object, start := start, endAddr := endAddr, type := r.attributes.setWidth 16 }
    obtain ⟨-, -, hc, ho⟩ := createVmEntry_refs (s.vm m) r.new newentry
    refine ⟨⟨?_, hi.live_newEntry m r.new hn _⟩, .of_update href hnone ho rfl⟩
    rw [href]
    simp only [VmState.setVm, Vm.modEntry, hc, ho]
    change Counted _ _ s.objectFreed s.refCount
    cases hobj : r.object with
    | none =>
      have := hi.counted
      rw [← update_eq_self r.new s.refersTo, hnone] at this
      simpa using this
    | some o =>
      convert hi.counted.install hnone (hp o hobj) using 1
      funext o'
      by_cases ho' : o' = o
      · simp [ho']
      · simp [ho', Ne.symm ho']

omit [DecidableEq μ] in
theorem LifeInv.install (hi : LifeInv s pending) (he : s.entryFreed e = false)
    (ho : (s.entry e).object = none) (hp : pending o = true)
    (hs : s' = { s with entry := update s.entry e { s.entry e with object := some o } }) :
    LifeInv s' (update pending o false) ∧ Grows s s' := by
  have hnone : s.refersTo e = none := (VmState.refersTo_of_live he).trans ho
  have href : s'.refersTo = update s.refersTo e (some o) := by
    subst hs
    refine refersTo_eq_update ?_ ?_ fun a ha => ?_
    · exact (he ▸ update_eq_self e s.entryFreed).symm
    · simp
    · simp [ha]
  refine ⟨⟨?_, ?_⟩, .of_update href hnone (hs ▸ rfl) (hs ▸ rfl)⟩
  · rw [href, hs]
    exact hi.counted.install hnone hp
  · rw [hs]
    exact ⟨hi.live.1, hi.live.2⟩

omit [DecidableEq μ] in
theorem LifeInv.share (hi : LifeInv s pending) (hnew : s.entryFreed new = true) {e' : ε}
    (he' : s.refersTo e' = some o) (href : s'.refersTo = update s.refersTo new (some o))
    (hc : s'.refCount = update s.refCount o (s.refCount o + 1)) (hf : s'.objectFreed = s.objectFreed)
    (hp : s'.page = s.page) (hl : s'.LinksLive) : LifeInv s' pending ∧ Grows s s' := by
  have hnone : s.refersTo new = none := VmState.refersTo_of_freed hnew
  refine ⟨⟨?_, hl⟩, .of_update href hnone hf hp⟩
  rw [href, hc, hf]
  exact hi.counted.share hnone he'

omit [Fintype ε] [DecidableEq μ] in
private theorem vmMapEntryClip_refs {vm vm' : Vm ε ω} {start : BitVec 32} {r : Option ε} (hne : new ≠ e)
    (h : (vm.entry e).start < start ∧ start < (vm.entry e).endAddr)
    (hc : vmMapEntryClip vm new e start = some (vm', r)) : vm'.map = (createVmEntry vm new (some e)).map ∧
    vm'.entries.next = update
      (createVmEntry vm new (some e)).entries.next new ((createVmEntry vm new (some e)).entries.next e) ∧
    vm'.entryFreed = update vm.entryFreed new false ∧ vm'.objectFreed = vm.objectFreed ∧
    (∀ a, (vm'.entry a).object = if a = new then (vm.entry e).object else (vm.entry a).object) ∧
    ∃ o, (vm.entry e).object = some o ∧ vm'.refCount = (incRefCount vm o).refCount := by
  have hs : ¬ start = (vm.entry e).start := by
    have := h.1
    bv_omega
  obtain ⟨he, hf, hcnt, ho⟩ := createVmEntry_refs vm new (some e)
  unfold vmMapEntryClip at hc
  rw [if_neg hs, if_pos h] at hc
  simp only [Vm.modEntry, he, update_of_ne hne.symm] at hc
  split at hc
  · cases hc
  · rename_i o hobj
    cases hc
    refine ⟨rfl, rfl, hf, ho, fun a => ?_, o, hobj, by simp only [incRefCount, hcnt]⟩
    simp only [incRefCount, update_apply]
    grind

theorem LifeInv.clip (hi : LifeInv s pending) (hnew : s.entryFreed new = true) (he : s.entryFreed e = false)
    {start : BitVec 32} {vm : Vm ε ω} {r : Option ε} (hc : vmMapEntryClip (s.vm m) new e start = some (vm, r))
    (hs : s' = s.setVm m vm) : LifeInv s' pending ∧ Grows s s' := by
  by_cases hin : (s.entry e).start < start ∧ start < (s.entry e).endAddr
  · have hne : new ≠ e := by
      rintro rfl
      rw [hnew] at he
      cases he
    obtain ⟨hm, hx, hf, ho, hobj, o, hoe, hcnt⟩ := vmMapEntryClip_refs hne hin hc
    obtain ⟨l1, l2⟩ := createVmEntry_live (s.vm m) new hi.live.next
      (hi.live.vmentry m) fun n hn => Option.some.inj hn ▸ he
    rw [(createVmEntry_refs (s.vm m) new (some e)).2.1] at l1 l2
    have hlive : s'.LinksLive := by
      rw [hs]
      refine hi.live.setVm hf (fun a ha => ?_) fun v hv => ?_
      · rw [hf] at ha ⊢
        rw [hx]
        by_cases han : a = new
        · rw [han, update_self]
          refine l1 e ?_
          rw [update_of_ne hne.symm]
          exact he
        · rw [update_of_ne han]
          exact l1 a ha
      · rw [hf]
        rw [hm] at hv
        exact l2 v hv
    have href : s'.refersTo = update s.refersTo new (some o) := by
      rw [hs, ← hoe]
      refine refersTo_eq_update hf ((hobj new).trans (if_pos rfl)) fun a ha => (hobj a).trans (if_neg ha)
    refine hi.share hnew ((VmState.refersTo_of_live he).trans hoe) href ?_ (hs ▸ ho) (hs ▸ rfl) hlive
    rw [hs]
    exact hcnt
  · have hin' : ¬ (((s.vm m).entry e).start < start ∧ start < ((s.vm m).entry e).endAddr) := hin
    rw [vmMapEntryClip_of_not_inside hin'] at hc
    rw [hs, ← (Prod.mk.inj (Option.some.inj hc)).1, VmState.setVm_vm]
    exact ⟨hi, .refl s⟩

theorem LifeInv.copyEntry (hi : LifeInv s pending) {niterate : Option ε} (hnew : s.entryFreed new = true)
    (he : s.entryFreed e = false) (hn : ∀ n, niterate = some n → s.entryFreed n = false)
    (h : copyEntry s m new e niterate = some s') :
    LifeInv s' pending ∧ Grows s s' ∧ s'.entryFreed = update s.entryFreed new false := by
  obtain ⟨-, hf, hc, ho⟩ := createVmEntry_refs (s.vm m) new niterate
  have href := refersTo_newEntry s m new niterate fun _ => s.entry e
  have hlive := hi.live_newEntry m new hn fun _ => s.entry e
  unfold Manrix.copyEntry at h
  have hobj : ((s.setVm m ((createVmEntry (s.vm m) new niterate).modEntry new fun _ => s.entry e)).entry
      new).object = (s.entry e).object := by
    simp [VmState.setVm, Vm.modEntry]
  simp only [hobj] at h
  cases hoe : (s.entry e).object with
  | none => simp [hoe] at h
  | some o =>
    rw [hoe] at h href
    have hs := Option.some.inj h
    have hcount : s'.refCount = update s.refCount o (s.refCount o + 1) := by
      rw [← hs]
      exact congrArg (fun c => update c o (c o + 1)) hc
    obtain ⟨h1, h2⟩ := hi.share hnew ((VmState.refersTo_of_live he).trans hoe) (hs ▸ href) hcount (hs ▸ ho)
      (hs ▸ rfl) (hs ▸ ⟨hlive.1, hlive.2⟩)
    exact ⟨h1, h2, hs ▸ hf⟩

theorem LifeInv.copyEntries {v : ε} {news : List ε} {iterate : ε} {niterate : Option ε}
    (hi : LifeInv s pending) (hnd : news.Nodup) (hnews : ∀ n ∈ news, s.entryFreed n = true)
    (he : s.entryFreed iterate = false) (hn : ∀ n, niterate = some n → s.entryFreed n = false)
    (h : copyEntries m v news iterate niterate s = some s') : LifeInv s' pending ∧ Grows s s' := by
  induction news generalizing s iterate niterate with
  | nil => cases h
  | cons n news ih =>
    obtain ⟨hnot, hnd⟩ := List.nodup_cons.1 hnd
    unfold Manrix.copyEntries at h
    split at h
    · cases h
    · rename_i t ht
      obtain ⟨hi', hg, hf⟩ := hi.copyEntry (hnews n (List.mem_cons_self ..)) he hn ht
      have hit : t.entryFreed iterate = false := by
        rw [hf, update_apply, he, ite_self]
      split at h
      · cases h
        exact ⟨hi', hg⟩
      · have hnews' : ∀ a ∈ news, t.entryFreed a = true := by
          intro a ha
          rw [hf, update_of_ne (ne_of_mem_of_not_mem ha hnot)]
          exact hnews a (List.mem_cons_of_mem _ ha)
        have hn' : ∀ a, some n = some a → t.entryFreed a = false := by
          intro a ha
          rw [← Option.some.inj ha, hf, update_self]
        obtain ⟨hi'', hg'⟩ := ih hi' hnd hnews' (hi'.live.next _ hit) hn' h
        exact ⟨hi'', hg.trans hg'⟩

theorem LifeInv.copy {new old : μ} {news : List ε} {fuel : Nat} (hi : LifeInv s pending) (hnd : news.Nodup)
    (hnews : ∀ n ∈ news, s.entryFreed n = true) (h : vmEntryCopy s fuel news new old = some s') :
    LifeInv s' pending ∧ Grows s s' := by
  unfold vmEntryCopy at h
  split at h
  · cases h
  · rename_i v hv
    split at h
    · cases h
    · rename_i t ht
      obtain ⟨hi', hg⟩ := hi.copyEntries hnd hnews (hi.live.vmentry old v hv) (by simp) ht
      split at h
      · -- the second loop writes attributes only
        cases h
        exact ⟨⟨hi'.counted, hi'.live.1, hi'.live.2⟩, hg.1, hg.2, hg.3⟩
      · cases h

variable [DecidableEq ρ]

omit [Fintype ε] in
private theorem deleteVmMapEntry_refs {fuel : Nat} (hv : (s.maps m).vmentry ≠ none) (ho : (s.entry e).object = some o)
    (h : s.deleteVmMapEntry fuel m e = some s') : s'.refersTo = update s.refersTo e none ∧
      s'.objectFreed = if s.refCount o - 1 = 0 then s.objectFreed else update s.objectFreed o true := by
  unfold VmState.deleteVmMapEntry at h
  simp only [ho] at h
  split at h
  · cases h
  · rename_i t ht
    have hvm := VmState.deleteObject_vm ht m
    obtain ⟨v, hv⟩ := Option.ne_none_iff_exists'.1 hv
    have hvm' : (t.vm m).map.vmentry = some v ∧ t.entry = s.entry ∧ t.entryFreed = s.entryFreed ∧
        t.objectFreed =
          if s.refCount o - 1 = 0 then s.objectFreed else update s.objectFreed o true := by
      simp only [Manrix.deleteObject, update_self] at hvm
      split at hvm
      · rename_i h0
        exact ⟨hvm ▸ hv, congrArg Vm.entry hvm, congrArg Vm.entryFreed hvm,
          (congrArg Vm.objectFreed hvm).trans (if_pos h0).symm⟩
      · rename_i h0
        exact ⟨hvm ▸ hv, congrArg Vm.entry hvm, congrArg Vm.entryFreed hvm,
          (congrArg Vm.objectFreed hvm).trans (if_neg h0).symm⟩
    obtain ⟨h1, h2, h3, h4⟩ := hvm'
    cases h
    simp only [deallocVmMapEntry, h1]
    refine ⟨?_, h4⟩
    funext a
    simp only [VmState.refersTo, VmState.setVm, VmState.vm, h2, h3, update_apply]
    split <;> rfl

end Invariant

section Runs

variable [Fintype ε] [DecidableEq μ] [DecidableEq ε] [DecidableEq ω] [DecidableEq ρ]
variable {s s' : LifeState μ ε ω ρ} {op : LifeOp μ ε ω}

omit [Fintype ε] [DecidableEq μ] [DecidableEq ε] [DecidableEq ω] [DecidableEq ρ] in
theorem Grows.lifetimeOk (h : Grows s.st s'.st) : LifetimeOk (s, op, s') := by
  intro o ho
  refine ⟨fun hd => ?_, fun _ => ⟨h.freed o ho, h.page o ho⟩⟩
  obtain ⟨⟨e, he⟩, hn⟩ := hd
  exact absurd (h.refersTo e o he) (hn e)

theorem LifeInv.step (hi : LifeInv s.st s.pending) (h : LifeStep s op s')
    (hd : ∀ m e, op ≠ .delete m e) : LifeInv s'.st s'.pending ∧ Grows s.st s'.st := by
  cases op with
  | create object =>
    obtain ⟨ho, rfl⟩ := h
    exact hi.create ho
  | enter m r newentry start endAddr =>
    obtain ⟨hnew, hn, hp, vm, ret, address, hc, rfl⟩ := h
    exact hi.enter hnew hn hp hc
  | install entry object =>
    obtain ⟨he, ho, hp, rfl⟩ := h
    exact hi.install he ho hp rfl
  | copy new old =>
    obtain ⟨fuel, news, st, hnd, hnews, hc, rfl⟩ := h
    exact hi.copy hnd hnews hc
  | clip m new entry start =>
    obtain ⟨hnew, he, vm, r, hc, rfl⟩ := h
    exact hi.clip hnew he hc rfl
  | delete m entry => exact absurd rfl (hd m entry)

/-- The deletion frees the object if and only if it should not. -/
theorem LifeInv.delete (hcard : Fintype.card ε ≤ 2 ^ 32) (hi : LifeInv s.st s.pending) {m : μ} {e : ε}
    (h : LifeStep s (.delete m e) s') : ¬ LifetimeOk (s, .delete m e, s') := by
  obtain ⟨he, hv, fuel, st, hdel, rfl⟩ := h
  have hobj : (s.st.entry e).object ≠ none := by
    intro hnone
    simp [VmState.deleteVmMapEntry, hnone] at hdel
  obtain ⟨o, ho⟩ := Option.ne_none_iff_exists'.1 hobj
  obtain ⟨href, hfreed⟩ := deleteVmMapEntry_refs hv ho hdel
  have heo : s.st.refersTo e = some o := (VmState.refersTo_of_live he).trans ho
  have hlive := hi.counted.not_freed heo
  have hlast := hi.counted.sub_one_eq_zero_iff hcard heo
  intro hok
  by_cases h0 : s.st.refCount o - 1 = 0
  · have hd : DropsLast (s, .delete m e, ⟨st, s.pending⟩) o := by
      refine ⟨⟨e, heo⟩, ?_⟩
      change ∀ a, st.refersTo a ≠ some o
      rw [href]
      exact hlast.1 h0
    have := ((hok o hlive).1 hd).1
    change st.objectFreed o = true at this
    rw [hfreed, if_pos h0, hlive] at this
    cases this
  · have hd : ¬ DropsLast (s, .delete m e, ⟨st, s.pending⟩) o := by
      intro hd
      refine h0 (hlast.2 ?_)
      rw [← href]
      exact hd.2
    have := ((hok o hlive).2 hd).1
    change st.objectFreed o = false at this
    rw [hfreed, if_neg h0, update_self] at this
    cases this

/-- The steps of a run free the objects exactly with their last references if and only if none of them deletes an
entry. -/
theorem object_freed_with_last_reference (hcard : Fintype.card ε ≤ 2 ^ 32) (h0 : LifeInv s.st s.pending)
    {tr : List (LifeState μ ε ω ρ × LifeOp μ ε ω × LifeState μ ε ω ρ)} (h : Run LifeStep s tr s') :
    (∀ x ∈ tr, LifetimeOk x) ↔ ∀ x ∈ tr, ∀ m e, x.2.1 ≠ .delete m e := by
  refine h.forall_iff (fun s => LifeInv s.st s.pending) (fun x => ∀ m e, x.2.1 ≠ .delete m e) LifetimeOk h0
    (fun s op s' hi hd hst => (hi.step hst hd).1) fun s op s' hi hst => ⟨fun hok m e hop => ?_, fun hd => ?_⟩
  · change op = .delete m e at hop
    subst hop
    exact hi.delete hcard hst hok
  · exact (hi.step hst hd).2.lifetimeOk

/-- One entry with an object that has a page; four more entries can be had. -/
def oneEntry : LifeState Unit (Fin 5) Unit (Fin 1) where
  st :=
    { maps := fun _ => ⟨some 0, 0x1000, 0xe0000000, none⟩
      entries := ⟨fun _ => 0, fun _ => 0⟩
      entry := fun _ => ⟨0x1000, 0x3000, some (), 0, 0⟩
      entryFreed := fun e => e != 0
      refCount := fun _ => 1
      objectFreed := fun _ => false
      objectAttribute := fun _ => 0
      page := fun _ => [0]
      pages := vmPageInsert ⟨fun _ => ⟨none, 0, 0, 1⟩, fun _ => none⟩ 0 0x100000 0x1000
      freePageList := [] }
  pending := fun _ => false

private theorem oneEntry_inv : LifeInv oneEntry.st oneEntry.pending :=
  ⟨⟨by decide, by decide, by decide⟩, by decide, by decide⟩

/-- The entry clipped in the middle. -/
def oneEntryClipped : LifeState Unit (Fin 5) Unit (Fin 1) :=
  ⟨oneEntry.st.setVm () ((vmMapEntryClip (oneEntry.st.vm ()) 1 0 0x2000).get rfl).1, oneEntry.pending⟩

private theorem oneEntry_clip : LifeStep oneEntry (.clip () 1 0 0x2000) oneEntryClipped := ⟨rfl, rfl, _, _, rfl, rfl⟩

/-- Clipping the entry frees nothing. -/
theorem object_freed_with_last_reference_clip : LifetimeOk (oneEntry, LifeOp.clip () 1 0 0x2000, oneEntryClipped) := by
  have h := object_freed_with_last_reference (by decide) oneEntry_inv (Run.nil.snoc oneEntry_clip)
  refine h.2 (fun x hx => ?_) _ (List.mem_singleton_self _)
  obtain rfl := List.mem_singleton.1 hx
  intro m e h
  cases h

/-- When the entry is clipped and the new one deleted, the object and its page are freed though the other entry refers
to them; when the entry is deleted at once, they are not freed at all. -/
theorem object_freed_too_early_or_never :
    (∃ tr s, Run LifeStep oneEntry tr s ∧ tr.map (·.2.1) = [.clip () 1 0 0x2000, .delete () 1] ∧
      s.st.refersTo 0 = some () ∧ s.st.objectFreed () = true ∧ s.st.freePageList = [0]) ∧
    ∃ tr s, Run LifeStep oneEntry tr s ∧ tr.map (·.2.1) = [.delete () 0] ∧
      (∀ e, s.st.refersTo e = none) ∧ s.st.objectFreed () = false ∧ s.st.page () = [0] := by
  constructor
  · have s2 : LifeStep oneEntryClipped (.delete () 1)
        ⟨(oneEntryClipped.st.deleteVmMapEntry 1 () 1).get rfl, oneEntry.pending⟩ :=
      ⟨rfl, by decide, 1, _, rfl, rfl⟩
    exact ⟨_, _, (Run.nil.snoc oneEntry_clip).snoc s2, rfl, rfl, rfl, rfl⟩
  · have s1 : LifeStep oneEntry (.delete () 0)
        ⟨(oneEntry.st.deleteVmMapEntry 1 () 0).get rfl, oneEntry.pending⟩ :=
      ⟨rfl, by decide, 1, _, rfl, rfl⟩
    exact ⟨_, _, Run.nil.snoc s1, rfl, by decide, rfl, rfl⟩

end Runs

end Manrix
