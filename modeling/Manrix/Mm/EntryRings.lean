import Manrix.Mm.MapRemove
import Manrix.Mm.VmObject

/-!
# The entries of a map are copied and clipped (`vm_entry_copy`, `vm_map_entry_clip`)

`vm_entry_copy` puts every new entry behind the last one, and only the field `next_entry` of the new ring is right.  The
objects are counted once for each entry.

`vm_map_entry_clip` puts the new entry behind the old one, but then copies the old entry into it together with its
links, so that the new entry is its own successor.
-/

namespace Manrix

open Function Links List

variable {μ ε ω ρ : Type*} [DecidableEq ε] [DecidableEq ω]

section Clip

variable {vm vm' : Vm ε ω} {v e new : ε} {us ws : List ε} {start : BitVec 32}

/-- The ring `us ++ e :: ws` of entries has become one in which `e` is cut at `start`, with the upper part in the entry
`new` behind it. -/
structure Clipped (vm vm' : Vm ε ω) (v : ε) (us : List ε) (e new : ε) (ws : List ε) (start : BitVec 32) :
    Prop where
  vmentry : vm'.map.vmentry = some v
  ring : ∃ ys, v :: ys = us ++ e :: new :: ws ∧ IsRing vm'.entries v ys
  lower : vm'.entry e = { vm.entry e with endAddr := start }
  upper : vm'.entry new = { vm.entry e with start := start }
  others : ∀ f ∈ us ++ ws, vm'.entry f = vm.entry f
  refCount : ∀ o, vm'.refCount o = if (vm.entry e).object = some o then vm.refCount o + 1 else vm.refCount o

omit [DecidableEq ε] in
theorem Clipped.next_ne (h : Clipped vm vm' v us e new ws start) (hnew : new ≠ v) : vm'.entries.next new ≠ new := by
  obtain ⟨ys, hys, hring⟩ := h.ring
  have hm : new ∈ v :: ys := by simp [hys]
  exact hring.next_ne (mem_of_ne_of_mem hnew hm)

/-- Clipping inside of an entry never leaves a ring, whatever the links were, and returns if the entry has an object. -/
theorem clip_breaks_ring {xs : List ε} (hv : vm.map.vmentry = some v) (hxs : v :: xs = us ++ e :: ws)
    (hnew : new ∉ v :: xs) (h1 : (vm.entry e).start < start) (h2 : start < (vm.entry e).endAddr) :
    (∀ vm' r, vmMapEntryClip vm new e start = some (vm', r) →
      r = some new ∧ ¬ Clipped vm vm' v us e new ws start) ∧
    ((∃ x, vmMapEntryClip vm new e start = some x) ↔ (vm.entry e).object ≠ none) := by
  have hne : new ≠ e := by
    rintro rfl
    exact hnew (by simp [hxs])
  refine ⟨fun vm' r hc => ?_, vmMapEntryClip_object h1 h2 hne⟩
  obtain ⟨rfl, -, hnext, -⟩ := vmMapEntryClip_inside hv hne h1 h2 hc
  refine ⟨rfl, fun h => h.next_ne (ne_of_not_mem_cons hnew) ?_⟩
  rw [hnext, update_self]

private theorem twoEntryMap_ring : IsRing twoEntryMap.entries 0 [1] := ⟨by decide, ⟨rfl, rfl⟩, rfl, rfl⟩

theorem clip_breaks_ring_first : ∃ vm', vmMapEntryClip twoEntryMap 2 0 0x2000 = some (vm', some 2) ∧
    ¬ Clipped twoEntryMap vm' 0 [] 0 2 [1] 0x2000 :=
  ⟨_, rfl, ((clip_breaks_ring rfl rfl (by decide) (by decide) (by decide)).1 _ _ rfl).2⟩

/-- The ring 0, 1 clipped at the entry 0: the walk comes to the new entry 2 and stays there, and the entry 1 is not on
the list any more. -/
theorem clipped_ring_is_cut : IsRing twoEntryMap.entries 0 [1] ∧
    ∃ vm', vmMapEntryClip twoEntryMap 2 0 0x2000 = some (vm', some 2) ∧ vm'.entries.next 0 = 2 ∧
      vm'.entries.next 2 = 2 ∧ (∀ f, Reaches vm'.entries.next 0 f → f ≠ 1) ∧
      ¬ Clipped twoEntryMap vm' 0 [] 0 2 [1] 0x2000 := by
  refine ⟨twoEntryMap_ring, _, rfl, rfl, rfl, fun f hf => ?_, fun h => h.next_ne (by decide) rfl⟩
  have hor : f = 0 ∨ f = 2 := by
    refine hf.induct (P := fun f => f = 0 ∨ f = 2) (.inl rfl) fun a _ ha => ?_
    rcases ha with rfl | rfl <;> exact .inr rfl
  omega

end Clip

section Copy

variable {s s' t : VmState μ ε ω ρ} {new old : μ} {n l a v n₀ : ε} {olds news ys : List ε}
  {g : BitVec 32 → BitVec 32}

/-- The objects that the entries refer to. -/
def VmState.objectsOf (s : VmState μ ε ω ρ) (es : List ε) : List (Option ω) := es.map fun e => (s.entry e).object

/-- The entries `news` have become copies of the entries `olds`: the other entries are as before, each object is counted
once for each entry that refers to it, and its attribute is changed by `g`. -/
structure Copied (g : BitVec 32 → BitVec 32) (s s' : VmState μ ε ω ρ) (olds news : List ε) : Prop where
  fields : news.map s'.entry = olds.map s.entry
  entry : ∀ e ∉ news, s'.entry e = s.entry e
  refCount : ∀ o, s'.refCount o = s.refCount o + BitVec.ofNat 32 ((s.objectsOf olds).count (some o))
  cow : ∀ o, s'.objectAttribute o =
    if some o ∈ s.objectsOf olds then g (s.objectAttribute o) else s.objectAttribute o

omit [DecidableEq ε] in
theorem Copied.objectsOf (h : Copied g s t olds news) (hd : ∀ e ∈ ys, e ∉ news) : t.objectsOf ys = s.objectsOf ys :=
  map_congr_left fun e he => by rw [h.entry e (hd e he)]

omit [DecidableEq ε] in
theorem Copied.cons (hg : ∀ x, g (g x) = g x) (h : Copied g s t [a] [n]) (h' : Copied g t s' olds news)
    (hn : n ∉ news) (hold : n ∉ olds) : Copied g s s' (a :: olds) (n :: news) := by
  have hobj : t.objectsOf olds = s.objectsOf olds := by
    refine h.objectsOf fun e he hm => hold ?_
    rwa [← mem_singleton.1 hm]
  have happ : s.objectsOf (a :: olds) = s.objectsOf [a] ++ s.objectsOf olds := rfl
  refine ⟨?_, fun e he => ?_, fun o => ?_, fun o => ?_⟩
  · have hmap : olds.map t.entry = olds.map s.entry :=
      map_congr_left fun e he => h.entry e fun hm => hold (mem_singleton.1 hm ▸ he)
    have hfirst := h.fields
    simp only [map_cons, map_nil, List.cons.injEq, and_true] at hfirst ⊢
    exact ⟨(h'.entry n hn).trans hfirst, h'.fields.trans hmap⟩
  · simp only [mem_cons, not_or] at he
    rw [h'.entry e he.2, h.entry e (by simpa using he.1)]
  · rw [h'.refCount, h.refCount, hobj, happ, count_append, BitVec.ofNat_add, BitVec.add_assoc]
  · simp only [h'.cow, h.cow, hobj, happ, mem_append]
    by_cases h1 : some o ∈ s.objectsOf [a] <;> by_cases h2 : some o ∈ s.objectsOf olds <;> simp [h1, h2, hg]

variable [DecidableEq μ]

/-- The mark of an object that is being copied. -/
def markCow (x : BitVec 32) : BitVec 32 := x ||| (copyOnWrite ||| cowInProgress)

private theorem markCow_markCow (x : BitVec 32) : markCow (markCow x) = markCow x := by
  unfold markCow
  rw [BitVec.or_assoc, BitVec.or_self]

private theorem copyEntry_spec (new : μ) (n : ε) (niterate : Option ε) (ho : (s.entry a).object ≠ none) :
    ∃ t, copyEntry s new n a niterate = some t ∧ Copied markCow s t [a] [n] ∧
      t.maps = update s.maps new (createVmEntry (s.vm new) n niterate).map ∧
      t.entries = (createVmEntry (s.vm new) n niterate).entries := by
  obtain ⟨o, ho⟩ := Option.ne_none_iff_exists'.1 ho
  have hc : (createVmEntry (s.vm new) n niterate).entry = s.entry ∧
      (createVmEntry (s.vm new) n niterate).refCount = s.refCount := by
    unfold createVmEntry
    dsimp only
    split
    · split <;> exact ⟨rfl, rfl⟩
    · exact ⟨rfl, rfl⟩
  have hobj : s.objectsOf [a] = [some o] := by rw [← ho]; rfl
  unfold copyEntry
  simp only [VmState.setVm, Vm.modEntry, hc.1, hc.2, update_self, ho]
  refine ⟨_, rfl, ⟨?_, fun e he => ?_, fun b => ?_, fun b => ?_⟩, rfl, rfl⟩
  · simp
  · exact update_of_ne (by simpa using he) ..
  · simp only [hobj, update_apply, count_singleton]
    by_cases hb : b = o
    · simp [hb]
    · simp [hb, Ne.symm hb]
  · simp only [hobj, update_apply, mem_singleton, Option.some.injEq, markCow]
    split
    · rename_i hb; rw [hb]
    · rfl

omit [DecidableEq ω] [DecidableEq μ] in
/-- `list_add_next` behind the entry `l`, and then behind each entry that was added. -/
def addBehind (es : Links ε) : ε → List ε → Links ε
  | _, [] => es
  | l, n :: ns => addBehind (listAddNext es l n) n ns

omit [DecidableEq ω] [DecidableEq μ] in
private theorem addBehind_spec (es : Links ε) (hnd : (l :: news).Nodup) :
    Path (addBehind es l news).next l news (es.next l) ∧ (∀ e ∉ l :: news, (addBehind es l news).next e = es.next e) ∧
    ∀ e ∉ news, (addBehind es l news).prev e = es.prev e := by
  induction news generalizing es l with
  | nil => exact ⟨rfl, fun _ _ => rfl, fun _ _ => rfl⟩
  | cons n news ih =>
    obtain ⟨hl, hnd⟩ := nodup_cons.1 hnd
    obtain ⟨hpath, hnext, hprev⟩ := ih (listAddNext es l n) hnd
    have hne : l ≠ n := ne_of_not_mem_cons hl
    refine ⟨⟨?_, ?_⟩, fun e he => ?_, fun e he => ?_⟩
    · refine (hnext l hl).trans ?_
      simp [listAddNext, hne]
    · rwa [show (listAddNext es l n).next n = es.next l by simp [listAddNext]] at hpath
    · simp only [mem_cons, not_or] at he
      refine (hnext e (by simp [he])).trans ?_
      simp [listAddNext, he]
    · simp only [mem_cons, not_or] at he
      refine (hprev e he.2).trans ?_
      simp [listAddNext, he]

private theorem copyEntry_behind (hn₀ : (s.maps new).vmentry = some n₀) (ho : (s.entry a).object ≠ none) :
    ∃ t, copyEntry s new n a (some l) = some t ∧ Copied markCow s t [a] [n] ∧ t.maps = s.maps ∧
      t.entries = listAddNext s.entries l n := by
  obtain ⟨t, ht, hc, hm, he⟩ := copyEntry_spec new n (some l) ho
  have hcreate : createVmEntry (s.vm new) n (some l) = { s.vm new with
      entryFreed := update s.entryFreed n false, entries := listAddNext s.entries l n } := by
    simp only [createVmEntry, VmState.vm, hn₀]
  rw [hcreate] at hm he
  exact ⟨t, ht, hc, hm.trans (update_eq_self ..), he⟩

/-- A round that leaves the links of the old entries, and the rounds behind it.  The induction is on the entries that
are still to be copied; `n` is the last copy. -/
private theorem copyEntries_of_round {niterate : Option ε} (ht : copyEntry s new n a niterate = some t)
    (hc : Copied markCow s t [a] [n]) (hn₀ : (t.maps new).vmentry = some n₀)
    (hnext : ∀ e ∈ a :: ys, t.entries.next e = s.entries.next e) (hp : Path s.entries.next a ys v) (hv : v ∉ ys)
    (hobj : ∀ e ∈ ys, (s.entry e).object ≠ none) (hnd : (n :: news).Nodup) (hd : ∀ e ∈ a :: ys, e ∉ n :: news)
    (hlen : ys.length ≤ news.length) : ∃ s', copyEntries new v (n :: news) a niterate s = some s' ∧
      Copied markCow s s' (a :: ys) (n :: news.take ys.length) ∧ s'.maps = t.maps ∧
      s'.entries = addBehind t.entries n (news.take ys.length) := by
  have hnexta := hnext a (mem_cons_self ..)
  induction ys generalizing s t a n niterate news with
  | nil =>
    refine ⟨t, ?_, hc, rfl, rfl⟩
    simp only [copyEntries, ht, hnexta.trans (path_nil.1 hp), if_true]
  | cons x ys ih =>
    cases news with
    | nil => cases hlen
    | cons n' news =>
      have hdx : ∀ e ∈ x :: ys, e ∉ n :: n' :: news := fun e he => hd e (mem_cons_of_mem _ he)
      have hentry : ∀ e ∈ x :: ys, t.entry e = s.entry e := fun e he =>
        hc.entry e fun hm => hdx e he (mem_singleton.1 hm ▸ mem_cons_self ..)
      have hobj' : ∀ e ∈ x :: ys, (t.entry e).object ≠ none := fun e he => hentry e he ▸ hobj e he
      obtain ⟨t', ht', hc', hm', he'⟩ := copyEntry_behind (n := n') (l := n) hn₀ (hobj' x (mem_cons_self ..))
      -- the entries to be copied are neither the new one nor the one before it
      have hnext' : ∀ e ∈ x :: ys, t'.entries.next e = t.entries.next e := by
        intro e he
        have hne := hdx e he
        simp only [mem_cons, not_or] at hne
        rw [he']
        simp [listAddNext, hne]
      obtain ⟨hn, hnd⟩ := nodup_cons.1 hnd
      obtain ⟨s', hs', hcs, hms, hes⟩ := ih ht' hc' (hm' ▸ hn₀) hnext'
        (hp.2.congr fun e he => hnext e (mem_cons_of_mem _ he)) (fun h => hv (mem_cons_of_mem _ h))
        (fun e he => hobj' e (mem_cons_of_mem _ he)) hnd
        (fun e he h => hdx e he (mem_cons_of_mem _ h)) (Nat.le_of_succ_le_succ hlen)
        (hnext' x (mem_cons_self ..))
      have hxv : x ≠ v := fun h => hv (h ▸ mem_cons_self ..)
      refine ⟨s', ?_, hc.cons markCow_markCow hcs ?_ ?_, hms.trans hm', ?_⟩
      · simp only [copyEntries, ht, hnexta.trans hp.1, if_neg hxv] at hs' ⊢
        exact hs'
      · exact fun h => hn (mem_of_mem_take (i := ys.length + 1) h)
      · exact fun h => hdx n h (mem_cons_self ..)
      · rw [hes, he']
        rfl

private theorem copyEntries_spec {xs : List ε} (hnew : (s.maps new).vmentry = none) (hc : IsCircle s.entries.next v xs)
    (hobj : ∀ e ∈ v :: xs, (s.entry e).object ≠ none) (hnd : (n :: news).Nodup)
    (hd : ∀ e ∈ v :: xs, e ∉ n :: news) (hlen : xs.length ≤ news.length) :
    ∃ s', copyEntries new v (n :: news) v none s = some s' ∧
      Copied markCow s s' (v :: xs) (n :: news.take xs.length) ∧
      s'.maps = update s.maps new { s.maps new with vmentry := some n } ∧
      s'.entries = addBehind (listInit s.entries n) n (news.take xs.length) := by
  obtain ⟨t, ht, hct, hm, he⟩ := copyEntry_spec new n none (hobj v (mem_cons_self ..))
  have hcreate : createVmEntry (s.vm new) n none = { s.vm new with
      entryFreed := update s.entryFreed n false, map := { s.maps new with vmentry := some n },
      entries := listInit s.entries n } := by
    simp only [createVmEntry, VmState.vm, hnew]
  rw [hcreate] at hm he
  dsimp only at hm he
  have hfirst : (t.maps new).vmentry = some n := by rw [hm, update_self]
  have hnext : ∀ e ∈ v :: xs, t.entries.next e = s.entries.next e := by
    intro e hx
    have hne := hd e hx
    simp only [mem_cons, not_or] at hne
    rw [he]
    simp [listInit, hne]
  obtain ⟨s', hs', hcs, hms, hes⟩ := copyEntries_of_round ht hct hfirst hnext hc.path
    (nodup_cons.1 hc.nodup).1 (fun e hx => hobj e (mem_cons_of_mem _ hx)) hnd hd hlen
  exact ⟨s', hs', hcs, hms.trans hm, hes.trans (congrArg (addBehind · n _) he)⟩

omit [DecidableEq ε] [DecidableEq μ] in
private theorem scan_clearCow {es : List ε} (x : ω → BitVec 32) (hobj : ∀ e ∈ es, (s.entry e).object ≠ none) :
    ∃ y, scan (clearCow s) es x = .inr y ∧
      ∀ o, y o = if some o ∈ s.objectsOf es then x o &&& ~~~cowInProgress else x o := by
  induction es generalizing x with
  | nil => exact ⟨x, rfl, fun o => rfl⟩
  | cons e es ih =>
    obtain ⟨o, ho⟩ := Option.ne_none_iff_exists'.1 (hobj e (mem_cons_self ..))
    obtain ⟨y, hy, hyo⟩ := ih (update x o (x o &&& ~~~cowInProgress))
      fun f hf => hobj f (mem_cons_of_mem _ hf)
    refine ⟨y, ?_, fun b => ?_⟩
    · simp only [scan, clearCow, ho]
      exact hy
    · have hcons : s.objectsOf (e :: es) = some o :: s.objectsOf es := by rw [← ho]; rfl
      rw [hyo, hcons]
      simp only [mem_cons, Option.some.injEq, update_apply]
      by_cases hb : b = o
      · subst hb
        simp [BitVec.and_assoc]
      · simp [hb]

/-- The mark after both loops. -/
def copiedCow (x : BitVec 32) : BitVec 32 := (x ||| copyOnWrite) &&& ~~~cowInProgress

private theorem clear_markCow (x : BitVec 32) : markCow x &&& ~~~cowInProgress = copiedCow x := by
  have h : (copyOnWrite ||| cowInProgress) &&& ~~~cowInProgress = copyOnWrite &&& ~~~cowInProgress := by decide
  unfold markCow copiedCow
  ext i hi
  have := congrArg (fun b : BitVec 32 => b[i]) h
  simp only [BitVec.getElem_and, BitVec.getElem_or, BitVec.getElem_not] at this ⊢
  rw [Bool.and_or_distrib_right, this, ← Bool.and_or_distrib_right]

/-- The entries that the cache supplied become a ring of copies in the order of the old one. -/
theorem vm_entry_copy_ring (new : μ) {xs : List ε} {fuel : Nat} (hold : (s.maps old).vmentry = some v)
    (hc : IsCircle s.entries.next v xs) (hobj : ∀ e ∈ v :: xs, (s.entry e).object ≠ none)
    (hnew : (s.maps new).vmentry = none) (hnd : news.Nodup) (hd : ∀ e ∈ v :: xs, e ∉ news)
    (hlen : xs.length < news.length) (hfuel : xs.length < fuel) :
    ∃ s' n ns, vmEntryCopy s fuel news new old = some s' ∧ n :: ns = news.take (xs.length + 1) ∧
      (s'.maps new).vmentry = some n ∧ IsCircle s'.entries.next n ns ∧
      Copied copiedCow s s' (v :: xs) (n :: ns) ∧ s'.maps old = s.maps old ∧
      ∀ e ∉ n :: ns, s'.entries.next e = s.entries.next e ∧ s'.entries.prev e = s.entries.prev e := by
  cases news with
  | nil => cases hlen
  | cons n news =>
    obtain ⟨t, ht, hcopy, hmaps, hentries⟩ := copyEntries_spec hnew hc hobj hnd hd (Nat.le_of_lt_succ hlen)
    have hnd' : (n :: news.take xs.length).Nodup := hnd.sublist ((take_sublist ..).cons_cons _)
    obtain ⟨hpath, hnext, hprev⟩ := addBehind_spec (listInit s.entries n) hnd'
    rw [← hentries] at hpath hnext hprev
    -- the old ring is still there for the second loop
    have hsub : ∀ e ∈ v :: xs, e ∉ n :: news.take xs.length := fun e he h =>
      hd e he (((take_sublist ..).cons_cons _).subset h)
    have hlinks : ∀ e ∉ n :: news.take xs.length,
        t.entries.next e = s.entries.next e ∧ t.entries.prev e = s.entries.prev e := by
      intro e he
      have hne : e ≠ n := ne_of_not_mem_cons he
      refine ⟨(hnext e he).trans ?_, (hprev e fun h => he (mem_cons_of_mem _ h)).trans ?_⟩
      all_goals simp [listInit, hne]
    have hpt : Path t.entries.next v xs v := hc.path.congr fun e he => (hlinks e (hsub e he)).1
    have hobj' : ∀ e ∈ v :: xs, (t.entry e).object ≠ none := by
      intro e he
      rw [hcopy.entry e (hsub e he)]
      exact hobj e he
    obtain ⟨y, hy, hyo⟩ := scan_clearCow t.objectAttribute hobj'
    refine ⟨{ t with objectAttribute := y }, n, news.take xs.length, ?_, rfl, ?_, ⟨hnd', ?_⟩, ?_, ?_, hlinks⟩
    · simp only [vmEntryCopy, hold, ht, circleLoop_eq hpt (nodup_cons.1 hc.nodup).1 hfuel, hy]
    · simp only [hmaps, update_self]
    · simpa [listInit] using hpath
    · refine ⟨hcopy.fields, hcopy.entry, hcopy.refCount, fun o => ?_⟩
      simp only [hyo, hcopy.objectsOf hsub, hcopy.cow, ← clear_markCow]
      split <;> rfl
    · have hne : old ≠ new := by
        rintro rfl
        rw [hold] at hnew
        cases hnew
      simp only [hmaps, update_of_ne hne]

end Copy

/-- The two entries of `twoEntryMap`, which share an object, and a new map without entries. -/
def forkedMaps : VmState Bool Nat Unit Unit where
  maps b := if b then ⟨none, 0, 0xDFFFFFFF, none⟩ else twoEntryMap.map
  entries := twoEntryMap.entries
  entry := twoEntryMap.entry
  entryFreed e := decide (2 ≤ e)
  refCount _ := 2
  objectFreed _ := false
  objectAttribute _ := 0
  page _ := []
  pages := ⟨fun _ => ⟨none, 0, 0, 0⟩, fun _ => none⟩
  freePageList := []

theorem vm_entry_copy_ring_shared : ∃ s', vmEntryCopy forkedMaps 2 [2, 3] true false = some s' ∧
    IsCircle s'.entries.next 2 [3] ∧ [2, 3].map s'.entry = [0, 1].map twoEntryMap.entry ∧
    s'.refCount () = 4 ∧ s'.objectAttribute () = copyOnWrite := by
  have hnd : [2, 3].Nodup := by decide
  have hfuel : [1].length < 2 := by decide
  have hobj : ∀ e ∈ [0, 1], (forkedMaps.entry e).object ≠ none := fun _ _ => twoEntryMap_object
  obtain ⟨s', n, ns, hs, hn, -, hc, hcopy, -⟩ := vm_entry_copy_ring (s := forkedMaps) true
    (show (forkedMaps.maps false).vmentry = some 0 from rfl) twoEntryMap_circle hobj rfl hnd (by decide) (by decide)
    hfuel
  obtain ⟨rfl, rfl⟩ : n = 2 ∧ ns = [3] := by simpa using hn
  exact ⟨s', hs, hc, hcopy.fields, hcopy.refCount (), hcopy.cow ()⟩

end Manrix
