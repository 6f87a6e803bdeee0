import Manrix.Lib.Links

/-!
# A family of queues threaded through one link field

Objects of type `T` carry one pair of link fields, and lists with heads of type `H` are threaded through it, so an
object can be on one list at a time.  `Queues V s q` says that for every head with `V h` the store holds a ring with the
members `q h`, and that no object is on two lists.  Putting an object on a list or taking it off changes `q` at one head
only (`Queues.splice`, `Queues.unlink`); `Queues.move` does both.

`Threaded s h t` is membership read off the store alone: `t` is reached from the head `h` along `next` before any head
is met again.  `search` walks a list in this way for an object that meets a test, and finds what `List.find?` does
(`search_eq`).
-/

/-- A cell of a threaded list: the head of a list, or an object. -/
inductive Node (H T : Type*) where
  | head (h : H)
  | obj (t : T)
  deriving DecidableEq

namespace Links

open Function List

variable {H T : Type*} {V : H → Prop} {s : Links (Node H T)} {q : H → List T} {h : H} {x : T} {l : List T}
  {q' : H → List T}

/-- The object `t` is reached from the head `h` along `next` through objects only. -/
def Threaded (s : Links (Node H T)) (h : H) (t : T) : Prop :=
  ∃ xs : List T, Path s.next (.head h) (xs.map .obj) (.obj t)

/-- A path that meets no `c` on its way is a prefix of any path with the same start that ends in `c`. -/
private theorem Path.isPrefix {α : Type*} {f : α → α} {a b c : α} {us vs : List α} (hu : Path f a us b)
    (hv : Path f a vs c) (hc : c ∉ us ++ [b]) : us ++ [b] <+: vs := by
  induction us generalizing a vs with
  | nil =>
    cases vs with
    | nil => exact absurd (hu.symm.trans hv) (by simpa using Ne.symm (by simpa using hc))
    | cons v vs =>
      obtain rfl : b = v := hu.symm.trans hv.1
      simp
  | cons u us ih =>
    cases vs with
    | nil => exact absurd (hu.1.symm.trans hv) (fun e => hc (by simp [e]))
    | cons v vs =>
      obtain rfl : u = v := hu.1.symm.trans hv.1
      simpa using ih hu.2 hv.2 (fun hm => hc (mem_cons_of_mem _ hm))

/-- A ring with head `h` threads exactly its members. -/
theorem threaded_iff (hr : IsRing s (.head h) (l.map .obj)) : Threaded s h x ↔ x ∈ l := by
  constructor
  · rintro ⟨xs, hp⟩
    have := (hp.isPrefix hr.next (by simp)).subset (by simp : Node.obj x ∈ xs.map Node.obj ++ [Node.obj x])
    simpa using this
  · intro hx
    obtain ⟨us, vs, rfl⟩ := append_of_mem hx
    have hn := hr.next
    rw [map_append, map_cons, path_append_cons] at hn
    exact ⟨us, hn.1⟩

/-- In front of the head of a ring stands its last member, or the head itself. -/
theorem IsRing.prev_head_cases (hr : IsRing s (.head h) (l.map .obj)) :
    (l = [] ∧ s.prev (.head h) = .head h) ∨ ∃ l' x, l = l' ++ [x] ∧ s.prev (.head h) = .obj x := by
  have hp := hr.prev
  rcases eq_nil_or_concat l with rfl | ⟨l', x, rfl⟩
  · exact .inl ⟨rfl, hp⟩
  · rw [concat_eq_append] at *
    rw [map_append, reverse_append] at hp
    exact .inr ⟨l', x, rfl, hp.1⟩

/-- The first object with the test from the cell on, up to the next head; there is no result without enough fuel. -/
def search (s : Links (Node H T)) (test : T → Bool) : Nat → Node H T → Option (Option T)
  | 0, _ => none
  | _ + 1, .head _ => some none
  | fuel + 1, .obj t => if test t then some (some t) else search s test fuel (s.next (.obj t))

theorem Path.search_eq {test : T → Bool} {fuel : Nat} {a : Node H T}
    (hp : Path s.next a (l.map .obj) (.head h)) (hf : l.length < fuel) :
    search s test fuel (s.next a) = some (l.find? test) := by
  rcases fuel with _ | fuel
  · omega
  induction l generalizing a fuel with
  | nil =>
    have ha : s.next a = .head h := hp
    rw [ha]
    rfl
  | cons t l ih =>
    obtain ⟨ha, hp⟩ := hp
    rw [ha, search, find?_cons]
    cases ht : test t with
    | true => rfl
    | false =>
      rcases fuel with _ | fuel
      · cases Nat.lt_of_succ_lt_succ hf
      simpa using ih hp fuel (Nat.lt_of_succ_lt_succ hf)

/-- From the first object of a ring on, the search goes through its members. -/
theorem IsRing.search_eq {test : T → Bool} {fuel : Nat} (hr : IsRing s (.head h) (l.map .obj))
    (hf : l.length < fuel) : search s test fuel (s.next (.head h)) = some (l.find? test) :=
  hr.next.search_eq hf

/-- The lists with the heads `V` hold the objects `q`, and no object is on two lists. -/
structure Queues (V : H → Prop) (s : Links (Node H T)) (q : H → List T) : Prop where
  ring : ∀ h, V h → IsRing s (.head h) ((q h).map .obj)
  out : ∀ h, ¬ V h → q h = []
  disjoint : ∀ h h' t, t ∈ q h → t ∈ q h' → h = h'

/-- A store in which every cell is linked to itself. -/
theorem queues_empty : Queues V (⟨id, id⟩ : Links (Node H T)) fun _ => [] where
  ring _ _ := ⟨by simp, rfl, rfl⟩
  out _ _ := rfl
  disjoint := by simp

theorem Queues.head_of_mem (hq : Queues V s q) (hx : x ∈ q h) : V h := by
  by_contra hV
  rw [hq.out h hV] at hx
  exact not_mem_nil hx

theorem Queues.nodup (hq : Queues V s q) (h : H) : (q h).Nodup := by
  by_cases hV : V h
  · exact (nodup_cons.1 (hq.ring h hV).nodup).2.of_map
  · rw [hq.out h hV]; exact nodup_nil

theorem Queues.threaded_iff (hq : Queues V s q) (hV : V h) : Threaded s h x ↔ x ∈ q h :=
  Links.threaded_iff (hq.ring h hV)

/-- The lists are determined by the store. -/
theorem Queues.mem_iff (hq : Queues V s q) (hq' : Queues V s q') : x ∈ q h ↔ x ∈ q' h := by
  by_cases hV : V h
  · rw [← hq.threaded_iff hV, ← hq'.threaded_iff hV]
  · rw [hq.out h hV, hq'.out h hV]

theorem Queues.perm (hq : Queues V s q) (hq' : Queues V s q') (h : H) : (q h).Perm (q' h) :=
  (perm_ext_iff_of_nodup (hq.nodup h) (hq'.nodup h)).2 fun _ => hq.mem_iff hq'

/-- A store that differs only at one list and at a new object keeps the rings of the other lists. -/
private theorem Queues.ring_other {s' : Links (Node H T)} {h' : H} (hq : Queues V s q) (hV : V h')
    (hne : h' ≠ h) (hx : x ∉ q h') (ha : AgreeOff s s' (.head h :: .obj x :: (q h).map .obj)) :
    IsRing s' (.head h') ((q h').map .obj) := by
  refine (hq.ring h' hV).congr fun y hy => ha y ?_
  rcases mem_cons.1 hy with rfl | hy
  · simp [hne]
  · obtain ⟨t, ht, rfl⟩ := mem_map.1 hy
    simp only [mem_cons, reduceCtorEq, Node.obj.injEq, mem_map, exists_eq_right, false_or, not_or]
    exact ⟨fun e => hx (e ▸ ht), fun hm => hne (hq.disjoint h' h t ht hm)⟩

variable [DecidableEq H] [DecidableEq T] {y : Node H T}

/-- Putting an object that is on no list behind the head `h`. -/
theorem Queues.splice (hq : Queues V s q) (hV : V h) (hx : ∀ h', x ∉ q h') :
    Queues V (s.splice (.head h) (.obj x)) (update q h (x :: q h)) := by
  have hr := hq.ring h hV
  have ha := hr.splice_head_agreeOff (.obj x)
  refine ⟨fun h' hV' => ?_, fun h' hV' => ?_, fun h₁ h₂ t h1 h2 => ?_⟩
  · by_cases hne : h' = h
    · subst hne
      rw [update_self]
      exact hr.splice_head (by simpa using hx h')
    · rw [update_of_ne hne]
      exact hq.ring_other hV' hne (hx h') ha
  · have hne : h' ≠ h := by rintro rfl; exact hV' hV
    rw [update_of_ne hne, hq.out h' hV']
  · simp only [update_apply] at h1 h2
    split at h1 <;> split at h2
    · subst_vars; rfl
    · rcases mem_cons.1 h1 with rfl | h1
      · exact absurd h2 (hx _)
      · subst_vars; exact hq.disjoint _ _ t h1 h2
    · rcases mem_cons.1 h2 with rfl | h2
      · exact absurd h1 (hx _)
      · subst_vars; exact hq.disjoint _ _ t h1 h2
    · exact hq.disjoint _ _ t h1 h2

/-- Taking the object `x` off its list. -/
theorem Queues.unlink (hq : Queues V s q) (hx : x ∈ q h) :
    Queues V (s.unlink (.obj x)) (update q h ((q h).erase x)) := by
  have hV := hq.head_of_mem hx
  have hr := hq.ring h hV
  have hnd := hq.nodup h
  obtain ⟨us, vs, he⟩ := append_of_mem hx
  have hxu : x ∉ us := by
    rw [he] at hnd
    exact fun hm => (nodup_append.1 hnd).2.2 x hm x (by simp) rfl
  have her : (q h).erase x = us ++ vs := by rw [he, erase_append_right _ hxu, erase_cons_head]
  rw [he, map_append, map_cons] at hr
  have ha : AgreeOff s (s.unlink (.obj x)) (.head h :: .obj x :: (q h).map .obj) := by
    refine hr.unlink_agreeOff.mono fun y hy => ?_
    simp only [he, map_append, map_cons, mem_cons, mem_append] at hy ⊢
    tauto
  have hsub : ∀ h' t, t ∈ update q h ((q h).erase x) h' → t ∈ q h' := by
    intro h' t ht
    simp only [update_apply] at ht
    split at ht
    · subst_vars; exact mem_of_mem_erase ht
    · exact ht
  refine ⟨fun h' hV' => ?_, fun h' hV' => ?_, fun h₁ h₂ t h1 h2 =>
    hq.disjoint h₁ h₂ t (hsub h₁ t h1) (hsub h₂ t h2)⟩
  · by_cases hne : h' = h
    · subst hne
      rw [update_self, her, map_append]
      exact hr.unlink
    · rw [update_of_ne hne]
      exact hq.ring_other hV' hne (fun hm => hne (hq.disjoint h' h x hm hx)) ha
  · exact eq_nil_iff_forall_not_mem.2 fun t ht => by
      have := hsub h' t ht
      rw [hq.out h' hV'] at this
      exact not_mem_nil this

omit [DecidableEq H] in
theorem erase_concat (h : (l ++ [x]).Nodup) : (l ++ [x]).erase x = l := by
  have hx : x ∉ l := fun hm => (nodup_append.1 h).2.2 x hm x (mem_singleton_self _) rfl
  rw [erase_append_right _ hx]
  simp

theorem Queues.unlink_last (hq : Queues V s q) (hl : q h = l ++ [x]) : Queues V (s.unlink (.obj x)) (update q h l) := by
  have hx : x ∈ q h := by simp [hl]
  have hnd := hq.nodup h
  have hu := hq.unlink hx
  rw [hl] at hnd hu
  rwa [erase_concat hnd] at hu

omit [DecidableEq T] in
theorem exists_mem_update_cons {u : T} : (∃ h', u ∈ update q h (x :: q h) h') ↔ u = x ∨ ∃ h', u ∈ q h' := by
  constructor
  · rintro ⟨h', hu⟩
    simp only [update_apply] at hu
    split at hu
    · exact (mem_cons.1 hu).imp_right fun hu => ⟨h, hu⟩
    · exact .inr ⟨h', hu⟩
  · intro hu
    rcases hu with rfl | ⟨h', hu⟩
    · exact ⟨h, by rw [update_self]; exact mem_cons_self ..⟩
    · refine ⟨h', ?_⟩
      simp only [update_apply]
      split
      · subst_vars; exact mem_cons_of_mem _ hu
      · exact hu

theorem Queues.exists_mem_update_erase (hq : Queues V s q) (hx : x ∈ q h) {u : T} :
    (∃ h', u ∈ update q h ((q h).erase x) h') ↔ u ≠ x ∧ ∃ h', u ∈ q h' := by
  constructor
  · rintro ⟨h', hu⟩
    simp only [update_apply] at hu
    split at hu
    · rw [(hq.nodup h).mem_erase_iff] at hu
      exact ⟨hu.1, h, hu.2⟩
    · refine ⟨?_, h', hu⟩
      rintro rfl
      exact absurd (hq.disjoint h' h u hu hx) ‹_›
  · rintro ⟨hne, h', hu⟩
    refine ⟨h', ?_⟩
    simp only [update_apply]
    split
    · subst_vars; exact (mem_erase_of_ne hne).2 hu
    · exact hu

/-- Moving an object to the front of another list. -/
theorem Queues.move {h' : H} (hq : Queues V s q) (hx : x ∈ q h) (hV : V h') (hne : h' ≠ h) :
    Queues V ((s.unlink (.obj x)).splice (.head h') (.obj x)) (update (update q h ((q h).erase x)) h' (x :: q h')) := by
  have hoff : ∀ k, x ∉ update q h ((q h).erase x) k := fun k hm =>
    ((hq.exists_mem_update_erase hx).1 ⟨k, hm⟩).1 rfl
  have hs := (hq.unlink hx).splice hV hoff
  rwa [update_of_ne hne] at hs

theorem Queues.exists_mem_move {h' : H} (hq : Queues V s q) (hx : x ∈ q h) (hne : h' ≠ h) {u : T} :
    (∃ k, u ∈ update (update q h ((q h).erase x)) h' (x :: q h') k) ↔ ∃ k, u ∈ q k := by
  have hcons : x :: q h' = x :: update q h ((q h).erase x) h' := by rw [update_of_ne hne]
  rw [hcons, exists_mem_update_cons, hq.exists_mem_update_erase hx]
  by_cases hu : u = x
  · subst hu
    exact iff_of_true (.inl rfl) ⟨h, hx⟩
  · simp [hu]

/-- The cell is the head of a list or an object on a list. -/
def OnList (V : H → Prop) (q : H → List T) : Node H T → Prop
  | .head h => V h
  | .obj t => ∃ h, t ∈ q h

omit [DecidableEq H] [DecidableEq T] in
private theorem Queues.ring_of_onList (hq : Queues V s q) (hy : OnList V q y) :
    ∃ h, V h ∧ y ∈ Node.head h :: (q h).map .obj := by
  cases y with
  | head h => exact ⟨h, hy, by simp⟩
  | obj t =>
    obtain ⟨h, ht⟩ := hy
    exact ⟨h, hq.head_of_mem ht, by simp [ht]⟩

omit [DecidableEq H] [DecidableEq T] in
private theorem onList_of_ring (hV : V h) (hy : y ∈ Node.head h :: (q h).map .obj) : OnList V q y := by
  rcases mem_cons.1 hy with rfl | hy
  · exact hV
  · obtain ⟨t, ht, rfl⟩ := mem_map.1 hy
    exact ⟨h, ht⟩

omit [DecidableEq H] [DecidableEq T] in
theorem Queues.prev_next (hq : Queues V s q) (hy : OnList V q y) : s.prev (s.next y) = y ∧ OnList V q (s.next y) := by
  obtain ⟨h, hV, hy⟩ := hq.ring_of_onList hy
  obtain ⟨h1, h2⟩ := (hq.ring h hV).prev_next hy
  exact ⟨h1, onList_of_ring hV h2⟩

omit [DecidableEq H] [DecidableEq T] in
theorem Queues.next_prev (hq : Queues V s q) (hy : OnList V q y) : s.next (s.prev y) = y ∧ OnList V q (s.prev y) := by
  obtain ⟨h, hV, hy⟩ := hq.ring_of_onList hy
  obtain ⟨h1, h2⟩ := (hq.ring h hV).next_prev hy
  exact ⟨h1, onList_of_ring hV h2⟩

omit [DecidableEq H] [DecidableEq T] in
/-- Only the links of the cells on a list matter. -/
theorem Queues.congr {s' : Links (Node H T)} (hq : Queues V s q)
    (he : ∀ y, OnList V q y → s'.next y = s.next y ∧ s'.prev y = s.prev y) : Queues V s' q :=
  ⟨fun h hV => (hq.ring h hV).congr fun y hy => he y (onList_of_ring hV hy), hq.out, hq.disjoint⟩

/-- An object that is on a list already cannot be put on one: no family of lists with the same objects results. -/
theorem Queues.not_splice (hq : Queues V s q) (hV : V h) (hx : ∃ h', x ∈ q h')
    (hq' : Queues V (s.splice (.head h) (.obj x)) q') (hs : ∀ t, (∃ h, t ∈ q' h) ↔ ∃ h, t ∈ q h) : False := by
  have hon : ∀ y, OnList V q y → OnList V q' y := by
    intro y hy
    cases y with
    | head h => exact hy
    | obj t => exact (hs t).2 hy
  obtain ⟨hp, hpl⟩ := hq.next_prev (y := .obj x) hx
  have hpx : s.prev (.obj x) ≠ .obj x := by
    obtain ⟨h', hxh⟩ := hx
    exact (hq.ring h' (hq.head_of_mem hxh)).prev_ne (by simp [hxh])
  have hhead := (hq'.prev_next (y := .head h) hV).1
  have hpred := (hq'.prev_next (hon _ hpl)).1
  have hself := (hq'.prev_next (y := .obj x) ((hs x).2 hx)).1
  have hnh : (s.splice (.head h) (.obj x)).next (.head h) = .obj x := by simp [Links.splice]
  rw [hnh] at hhead
  by_cases hph : s.prev (.obj x) = .head h
  · -- the object is the first of the list: it becomes its own successor
    rw [hph] at hp
    have hnx : (s.splice (.head h) (.obj x)).next (.obj x) = .obj x := by simp [Links.splice, hp]
    rw [hnx, hhead] at hself
    cases hself
  · -- two cells have the object as their successor
    have hnp : (s.splice (.head h) (.obj x)).next (s.prev (.obj x)) = .obj x := by
      simp [Links.splice, hph, hpx, hp]
    rw [hnp, hhead] at hpred
    exact hph hpred.symm

/-- Taking an object off changes no list if the cells its links name, as far as they are on a list, are neighbours. -/
theorem Queues.unlink_stale (hq : Queues V s q)
    (h1 : OnList V q (s.prev (.obj x)) → s.next (s.prev (.obj x)) = s.next (.obj x))
    (h2 : OnList V q (s.next (.obj x)) → s.prev (s.next (.obj x)) = s.prev (.obj x)) :
    Queues V (s.unlink (.obj x)) q := by
  refine hq.congr fun y hy => ?_
  simp only [Links.unlink, setPrev_next, setNext_next, setPrev_prev, setNext_prev, update_apply]
  constructor
  · split
    · rename_i he; rw [he] at hy ⊢; exact (h1 hy).symm
    · rfl
  · split
    · rename_i he; rw [he] at hy ⊢; exact (h2 hy).symm
    · rfl

/-- Taking an object off keeps all objects on their lists exactly in this case. -/
theorem Queues.unlink_iff (hq : Queues V s q) :
    (∃ q', Queues V (s.unlink (.obj x)) q' ∧ ∀ t, (∃ h, t ∈ q' h) ↔ ∃ h, t ∈ q h) ↔
      (OnList V q (s.prev (.obj x)) → s.next (s.prev (.obj x)) = s.next (.obj x)) ∧
      (OnList V q (s.next (.obj x)) → s.prev (s.next (.obj x)) = s.prev (.obj x)) := by
  refine ⟨?_, fun h => ⟨q, hq.unlink_stale h.1 h.2, fun _ => Iff.rfl⟩⟩
  generalize hp : s.prev (.obj x) = p
  generalize hn : s.next (.obj x) = n
  have hnext : ∀ y, (s.unlink (.obj x)).next y = if y = p then n else s.next y := by
    intro y
    simp [Links.unlink, hp, hn, update_apply]
  have hprev : ∀ y, (s.unlink (.obj x)).prev y = if y = n then p else s.prev y := by
    intro y
    simp [Links.unlink, hp, hn, update_apply]
  rintro ⟨q', hq', hs⟩
  have hon : ∀ y, OnList V q' y ↔ OnList V q y := by
    intro y
    cases y with
    | head h => exact Iff.rfl
    | obj t => exact hs t
  -- a cell on a list keeps its successor: otherwise `n` has two predecessors
  have key : OnList V q p → s.next p = n := by
    intro hpl
    have h1 := hq'.prev_next ((hon p).2 hpl)
    rw [hnext, if_pos rfl] at h1
    obtain ⟨hpn, hnl⟩ := hq.next_prev ((hon n).1 h1.2)
    by_contra hne
    have hp0 : s.prev n ≠ p := fun e => hne (e ▸ hpn)
    have h2 := (hq'.prev_next ((hon _).2 hnl)).1
    rw [hnext, if_neg hp0, hpn, h1.1] at h2
    exact hp0 h2.symm
  refine ⟨key, fun hnl => ?_⟩
  have h1 := hq'.next_prev ((hon n).2 hnl)
  rw [hprev, if_pos rfl] at h1
  have hpl := (hon p).1 h1.2
  have := (hq.prev_next hpl).1
  rwa [key hpl] at this

end Links
