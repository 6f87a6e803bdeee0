import Mathlib.Data.BitVec
import Manrix.Lib.Chain
import Manrix.Lib.Runs

/-!
# The page hash (`mm/vm_page.c`)

The resident pages hang, by the object and the offset they belong to, in the chains of a table of 1024 buckets.
`vm_page_insert` puts a page in front of its chain.  `vm_page_remove` takes a page off only from there: for a page
further down it assigns to `page->next` what it is, so that the page stays on the chain and is still found under its old
key.  `vm_page_lookup` looks into the first page of the bucket before it has asked whether there is one.

As long as only first pages are removed, and looked up only what falls into a bucket with a page, the table is a finite
map: `page_hash_is_map`.
-/

namespace Manrix

open Chain Fuel Function List Runs

variable {ρ : Type*}

/-- The fields of `struct vm_page` that are used here; an object is given by its address. -/
structure VmPage (ρ : Type*) where
  next : Option ρ
  object : BitVec 32
  offset : BitVec 32
  count : BitVec 32

/-- The pages and the table `pagehash`. -/
structure PageHash (ρ : Type*) where
  page : ρ → VmPage ρ
  pagehash : BitVec 32 → Option ρ

def phash (x : BitVec 32) : BitVec 32 := ((x >>> 8) ^^^ x) &&& (1024 - 1)

/-- The macro `page_hash`. -/
def pageIndex (object offset : BitVec 32) : BitVec 32 := phash (object + offset >>> 12)

def VmPage.has (p : VmPage ρ) (object offset : BitVec 32) : Bool := p.object = object && p.offset = offset

variable [DecidableEq ρ]

def PageHash.modPage (s : PageHash ρ) (p : ρ) (f : VmPage ρ → VmPage ρ) : PageHash ρ :=
  { s with page := update s.page p (f (s.page p)) }

def PageHash.setBucket (s : PageHash ρ) (b : BitVec 32) (p : Option ρ) : PageHash ρ :=
  { s with pagehash := update s.pagehash b p }

def vmPageInsert (s : PageHash ρ) (page : ρ) (object offset : BitVec 32) : PageHash ρ :=
  let s := s.modPage page fun p => { p with object := object, offset := offset }
  let bucket := pageIndex object offset
  let s := s.modPage page fun p => { p with next := s.pagehash bucket }
  s.setBucket bucket (some page)

def vmPageRemove (s : PageHash ρ) (fuel : Nat) (page : ρ) : Option (PageHash ρ) :=
  let bucket := pageIndex (s.page page).object (s.page page).offset
  if s.pagehash bucket = some page then some (s.setBucket bucket (s.page page).next)
  else
    match chainFind (fun p => (s.page p).next) (fun new => new = page) fuel (s.pagehash bucket) with
    | none => none
    | some none => some s
    | some (some new) => some (s.modPage new fun p => { p with next := (s.page page).next })

/-- The ends of a lookup: at a read through a null pointer, or with its result. -/
inductive PageLookup (ρ : Type*) where
  | nullRead
  | result (page : Option ρ)

omit [DecidableEq ρ] in
def vmPageLookup (s : PageHash ρ) (fuel : Nat) (object offset : BitVec 32) : Option (PageLookup ρ) :=
  match s.pagehash (pageIndex object offset) with
  | none => some .nullRead
  | some first =>
    if (s.page first).has object offset then some (.result (some first))
    else (chainFind (fun p => (s.page p).next) (fun p => (s.page p).has object offset) fuel
      (some first)).map .result

omit [DecidableEq ρ] in
theorem vmPageLookup_extends (s : PageHash ρ) {fuel fuel' : Nat} {object offset : BitVec 32} (hf : fuel ≤ fuel') :
    Extends (vmPageLookup s fuel object offset) (vmPageLookup s fuel' object offset) := by
  unfold vmPageLookup
  cases s.pagehash (pageIndex object offset) with
  | none => exact .refl _
  | some first => exact .ite (.refl _) ((chainFind_extends hf _).map _)

/-- The table, and the keys under which the pages are inserted. -/
structure PageState (ρ : Type*) where
  hash : PageHash ρ
  inserted : ρ → Option (BitVec 32 × BitVec 32)

inductive PageOp (ρ : Type*) where
  | insert (page : ρ) (object offset : BitVec 32)
  | remove (page : ρ)
  | lookup (object offset : BitVec 32)

/-- A page is inserted under a key that no page has and removed when it is inserted. -/
def PageStep (s : PageState ρ) (op : PageOp ρ) (s' : PageState ρ) : Prop :=
  match op with
  | .insert page object offset => s.inserted page = none ∧ (∀ p, s.inserted p ≠ some (object, offset)) ∧
      s' = ⟨vmPageInsert s.hash page object offset, update s.inserted page (some (object, offset))⟩
  | .remove page => s.inserted page ≠ none ∧ ∃ fuel hash, vmPageRemove s.hash fuel page = some hash ∧
      s' = ⟨hash, update s.inserted page none⟩
  | .lookup _ _ => s' = s

omit [DecidableEq ρ] in
/-- The lookup terminates without a read through a null pointer, and finds the page inserted under the key. -/
def PageState.LookupRight (s : PageState ρ) (object offset : BitVec 32) : Prop :=
  ∃ m, ∀ fuel, m < fuel → ∃ r, vmPageLookup s.hash fuel object offset = some (.result r) ∧
    ∀ p, r = some p ↔ s.inserted p = some (object, offset)

omit [DecidableEq ρ] in
/-- A lookup is right; after an insertion or a removal all lookups are, in buckets with a page. -/
def PageStepOk (x : PageState ρ × PageOp ρ × PageState ρ) : Prop :=
  match x.2.1 with
  | .lookup object offset => x.1.LookupRight object offset
  | _ => ∀ object offset, x.2.2.hash.pagehash (pageIndex object offset) ≠ none →
      x.2.2.LookupRight object offset

omit [DecidableEq ρ] in
/-- A page that is removed is the first one of its bucket, and a key is looked up in a bucket with a page. -/
def PageGuard (x : PageState ρ × PageOp ρ × PageState ρ) : Prop :=
  match x.2.1 with
  | .insert _ _ _ => True
  | .remove page => ∀ object offset, x.1.inserted page = some (object, offset) →
      x.1.hash.pagehash (pageIndex object offset) = some page
  | .lookup object offset => x.1.hash.pagehash (pageIndex object offset) ≠ none

omit [DecidableEq ρ] in
/-- The bucket chains `chain` hold the inserted pages, each once and on the chain of its key. -/
structure HashInvAt (s : PageState ρ) (chain : BitVec 32 → List ρ) : Prop where
  chains : ∀ b, IsChain (fun p => (s.hash.page p).next) (s.hash.pagehash b) (chain b)
  nodup : ∀ b, (chain b).Nodup
  mem : ∀ b p, p ∈ chain b ↔ ∃ o f, s.inserted p = some (o, f) ∧ pageIndex o f = b
  key : ∀ p o f, s.inserted p = some (o, f) → (s.hash.page p).object = o ∧ (s.hash.page p).offset = f
  distinct : ∀ p q k, s.inserted p = some k → s.inserted q = some k → p = q

def HashInv (s : PageState ρ) : Prop := ∃ chain, HashInvAt s chain

section Chains

variable {s s' : PageState ρ} {chain : BitVec 32 → List ρ} {page p : ρ} {object offset : BitVec 32} {t : PageHash ρ}

omit [DecidableEq ρ] in
theorem HashInvAt.has_iff (hi : HashInvAt s chain) (hp : p ∈ chain (pageIndex object offset)) :
    (s.hash.page p).has object offset = true ↔ s.inserted p = some (object, offset) := by
  obtain ⟨o, f, hins, -⟩ := (hi.mem _ p).1 hp
  obtain ⟨ho, hf⟩ := hi.key p o f hins
  unfold VmPage.has
  rw [ho, hf, hins]
  simp

omit [DecidableEq ρ] in
theorem HashInvAt.find_iff (hi : HashInvAt s chain) :
    (chain (pageIndex object offset)).find? (fun p => (s.hash.page p).has object offset) = some p ↔
      s.inserted p = some (object, offset) := by
  constructor
  · intro h
    have hhas := find?_some h
    exact (hi.has_iff (mem_of_find?_eq_some h)).1 hhas
  · intro h
    have hp : p ∈ chain (pageIndex object offset) := (hi.mem _ p).2 ⟨object, offset, h, rfl⟩
    cases hf : (chain (pageIndex object offset)).find? fun p => (s.hash.page p).has object offset with
    | none => exact absurd ((hi.has_iff hp).2 h) (find?_eq_none.1 hf p hp)
    | some q =>
      have hhas := find?_some hf
      have hq := (hi.has_iff (mem_of_find?_eq_some hf)).1 hhas
      rw [hi.distinct q p _ hq h]

omit [DecidableEq ρ] in
theorem HashInvAt.lookup_eq (hi : HashInvAt s chain) (hne : s.hash.pagehash (pageIndex object offset) ≠ none)
    {fuel : Nat} (hf : (chain (pageIndex object offset)).length < fuel) :
    vmPageLookup s.hash fuel object offset = some (.result
      ((chain (pageIndex object offset)).find? fun p => (s.hash.page p).has object offset)) := by
  have hc := hi.chains (pageIndex object offset)
  unfold vmPageLookup
  cases hb : s.hash.pagehash (pageIndex object offset) with
  | none => exact absurd hb hne
  | some first =>
    rw [hb] at hc
    simp only []
    rw [chainFind_eq hc _ hf]
    split
    · rename_i hfirst
      rw [hc.head_eq, find?_cons, hfirst]
    · rfl

omit [DecidableEq ρ] in
theorem HashInvAt.lookupRight_iff (hi : HashInvAt s chain) :
    s.LookupRight object offset ↔ s.hash.pagehash (pageIndex object offset) ≠ none := by
  constructor
  · intro h hb
    obtain ⟨m, hm⟩ := h
    obtain ⟨r, hr, -⟩ := hm (m + 1) (Nat.lt_succ_self m)
    unfold vmPageLookup at hr
    rw [hb] at hr
    cases Option.some.inj hr
  · intro hne
    exact ⟨_, fun fuel hf => ⟨_, hi.lookup_eq hne hf, fun p => hi.find_iff⟩⟩

theorem vmPageInsert_page_of_ne {q : ρ} (hq : q ≠ page) : (vmPageInsert t page object offset).page q = t.page q := by
  simp only [vmPageInsert, PageHash.setBucket, PageHash.modPage, update_of_ne hq]

theorem vmPageInsert_page_self : (vmPageInsert t page object offset).page page =
    ⟨t.pagehash (pageIndex object offset), object, offset, (t.page page).count⟩ := by
  simp only [vmPageInsert, PageHash.setBucket, PageHash.modPage, update_self]

theorem vmPageInsert_next : (fun p => ((vmPageInsert t page object offset).page p).next) =
    update (fun p => (t.page p).next) page (t.pagehash (pageIndex object offset)) := by
  funext q
  by_cases hq : q = page
  · rw [hq, vmPageInsert_page_self, update_self]
  · rw [vmPageInsert_page_of_ne hq, update_of_ne hq]

theorem vmPageInsert_pagehash : (vmPageInsert t page object offset).pagehash =
    update t.pagehash (pageIndex object offset) (some page) :=
  rfl

/-- The page stands in front of the chain of its bucket. -/
theorem HashInvAt.insert (hi : HashInvAt s chain) (hp : s.inserted page = none)
    (hk : ∀ p, s.inserted p ≠ some (object, offset)) (hs : s'.hash = vmPageInsert s.hash page object offset)
    (hins : s'.inserted = update s.inserted page (some (object, offset))) :
    HashInvAt s' (update chain (pageIndex object offset) (page :: chain (pageIndex object offset))) := by
  have hnot : ∀ b, page ∉ chain b := by
    intro b hb
    obtain ⟨o, f, h, -⟩ := (hi.mem b page).1 hb
    rw [hp] at h
    cases h
  refine ⟨fun b => ?_, fun b => ?_, fun b q => ?_, fun q o f h => ?_, fun q r k hq hr => ?_⟩
  · rw [hs, vmPageInsert_next, vmPageInsert_pagehash]
    exact isChain_push hi.chains hnot _ b
  · exact nodup_push hi.nodup hnot _ b
  · rw [mem_push, hins]
    by_cases hq : q = page
    · rw [hq, update_self, or_iff_left (hnot b)]
      constructor
      · rintro ⟨rfl, -⟩
        exact ⟨object, offset, rfl, rfl⟩
      · rintro ⟨o, f, h, rfl⟩
        cases h
        exact ⟨rfl, rfl⟩
    · rw [update_of_ne hq, ← hi.mem b q, or_iff_right fun h => hq h.2]
  · rw [hs]
    rw [hins] at h
    by_cases hq : q = page
    · rw [hq, update_self] at h
      cases h
      rw [hq, vmPageInsert_page_self]
      exact ⟨rfl, rfl⟩
    · rw [update_of_ne hq] at h
      rw [vmPageInsert_page_of_ne hq]
      exact hi.key q o f h
  · rw [hins] at hq hr
    by_cases hq' : q = page <;> by_cases hr' : r = page
    · rw [hq', hr']
    · rw [hq', update_self] at hq
      rw [update_of_ne hr', ← hq] at hr
      exact absurd hr (hk r)
    · rw [hr', update_self] at hr
      rw [update_of_ne hq', ← hr] at hq
      exact absurd hq (hk q)
    · rw [update_of_ne hq'] at hq
      rw [update_of_ne hr'] at hr
      exact hi.distinct q r k hq hr

/-- The first page of a chain goes, and the others stay where they are. -/
theorem HashInvAt.remove_first (hi : HashInvAt s chain) (hp : s.inserted page = some (object, offset))
    (hb : s.hash.pagehash (pageIndex object offset) = some page)
    (hs : s'.hash = s.hash.setBucket (pageIndex object offset) (s.hash.page page).next)
    (hins : s'.inserted = update s.inserted page none) : HashInvAt s' (update chain (pageIndex object offset)
      (chain (pageIndex object offset)).tail) := by
  have hc := hi.chains (pageIndex object offset)
  rw [hb] at hc
  have hnd := hi.nodup (pageIndex object offset)
  rw [hc.head_eq, nodup_cons] at hnd
  have hstay : ∀ q k, s'.inserted q = some k ↔ q ≠ page ∧ s.inserted q = some k := by
    intro q k
    rw [hins]
    by_cases hq : q = page
    · simp [hq]
    · simp [hq]
  refine ⟨fun b => ?_, fun b => ?_, fun b q => ?_, fun q o f h => ?_, fun q r k hq hr => ?_⟩
  · rw [hs]
    dsimp only [PageHash.setBucket]
    by_cases hb' : b = pageIndex object offset
    · rw [hb', update_self, update_self]
      exact hc.tail
    · rw [update_of_ne hb', update_of_ne hb']
      exact hi.chains b
  · by_cases hb' : b = pageIndex object offset
    · rw [hb', update_self]
      exact hnd.2
    · rw [update_of_ne hb']
      exact hi.nodup b
  · simp only [hstay]
    by_cases hb' : b = pageIndex object offset
    · rw [hb', update_self]
      have hm := hi.mem (pageIndex object offset) q
      rw [hc.head_eq, mem_cons] at hm
      constructor
      · intro hq
        obtain ⟨o, f, h⟩ := hm.1 (Or.inr hq)
        refine ⟨o, f, ⟨?_, h.1⟩, h.2⟩
        rintro rfl
        exact hnd.1 hq
      · rintro ⟨o, f, ⟨hne, h⟩, hof⟩
        exact (hm.2 ⟨o, f, h, hof⟩).resolve_left hne
    · rw [update_of_ne hb', hi.mem b q]
      constructor
      · rintro ⟨o, f, h, rfl⟩
        refine ⟨o, f, ⟨?_, h⟩, rfl⟩
        rintro rfl
        rw [hp] at h
        cases h
        exact hb' rfl
      · rintro ⟨o, f, ⟨-, h⟩, hof⟩
        exact ⟨o, f, h, hof⟩
  · rw [hs]
    exact hi.key q o f ((hstay q _).1 h).2
  · exact hi.distinct q r k ((hstay q k).1 hq).2 ((hstay r k).1 hr).2

theorem HashInvAt.vmPageRemove_not_first (hi : HashInvAt s chain) {t : PageHash ρ} {fuel : Nat}
    (hp : s.inserted page = some (object, offset)) (hb : s.hash.pagehash (pageIndex object offset) ≠ some page)
    (hr : vmPageRemove s.hash fuel page = some t) : t = s.hash := by
  obtain ⟨ho, hf⟩ := hi.key page object offset hp
  unfold vmPageRemove at hr
  simp only [ho, hf, if_neg hb] at hr
  cases hc : chainFind (fun p => (s.hash.page p).next) (fun new => decide (new = page)) fuel
      (s.hash.pagehash (pageIndex object offset)) with
  | none => simp [hc] at hr
  | some r =>
    rw [hc] at hr
    cases r with
    | none => exact (Option.some.inj hr).symm
    | some new =>
      have hnew := chainFind_some (hi.chains _) hc
      obtain rfl : new = page := by simpa using find?_some hnew.symm
      rw [← Option.some.inj hr]
      simp only [PageHash.modPage, update_eq_self]

theorem HashInvAt.vmPageRemove_first (hi : HashInvAt s chain) {t : PageHash ρ} {fuel : Nat}
    (hp : s.inserted page = some (object, offset)) (hb : s.hash.pagehash (pageIndex object offset) = some page)
    (hr : vmPageRemove s.hash fuel page = some t) :
    t = s.hash.setBucket (pageIndex object offset) (s.hash.page page).next := by
  obtain ⟨ho, hf⟩ := hi.key page object offset hp
  unfold vmPageRemove at hr
  simp only [ho, hf, if_pos hb] at hr
  exact (Option.some.inj hr).symm

end Chains

section Run

variable {s s' : PageState ρ} {op : PageOp ρ}

/-- A removal leaves all lookups right exactly when the page is the first of its bucket. -/
theorem HashInv.remove_iff (hi : HashInv s) {page : ρ} (h : PageStep s (.remove page) s') :
    (PageStepOk (s, .remove page, s') ↔ PageGuard (s, .remove page, s')) ∧
      (PageGuard (s, .remove page, s') → HashInv s') := by
  obtain ⟨chain, hi⟩ := hi
  obtain ⟨hne, fuel, t, hr, rfl⟩ := h
  obtain ⟨⟨object, offset⟩, hp⟩ := Option.ne_none_iff_exists'.1 hne
  have hguard : PageGuard (s, .remove page, ⟨t, update s.inserted page none⟩) →
      ∃ chain', HashInvAt ⟨t, update s.inserted page none⟩ chain' := by
    intro hg
    have hb := hg object offset hp
    exact ⟨_, hi.remove_first hp hb (hi.vmPageRemove_first hp hb hr) rfl⟩
  refine ⟨⟨fun hok o f hp' => ?_, fun hg o f hb => ?_⟩, hguard⟩
  · -- a page that stays on its chain is found under its old key
    cases hp.symm.trans hp'
    by_contra hb
    obtain rfl := hi.vmPageRemove_not_first hp hb hr
    have hne : s.hash.pagehash (pageIndex object offset) ≠ none := by
      intro hnil
      have hmem := (hi.mem _ page).2 ⟨object, offset, hp, rfl⟩
      rw [(hi.chains _).nil_iff.1 hnil] at hmem
      cases hmem
    obtain ⟨m, hm⟩ := hok object offset hne
    obtain ⟨r, hl, hr'⟩ := hm (m + (chain (pageIndex object offset)).length + 1) (by omega)
    rw [hi.lookup_eq hne (by omega)] at hl
    have hfound : update s.inserted page none page = some (object, offset) :=
      (hr' page).1 (PageLookup.result.inj (Option.some.inj hl) ▸ hi.find_iff.2 hp)
    rw [update_self] at hfound
    cases hfound
  · obtain ⟨chain', hi'⟩ := hguard hg
    exact hi'.lookupRight_iff.2 hb

theorem HashInv.step (hi : HashInv s) (h : PageStep s op s') :
    (PageStepOk (s, op, s') ↔ PageGuard (s, op, s')) ∧ (PageGuard (s, op, s') → HashInv s') := by
  cases op with
  | insert page object offset =>
    obtain ⟨chain, hi⟩ := hi
    obtain ⟨hp, hk, rfl⟩ := h
    have hi' : HashInvAt ⟨_, _⟩ _ := hi.insert hp hk rfl rfl
    exact ⟨⟨fun _ => trivial, fun _ o f hb => hi'.lookupRight_iff.2 hb⟩, fun _ => ⟨_, hi'⟩⟩
  | remove page => exact hi.remove_iff h
  | lookup object offset =>
    obtain rfl : s' = s := h
    exact ⟨hi.elim fun _ h => h.lookupRight_iff, fun _ => hi⟩

def PageState.Empty (s : PageState ρ) : Prop := (∀ b, s.hash.pagehash b = none) ∧ ∀ p, s.inserted p = none

omit [DecidableEq ρ] in
theorem PageState.Empty.inv (h : s.Empty) : HashInv s := by
  refine ⟨fun _ => [], fun b => h.1 b, fun b => nodup_nil, fun b p => ?_, fun p o f hp => ?_,
    fun p q k hp => ?_⟩
  · simp [h.2]
  · simp [h.2] at hp
  · simp [h.2] at hp

/-- Over the runs from the empty table the lookups are those of the finite map of the inserted pages exactly if only
first pages are removed and no key is looked up in a bucket without a page. -/
theorem page_hash_is_map {tr : List (PageState ρ × PageOp ρ × PageState ρ)} (h0 : s.Empty)
    (h : Run PageStep s tr s') : (∀ x ∈ tr, PageStepOk x) ↔ ∀ x ∈ tr, PageGuard x :=
  h.forall_iff HashInv PageGuard PageStepOk h0.inv (fun _ _ _ hi hg hst => (hi.step hst).2 hg)
    fun _ _ _ hi hst => (hi.step hst).1

/-- Two pages, none of them inserted. -/
def twoPages : PageState (Fin 2) :=
  ⟨⟨fun _ => ⟨none, 0, 0, 0⟩, fun _ => none⟩, fun _ => none⟩

/-- The keys of the two pages fall into one bucket; the second page is inserted last. -/
def twoPagesInserted : PageState (Fin 2) :=
  ⟨vmPageInsert (vmPageInsert twoPages.hash 0 0x100000 0) 1 0x200000 0,
    update (update twoPages.inserted 0 (some (0x100000, 0))) 1 (some (0x200000, 0))⟩

private theorem twoPagesInserted_run : ∃ tr, Run PageStep twoPages tr twoPagesInserted ∧
    tr.map (·.2.1) = [.insert 0 0x100000 0, .insert 1 0x200000 0] ∧ ∀ x ∈ tr, PageGuard x := by
  have s1 : PageStep twoPages (.insert 0 0x100000 0) ⟨vmPageInsert twoPages.hash 0 0x100000 0,
      update twoPages.inserted 0 (some (0x100000, 0))⟩ :=
    ⟨rfl, by decide, rfl⟩
  have s2 : PageStep ⟨vmPageInsert twoPages.hash 0 0x100000 0,
      update twoPages.inserted 0 (some (0x100000, 0))⟩ (.insert 1 0x200000 0) twoPagesInserted :=
    ⟨rfl, by decide, rfl⟩
  refine ⟨_, (Run.nil.snoc s1).snoc s2, rfl, ?_⟩
  simp [PageGuard]

/-- The page inserted last is removed, and then the other one looked up. -/
theorem page_hash_is_map_last_first : ∃ tr s, Run PageStep twoPages tr s ∧ tr.map (·.2.1) =
    [.insert 0 0x100000 0, .insert 1 0x200000 0, .remove 1, .lookup 0x100000 0] ∧ ∀ x ∈ tr, PageStepOk x := by
  obtain ⟨tr, hrun, hops, hg⟩ := twoPagesInserted_run
  have s3 : PageStep twoPagesInserted (.remove 1)
      ⟨(vmPageRemove twoPagesInserted.hash 2 1).get rfl, update twoPagesInserted.inserted 1 none⟩ :=
    ⟨by decide, 2, _, rfl, rfl⟩
  have s4 (s : PageState (Fin 2)) : PageStep s (.lookup 0x100000 0) s := rfl
  have h := (hrun.snoc s3).snoc (s4 _)
  refine ⟨_, _, h, by simp [hops], (page_hash_is_map ⟨fun _ => rfl, fun _ => rfl⟩ h).2 fun x hx => ?_⟩
  simp only [append_assoc, mem_append, mem_singleton] at hx
  rcases hx with hx | rfl | rfl
  · exact hg x hx
  · intro o f hp
    cases hp
    rfl
  · intro hb
    cases hb

/-- The page inserted first is removed and still found; in the empty table a null pointer is read through. -/
theorem removed_page_found_and_null_read : ∃ s, (∃ tr, Run PageStep twoPages tr s ∧ tr.map (·.2.1) =
      [.insert 0 0x100000 0, .insert 1 0x200000 0, .remove 0]) ∧ (∀ p, s.inserted p ≠ some (0x100000, 0)) ∧
    vmPageLookup s.hash 2 0x100000 0 = some (.result (some 0)) ∧
    ∀ fuel, vmPageLookup twoPages.hash fuel 0x100000 0 = some .nullRead := by
  obtain ⟨tr, hrun, hops, -⟩ := twoPagesInserted_run
  have s3 : PageStep twoPagesInserted (.remove 0)
      ⟨(vmPageRemove twoPagesInserted.hash 3 0).get rfl, update twoPagesInserted.inserted 0 none⟩ :=
    ⟨by decide, 3, _, rfl, rfl⟩
  exact ⟨_, ⟨_, hrun.snoc s3, by simp [hops]⟩, by decide, rfl, fun _ => rfl⟩

end Run

end Manrix
