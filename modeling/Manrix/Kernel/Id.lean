import Manrix.Lib.Bitmap
import Manrix.Lib.Runs

/-!
# Identifiers of threads, processes and timers (`kernel/id.c`)

Every kind of identifier has a page with a bitmap and a hint, the word that gave or got the last identifier. `alloc_id`
looks at the word of the hint and then, from the first word on, for one with a clear bit; it gives up behind the word
128, though the page has 1024 words.  `alloc_tid`, `alloc_pid` and `alloc_timerid` add the first identifier of their
kind to the result without a look at it, so a failure is the number before the first identifier, which may be that of a
boot server.

`change_tid` and `change_pid` give a boot server a number below the first identifier.  When it is destroyed, or changed
once more, `dealloc_id` is called with a negative number and clears a bit in front of the page.  As long as this does
not happen, and identifiers are left, all is well: `ids_unique`.
-/

namespace Manrix

open Bitmap Function List Runs

def maxIntVal : BitVec 32 := 0xffffffff
def bitsPerInt : Int := 32

/-- The position of the first clear bit; without one the result of `bsfl` is not defined. -/
def ffc (x : BitVec 32) : Option Nat := firstClear x

/-- A bitmap, together with the memory around its page, and its hint. -/
structure IdBitmap where
  word : Int → BitVec 32
  hint : Int

/-- The bitmap after a call of `alloc_id`, the result, and the words that the call looked at. -/
structure IdCall where
  bitmap : IdBitmap
  ret : Int
  accessed : List Int

/-- The loop of `alloc_id`: the words it looks at, and the one it stops at. -/
def skipFull (word : Int → BitVec 32) : Nat → Int → Option (List Int × Int)
  | 0, _ => none
  | fuel + 1, hint =>
    if word hint = maxIntVal then (skipFull word fuel (hint + 1)).map fun r => (hint :: r.1, r.2)
    else some ([hint], hint)

/-- The end of `alloc_id`. -/
def takeId (b : IdBitmap) (hint : Int) (accessed : List Int) : Option IdCall :=
  (ffc (b.word hint)).map fun index : Nat =>
    ⟨⟨insert b.word (hint * bitsPerInt + index), hint⟩, index + hint * bitsPerInt, accessed⟩

def allocId (fuel : Nat) (b : IdBitmap) : Option IdCall :=
  if b.word b.hint = maxIntVal then
    match skipFull b.word fuel 0 with
    | none => none
    | some (accessed, hint) =>
      if hint > 4096 / bitsPerInt then some ⟨b, -1, b.hint :: accessed⟩
      else takeId b hint (b.hint :: accessed)
  else takeId b b.hint [b.hint]

/-- `dealloc_id`, with the word it writes.  `btrl` with the index in a register addresses a string of bits, so a
negative index is in front of the word. -/
def deallocId (id : Int) (b : IdBitmap) : IdBitmap × Int :=
  let hint := id.tdiv bitsPerInt
  let index := id.tmod bitsPerInt
  (⟨erase b.word (hint * bitsPerInt + index), hint⟩, hint + index / bitsPerInt)

def firstUserTid : Int := 500
def firstUserPid : Int := 500

inductive IdSpace where
  | tid
  | pid
  | timerid

def IdSpace.first : IdSpace → Int
  | .tid => firstUserTid
  | .pid => firstUserPid
  | .timerid => 1

def IdSpace.alloc (k : IdSpace) (fuel : Nat) (b : IdBitmap) : Option IdCall :=
  (allocId fuel b).map fun c => { c with ret := k.first + c.ret }

def IdSpace.dealloc (k : IdSpace) (id : Int) (b : IdBitmap) : IdBitmap × Int := deallocId (id - k.first) b

def allocPid (fuel : Nat) (b : IdBitmap) : Option IdCall := IdSpace.pid.alloc fuel b
def allocTid (fuel : Nat) (b : IdBitmap) : Option IdCall := IdSpace.tid.alloc fuel b
def allocTimerid (fuel : Nat) (b : IdBitmap) : Option IdCall := IdSpace.timerid.alloc fuel b
def deallocPid (pid : Int) (b : IdBitmap) : IdBitmap × Int := IdSpace.pid.dealloc pid b
def deallocTid (tid : Int) (b : IdBitmap) : IdBitmap × Int := IdSpace.tid.dealloc tid b
def deallocTimerid (timerId : Int) (b : IdBitmap) : IdBitmap × Int := IdSpace.timerid.dealloc timerId b

/-- Where the identifier of a thread or a process comes from. -/
inductive IdUse where
  | dead
  | allocated
  | changed
  deriving DecidableEq

/-- The threads, or the processes, and their identifiers. -/
structure IdState (τ : Type*) where
  ids : IdBitmap
  id : τ → Int
  use : τ → IdUse

/-- `create_thread`, `change_tid` and `destroy_thread`; `do_fork` or `do_spawn`, `change_pid` and `syscall_exit`. -/
inductive IdOp (τ : Type*) where
  | create (t : τ)
  | change (t : τ) (new : Int)
  | destroy (t : τ)

variable {τ : Type*} [DecidableEq τ]

def IdStep (k : IdSpace) (s : IdState τ) (op : IdOp τ) (s' : IdState τ) : Prop :=
  match op with
  | .create t => s.use t = .dead ∧ ∃ fuel c, k.alloc fuel s.ids = some c ∧
      s' = ⟨c.bitmap, update s.id t c.ret, update s.use t .allocated⟩
  | .change t new => s.use t ≠ .dead ∧ new < k.first ∧
      s' = ⟨(k.dealloc (s.id t) s.ids).1, update s.id t new, update s.use t .changed⟩
  | .destroy t => s.use t ≠ .dead ∧
      s' = ⟨(k.dealloc (s.id t) s.ids).1, s.id, update s.use t .dead⟩

omit [DecidableEq τ] in
/-- No two threads have the same identifier from `alloc_tid`. -/
def IdState.Unique (s : IdState τ) : Prop :=
  ∀ t u, s.use t = .allocated → s.use u = .allocated → s.id t = s.id u → t = u

omit [DecidableEq τ] in
/-- What `id_init` sets up. -/
structure IdState.Initial (s : IdState τ) : Prop where
  zero : ∀ w, 0 ≤ w → w ≤ 1023 → s.ids.word w = 0
  hint : s.ids.hint = 0
  dead : ∀ t, s.use t = .dead

omit [DecidableEq τ] in
/-- The identifiers are unique after the step, those returned are not below the first one, and the words looked at are
words of the page. -/
def IdStepOk (k : IdSpace) (x : IdState τ × IdOp τ × IdState τ) : Prop :=
  x.2.2.Unique ∧
  match x.2.1 with
  | .create _ => ∀ fuel c, k.alloc fuel x.1.ids = some c → k.first ≤ c.ret ∧ ∀ w ∈ c.accessed, 0 ≤ w ∧ w ≤ 1023
  | .change t _ | .destroy t =>
    0 ≤ (k.dealloc (x.1.id t) x.1.ids).2 ∧ (k.dealloc (x.1.id t) x.1.ids).2 ≤ 1023

omit [DecidableEq τ] in
/-- There is a clear bit where `alloc_id` looks for one, and no identifier below the first one is given back. -/
def IdGuard (k : IdSpace) (x : IdState τ × IdOp τ × IdState τ) : Prop :=
  match x.2.1 with
  | .create _ => ∃ w, (w = x.1.ids.hint ∨ 0 ≤ w ∧ w ≤ 128) ∧ x.1.ids.word w ≠ maxIntVal
  | .change t _ | .destroy t => k.first ≤ x.1.id t

section Bits

variable {b : IdBitmap} {fuel : Nat} {c : IdCall} {a h : Int} {l : List Int}

private theorem ffc_eq_none_iff {x : BitVec 32} : ffc x = none ↔ x = maxIntVal := firstClear_eq_none_iff

private theorem skipFull_some {word : Int → BitVec 32} (hs : skipFull word fuel a = some (l, h)) :
    a ≤ h ∧ word h ≠ maxIntVal ∧ (∀ w, a ≤ w → w < h → word w = maxIntVal) ∧ ∀ w ∈ l, a ≤ w ∧ w ≤ h := by
  induction fuel generalizing a l with
  | zero => cases hs
  | succ fuel ih =>
    rw [skipFull] at hs
    split at hs
    · rename_i hfull
      obtain ⟨⟨l', h'⟩, hs', he⟩ := Option.map_eq_some_iff.1 hs
      cases he
      obtain ⟨hle, hh, hbelow, hl⟩ := ih hs'
      refine ⟨by omega, hh, ?_, ?_⟩
      · intro w hw1 hw2
        by_cases hwa : w = a
        · rw [hwa]; exact hfull
        · exact hbelow w (by omega) hw2
      · intro w hw
        rcases mem_cons.1 hw with rfl | hw
        · omega
        · have := hl w hw
          omega
    · rename_i hfull
      cases hs
      refine ⟨le_refl _, hfull, fun w h1 h2 => by omega, ?_⟩
      intro w hw
      rw [mem_singleton.1 hw]
      omega

private theorem skipFull_isSome {word : Int → BitVec 32} (hle : a ≤ h) (hh : word h ≠ maxIntVal)
    (hf : (h - a).toNat < fuel) : (skipFull word fuel a).isSome := by
  induction fuel generalizing a with
  | zero => omega
  | succ fuel ih =>
    rw [skipFull]
    split
    · rename_i hfull
      have hne : a ≠ h := fun e => hh (e ▸ hfull)
      rw [Option.isSome_map]
      exact ih (by omega) (by omega)
    · rfl

theorem has_word_bit {m : Int → BitVec 32} {w : Int} {index : Nat} (h : index < 32) :
    has m (w * 32 + index) = (m w).getLsbD index := by
  have := has_word (m := m) (w := w) h
  rwa [Nat.cast_ofNat] at this

private theorem takeId_some {hint : Int} (h : takeId b hint l = some c) :
    ∃ index : Nat, index < 32 ∧ has b.word c.ret = false ∧ c.ret = hint * 32 + index ∧ c.accessed = l ∧
      c.bitmap = ⟨insert b.word c.ret, hint⟩ := by
  obtain ⟨index, hi, rfl⟩ := Option.map_eq_some_iff.1 h
  obtain ⟨hlt, hclear⟩ := firstClear_some hi
  have hret : (index : Int) + hint * 32 = hint * 32 + index := Int.add_comm ..
  dsimp only [bitsPerInt]
  rw [hret]
  exact ⟨index, hlt, (has_word_bit hlt).trans hclear, rfl, rfl, rfl⟩

theorem deallocId_eq (id : Int) (b : IdBitmap) : deallocId id b = (⟨erase b.word id, id.tdiv 32⟩, id / 32) := by
  have hid : id.tdiv 32 * 32 + id.tmod 32 = id := Int.tdiv_mul_add_tmod ..
  have hw : id.tdiv 32 + id.tmod 32 / 32 = id / 32 := by omega
  simp only [deallocId, bitsPerInt, hid, hw]

/-- `alloc_id` has found no clear bit, or it returns an identifier whose bit was clear. -/
theorem allocId_cases (hh : 0 ≤ b.hint ∧ b.hint ≤ 128) (ht : b.word 129 = 0) (h : allocId fuel b = some c) :
    (∀ w ∈ c.accessed, 0 ≤ w ∧ w ≤ 129) ∧
    ((∀ w, w = b.hint ∨ 0 ≤ w ∧ w ≤ 128 → b.word w = maxIntVal) ∧ c.bitmap = b ∧ c.ret = -1 ∨
      (∃ w, 0 ≤ w ∧ w ≤ 128 ∧ b.word w ≠ maxIntVal) ∧ 0 ≤ c.ret ∧ c.ret < 129 * 32 ∧ has b.word c.ret = false ∧
        c.bitmap = ⟨insert b.word c.ret, c.ret / 32⟩) := by
  have take : ∀ {hint l}, takeId b hint l = some c → 0 ≤ hint → hint ≤ 128 → c.accessed = l ∧
      0 ≤ c.ret ∧ c.ret < 129 * 32 ∧ has b.word c.ret = false ∧ c.bitmap = ⟨insert b.word c.ret, c.ret / 32⟩ := by
    intro hint l h h0 h1
    obtain ⟨index, hlt, hclear, hret, hl, hb⟩ := takeId_some h
    have hw : c.ret / 32 = hint := by omega
    exact ⟨hl, by omega, by omega, hclear, by rw [hb, hw]⟩
  unfold allocId at h
  split at h
  · rename_i hfull
    split at h
    · cases h
    · rename_i l hint hs
      obtain ⟨h0, hne, hbelow, hl⟩ := skipFull_some hs
      have h129 : hint ≤ 129 := by
        by_contra hlt
        have := hbelow 129 (by omega) (by omega)
        rw [ht] at this
        cases this
      have hacc : ∀ w ∈ b.hint :: l, 0 ≤ w ∧ w ≤ 129 := by
        intro w hw
        rcases mem_cons.1 hw with rfl | hw
        · omega
        · have := hl w hw
          omega
      split at h
      · rename_i hgt
        cases h
        refine ⟨hacc, .inl ⟨?_, rfl, rfl⟩⟩
        have h128 : 128 < hint := hgt
        rintro w (rfl | ⟨hw0, hw1⟩)
        · exact hfull
        · exact hbelow w hw0 (by omega)
      · rename_i hgt
        have h128 : hint ≤ 128 := not_lt.1 hgt
        obtain ⟨ha, hc⟩ := take h h0 h128
        exact ⟨ha ▸ hacc, .inr ⟨⟨hint, h0, h128, hne⟩, hc⟩⟩
  · rename_i hne
    obtain ⟨ha, hc⟩ := take h hh.1 hh.2
    refine ⟨?_, .inr ⟨⟨b.hint, hh.1, hh.2, hne⟩, hc⟩⟩
    intro w hw
    rw [ha] at hw
    rw [mem_singleton.1 hw]
    omega

theorem allocId_isSome (ht : b.word 129 = 0) (hf : 129 < fuel) : (allocId fuel b).isSome := by
  have take : ∀ hint l, b.word hint ≠ maxIntVal → (takeId b hint l).isSome := by
    intro hint l h
    unfold takeId
    rw [Option.isSome_map, Option.isSome_iff_ne_none]
    exact fun he => h (ffc_eq_none_iff.1 he)
  unfold allocId
  split
  · have hfree : b.word 129 ≠ maxIntVal := by
      rw [ht]
      decide
    obtain ⟨⟨l, hint⟩, hs⟩ := Option.isSome_iff_exists.1 (skipFull_isSome (a := 0) (by omega) hfree hf)
    rw [hs]
    dsimp only
    split
    · rfl
    · exact take _ _ (skipFull_some hs).2.1
  · exact take _ _ ‹_›

end Bits

section Steps

variable {k : IdSpace} {s s' : IdState τ} {t : τ} {op : IdOp τ}

/-- The bits of the words that `alloc_id` uses are the identifiers in use, and the words behind are clear. -/
structure IdInv (k : IdSpace) (s : IdState τ) : Prop where
  hint : 0 ≤ s.ids.hint ∧ s.ids.hint ≤ 128
  tail : ∀ w, 129 ≤ w → w ≤ 1023 → s.ids.word w = 0
  has_iff : ∀ i, 0 ≤ i → i < 129 * 32 → (has s.ids.word i = true ↔ ∃ t, s.use t = .allocated ∧ s.id t = k.first + i)
  range : ∀ t, s.use t = .allocated → k.first ≤ s.id t ∧ s.id t < k.first + 129 * 32
  below : ∀ t, s.use t = .changed → s.id t < k.first
  unique : s.Unique

omit [DecidableEq τ] in
theorem IdState.Initial.inv (h : s.Initial) : IdInv k s where
  hint := by rw [h.hint]; omega
  tail w hw hw' := h.zero w (by omega) hw'
  has_iff i h0 h1 := by
    have hz : s.ids.word (i / 32) = 0 := h.zero _ (by omega) (by omega)
    have hc : has s.ids.word i = false := by
      unfold has
      rw [Nat.cast_ofNat, hz]
      simp
    rw [hc]
    simp [h.dead]
  range t ht := by rw [h.dead t] at ht; cases ht
  below t ht := by rw [h.dead t] at ht; cases ht
  unique t u ht := by rw [h.dead t] at ht; cases ht

theorem IdState.Unique.create {i : Int} {ids : IdBitmap} (h : s.Unique)
    (hfresh : ∀ u, s.use u = .allocated → s.id u ≠ i) :
    (IdState.mk ids (update s.id t i) (update s.use t .allocated)).Unique := by
  intro u v hu hv he
  dsimp only at hu hv he
  by_cases hut : u = t <;> by_cases hvt : v = t
  · rw [hut, hvt]
  · subst hut
    rw [update_self, update_of_ne hvt] at he
    rw [update_of_ne hvt] at hv
    exact absurd he.symm (hfresh v hv)
  · subst hvt
    rw [update_self, update_of_ne hut] at he
    rw [update_of_ne hut] at hu
    exact absurd he (hfresh u hu)
  · rw [update_of_ne hut] at hu he
    rw [update_of_ne hvt] at hv he
    exact h u v hu hv he

/-- A thread gets an identifier whose bit was clear. -/
theorem IdInv.create {i : Int} (hi : IdInv k s) (ht : s.use t = .dead) (h0 : 0 ≤ i) (h1 : i < 129 * 32)
    (hc : has s.ids.word i = false) :
    IdInv k ⟨⟨insert s.ids.word i, i / 32⟩, update s.id t (k.first + i), update s.use t .allocated⟩ := by
  -- no thread has the new identifier
  have hfresh : ∀ u, s.use u = .allocated → s.id u ≠ k.first + i := by
    intro u hu he
    have := (hi.has_iff i h0 h1).2 ⟨u, hu, he⟩
    rw [hc] at this
    cases this
  have hold : ∀ u, s.use u ≠ .dead → u ≠ t := by
    rintro u hu rfl
    exact hu ht
  refine ⟨⟨by dsimp only; omega, by dsimp only; omega⟩, ?_, ?_, ?_, ?_, ?_⟩
  · intro w hw hw'
    have hne : w ≠ i / 32 := by omega
    exact (insert_of_ne hne).trans (hi.tail w hw hw')
  · intro j hj0 hj1
    dsimp only
    rw [has_insert (by decide), Bool.or_eq_true, decide_eq_true_iff, hi.has_iff j hj0 hj1]
    constructor
    · rintro (rfl | ⟨u, hu, he⟩)
      · exact ⟨t, by simp, by simp⟩
      · have hut : u ≠ t := hold u (by rw [hu]; decide)
        exact ⟨u, by rw [update_of_ne hut]; exact hu, by rw [update_of_ne hut]; exact he⟩
    · rintro ⟨u, hu, he⟩
      by_cases hut : u = t
      · subst hut
        rw [update_self] at he
        exact .inl (by omega)
      · rw [update_of_ne hut] at hu he
        exact .inr ⟨u, hu, he⟩
  · intro u hu
    dsimp only at hu ⊢
    by_cases hut : u = t
    · subst hut
      rw [update_self]
      omega
    · rw [update_of_ne hut] at hu ⊢
      exact hi.range u hu
  · intro u hu
    dsimp only at hu ⊢
    by_cases hut : u = t
    · subst hut
      rw [update_self] at hu
      cases hu
    · rw [update_of_ne hut] at hu ⊢
      exact hi.below u hu
  · exact hi.unique.create hfresh

/-- A thread gives back its identifier and has none from `alloc_tid` any more. -/
theorem IdInv.release {id' : τ → Int} {use' : τ → IdUse} (hi : IdInv k s) (ht : s.use t ≠ .dead)
    (hid : k.first ≤ s.id t) (hu : use' t ≠ .allocated) (hc : use' t = .changed → id' t < k.first)
    (hother : ∀ u, u ≠ t → id' u = s.id u ∧ use' u = s.use u) : IdInv k ⟨(k.dealloc (s.id t) s.ids).1, id', use'⟩ := by
  have hall : s.use t = .allocated := by
    cases h : s.use t with
    | dead => exact absurd h ht
    | allocated => rfl
    | changed => exact absurd (hi.below t h) (by omega)
  obtain ⟨-, hlt⟩ := hi.range t hall
  have hold : ∀ u, use' u = .allocated → u ≠ t ∧ s.use u = .allocated ∧ id' u = s.id u := by
    intro u h
    have hut : u ≠ t := by
      rintro rfl
      exact hu h
    exact ⟨hut, (hother u hut).2 ▸ h, (hother u hut).1⟩
  have hd : (k.dealloc (s.id t) s.ids).1 = ⟨erase s.ids.word (s.id t - k.first), (s.id t - k.first).tdiv 32⟩ := by
    rw [IdSpace.dealloc, deallocId_eq]
  rw [hd]
  have htd : (s.id t - k.first).tdiv 32 = (s.id t - k.first) / 32 := Int.tdiv_eq_ediv_of_nonneg (by omega)
  refine ⟨⟨by dsimp only; omega, by dsimp only; omega⟩, ?_, ?_, ?_, ?_, ?_⟩
  · intro w hw hw'
    have hne : w ≠ (s.id t - k.first) / 32 := by omega
    exact (erase_of_ne hne).trans (hi.tail w hw hw')
  · intro j hj0 hj1
    dsimp only
    rw [has_erase (by decide), Bool.and_eq_true, decide_eq_true_iff, hi.has_iff j hj0 hj1]
    constructor
    · rintro ⟨hne, u, hu, he⟩
      have hut : u ≠ t := by
        rintro rfl
        omega
      exact ⟨u, (hother u hut).2.trans hu, (hother u hut).1.trans he⟩
    · rintro ⟨u, hu, he⟩
      obtain ⟨hut, hu', he'⟩ := hold u hu
      refine ⟨?_, u, hu', he' ▸ he⟩
      rintro rfl
      exact hut (hi.unique u t hu' hall (by omega))
  · intro u h
    obtain ⟨-, hu', he⟩ := hold u h
    dsimp only
    rw [he]
    exact hi.range u hu'
  · intro u h
    by_cases hut : u = t
    · subst hut
      exact hc h
    · have := hi.below u ((hother u hut).2 ▸ h)
      dsimp only
      rwa [(hother u hut).1]
  · intro u v hu hv he
    obtain ⟨-, hu', heu⟩ := hold u hu
    obtain ⟨-, hv', hev⟩ := hold v hv
    dsimp only at he
    rw [heu, hev] at he
    exact hi.unique u v hu' hv' he

theorem IdInv.step (hi : IdInv k s) (hg : IdGuard k (s, op, s')) (h : IdStep k s op s') : IdInv k s' := by
  cases op with
  | create t =>
    obtain ⟨ht, fuel, c, hc, rfl⟩ := h
    obtain ⟨c', hc', rfl⟩ := Option.map_eq_some_iff.1 hc
    obtain ⟨-, ⟨hfull, -⟩ | ⟨-, h0, h1, hclear, hb⟩⟩ := allocId_cases hi.hint (hi.tail 129 (by omega) (by omega)) hc'
    · obtain ⟨w, hw, hne⟩ := hg
      exact absurd (hfull w hw) hne
    · dsimp only
      rw [hb]
      exact hi.create ht h0 h1 hclear
  | change t new =>
    obtain ⟨ht, hnew, rfl⟩ := h
    refine hi.release ht hg (by simp) (fun _ => by simpa using hnew) fun u hut => ?_
    simp [hut]
  | destroy t =>
    obtain ⟨ht, rfl⟩ := h
    refine hi.release ht hg (by simp) (fun h => by simp at h) fun u hut => ?_
    simp [hut]

theorem IdInv.stepOk_iff (hi : IdInv k s) (h : IdStep k s op s') : IdStepOk k (s, op, s') ↔ IdGuard k (s, op, s') := by
  constructor
  · rintro ⟨-, hok⟩
    cases op with
    | create t =>
      obtain ⟨-, fuel, c, hc, -⟩ := h
      have hret := (hok fuel c hc).1
      obtain ⟨c', hc', rfl⟩ := Option.map_eq_some_iff.1 hc
      obtain ⟨-, ⟨-, -, hm⟩ | ⟨⟨w, h0, h1, hne⟩, -⟩⟩ :=
        allocId_cases hi.hint (hi.tail 129 (by omega) (by omega)) hc'
      · dsimp only at hret
        omega
      · exact ⟨w, .inr ⟨h0, h1⟩, hne⟩
    | change t new =>
      have hw := hok.1
      simp only [IdSpace.dealloc, deallocId_eq] at hw
      exact (by omega : k.first ≤ s.id t)
    | destroy t =>
      have hw := hok.1
      simp only [IdSpace.dealloc, deallocId_eq] at hw
      exact (by omega : k.first ≤ s.id t)
  · intro hg
    refine ⟨(hi.step hg h).unique, ?_⟩
    have word : ∀ t, s.use t ≠ .dead → k.first ≤ s.id t →
        0 ≤ (k.dealloc (s.id t) s.ids).2 ∧ (k.dealloc (s.id t) s.ids).2 ≤ 1023 := by
      intro t ht hid
      have hlt : s.id t < k.first + 129 * 32 := by
        cases hu : s.use t with
        | dead => exact absurd hu ht
        | allocated => exact (hi.range t hu).2
        | changed =>
          have := hi.below t hu
          omega
      simp only [IdSpace.dealloc, deallocId_eq]
      omega
    cases op with
    | create t =>
      intro fuel c hc
      obtain ⟨c', hc', rfl⟩ := Option.map_eq_some_iff.1 hc
      obtain ⟨hacc, ⟨hfull, -⟩ | ⟨-, h0, -⟩⟩ := allocId_cases hi.hint (hi.tail 129 (by omega) (by omega)) hc'
      · obtain ⟨w, hw, hne⟩ := hg
        exact absurd (hfull w hw) hne
      · refine ⟨by dsimp only; omega, fun w hw => ?_⟩
        have := hacc w hw
        omega
    | change t new => exact word t h.1 hg
    | destroy t => exact word t h.1 hg

/-- In a run from `id_init` the identifiers of the threads, or of the processes, are unique, not below the first one,
and looked up on their page, as long as there is one left where `alloc_id` looks and none of a boot server is given
back.  Then `alloc_id` always returns. -/
theorem ids_unique {s₀ : IdState τ} {tr : List (IdState τ × IdOp τ × IdState τ)} (h₀ : s₀.Initial)
    (hr : Run (IdStep k) s₀ tr s) : ((∀ x ∈ tr, IdStepOk k x) ↔ ∀ x ∈ tr, IdGuard k x) ∧
      ((∀ x ∈ tr, IdGuard k x) → ∀ fuel, 129 < fuel → (k.alloc fuel s.ids).isSome) := by
  have step : ∀ (s : IdState τ) op s', IdInv k s → IdGuard k (s, op, s') → IdStep k s op s' → IdInv k s' :=
    fun _ _ _ hi hg h => hi.step hg h
  refine ⟨hr.forall_iff (IdInv k) _ _ h₀.inv step fun _ _ _ hi h => hi.stepOk_iff h, ?_⟩
  intro hg fuel hf
  have hi : IdInv k s := hr.inv_of_guard (IdInv k) _ h₀.inv step hg
  rw [IdSpace.alloc, Option.isSome_map]
  exact allocId_isSome (hi.tail 129 (by omega) (by omega)) hf

/-- No identifier is in use. -/
def freshIds : IdState Bool := ⟨⟨fun _ => 0, 0⟩, fun _ => 0, fun _ => .dead⟩

private theorem freshIds_initial : freshIds.Initial := ⟨fun _ _ _ => rfl, rfl, fun _ => rfl⟩

/-- The states after `alloc_tid` for the thread `t`, and after `change_tid` to 1. -/
def IdState.created (s : IdState Bool) (t : Bool) : IdState Bool :=
  match allocTid 1 s.ids with
  | none => s
  | some c => ⟨c.bitmap, update s.id t c.ret, update s.use t .allocated⟩

def IdState.renamed (s : IdState Bool) (t : Bool) : IdState Bool :=
  ⟨(deallocTid (s.id t) s.ids).1, update s.id t 1, update s.use t .changed⟩

def IdState.destroyed (s : IdState Bool) (t : Bool) : IdState Bool :=
  ⟨(deallocTid (s.id t) s.ids).1, s.id, update s.use t .dead⟩

theorem IdState.created_step {s : IdState Bool} {t : Bool} (ht : s.use t = .dead) (h : (allocTid 1 s.ids).isSome) :
    IdStep .tid s (.create t) (s.created t) := by
  obtain ⟨c, hc⟩ := Option.isSome_iff_exists.1 h
  refine ⟨ht, 1, c, hc, ?_⟩
  rw [IdState.created, hc]

/-- A boot server, and a thread with the identifier that the server has given back. -/
theorem ids_unique_boot_server :
    ∃ (tr : List (IdState Bool × IdOp Bool × IdState Bool)) (s : IdState Bool), Run (IdStep .tid) freshIds tr s ∧
      tr.map (·.2.1) = [.create false, .change false 1, .create true] ∧ ∀ x ∈ tr, IdStepOk .tid x := by
  have s1 : IdStep .tid freshIds (.create false) (freshIds.created false) := IdState.created_step rfl rfl
  have s2 : IdStep .tid (freshIds.created false) (.change false 1) ((freshIds.created false).renamed false) :=
    ⟨by decide, by decide, rfl⟩
  have s3 : IdStep .tid ((freshIds.created false).renamed false) (.create true)
      (((freshIds.created false).renamed false).created true) := IdState.created_step rfl rfl
  have hr := ((Run.nil.snoc s1).snoc s2).snoc s3
  refine ⟨_, _, hr, rfl, (ids_unique freshIds_initial hr).1.2 ?_⟩
  intro x hx
  simp only [nil_append, cons_append, mem_cons, not_mem_nil, or_false] at hx
  rcases hx with rfl | rfl | rfl
  · exact ⟨0, .inl rfl, by decide⟩
  · exact (by decide : (500 : Int) ≤ 500)
  · exact ⟨0, .inl rfl, by decide⟩

/-- When the boot server is destroyed, the word 16 words before the page is written, and the next thread gets an
identifier below the first one, from a word that is not on the page. -/
theorem destroyed_boot_server :
    ∃ (tr : List (IdState Bool × IdOp Bool × IdState Bool)) (s : IdState Bool), freshIds.Initial ∧
      Run (IdStep .tid) freshIds tr s ∧
      tr.map (·.2.1) = [.create false, .change false 1, .destroy false, .create true] ∧
      (∃ x ∈ tr, x.2.1 = .destroy false ∧ (deallocTid (x.1.id false) x.1.ids).2 = -16) ∧
      s.use true = .allocated ∧ s.id true = 20 ∧ s.ids.hint = -15 := by
  have s1 : IdStep .tid freshIds (.create false) (freshIds.created false) := IdState.created_step rfl rfl
  have s2 : IdStep .tid (freshIds.created false) (.change false 1) ((freshIds.created false).renamed false) :=
    ⟨by decide, by decide, rfl⟩
  have s3 : IdStep .tid ((freshIds.created false).renamed false) (.destroy false)
      (((freshIds.created false).renamed false).destroyed false) := ⟨by decide, rfl⟩
  have s4 : IdStep .tid (((freshIds.created false).renamed false).destroyed false) (.create true)
      ((((freshIds.created false).renamed false).destroyed false).created true) := IdState.created_step rfl rfl
  refine ⟨_, _, freshIds_initial, (((Run.nil.snoc s1).snoc s2).snoc s3).snoc s4, rfl, ?_, rfl, rfl, rfl⟩
  exact ⟨_, mem_append_left _ (mem_append_right _ (mem_singleton_self _)), rfl, rfl⟩

end Steps

end Manrix
