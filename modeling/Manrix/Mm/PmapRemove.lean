import Manrix.Mm.PmapEnter
import Manrix.Mm.UserSpace

/-!
# Unmapping a range (`pmap_remove`)

`pmap_remove` takes the entry of the directory for the address of the page table.  The entry has protection bits, so the
four bytes that are cleared are not those of the entry for the page; and where there is no table they lie in the first
page of the memory.  The result is right exactly if all the bytes that are cleared by mistake, and all those that should
have been cleared and are not, were zero before, and all stores are to page tables of the map.
-/

namespace Manrix

open Frames

section Bytes

variable {m m' : Frame → BitVec 10 → BitVec 32} {addr a : BitVec 32} {x : Frame} {j : BitVec 10}

private theorem toNat_wordIndex (a : BitVec 32) : (wordIndex a).toNat = a.toNat / 4 % 1024 := by
  simp only [wordIndex, BitVec.toNat_setWidth, BitVec.toNat_ushiftRight, Nat.shiftRight_eq_div_pow]

private theorem eq_of_byte (hf : frameOf a = frameOf addr) (hw : wordIndex a = wordIndex addr)
    (hr : a.toNat % 4 = addr.toNat % 4) : a = addr := by
  have h1 := congrArg BitVec.toNat hf
  have h2 := congrArg BitVec.toNat hw
  rw [toNat_frameOf, toNat_frameOf] at h1
  rw [toNat_wordIndex, toNat_wordIndex] at h2
  apply BitVec.eq_of_toNat_eq
  omega

private theorem getByte_setByte_of_ne (h : a ≠ addr) (b : BitVec 8) : getByte (setByte m addr b) a = getByte m a := by
  by_cases hw : frameOf a = frameOf addr ∧ wordIndex a = wordIndex addr
  · have hr : a.toNat % 4 ≠ addr.toNat % 4 := fun hr => h (eq_of_byte hw.1 hw.2 hr)
    have h1 := Nat.mod_lt a.toNat (by decide : 0 < 4)
    have h2 := Nat.mod_lt addr.toNat (by decide : 0 < 4)
    unfold getByte setByte
    rw [hw.1, hw.2, setWord_self]
    unfold byteShift
    generalize a.toNat % 4 = k at hr h1
    generalize addr.toNat % 4 = l at hr h2
    have hff : ∀ n < 32, BitVec.getLsbD (0xFF : BitVec 32) n = decide (n < 8) := by decide
    ext i hi
    simp only [BitVec.getElem_setWidth, BitVec.getLsbD_ushiftRight, BitVec.getLsbD_or, BitVec.getLsbD_and,
      BitVec.getLsbD_not, BitVec.getLsbD_shiftLeft, BitVec.getLsbD_setWidth]
    have hlt : 8 * k + i < 32 := by omega
    rcases Nat.lt_or_gt_of_ne hr with hkl | hkl
    · have : 8 * k + i < 8 * l := by omega
      simp [this, hlt]
    · have h4 : ¬ 8 * k + i - 8 * l < 8 := by omega
      have h5 : b.getLsbD (8 * k + i - 8 * l) = false := BitVec.getLsbD_of_ge b _ (by omega)
      rw [hff _ (by omega), h5, decide_eq_false h4]
      simp [hlt]
  · unfold getByte setByte
    rw [setWord_apply, if_neg hw]

private theorem getByte_setByte_apply (b : BitVec 8) :
    getByte (setByte m addr b) a = if a = addr then b else getByte m a := by
  split
  · rename_i h
    rw [h, getByte_setByte]
  · exact getByte_setByte_of_ne ‹_› b

private theorem getByte_clearWord : getByte (clearWord m addr) a = if a - addr < 4 then 0 else getByte m a := by
  have hiff : a - addr < 4 ↔ a = addr + 3 ∨ a = addr + 2 ∨ a = addr + 1 ∨ a = addr := by
    constructor
    · intro h
      bv_omega
    · rintro (rfl | rfl | rfl | rfl) <;> bv_omega
  unfold clearWord
  simp only [getByte_setByte_apply, hiff, ite_or]

/-- The byte `k` of the word `j` of a frame. -/
def byteAddr (x : Frame) (j : BitVec 10) (k : Nat) : BitVec 32 := BitVec.ofNat 32 (x.toNat * 4096 + j.toNat * 4 + k)

private theorem toNat_byteAddr {k : Nat} (hk : k < 4) : (byteAddr x j k).toNat = x.toNat * 4096 + j.toNat * 4 + k := by
  have h1 := x.isLt
  have h2 := j.isLt
  rw [byteAddr, BitVec.toNat_ofNat, Nat.mod_eq_of_lt (by omega)]

private theorem byteAddr_spec {k : Nat} (hk : k < 4) :
    frameOf (byteAddr x j k) = x ∧ wordIndex (byteAddr x j k) = j := by
  have h2 := j.isLt
  constructor
  · apply BitVec.eq_of_toNat_eq
    rw [toNat_frameOf, toNat_byteAddr hk]
    omega
  · apply BitVec.eq_of_toNat_eq
    rw [toNat_wordIndex, toNat_byteAddr hk]
    omega

private theorem word_ext (h : ∀ a, frameOf a = x → wordIndex a = j → getByte m a = getByte m' a) : m x j = m' x j := by
  apply BitVec.eq_of_getLsbD_eq
  intro i hi
  have hk : i / 8 < 4 := by omega
  have hb := h _ (byteAddr_spec hk).1 (byteAddr_spec hk).2
  unfold getByte byteShift at hb
  rw [(byteAddr_spec hk).1, (byteAddr_spec hk).2, toNat_byteAddr hk,
    show (x.toNat * 4096 + j.toNat * 4 + i / 8) % 4 = i / 8 by omega] at hb
  have hbit := congrArg (fun b : BitVec 8 => b.getLsbD (i % 8)) hb
  simp only [BitVec.getLsbD_setWidth, BitVec.getLsbD_ushiftRight, show 8 * (i / 8) + i % 8 = i by omega,
    show i % 8 < 8 by omega, decide_true, Bool.true_and] at hbit
  exact hbit

private theorem getByte_eq_zero (h : m (frameOf a) (wordIndex a) = 0) : getByte m a = 0 := by
  unfold getByte
  rw [h]
  simp

private theorem word_eq_zero (h : ∀ a, frameOf a = x → wordIndex a = j → getByte m a = 0) : m x j = 0 :=
  @word_ext m (fun _ _ => 0) x j fun a hf hw => (h a hf hw).trans (getByte_eq_zero rfl).symm

private theorem getByte_eq (h : m (frameOf a) (wordIndex a) = m' (frameOf a) (wordIndex a)) :
    getByte m a = getByte m' a := by
  unfold getByte
  rw [h]

end Bytes

/-- The bytes that the loop clears for the addresses from `sv` up to `ev`, if the directory is `dir`. -/
def ClearedByte (dir : BitVec 10 → BitVec 32) (sv ev a : BitVec 32) : Prop :=
  ∃ va, sv ≤ va ∧ va < ev ∧ a - removeAddr (dir (addrToPdenum va)) va < 4

/-- The bytes of the entries of the page tables for the addresses from `sv` up to `ev`. -/
def EntryByte (dir : BitVec 10 → BitVec 32) (sv ev a : BitVec 32) : Prop :=
  ∃ va, sv ≤ va ∧ va < ev ∧ dir (addrToPdenum va) ≠ 0 ∧ frameOf a = frameOf (dir (addrToPdenum va)) ∧
    wordIndex a = addrToPtenum va

/-- The body of the loop, for the directory in the frame `d`. -/
def removeBody (d : Frame) (svaddr : BitVec 32) (m : Frame → BitVec 10 → BitVec 32) : Frame → BitVec 10 → BitVec 32 :=
  clearWord m (removeAddr (m d (addrToPdenum svaddr)) svaddr)

/-- The addresses of the words that the loop stores to. -/
def removeStores (d : Frame) (evaddr : BitVec 32) :
    Nat → BitVec 32 → (Frame → BitVec 10 → BitVec 32) → List (BitVec 32)
  | 0, _, _ => []
  | n + 1, svaddr, m =>
    if svaddr < evaddr then
      removeAddr (m d (addrToPdenum svaddr)) svaddr :: removeStores d evaddr n (svaddr + 0x1000) (removeBody d svaddr m)
    else []

/-- A byte of one of the words. -/
def StoredByte (stores : List (BitVec 32)) (a : BitVec 32) : Prop := ∃ addr ∈ stores, a - addr < 4

section Loop

variable {m m' : Frame → BitVec 10 → BitVec 32} {d : Frame} {dir : BitVec 10 → BitVec 32} {sv ev va a : BitVec 32}
  {fuel : Nat}

private theorem samePage_of_lt (hs : sv.toNat % 0x1000 = 0) (h1 : sv ≤ va) (h2 : va.toNat < sv.toNat + 0x1000) :
    SamePage va sv := by
  have h1 : sv.toNat ≤ va.toNat := h1
  rw [samePage_iff]
  apply BitVec.eq_of_toNat_eq
  rw [toNat_frameOf, toNat_frameOf]
  omega

private theorem toNat_nextPage (hs : sv.toNat % 0x1000 = 0) (he : ev.toNat % 0x1000 = 0) (hlt : sv < ev) :
    (sv + 0x1000).toNat = sv.toNat + 0x1000 := by
  have hlt : sv.toNat < ev.toNat := hlt
  have hev := ev.isLt
  exact toNat_add_page (by omega)

private theorem clearedByte_succ (hs : sv.toNat % 0x1000 = 0) (he : ev.toNat % 0x1000 = 0) (hlt : sv < ev) :
    ClearedByte dir sv ev a ↔ a - removeAddr (dir (addrToPdenum sv)) sv < 4 ∨ ClearedByte dir (sv + 0x1000) ev a := by
  have hadd := toNat_nextPage hs he hlt
  constructor
  · rintro ⟨va, h1, h2, h3⟩
    by_cases h : va.toNat < sv.toNat + 0x1000
    · obtain ⟨hd, ht⟩ := samePage_of_lt hs h1 h
      unfold removeAddr at h3
      rw [hd, ht] at h3
      exact .inl h3
    · exact .inr ⟨va, by rw [BitVec.le_def, hadd]; omega, h2, h3⟩
  · rintro (h | ⟨va, h1, h2, h3⟩)
    · exact ⟨sv, BitVec.le_refl _, hlt, h⟩
    · have h1 : (sv + 0x1000).toNat ≤ va.toNat := h1
      exact ⟨va, by rw [BitVec.le_def]; omega, h2, h3⟩

private theorem not_clearedByte (h : ¬ sv < ev) : ¬ ClearedByte dir sv ev a := by
  rintro ⟨va, h1, h2, -⟩
  bv_omega

private theorem getByte_removeBody : getByte (removeBody d sv m) a =
    if a - removeAddr (m d (addrToPdenum sv)) sv < 4 then 0 else getByte m a :=
  getByte_clearWord

private theorem removeLoop_isSome (hs : sv.toNat % 0x1000 = 0) (he : ev.toNat % 0x1000 = 0)
    (hf : (ev.toNat - sv.toNat) / 0x1000 ≤ fuel) :
    ∃ m', pageLoop (removeBody d) ev fuel sv m = some m' ∧ ∀ a, getByte m' a = getByte m a ∨ getByte m' a = 0 := by
  induction fuel generalizing sv m with
  | zero =>
    have hlt : ¬ sv < ev := by
      rw [BitVec.lt_def]
      omega
    exact ⟨m, by rw [pageLoop, if_neg hlt], fun a => .inl rfl⟩
  | succ fuel ih =>
    rw [pageLoop]
    split
    · rename_i hlt
      have hadd := toNat_nextPage hs he hlt
      have hs' : (sv + 0x1000).toNat % 0x1000 = 0 := by omega
      have hf' : (ev.toNat - (sv + 0x1000).toNat) / 0x1000 ≤ fuel := by omega
      obtain ⟨m', hm', hb⟩ := ih (m := removeBody d sv m) hs' hf'
      refine ⟨m', hm', fun a => ?_⟩
      rcases hb a with h | h
      · rw [h, getByte_removeBody]
        split
        · exact .inr rfl
        · exact .inl rfl
      · exact .inr h
    · exact ⟨m, rfl, fun a => .inl rfl⟩

private theorem frame_ext {x : Frame} (h : ∀ a, frameOf a = x → getByte m a = getByte m' a) : m x = m' x := by
  funext j
  exact word_ext fun a hf _ => h a hf

private theorem removeLoop_stores (h : pageLoop (removeBody d) ev fuel sv m = some m') :
    m' = (removeStores d ev fuel sv m).foldl clearWord m := by
  induction fuel generalizing sv m with
  | zero =>
    rw [pageLoop] at h
    split at h
    · cases h
    · exact (Option.some.inj h).symm
  | succ fuel ih =>
    rw [pageLoop] at h
    rw [removeStores]
    split at h
    · rename_i hlt
      rw [if_pos hlt, List.foldl_cons]
      exact ih h
    · rename_i hlt
      rw [if_neg hlt]
      exact (Option.some.inj h).symm

private theorem getByte_of_not_stored {stores : List (BitVec 32)} (h : ¬ StoredByte stores a) :
    getByte (stores.foldl clearWord m) a = getByte m a := by
  induction stores generalizing m with
  | nil => rfl
  | cons addr stores ih =>
    rw [List.foldl_cons, ih fun ⟨x, hx, ha⟩ => h ⟨x, List.mem_cons_of_mem _ hx, ha⟩, getByte_clearWord,
      if_neg fun ha => h ⟨addr, List.mem_cons_self .., ha⟩]

/-- If the directory is as before in the end, it was so all the time, and the bytes that are cleared are known. -/
private theorem removeLoop_bytes (hs : sv.toNat % 0x1000 = 0) (he : ev.toNat % 0x1000 = 0)
    (hf : (ev.toNat - sv.toNat) / 0x1000 ≤ fuel) (h : pageLoop (removeBody d) ev fuel sv m = some m')
    (hd : m' d = m d) (a : BitVec 32) :
    (ClearedByte (m d) sv ev a → getByte m' a = 0) ∧ (¬ ClearedByte (m d) sv ev a → getByte m' a = getByte m a) ∧
      (StoredByte (removeStores d ev fuel sv m) a ↔ ClearedByte (m d) sv ev a) := by
  induction fuel generalizing sv m with
  | zero =>
    have hlt : ¬ sv < ev := by
      rw [BitVec.lt_def]
      omega
    rw [pageLoop, if_neg hlt] at h
    cases h
    refine ⟨fun hc => absurd hc (not_clearedByte hlt), fun _ => rfl, ?_⟩
    simp [removeStores, StoredByte, not_clearedByte hlt]
  | succ fuel ih =>
    rw [pageLoop] at h
    rw [removeStores]
    split at h
    · rename_i hlt
      rw [if_pos hlt]
      have hadd := toNat_nextPage hs he hlt
      have hs' : (sv + 0x1000).toNat % 0x1000 = 0 := by omega
      have hf' : (ev.toNat - (sv + 0x1000).toNat) / 0x1000 ≤ fuel := by omega
      -- a byte of the directory that has become zero stays zero
      have hd' : removeBody d sv m d = m d := by
        refine frame_ext fun b hb => ?_
        obtain ⟨m₁, hm₁, hmono⟩ := removeLoop_isSome (m := removeBody d sv m) (d := d) hs' he hf'
        cases h.symm.trans hm₁
        have hsame : getByte m' b = getByte m b := getByte_congr (by rw [hb, hd])
        rw [getByte_removeBody]
        split
        · rename_i hc
          rcases hmono b with h0 | h0
          · rw [← hsame, h0, getByte_removeBody, if_pos hc]
          · rw [← hsame, h0]
        · rfl
      obtain ⟨h1, h2, h3⟩ := ih hs' hf' h (hd.trans hd'.symm)
      rw [hd'] at h1 h2 h3
      rw [clearedByte_succ hs he hlt, ← h3]
      rw [← h3] at h1 h2
      refine ⟨fun hc => ?_, fun hc => ?_, by simp [StoredByte]⟩
      · by_cases hr : StoredByte (removeStores d ev fuel (sv + 0x1000) (removeBody d sv m)) a
        · exact h1 hr
        · rw [h2 hr, getByte_removeBody, if_pos (hc.resolve_right hr)]
      · rw [not_or] at hc
        rw [h2 hc.2, getByte_removeBody, if_neg hc.1]
    · rename_i hlt
      cases h
      refine ⟨fun hc => absurd hc (not_clearedByte hlt), fun _ => rfl, ?_⟩
      simp [hlt, StoredByte, not_clearedByte hlt]

private theorem removeLoop_dir (hs : sv.toNat % 0x1000 = 0) (he : ev.toNat % 0x1000 = 0)
    (h : pageLoop (removeBody d) ev fuel sv m = some m')
    (hz : ∀ a, frameOf a = d → ClearedByte (m d) sv ev a → getByte m a = 0) : m' d = m d := by
  induction fuel generalizing sv m with
  | zero =>
    rw [pageLoop] at h
    split at h
    · cases h
    · rw [← Option.some.inj h]
  | succ fuel ih =>
    rw [pageLoop] at h
    split at h
    · rename_i hlt
      have hadd := toNat_nextPage hs he hlt
      have hd' : removeBody d sv m d = m d := by
        refine frame_ext fun b hb => ?_
        rw [getByte_removeBody]
        split
        · rename_i hc
          rw [hz b hb ((clearedByte_succ hs he hlt).2 (.inl hc))]
        · rfl
      refine (ih (by omega) h fun a ha hc => ?_).trans hd'
      rw [hd'] at hc
      have hsame : getByte (removeBody d sv m) a = getByte m a := getByte_congr (by rw [ha, hd'])
      rw [hsame]
      exact hz a ha ((clearedByte_succ hs he hlt).2 (.inr hc))
    · rw [← Option.some.inj h]

end Loop

section Map

variable {π κ : Type*} {s s' : PmapState π κ} {p : π} {sv ev va : BitVec 32} {fuel : Nat}

/-- The words that `pmap_remove` stores to. -/
def PmapState.removeStores (s : PmapState π κ) (fuel : Nat) (p : π) (sv ev : BitVec 32) : List (BitVec 32) :=
  if s.udir p = 0 then [] else Manrix.removeStores (s.udir p) ev fuel sv s.mem

/-- The byte is in a page table of the map. -/
def PmapState.TableByte (s : PmapState π κ) (p : π) (a : BitVec 32) : Prop :=
  ∃ i, s.upde p i ≠ 0 ∧ frameOf (s.upde p i) = frameOf a

/-- The addresses of the range are unmapped, the other ones are mapped as before, and no store is to a byte outside of
the page tables of the map. -/
structure Unmaps (s s' : PmapState π κ) (p : π) (sv ev : BitVec 32) (stores : List (BitVec 32)) : Prop where
  gone : ∀ va, sv ≤ va → va < ev → s'.walk (.user p) va = none ∨ s'.walk (.user p) va = some 0
  kept : ∀ va, ¬ (sv ≤ va ∧ va < ev) → s'.walk (.user p) va = s.walk (.user p) va
  outside : ∀ a, StoredByte stores a → s.TableByte p a

/-- The bytes that are cleared, at the entries of the directory as they are, are in page tables of the map, and those
that are not zero are cleared if and only if they belong to the entries of the range. -/
def RemoveFits (s : PmapState π κ) (p : π) (sv ev : BitVec 32) : Prop :=
  s.udir p ≠ 0 → ∀ a, (ClearedByte (s.upde p) sv ev a → s.TableByte p a) ∧
    (getByte s.mem a ≠ 0 → (ClearedByte (s.upde p) sv ev a ↔ EntryByte (s.upde p) sv ev a))

/-- The first address of the page with the given entry. -/
def pageAddr (i j : BitVec 10) : BitVec 32 := BitVec.ofNat 32 (i.toNat * 2 ^ 22 + j.toNat * 2 ^ 12)

private theorem pageAddr_nums (i j : BitVec 10) : addrToPdenum (pageAddr i j) = i ∧
    addrToPtenum (pageAddr i j) = j := by
  have hi := i.isLt
  have hj := j.isLt
  have h : (pageAddr i j).toNat = i.toNat * 2 ^ 22 + j.toNat * 2 ^ 12 := by
    rw [pageAddr, BitVec.toNat_ofNat, Nat.mod_eq_of_lt (by omega)]
  constructor
  · apply BitVec.eq_of_toNat_eq
    rw [toNat_addrToPdenum, h]
    omega
  · apply BitVec.eq_of_toNat_eq
    rw [toNat_addrToPtenum, h]
    omega

private theorem inRange_of_samePage {va' : BitVec 32} (hs : sv.toNat % 0x1000 = 0) (he : ev.toNat % 0x1000 = 0)
    (h : SamePage va va') (h1 : sv ≤ va') (h2 : va' < ev) : sv ≤ va ∧ va < ev := by
  have h := congrArg BitVec.toNat ((samePage_iff ..).1 h)
  rw [toNat_frameOf, toNat_frameOf] at h
  have h1 : sv.toNat ≤ va'.toNat := h1
  have h2 : va'.toNat < ev.toNat := h2
  rw [BitVec.le_def, BitVec.lt_def]
  omega

theorem walk_user (h0 : s.udir p ≠ 0) : s.walk (.user p) va = if s.upde p (addrToPdenum va) = 0 then none
      else some (s.mem (frameOf (s.upde p (addrToPdenum va))) (addrToPtenum va)) :=
  if_neg h0

private theorem walk_of_dir {m : Frame → BitVec 10 → BitVec 32} (h0 : s.udir p ≠ 0)
    (hm : m (s.udir p) = s.mem (s.udir p)) :
    ({ s with mem := m } : PmapState π κ).walk (.user p) va = if s.upde p (addrToPdenum va) = 0 then none
      else some (m (frameOf (s.upde p (addrToPdenum va))) (addrToPtenum va)) := by
  refine (if_neg h0).trans ?_
  change (if m (s.udir p) (addrToPdenum va) = 0 then none else some (m (frameOf (m (s.udir p) _)) _)) = _
  rw [hm]

section Bytes

variable {m : Frame → BitVec 10 → BitVec 32} {stores : List (BitVec 32)} (hap : s.TablesDistinct p)
  (hs : sv.toNat % 0x1000 = 0) (he : ev.toNat % 0x1000 = 0) (h0 : s.udir p ≠ 0)
  (hd : m (s.udir p) = s.mem (s.udir p))
  (hb : ∀ a, (ClearedByte (s.upde p) sv ev a → getByte m a = 0) ∧
    (¬ ClearedByte (s.upde p) sv ev a → getByte m a = getByte s.mem a) ∧
    (StoredByte stores a ↔ ClearedByte (s.upde p) sv ev a))

include hap hs he h0 hd hb

/-- Where nothing is cleared by mistake, the result is right. -/
theorem RemoveFits.unmaps (hfit : RemoveFits s p sv ev) : Unmaps s { s with mem := m } p sv ev stores := by
  -- a byte outside of the entries of the range stays
  have hsame : ∀ a, ¬ EntryByte (s.upde p) sv ev a → getByte m a = getByte s.mem a := by
    intro a ha
    by_cases hc : ClearedByte (s.upde p) sv ev a
    · rw [(hb a).1 hc]
      by_contra hne
      exact ha (((hfit h0 a).2 (Ne.symm hne)).1 hc)
    · exact (hb a).2.1 hc
  refine ⟨fun va h1 h2 => ?_, fun va hout => ?_, fun a ha => (hfit h0 a).1 ((hb a).2.2.1 ha)⟩
  · rw [walk_of_dir h0 hd]
    by_cases hz : s.upde p (addrToPdenum va) = 0
    · exact .inl (if_pos hz)
    · right
      rw [if_neg hz]
      refine congrArg some (word_eq_zero fun a hf hw => ?_)
      by_cases hc : ClearedByte (s.upde p) sv ev a
      · exact (hb a).1 hc
      · rw [(hb a).2.1 hc]
        by_contra hne
        exact hc (((hfit h0 a).2 hne).2 ⟨va, h1, h2, hz, hf, hw⟩)
  · rw [walk_of_dir h0 hd, walk_user h0]
    by_cases hz : s.upde p (addrToPdenum va) = 0
    · rw [if_pos hz, if_pos hz]
    · rw [if_neg hz, if_neg hz]
      refine congrArg some (word_ext fun a hf hw => hsame a ?_)
      rintro ⟨va', h1, h2, hz', hf', hw'⟩
      have hdn := hap.inj h0 _ _ hz hz' (hf.symm.trans hf')
      exact hout (inRange_of_samePage hs he ⟨hdn, hw.symm.trans hw'⟩ h1 h2)

omit hap hs he in
/-- Where the result is right, nothing that matters was cleared by mistake. -/
theorem Unmaps.fits (h : Unmaps s { s with mem := m } p sv ev stores) : RemoveFits s p sv ev := by
  intro _ a
  refine ⟨fun hc => h.outside a ((hb a).2.2.2 hc), fun hne => ?_⟩
  constructor
  · intro hc
    by_contra hn
    have hzero := (hb a).1 hc
    -- the byte is in no entry of the range, so it is as before
    have hsame : getByte m a = getByte s.mem a := by
      obtain ⟨i, hi, hfi⟩ := h.outside a ((hb a).2.2.2 hc)
      obtain ⟨hdn, htn⟩ := pageAddr_nums i (wordIndex a)
      have hk := h.kept (pageAddr i (wordIndex a)) fun hr => hn
        ⟨_, hr.1, hr.2, by rw [hdn]; exact hi, by rw [hdn, hfi], htn.symm⟩
      rw [walk_of_dir h0 hd, walk_user h0, hdn, htn, if_neg hi, if_neg hi, hfi] at hk
      exact getByte_eq (Option.some.inj hk)
    exact hne (hsame ▸ hzero)
  · rintro ⟨va, h1, h2, hz, hf, hw⟩
    by_contra hc
    have hg := h.gone va h1 h2
    rw [walk_of_dir h0 hd, if_neg hz] at hg
    have hzero : getByte m a = 0 := by
      refine getByte_eq_zero ?_
      rw [hf, hw]
      simpa using hg
    exact hne (((hb a).2.1 hc).symm.trans hzero)

end Bytes

/-- `pmap_remove` unmaps the range, and does nothing else, if and only if the bytes that it clears are in page tables of
the map and are those of the entries of the range, up to bytes that are zero. -/
theorem pmap_remove_range (hap : s.TablesDistinct p) (hs : sv.toNat % 0x1000 = 0) (he : ev.toNat % 0x1000 = 0)
    (hf : (ev.toNat - sv.toNat) / 0x1000 ≤ fuel) : ∃ s', pmapRemove s fuel (.user p) sv ev = some s' ∧
      (Unmaps s s' p sv ev (s.removeStores fuel p sv ev) ↔ RemoveFits s p sv ev) := by
  rw [PmapState.removeStores]
  by_cases h0 : s.udir p = 0
  · have hw : ∀ va, s.walk (.user p) va = none := fun va => PmapState.walk_eq_none (.inl h0)
    rw [if_pos h0]
    refine ⟨s, ?_, iff_of_true ⟨fun va _ _ => .inl (hw va), fun _ _ => rfl, ?_⟩ fun h => absurd h0 h⟩
    · rw [pmapRemove]
      exact if_pos h0
    · rintro a ⟨addr, hm, -⟩
      cases hm
  · obtain ⟨m, hm, -⟩ := removeLoop_isSome (m := s.mem) (d := s.udir p) hs he hf
    rw [if_neg h0]
    refine ⟨{ s with mem := m }, ?_, fun h => ?_, fun hfit => ?_⟩
    · rw [pmapRemove]
      refine (if_neg h0).trans ?_
      exact congrArg (Option.map _) hm
    · have hd : m (s.udir p) = s.mem (s.udir p) := by
        -- the directory is not one of the page tables
        refine frame_ext fun a ha => ?_
        rw [removeLoop_stores hm]
        refine getByte_of_not_stored fun hst => ?_
        obtain ⟨i, hi, hfi⟩ := h.outside a hst
        exact hap.ne_dir h0 _ hi (hfi.trans ha)
      exact h.fits h0 hd (removeLoop_bytes hs he hf hm hd)
    · have hd : m (s.udir p) = s.mem (s.udir p) := by
        refine removeLoop_dir hs he hm fun a ha hc => ?_
        obtain ⟨i, hi, hfi⟩ := (hfit h0 a).1 hc
        exact absurd (hfi.trans ha) (hap.ne_dir h0 _ hi)
      exact hfit.unmaps hap hs he h0 hd (removeLoop_bytes hs he hf hm hd)

private theorem removeAddr_base {x : Frame} {a : BitVec 32} :
    a - removeAddr x.base va < 4 ↔ frameOf a = x ∧ wordIndex a = addrToPtenum va := by
  have hx := x.isLt
  have hj := (addrToPtenum va).isLt
  have ha := a.isLt
  have haddr : (removeAddr x.base va).toNat = x.toNat * 4096 + (addrToPtenum va).toNat * 4 := by
    simp only [removeAddr, BitVec.toNat_add, toNat_base, BitVec.toNat_shiftLeft, BitVec.toNat_setWidth,
      Nat.shiftLeft_eq]
    omega
  have hsub : a - removeAddr x.base va < 4 ↔
      (2 ^ 32 - (removeAddr x.base va).toNat + a.toNat) % 2 ^ 32 < 4 := by
    rw [BitVec.lt_def, BitVec.toNat_sub]
    rfl
  rw [hsub, haddr, ← BitVec.toNat_inj, ← BitVec.toNat_inj, toNat_frameOf, toNat_wordIndex]
  omega

theorem removeFits_of_base (h : ∀ va, sv ≤ va → va < ev → s.upde p (addrToPdenum va) ≠ 0 ∧
    s.upde p (addrToPdenum va) = (frameOf (s.upde p (addrToPdenum va))).base) : RemoveFits s p sv ev := by
  intro _ a
  have hentry : ClearedByte (s.upde p) sv ev a → EntryByte (s.upde p) sv ev a := by
    rintro ⟨va, h1, h2, h3⟩
    obtain ⟨hz, hbase⟩ := h va h1 h2
    rw [hbase, removeAddr_base] at h3
    exact ⟨va, h1, h2, hz, h3⟩
  refine ⟨fun hc => ?_, fun _ => ⟨hentry, ?_⟩⟩
  · obtain ⟨va, -, -, hz, hf, -⟩ := hentry hc
    exact ⟨_, hz, hf.symm⟩
  · rintro ⟨va, h1, h2, hz, h3⟩
    refine ⟨va, h1, h2, ?_⟩
    rw [(h va h1 h2).2, removeAddr_base]
    exact h3

theorem RemoveFits.table (hfit : RemoveFits s p sv ev) (h0 : s.udir p ≠ 0)
    (hz : ∀ i, s.upde p i ≠ 0 → frameOf (s.upde p i) ≠ 0) (h1 : sv ≤ va) (h2 : va < ev) :
    s.upde p (addrToPdenum va) ≠ 0 := by
  intro he
  have hc : ClearedByte (s.upde p) sv ev (removeAddr 0 va) := ⟨va, h1, h2, by rw [he, BitVec.sub_self]; decide⟩
  obtain ⟨i, hi, hfi⟩ := (hfit h0 _).1 hc
  have hframe : frameOf (removeAddr 0 va) = 0 :=
    (removeAddr_base (x := 0)).1 (by rw [show Frame.base 0 = 0 from rfl, BitVec.sub_self]; decide) |>.1
  exact hz i hi (hfi.trans hframe)

private theorem present_odd {e : BitVec 32} (h : e &&& pagePresent ≠ 0) : e.toNat % 2 = 1 := by
  by_contra hne
  refine h (BitVec.eq_of_toNat_eq ?_)
  rw [BitVec.toNat_and, show pagePresent.toNat = 1 from rfl, Nat.and_one_is_mod]
  exact Nat.mod_two_ne_one.1 hne

private theorem getByte_present {m : Frame → BitVec 10 → BitVec 32} {x : Frame} {j : BitVec 10}
    (h : m x j &&& pagePresent ≠ 0) : getByte m (byteAddr x j 0) ≠ 0 := by
  have hodd := present_odd h
  have hmod : (x.toNat * 4096 + j.toNat * 4 + 0) % 4 = 0 := by omega
  intro hb
  unfold getByte byteShift at hb
  rw [(byteAddr_spec (by decide)).1, (byteAddr_spec (by decide)).2, toNat_byteAddr (by decide), hmod] at hb
  have := congrArg BitVec.toNat hb
  simp at this
  omega

/-- A page that is mapped in a table that is present stays mapped. -/
theorem not_removeFits_page (h0 : s.udir p ≠ 0) (hv : sv.toNat % 0x1000 = 0) (hlt : sv < sv + 0x1000)
    (hd : s.upde p (addrToPdenum sv) &&& pagePresent ≠ 0)
    (he : s.pte p (addrToPdenum sv) (addrToPtenum sv) &&& pagePresent ≠ 0) : ¬ RemoveFits s p sv (sv + 0x1000) := by
  intro hfit
  have hz : s.upde p (addrToPdenum sv) ≠ 0 := fun h => hd (by rw [h]; rfl)
  rw [PmapState.pte, if_neg hz] at he
  have hentry : EntryByte (s.upde p) sv (sv + 0x1000)
      (byteAddr (frameOf (s.upde p (addrToPdenum sv))) (addrToPtenum sv) 0) :=
    ⟨sv, BitVec.le_refl _, hlt, hz, byteAddr_spec (by decide)⟩
  obtain ⟨va, h1, h2, h3⟩ := ((hfit h0 _).2 (getByte_present he)).2 hentry
  -- the bytes that are cleared begin behind the first byte of the entry
  have h2 : va.toNat < sv.toNat + 0x1000 := by
    have h2 : va.toNat < (sv + 0x1000).toNat := h2
    rw [BitVec.toNat_add, show (0x1000 : BitVec 32).toNat = 0x1000 from rfl] at h2
    exact Nat.lt_of_lt_of_le h2 (Nat.mod_le ..)
  obtain ⟨hdn, htn⟩ := samePage_of_lt hv h1 h2
  have hodd := present_odd hd
  have hx := toNat_frameOf (s.upde p (addrToPdenum sv))
  have hlt32 := (s.upde p (addrToPdenum sv)).isLt
  have hj := (addrToPtenum sv).isLt
  rw [hdn, BitVec.lt_def, BitVec.toNat_sub, toNat_byteAddr (by decide), removeAddr, htn, BitVec.toNat_add,
    BitVec.toNat_shiftLeft, BitVec.toNat_setWidth, Nat.shiftLeft_eq, show (4 : BitVec 32).toNat = 4 from rfl] at h3
  omega

end Map

/-- A map whose only table has no protection bits in the directory. -/
def bareTable : PmapState Bool Unit where
  mem := fun x i => if x = 3 ∧ i = 0 then 0x4000 else if x = 4 ∧ i = 5 then 0x20007 else 0
  pdbr := fun
    | .kernelMap => 1
    | .user _ => 3
  pages := ⟨fun _ => ⟨none, 0, 0, 0⟩, fun _ => none⟩
  freePageList := []
  pmapObject := 0
  proclist := []
  pmapOf := fun _ => false

private theorem bareTable_upde {i : BitVec 10} (h : bareTable.upde false i ≠ 0) : i = 0 := by
  by_contra hi
  refine h (if_neg fun h => hi h.2)

private theorem bareTable_distinct : bareTable.TablesDistinct false where
  inj _ i j hi hj _ := (bareTable_upde hi).trans (bareTable_upde hj).symm
  ne_dir _ i hi := by
    obtain rfl := bareTable_upde hi
    decide

/-- The page at 0x5000 is unmapped. -/
theorem pmap_remove_range_bare : ∃ s', pmapRemove bareTable 1 (.user false) 0x5000 0x6000 = some s' ∧
    bareTable.walk (.user false) 0x5000 = some 0x20007 ∧
    Unmaps bareTable s' false 0x5000 0x6000 (bareTable.removeStores 1 false 0x5000 0x6000) := by
  have hs : (0x5000 : BitVec 32).toNat % 0x1000 = 0 := by decide
  have he : (0x6000 : BitVec 32).toNat % 0x1000 = 0 := by decide
  have hf : ((0x6000 : BitVec 32).toNat - (0x5000 : BitVec 32).toNat) / 0x1000 ≤ 1 := by decide
  obtain ⟨s', hs', hiff⟩ := pmap_remove_range bareTable_distinct hs he hf
  refine ⟨s', hs', by decide, hiff.2 (removeFits_of_base fun va h1 h2 => ?_)⟩
  have hva : addrToPdenum va = 0 := (samePage_of_lt hs h1 h2).1
  rw [hva]
  decide

/-- The page at 0x5000, with the protection bits of its table, is not unmapped. -/
theorem removed_page_stays : twoPmaps.TablesDistinct false ∧
    ∃ s', pmapRemove twoPmaps 1 (.user false) 0x5000 0x6000 = some s' ∧ s'.walk (.user false) 0x5000 = some 0x20007 ∧
      ¬ Unmaps twoPmaps s' false 0x5000 0x6000 (twoPmaps.removeStores 1 false 0x5000 0x6000) := by
  have h : pmapRemove twoPmaps 1 (.user false) 0x5000 0x6000 =
      some { twoPmaps with mem := clearWord twoPmaps.mem 0x401B } := rfl
  have hw : ({ twoPmaps with mem := clearWord twoPmaps.mem 0x401B } : PmapState Bool Unit).walk (.user false) 0x5000 =
      some 0x20007 := by decide
  refine ⟨twoPmaps_distinct, _, h, hw, fun h => ?_⟩
  rcases h.gone 0x5000 (by decide) (by decide) with hn | hn
  · rw [hw] at hn
    cases hn
  · rw [hw] at hn
    exact absurd (Option.some.inj hn) (by decide)

end Manrix
