import Manrix.Lib.Runs
import Manrix.Mm.PmapEnter

/-!
# Copies of page maps

`pmap_copy` gives the new map a table for each table of the source, with the same words, and the kernel half of
`kernel_map`; `pmap_share_kernel` gives it the latter only.  While they allocate tables the kernel map may grow, and the
entries that it gets then are copied last.

The tables of the copy are fresh frames, so later calls of `pmap_enter` for one of the maps do not change the
translations of the other (`pmap_copy_duplicates`).
-/

namespace Manrix

open Frames Function List Runs

variable {π κ : Type*}

theorem mem_indices {start count : Nat} (h : start + count ≤ 1024) {i : BitVec 10} :
    i ∈ indices start count ↔ start ≤ i.toNat ∧ i.toNat < start + count := by
  unfold indices
  rw [mem_map]
  constructor
  · rintro ⟨n, hn, rfl⟩
    rw [mem_range'_1] at hn
    rw [BitVec.toNat_ofNat]
    omega
  · intro hi
    refine ⟨i.toNat, mem_range'_1.2 hi, ?_⟩
    exact BitVec.eq_of_toNat_eq (by simp)

theorem nodup_map_ofNat {w start count : Nat} (h : start + count ≤ 2 ^ w) :
    ((List.range' start count).map (BitVec.ofNat w)).Nodup := by
  refine List.Nodup.map_on ?_ nodup_range'
  intro m hm n hn hmn
  rw [mem_range'_1] at hm hn
  have hmod := congrArg BitVec.toNat hmn
  rwa [BitVec.toNat_ofNat, BitVec.toNat_ofNat, Nat.mod_eq_of_lt (by omega), Nat.mod_eq_of_lt (by omega)] at hmod

theorem indices_nodup {start count : Nat} (h : start + count ≤ 1024) : (indices start count).Nodup := by
  unfold indices
  exact nodup_map_ofNat h

private theorem mem_all_indices (i : BitVec 10) : i ∈ indices 0 1024 :=
  (mem_indices (Nat.le_refl _)).2 ⟨Nat.zero_le _, i.isLt⟩

private theorem mem_user_indices {i : BitVec 10} : i ∈ indices 0 896 ↔ i < ktableStart := by
  rw [mem_indices (by omega), BitVec.lt_def]
  have : ktableStart.toNat = 896 := rfl
  omega

theorem mem_kernel_indices {i : BitVec 10} : i ∈ indices 896 128 ↔ ktableStart ≤ i := by
  rw [mem_indices (by omega), BitVec.le_def]
  have : ktableStart.toNat = 896 := rfl
  have := i.isLt
  omega

/-- The map has the kernel half of `kernel_map`. -/
def PmapState.Coherent (s : PmapState π κ) (p : π) : Prop := ∀ i, ktableStart ≤ i → s.upde p i = s.kpde i

/-- The tables of `src` at the indices `is` were copied to the map `p`. -/
structure TablesCopied (s s' : PmapState π κ) (P : π → Prop) (p src : π) (is : List (BitVec 10)) : Prop where
  kernelWf : s'.KernelWf
  userWf : s'.UserWf P
  pdbr : s'.pdbr = s.pdbr
  proclist : s'.proclist = s.proclist
  pmapOf : s'.pmapOf = s.pmapOf
  free : ∃ taken, s.freePageList = taken ++ s'.freePageList
  keep : ∀ i, s.kpde i ≠ 0 → s'.kpde i = s.kpde i
  copied : ∀ i ∈ is, s'.table p i = s.table src i
  low : ∀ i ∈ is, s.upde src i ≠ 0 → s'.upde p i &&& 0xFFF = s.upde src i &&& 0xFFF
  other : ∀ q i, P q → i < ktableStart → (q = p → i ∉ is) →
    s'.upde q i = s.upde q i ∧ s'.table q i = s.table q i
  kernelHalf : ∀ q, P q → s.KernelHalf q → s'.KernelHalf q
  data : ∀ x, s.Data P x → s'.Data P x
  coherent : ∀ c ∈ s.proclist, P (s.pmapOf c) → s.Coherent (s.pmapOf c) → s'.Coherent (s.pmapOf c)

section Tables

variable {s s₁ s₂ s' : PmapState π κ} {P : π → Prop} {p q src : π} {i : BitVec 10} {is rest : List (BitVec 10)}
  {taken : List Frame} {e : BitVec 32}

theorem TablesCopied.udir (h : TablesCopied s s' P p src is) (q : π) : s'.udir q = s.udir q := congrFun h.pdbr _

theorem TablesCopied.nil (hw : s.KernelWf) (hu : s.UserWf P) : TablesCopied s s P p src [] :=
  ⟨hw, hu, rfl, rfl, rfl, ⟨[], rfl⟩, fun _ _ => rfl, by simp, by simp, fun _ _ _ _ _ => ⟨rfl, rfl⟩, fun _ _ h => h,
    fun _ h => h, fun _ _ _ h => h⟩

theorem TablesCopied.skip (hw : s.KernelWf) (hu : s.UserWf P) (h0 : s.upde src i = 0) (hp0 : s.upde p i = 0) :
    TablesCopied s s P p src [i] := by
  refine ⟨hw, hu, rfl, rfl, rfl, ⟨[], rfl⟩, fun _ _ => rfl, ?_, ?_, fun _ _ _ _ _ => ⟨rfl, rfl⟩,
    fun _ _ h => h, fun _ h => h, fun _ _ _ h => h⟩
  · intro j hj
    rw [mem_singleton.1 hj, PmapState.table, PmapState.table, if_pos h0, if_pos hp0]
  · intro j hj h1
    exact absurd (mem_singleton.1 hj ▸ h0) h1

theorem TablesCopied.cons (hsrc : P src) (hp : P p) (hne : src ≠ p) (hi : i < ktableStart)
    (hlt : ∀ j ∈ rest, j < ktableStart) (hnd : i ∉ rest) (h₁ : TablesCopied s s₁ P p src [i])
    (h₂ : TablesCopied s₁ s' P p src rest) : TablesCopied s s' P p src (i :: rest) := by
  obtain ⟨taken₁, hf₁⟩ := h₁.free
  obtain ⟨taken₂, hf₂⟩ := h₂.free
  have hsrc' : ∀ j, j < ktableStart → s₁.upde src j = s.upde src j ∧ s₁.table src j = s.table src j :=
    fun j hj => h₁.other src j hsrc hj fun h => absurd h hne
  have hp' := h₂.other p i hp hi fun _ => hnd
  refine ⟨h₂.kernelWf, h₂.userWf, h₂.pdbr.trans h₁.pdbr, h₂.proclist.trans h₁.proclist, h₂.pmapOf.trans h₁.pmapOf,
    ⟨taken₁ ++ taken₂, by rw [hf₁, hf₂, append_assoc]⟩, ?_, ?_, ?_, ?_,
    fun q hq h => h₂.kernelHalf q hq (h₁.kernelHalf q hq h), fun x hx => h₂.data x (h₁.data x hx),
    fun c hc hq h => ?_⟩
  · intro j hj
    have hkeep := h₁.keep j hj
    rw [h₂.keep j (hkeep ▸ hj), hkeep]
  · intro j hj
    rcases mem_cons.1 hj with rfl | hj
    · rw [hp'.2]
      exact h₁.copied _ (mem_singleton_self _)
    · rw [h₂.copied j hj]
      exact (hsrc' j (hlt j hj)).2
  · intro j hj h0
    rcases mem_cons.1 hj with rfl | hj
    · rw [hp'.1]
      exact h₁.low _ (mem_singleton_self _) h0
    · have hs := (hsrc' j (hlt j hj)).1
      rw [h₂.low j hj (hs ▸ h0), hs]
  · intro q j hq hj hqp
    have h₁' := h₁.other q j hq hj fun h hm => hqp h (mem_singleton.1 hm ▸ mem_cons_self ..)
    have h₂' := h₂.other q j hq hj fun h hm => hqp h (mem_cons_of_mem _ hm)
    exact ⟨h₂'.1.trans h₁'.1, h₂'.2.trans h₁'.2⟩
  · have hcoh := h₂.coherent c (h₁.proclist ▸ hc)
    rw [h₁.pmapOf] at hcoh
    exact hcoh hq (h₁.coherent c hc hq h)

theorem TablesCopied.none_left (h : TablesCopied s s₁ P p src [i]) (hp : P p) (hi : i ∉ rest)
    (hlt : ∀ j ∈ rest, j < ktableStart) (hnone : ∀ j ∈ rest, s.upde p j = 0) : ∀ j ∈ rest, s₁.upde p j = 0 := by
  intro j hj
  rw [(h.other p j hp (hlt j hj) fun _ hm => hi (mem_singleton.1 hm ▸ hj)).1]
  exact hnone j hj

theorem Grown.coherent {W : BitVec 10 → BitVec 10 → Prop} (h : Grown s s₁ taken W) {c : κ}
    (hm : c ∈ s.proclist) (hq : s.pmapOf c = q) (hc : s.Coherent q) : s₁.Coherent q := by
  intro i hi
  have hd : s.udir q ∈ s.procDirs := mem_map.2 ⟨c, hm, congrArg s.udir hq⟩
  have hdir : s₁.udir q = s.udir q := congrFun h.pdbr _
  change s₁.mem (s₁.udir q) i = _
  rw [hdir, h.proc _ hd i]
  by_cases h0 : s.kpde i = 0
  · by_cases h1 : s₁.kpde i = 0
    · rw [if_neg fun hn => hn.2 h1, h1, ← h0]
      exact hc i hi
    · rw [if_pos ⟨h0, h1⟩]
  · rw [if_neg fun hn => h0 hn.1, h.keep i h0]
    exact hc i hi

variable [DecidableEq π] {t : Frame}

theorem TableFor.write_coherent {row : BitVec 10 → BitVec 32} (h : TableFor s s₁ p i e taken) (hu : s.UserWf P)
    (hp : P p) (hi : i < ktableStart) (hq : P q) {c : κ} (hm : c ∈ s.proclist) (hcq : s.pmapOf c = q)
    (hc : s.Coherent q) : (withTable s₁ p i e row).Coherent q := by
  intro k hk
  rw [h.write_upde_kernel hu hp hi hq hk, h.write_kpde hu hp hi]
  exact h.grown.coherent hm hcq hc k hk

/-- A fresh table gets the words of the table of `src`. -/
theorem Allocated.tablesCopied (h : Allocated s s₁ t taken) (hw : s.KernelWf) (hu : s.UserWf P)
    (hsrc : P src) (hp : P p) (hi : i < ktableStart) (h0 : s.upde src i ≠ 0) (hp0 : s.upde p i = 0)
    (he : e = addrToPte t.base ||| (s.upde src i &&& 0xFFF)) :
    TablesCopied s (withTable s₁ p i e (s₁.mem (frameOf (s.upde src i)))) P p src [i] := by
  have hframe : frameOf e = t := by rw [he, frameOf_or_low, frameOf_base]
  have he0 : e ≠ 0 := by
    rintro rfl
    exact h.unused.ne_zero (hframe.symm.trans (by decide))
  have ht : TableFor s s₁ p i e taken := .inr ⟨hp0, he0, hframe.symm ▸ h⟩
  refine ⟨ht.write_kernelWf hw hu hp hi, ht.write_userWf hu hp hi, h.grown.pdbr, h.grown.proclist, h.grown.pmapOf,
    ⟨taken, h.grown.free⟩, ?_, ?_, ?_, ?_, fun q hq => ht.write_kernelHalf hu hp hi hq,
    fun x hx => (ht.write_data hu hp hi hx).1, fun c hm hq => ht.write_coherent hu hp hi hq hm rfl⟩
  · intro j hj
    rw [ht.write_kpde hu hp hi]
    exact h.grown.keep j hj
  · intro j hj
    rw [mem_singleton.1 hj, ht.write_table hu hp hi hp hi, if_pos ⟨rfl, rfl⟩, PmapState.table, if_neg h0,
      h.grown.utable_mem hu hsrc ⟨i, hi, h0, rfl⟩]
  · intro j hj _
    rw [mem_singleton.1 hj, ht.write_upde hu hp hi hp hi, if_pos ⟨rfl, rfl⟩, he, or_low_and_low]
  · intro q j hq hj hqp
    have hqj : ¬ (q = p ∧ j = i) := by
      rintro ⟨hqp', rfl⟩
      exact hqp hqp' (mem_singleton_self _)
    rw [ht.write_upde hu hp hi hq hj, ht.write_table hu hp hi hq hj, if_neg hqj, if_neg hqj]
    exact ⟨rfl, rfl⟩

omit [DecidableEq π] in
private theorem copyWords_withTable {x : Frame} (his : ∀ j, j ∈ is) (hx : x ≠ frameOf e) (hd : s.udir p ≠ frameOf e)
    (hz : ∀ j, s.mem (frameOf e) j = 0) :
    { s with mem := setWord (copyWords 0 x (frameOf e) is s.mem) (s.udir p) i e } =
      withTable s p i e (s.mem x) := by
  unfold withTable
  congr 1
  funext y j
  rw [setWord_apply, copyWords_apply hx]
  by_cases hy : y = frameOf e
  · subst hy
    rw [update_self, if_neg fun h => hd h.1.symm]
    by_cases hxj : s.mem x j = 0
    · rw [if_neg fun h => h.2.2 hxj, hz, hxj]
    · rw [if_pos ⟨rfl, his j, hxj⟩]
  · have hold : ¬ (y = frameOf e ∧ j ∈ is ∧ s.mem x j ≠ 0) := fun h => hy h.1
    rw [update_of_ne hy, setWord_apply, if_neg hold]

/-- A round of the loop. -/
private theorem copyTables_cons (rest : List (BitVec 10)) (hsrc : P src) (hp : P p) (hw : s.KernelWf) (hu : s.UserWf P)
    (hi : i < ktableStart) (hp0 : s.upde p i = 0) (hsome : s.upde src i = 0 ∨ (pageTableAllocate s).isSome) :
    ∃ s₁, TablesCopied s s₁ P p src [i] ∧ copyTables (s.udir src) (s.udir p) (i :: rest) s =
      copyTables (s₁.udir src) (s₁.udir p) rest s₁ ∧ (s.upde src i = 0 → s₁ = s) ∧
      (s.upde src i ≠ 0 → ∃ s₂ t, pageTableAllocate s = some (s₂, t) ∧ s₁.freePageList = s₂.freePageList) := by
  by_cases h0 : s.upde src i = 0
  · exact ⟨s, .skip hw hu h0 hp0, by rw [copyTables, if_pos h0], fun _ => rfl, fun h => absurd h0 h⟩
  · obtain ⟨⟨s₁, t⟩, hal⟩ := Option.isSome_iff_exists.1 (hsome.resolve_left h0)
    obtain ⟨taken, ht⟩ := pageTableAllocate_ok s s₁ t hw hal
    obtain ⟨e, he⟩ : ∃ e, e = addrToPte t.base ||| (s.upde src i &&& 0xFFF) := ⟨_, rfl⟩
    have hframe : frameOf e = t := by rw [he, frameOf_or_low, frameOf_base]
    have hdir : ∀ q, s₁.udir q = s.udir q := fun q => congrFun ht.grown.pdbr _
    have hne : ∀ q, P q → s.udir q ≠ t := fun q hq => hdir q ▸ ((ht.own hu).ne_dir q hq).symm
    have htable : s.UTable src (frameOf (s.upde src i)) := ⟨i, hi, h0, rfl⟩
    have hnew : frameOf (s.upde src i) ≠ t := by
      intro heq
      exact ht.not_utable hu hsrc ((ht.grown.utable_iff hu hsrc).2 (heq ▸ htable))
    -- the directory entry of the source is read again after the growth, and after the copy
    have hsrc₁ : s₁.mem (s.udir src) i = s.upde src i := by
      have := ht.grown.upde hu hsrc hi
      rwa [PmapState.upde, hdir] at this
    have hsrc₂ : copyWords 0 (frameOf (s.upde src i)) t (indices 0 1024) s₁.mem (s.udir src) i = s.upde src i := by
      rw [copyWords_apply hnew, if_neg fun h => hne src hsrc h.1, hsrc₁]
    refine ⟨_, ht.tablesCopied hw hu hsrc hp hi h0 hp0 he, ?_, fun h => absurd h h0, fun _ => ⟨s₁, t, hal, rfl⟩⟩
    rw [copyTables, if_neg h0, hal]
    dsimp only
    rw [hsrc₁, hsrc₂, ← he, ← copyWords_withTable mem_all_indices (hframe.symm ▸ hnew) _ (hframe.symm ▸ ht.zero),
      hframe]
    · change _ = copyTables (s₁.udir src) (s₁.udir p) rest _
      rw [hdir src, hdir p]
    · rw [hdir, hframe]
      exact hne p hp

private theorem copyTables_ok (hsrc : P src) (hp : P p) (hne : src ≠ p) (hw : s.KernelWf) (hu : s.UserWf P)
    (hnd : is.Nodup) (hlt : ∀ i ∈ is, i < ktableStart) (hnone : ∀ i ∈ is, s.upde p i = 0)
    (h : copyTables (s.udir src) (s.udir p) is s = some s') : TablesCopied s s' P p src is := by
  -- the invariant of the loop is that the maps are in order and that the map has no tables yet where it goes on
  induction is generalizing s with
  | nil =>
    rw [← Option.some.inj h]
    exact .nil hw hu
  | cons i rest ih =>
    obtain ⟨hi, hrest⟩ := nodup_cons.1 hnd
    have hi' := hlt i (mem_cons_self ..)
    have hlt' : ∀ j ∈ rest, j < ktableStart := fun j hj => hlt j (mem_cons_of_mem _ hj)
    have hsome : s.upde src i = 0 ∨ (pageTableAllocate s).isSome := by
      by_contra hn
      rw [not_or, Option.not_isSome_iff_eq_none] at hn
      rw [copyTables, if_neg hn.1, hn.2] at h
      cases h
    obtain ⟨s₁, h₁, hcons, -, -⟩ := copyTables_cons rest hsrc hp hw hu hi' (hnone i (mem_cons_self ..)) hsome
    refine .cons hsrc hp hne hi' hlt' hi h₁ (ih h₁.kernelWf h₁.userWf hrest hlt' ?_ (hcons ▸ h))
    exact h₁.none_left hp hi hlt' fun j hj => hnone j (mem_cons_of_mem _ hj)

/-- If all free frames have tables for their pages, the loop takes one frame for each table. -/
private theorem copyTables_takes (hsrc : P src) (hp : P p) (hne : src ≠ p) (hw : s.KernelWf) (hu : s.UserWf P)
    (hnd : is.Nodup) (hlt : ∀ i ∈ is, i < ktableStart) (hnone : ∀ i ∈ is, s.upde p i = 0)
    (hm : ∀ x ∈ s.freePageList, s.kpde (addrToPdenum x.kernelAddr) ≠ 0)
    (hlen : (is.filter fun i => s.upde src i ≠ 0).length ≤ s.freePageList.length) :
    ∃ s', copyTables (s.udir src) (s.udir p) is s = some s' ∧
      s'.freePageList.length + (is.filter fun i => s.upde src i ≠ 0).length = s.freePageList.length := by
  induction is generalizing s with
  | nil => exact ⟨s, rfl, rfl⟩
  | cons i rest ih =>
    obtain ⟨hi, hrest⟩ := nodup_cons.1 hnd
    have hi' := hlt i (mem_cons_self ..)
    have hlt' : ∀ j ∈ rest, j < ktableStart := fun j hj => hlt j (mem_cons_of_mem _ hj)
    have hnone' : ∀ j ∈ rest, s.upde p j = 0 := fun j hj => hnone j (mem_cons_of_mem _ hj)
    have hp0 := hnone i (mem_cons_self ..)
    by_cases h0 : s.upde src i = 0
    · obtain ⟨s₁, h₁, hcons, hs, -⟩ := copyTables_cons rest hsrc hp hw hu hi' hp0 (.inl h0)
      rw [hcons, hs h0]
      rw [filter_cons_of_neg (by simpa using h0)] at hlen ⊢
      exact ih hw hu hrest hlt' hnone' hm hlen
    · rw [filter_cons_of_pos (by simpa using h0), length_cons] at hlen ⊢
      obtain ⟨page, free, hfree⟩ := exists_cons_of_length_pos (Nat.lt_of_lt_of_le (Nat.succ_pos _) hlen)
      obtain ⟨s₂, hal, hf⟩ := pageTableAllocate_of_mapped hw hfree (hm page (by simp [hfree]))
      obtain ⟨s₁, h₁, hcons, -, hs⟩ := copyTables_cons rest hsrc hp hw hu hi' hp0 (.inr (by simp [hal]))
      obtain ⟨s₃, t, hal', hf'⟩ := hs h0
      rw [hal] at hal'
      cases hal'
      rw [hf] at hf'
      rw [hcons]
      have hsame : rest.filter (fun j => s₁.upde src j ≠ 0) = rest.filter fun j => s.upde src j ≠ 0 := by
        refine filter_congr fun j hj => ?_
        rw [(h₁.other src j hsrc (hlt' j hj) fun h => absurd h hne).1]
      have hlen₁ : s.freePageList.length = s₁.freePageList.length + 1 := by rw [hfree, hf', length_cons]
      obtain ⟨s', hs', hlen'⟩ := ih h₁.kernelWf h₁.userWf hrest hlt' (h₁.none_left hp hi hlt' hnone')
        (fun x hx => by
          have hx' := hm x (by simp [hfree, hf' ▸ hx])
          rw [h₁.keep _ hx']
          exact hx')
        (by rw [hsame]; omega)
      rw [hsame] at hlen'
      exact ⟨s', hs', by omega⟩

omit [DecidableEq π] in
private theorem shareKernelTables_mem {d x : Frame} {j : BitVec 10} (hd : s.kdir ≠ d) :
    (shareKernelTables d s).mem x j = if x = d ∧ ktableStart ≤ j ∧ s.kpde j ≠ 0 then s.kpde j else s.mem x j := by
  refine (copyWords_apply hd).trans ?_
  simp only [mem_kernel_indices]

private theorem shareKernelTables_upde (hu : s.UserWf P) (hp : P p) (hq : P q) :
    (shareKernelTables (s.udir p) s).upde q i =
      if q = p ∧ ktableStart ≤ i ∧ s.kpde i ≠ 0 then s.kpde i else s.upde q i := by
  change (shareKernelTables (s.udir p) s).mem (s.udir q) i = _
  rw [shareKernelTables_mem (hu.dir_ne_kdir p hp).symm]
  by_cases hqp : q = p
  · subst hqp
    simp only [true_and]
  · rw [if_neg fun h => hqp (hu.dir_inj q p hq hp h.1), if_neg fun h => hqp h.1]

omit [DecidableEq π] in
private theorem shareKernelTables_kpde (hu : s.UserWf P) (hp : P p) :
    (shareKernelTables (s.udir p) s).kpde i = s.kpde i := by
  change (shareKernelTables (s.udir p) s).mem s.kdir i = _
  rw [shareKernelTables_mem (hu.dir_ne_kdir p hp).symm, if_neg fun h => hu.dir_ne_kdir p hp h.1.symm]

private theorem shareKernelTables_table (hu : s.UserWf P) (hp : P p) (hq : P q) (hi : i < ktableStart) :
    (shareKernelTables (s.udir p) s).upde q i = s.upde q i ∧
      (shareKernelTables (s.udir p) s).table q i = s.table q i := by
  have hupde : (shareKernelTables (s.udir p) s).upde q i = s.upde q i := by
    rw [shareKernelTables_upde hu hp hq, if_neg]
    rintro ⟨-, hk, -⟩
    bv_omega
  refine ⟨hupde, ?_⟩
  unfold PmapState.table
  rw [hupde]
  by_cases h0 : s.upde q i = 0
  · rw [if_pos h0, if_pos h0]
  · rw [if_neg h0, if_neg h0]
    congr 1
    funext j
    rw [shareKernelTables_mem (hu.dir_ne_kdir p hp).symm, if_neg]
    rintro ⟨hx, -⟩
    exact hu.table_ne_dir q p _ hq hp ⟨i, hi, h0, rfl⟩ hx

private theorem shareKernelTables_wf (hw : s.KernelWf) (hu : s.UserWf P) (hp : P p) :
    (shareKernelTables (s.udir p) s).KernelWf ∧ (shareKernelTables (s.udir p) s).UserWf P := by
  have hk : ∀ i, (shareKernelTables (s.udir p) s).kpde i = s.kpde i := fun i => shareKernelTables_kpde hu hp
  refine ⟨hw.congr rfl rfl hk (List.Sublist.refl _), hu.mono rfl (fun _ _ => rfl) ?_ rfl (List.Subset.refl _) ?_⟩
  · intro q i hq hi
    exact (shareKernelTables_table hu hp hq hi).1
  · rintro x ⟨i, hi, h0, rfl⟩
    rw [hk] at h0 ⊢
    exact .inl ⟨i, hi, h0, rfl⟩

private theorem shareKernelTables_coherent (hu : s.UserWf P) (hp : P p) (hq : P q)
    (h : q = p ∧ s.KernelHalf p ∨ s.Coherent q) : (shareKernelTables (s.udir p) s).Coherent q := by
  intro i hi
  rw [shareKernelTables_upde hu hp hq, shareKernelTables_kpde hu hp]
  rcases h with ⟨rfl, hh⟩ | hc
  · by_cases h0 : s.kpde i = 0
    · rw [if_neg fun h => h.2.2 h0]
      exact (hh i hi).elim (fun he => he.trans h0.symm) id
    · rw [if_pos ⟨rfl, hi, h0⟩]
  · rw [hc i hi]
    split <;> rfl

private theorem shareKernelTables_kernelHalf (hu : s.UserWf P) (hp : P p) (hq : P q) (h : s.KernelHalf q) :
    (shareKernelTables (s.udir p) s).KernelHalf q := by
  intro i hi
  rw [shareKernelTables_upde hu hp hq, shareKernelTables_kpde hu hp]
  split
  · exact .inr rfl
  · exact h i hi

private theorem shareKernelTables_data {x : Frame} (hu : s.UserWf P) (hp : P p) (h : s.Data P x) :
    (shareKernelTables (s.udir p) s).Data P x := by
  refine ⟨⟨h.ne_kdir, ?_, h.not_proc, h.not_free, h.ne_dir⟩, ?_⟩
  · rintro ⟨i, hi, h0, hx⟩
    rw [shareKernelTables_kpde hu hp] at h0 hx
    exact h.not_table ⟨i, hi, h0, hx⟩
  · rintro q hq ⟨i, hi, h0, hx⟩
    rw [(shareKernelTables_table hu hp hq hi).1] at h0 hx
    exact h.not_utable q hq ⟨i, hi, h0, hx⟩

/-- The map `p` is new; the maps `P` were there before. -/
structure NewMap (s s' : PmapState π κ) (P : π → Prop) (p : π) : Prop where
  kernelWf : s'.KernelWf
  userWf : s'.UserWf fun q => q = p ∨ P q
  proclist : s'.proclist = s.proclist
  pmapOf : s'.pmapOf = s.pmapOf
  keep : ∀ i, s.kpde i ≠ 0 → s'.kpde i = s.kpde i
  self : s'.Coherent p
  other : ∀ q i, P q → i < ktableStart → s'.upde q i = s.upde q i ∧ s'.table q i = s.table q i
  kernelHalf : ∀ q, P q → s.KernelHalf q → s'.KernelHalf q
  data : ∀ x, s.Data P x → s'.Data (fun q => q = p ∨ P q) x
  coherent : ∀ c ∈ s.proclist, P (s.pmapOf c) → s.Coherent (s.pmapOf c) → s'.Coherent (s.pmapOf c)

private theorem setDir_coherent (hqp : q ≠ p) (h : s.Coherent q) : (s.setDir p t).Coherent q := by
  intro i hi
  rw [setDir_upde_of_ne hqp, setDir_kpde]
  exact h i hi

private theorem setDir_kernelHalf (hqp : q ≠ p) (h : s.KernelHalf q) : (s.setDir p t).KernelHalf q := by
  intro i hi
  rw [setDir_upde_of_ne hqp, setDir_kpde]
  exact h i hi

theorem PmapState.Data.setDir {t x : Frame} (h : s.Data P x) (hp : ¬ P p) (hx : x ≠ t) (hz : ∀ j, s.mem t j = 0) :
    (s.setDir p t).Data (fun q => q = p ∨ P q) x := by
  have hne : ∀ q, P q → q ≠ p := by
    rintro q hq rfl
    exact hp hq
  refine ⟨⟨?_, fun hk => h.not_table (setDir_ktable.1 hk), fun hm => ?_, h.not_free, ?_⟩, ?_⟩
  · rw [setDir_kdir]
    exact h.ne_kdir
  · exact (mem_setDir_procDirs hm).elim hx h.not_proc
  · rintro q (rfl | hq)
    · rwa [setDir_udir]
    · rw [setDir_udir_of_ne (hne q hq)]
      exact h.ne_dir q hq
  · rintro q (rfl | hq) ⟨i, hi, h0, hx'⟩
    · exact h0 (setDir_upde hz)
    · rw [setDir_upde_of_ne (hne q hq)] at h0 hx'
      exact h.not_utable q hq ⟨i, hi, h0, hx'⟩

/-- The end of `pmap_copy` and `pmap_share_kernel`. -/
theorem Allocated.newMap (h : Allocated s s₁ t taken) (hu : s.UserWf P) (hp : ¬ P p)
    (hc : TablesCopied (s₁.setDir p t) s₂ (fun q => q = p ∨ P q) p src is) : NewMap s (shareKernelTables t s₂) P p := by
  obtain ⟨-, -, hz⟩ := h.setDir hu hp
  have hdir : s₂.udir p = t := (hc.udir p).trans setDir_udir
  have hne : ∀ q, P q → q ≠ p := by
    rintro q hq rfl
    exact hp hq
  have hwf := shareKernelTables_wf hc.kernelWf hc.userWf (.inl rfl)
  rw [hdir] at hwf
  refine ⟨hwf.1, hwf.2, hc.proclist.trans h.grown.proclist, hc.pmapOf.trans h.grown.pmapOf,
    ?_, ?_, ?_, ?_, ?_, ?_⟩
  · intro i h0
    have h₁ : (s₁.setDir p t).kpde i = s.kpde i := h.grown.keep i h0
    have h₂ := shareKernelTables_kpde (i := i) hc.userWf (.inl rfl)
    rw [hdir] at h₂
    exact h₂.trans ((hc.keep i (h₁ ▸ h0)).trans h₁)
  · have hhalf := hc.kernelHalf p (.inl rfl) fun i _ => .inl (hz i)
    have := shareKernelTables_coherent hc.userWf (.inl rfl) (.inl rfl) (.inl ⟨rfl, hhalf⟩)
    rwa [hdir] at this
  · intro q i hq hi
    have h₁ := shareKernelTables_table hc.userWf (.inl rfl) (.inr hq) hi
    rw [hdir] at h₁
    have h₂ := hc.other q i (.inr hq) hi fun hqp => absurd hqp (hne q hq)
    rw [setDir_upde_of_ne (hne q hq), setDir_table_of_ne (hne q hq), h.grown.upde hu hq hi,
      h.grown.table_user hu hq hi] at h₂
    exact ⟨h₁.1.trans h₂.1, h₁.2.trans h₂.2⟩
  · intro q hq hh
    have h₁ := hc.kernelHalf q (.inr hq) (setDir_kernelHalf (hne q hq) (h.grown.kernelHalf hu hq hh))
    have := shareKernelTables_kernelHalf hc.userWf (.inl rfl) (.inr hq) h₁
    rwa [hdir] at this
  · intro x hx
    have hxt : x ≠ t := by
      rintro rfl
      exact h.grown.not_taken hx.not_free h.mem_taken
    have := shareKernelTables_data hc.userWf (.inl rfl) (hc.data x ((h.grown.data hu hx).1.setDir hp hxt h.zero))
    rwa [hdir] at this
  · intro c hm hq hcoh
    have h₁ := setDir_coherent (t := t) (hne _ hq) (h.grown.coherent hm rfl hcoh)
    have h₂ := hc.coherent c (h.grown.proclist.symm ▸ hm)
    have hpmap : (s₁.setDir p t).pmapOf c = s.pmapOf c := congrFun h.grown.pmapOf c
    rw [hpmap] at h₂
    have := shareKernelTables_coherent hc.userWf (.inl rfl) (.inr hq) (.inr (h₂ (.inr hq) h₁))
    rwa [hdir] at this

theorem pmapCopy_ok (hw : s.KernelWf) (hu : s.UserWf P) (hsrc : P src) (hp : ¬ P p)
    (h : pmapCopy p src s = some s') : NewMap s s' P p ∧ (∀ i, i < ktableStart → s'.table p i = s.table src i) ∧
      ∀ i, i < ktableStart → s.upde src i ≠ 0 → s'.upde p i &&& 0xFFF = s.upde src i &&& 0xFFF := by
  have hne : src ≠ p := by
    rintro rfl
    exact hp hsrc
  unfold pmapCopy at h
  cases hal : pageTableAllocate s with
  | none => simp [hal] at h
  | some r =>
    obtain ⟨s₁, t⟩ := r
    obtain ⟨taken, ht⟩ := pageTableAllocate_ok s s₁ t hw hal
    obtain ⟨hw₁, hu₁, hz⟩ := ht.setDir hu hp
    simp only [hal] at h
    split at h
    · cases h
    · rename_i s₂ hs₂
      have hs₂' : copyTables ((s₁.setDir p t).udir src) ((s₁.setDir p t).udir p) (indices 0 896) (s₁.setDir p t) =
          some s₂ := by
        rw [setDir_udir]
        exact hs₂
      have hc := copyTables_ok (.inr hsrc) (.inl rfl) hne hw₁ hu₁ (indices_nodup (by omega))
        (fun i hi => mem_user_indices.1 hi) (fun i _ => hz i) hs₂'
      have hdir : s₂.udir p = t := (hc.udir p).trans setDir_udir
      rw [← Option.some.inj h]
      refine ⟨ht.newMap hu hp hc, ?_, ?_⟩
      · intro i hi
        have h₁ := (shareKernelTables_table hc.userWf (.inl rfl) (.inl rfl) hi).2
        rw [hdir] at h₁
        rw [h₁, hc.copied i (mem_user_indices.2 hi), setDir_table_of_ne hne, ht.grown.table_user hu hsrc hi]
      · intro i hi h0
        have h₁ := (shareKernelTables_table hc.userWf (.inl rfl) (.inl rfl) hi).1
        have hsame : (s₁.setDir p t).upde src i = s.upde src i := by
          rw [setDir_upde_of_ne hne, ht.grown.upde hu hsrc hi]
        rw [hdir] at h₁
        rw [h₁, hc.low i (mem_user_indices.2 hi) (hsame ▸ h0), hsame]

/-- `pmap_copy` returns if there are enough frames, with tables for their pages. -/
theorem pmapCopy_takes (hw : s.KernelWf) (hu : s.UserWf P) (hsrc : P src) (hp : ¬ P p)
    (hm : ∀ x ∈ s.freePageList, s.kpde (addrToPdenum x.kernelAddr) ≠ 0)
    (hlen : ((indices 0 896).filter fun i => s.upde src i ≠ 0).length < s.freePageList.length) :
    ∃ s', pmapCopy p src s = some s' ∧ s'.freePageList.length +
      ((indices 0 896).filter fun i => s.upde src i ≠ 0).length + 1 = s.freePageList.length := by
  have hne : src ≠ p := by
    rintro rfl
    exact hp hsrc
  obtain ⟨page, free, hfree⟩ := exists_cons_of_length_pos (Nat.lt_of_le_of_lt (Nat.zero_le _) hlen)
  obtain ⟨s₁, hal, hf⟩ := pageTableAllocate_of_mapped hw hfree (hm page (by simp [hfree]))
  obtain ⟨taken, ht⟩ := pageTableAllocate_ok s s₁ page hw hal
  obtain ⟨hw₁, hu₁, hz⟩ := ht.setDir hu hp
  have hsame : (indices 0 896).filter (fun i => (s₁.setDir p page).upde src i ≠ 0) =
      (indices 0 896).filter fun i => s.upde src i ≠ 0 := by
    refine filter_congr fun i hi => ?_
    rw [setDir_upde_of_ne hne, ht.grown.upde hu hsrc (mem_user_indices.1 hi)]
  have hlen₁ : (s₁.setDir p page).freePageList.length = free.length := congrArg List.length hf
  rw [hfree, length_cons] at hlen ⊢
  obtain ⟨s₂, hs₂, hlen₂⟩ := copyTables_takes (.inr hsrc) (.inl rfl) hne hw₁ hu₁ (indices_nodup (by omega))
    (fun i hi => mem_user_indices.1 hi) (fun i _ => hz i)
    (fun x hx => by
      have hx' := hm x (by rw [hfree, ← hf]; exact mem_cons_of_mem _ hx)
      rw [setDir_kpde, ht.grown.keep _ hx']
      exact hx')
    (by rw [hsame, hlen₁]; omega)
  rw [setDir_udir] at hs₂
  rw [hsame, hlen₁] at hlen₂
  have hs₂' : copyTables (({ s₁ with pdbr := update s₁.pdbr (.user p) page } : PmapState π κ).pdbr
      (.user src)) page (indices 0 896) { s₁ with pdbr := update s₁.pdbr (.user p) page } = some s₂ := hs₂
  refine ⟨shareKernelTables page s₂, by simp only [pmapCopy, hal, hs₂'], ?_⟩
  change s₂.freePageList.length + _ + 1 = _
  omega

theorem pmapShareKernel_ok (hw : s.KernelWf) (hu : s.UserWf P) (hp : ¬ P p) (h : pmapShareKernel p s = some s') :
    NewMap s s' P p := by
  unfold pmapShareKernel at h
  cases hal : pageTableAllocate s with
  | none => simp [hal] at h
  | some r =>
    obtain ⟨s₁, t⟩ := r
    obtain ⟨taken, ht⟩ := pageTableAllocate_ok s s₁ t hw hal
    obtain ⟨hw₁, hu₁, -⟩ := ht.setDir hu hp
    simp only [hal] at h
    rw [← Option.some.inj h]
    exact ht.newMap hu hp (TablesCopied.nil hw₁ hu₁ : TablesCopied _ _ _ p p [])

end Tables

/-- The arguments of a call of `pmap_enter`. -/
structure PmapCall (π : Type*) where
  map : π
  paddr : BitVec 32
  vaddr : BitVec 32
  protection : BitVec 32

/-- A call for a user address of one of the maps `P`. -/
def PmapEnterStep [DecidableEq π] (P : π → Prop) (s : PmapState π κ) (c : PmapCall π) (s' : PmapState π κ) : Prop :=
  P c.map ∧ c.vaddr < kernelBase ∧ c.protection < 0x1000 ∧
    pmapEnter (.user c.map) c.paddr c.vaddr c.protection s = some s'

section Copy

variable [DecidableEq π] {s s' : PmapState π κ} {P : π → Prop} {p src : π} {c : PmapCall π}

theorem PmapEnterStep.wf (h : PmapEnterStep P s c s') (hw : s.KernelWf) (hu : s.UserWf P) :
    s'.KernelWf ∧ s'.UserWf P := by
  obtain ⟨hp, hv, hprot, h⟩ := h
  have hi := (addrToPdenum_lt_iff c.vaddr).2 hv
  obtain ⟨s₁, taken, e, ht, rfl, -⟩ := pmapEnterWith_user pageTableAllocate_ok hw hu hp hprot h
  exact ⟨ht.write_kernelWf hw hu hp hi, ht.write_userWf hu hp hi⟩

theorem PmapEnterStep.walk (h : PmapEnterStep P s c s') (hw : s.KernelWf) (hu : s.UserWf P) {q : π} (hq : P q)
    (hqc : q ≠ c.map) {va : BitVec 32} (hva : va < kernelBase) : s'.walk (.user q) va = s.walk (.user q) va := by
  have hu' := (h.wf hw hu).2
  obtain ⟨hp, hv, hprot, h⟩ := h
  have hi := (addrToPdenum_lt_iff c.vaddr).2 hv
  obtain ⟨s₁, taken, e, ht, rfl, -⟩ := pmapEnterWith_user pageTableAllocate_ok hw hu hp hprot h
  rw [PmapState.walk_eq_table (hu.dir_ne_zero q hq), PmapState.walk_eq_table (hu'.dir_ne_zero q hq),
    ht.write_table hu hp hi hq ((addrToPdenum_lt_iff va).2 hva), if_neg fun h => hqc h.1]

/-- The copy has the translations of the source and the kernel half of `kernel_map`, and whatever is entered later in
one of the two maps does not change the translations of the other. -/
theorem pmap_copy_duplicates (hw : s.KernelWf) (hd : s.TablesDistinct src) (ha : s.Apart src)
    (h0 : s.udir src ≠ 0) (hne : p ≠ src) (h : pmapCopy p src s = some s') : (∀ va, va < kernelBase →
      s'.walk (.user p) va = s.walk (.user src) va ∧ s'.walk (.user src) va = s.walk (.user src) va) ∧
    (∀ i, i < ktableStart → s.upde src i ≠ 0 → s'.upde p i ≠ 0 ∧ s'.upde p i &&& 0xFFF = s.upde src i &&& 0xFFF) ∧
    (∀ i, ktableStart ≤ i → s'.upde p i = s'.kpde i) ∧
    ∀ tr s'', Run (PmapEnterStep fun q => q = p ∨ q = src) s' tr s'' → ∀ x ∈ tr, ∀ q, q = p ∨ q = src →
      q ≠ x.2.1.map → ∀ va, va < kernelBase → x.2.2.walk (.user q) va = x.1.walk (.user q) va := by
  have hu := ha.userWf hd h0
  obtain ⟨hn, htable, hlow⟩ := pmapCopy_ok hw hu rfl hne h
  have hpd := hn.userWf.dir_ne_zero p (.inl rfl)
  have hsd := hn.userWf.dir_ne_zero src (.inr rfl)
  refine ⟨fun va hva => ?_, fun i hi hsi => ⟨?_, hlow i hi hsi⟩, hn.self, ?_⟩
  · have hi := (addrToPdenum_lt_iff va).2 hva
    rw [PmapState.walk_eq_table hpd, PmapState.walk_eq_table h0, PmapState.walk_eq_table hsd, htable _ hi,
      (hn.other src _ rfl hi).2]
    exact ⟨rfl, rfl⟩
  · intro hz
    have := htable i hi
    rw [PmapState.table, PmapState.table, if_pos hz, if_neg hsi] at this
    cases this
  · intro tr s'' hr
    refine (hr.forall_iff (fun s => s.KernelWf ∧ s.UserWf fun q => q = p ∨ q = src) (fun _ => True) _
      ⟨hn.kernelWf, hn.userWf⟩ (fun _ _ _ hi _ hst => hst.wf hi.1 hi.2) (fun s c s' hi hst => ?_)).2
      fun _ _ => trivial
    exact iff_true_intro fun q hq hqc va hva => hst.walk hi.1 hi.2 hq hqc hva

theorem twoPmaps_tables : ((indices 0 896).filter fun i => twoPmaps.upde false i ≠ 0).length ≤ 1 := by
  have hsub : (indices 0 896).filter (fun i => twoPmaps.upde false i ≠ 0) ⊆ [0] := by
    intro i hi
    obtain ⟨hmem, h0⟩ := mem_filter.1 hi
    rcases twoPmaps_upde (by simpa using h0) with ⟨rfl, -⟩ | ⟨rfl, -⟩
    · exact mem_singleton_self _
    · exact absurd (mem_user_indices.1 hmem) (by decide)
  exact (((indices_nodup (by omega)).filter _).subperm hsub).length_le

theorem twoPmaps_copy : (pmapCopy true false twoPmaps).isSome := by
  obtain ⟨s', hs', -⟩ := pmapCopy_takes (P := (· = false)) twoPmaps_kernelWf
    (twoPmaps_apart.userWf twoPmaps_distinct (by decide)) rfl (p := true) (by decide)
    (fun x hx => by rcases twoPmaps_free hx with rfl | rfl | rfl <;> decide)
    (Nat.lt_of_le_of_lt twoPmaps_tables (by decide))
  exact Option.isSome_iff_exists.2 ⟨s', hs'⟩

/-- A copy, in which another page is entered. -/
theorem pmap_copy_duplicates_enter : ∃ s' s'', pmapCopy true false twoPmaps = some s' ∧
    pmapEnter (.user true) 0x30000 0x5000 7 s' = some s'' ∧ s'.walk (.user true) 0x5000 = some 0x20007 ∧
    s''.walk (.user false) 0x5000 = some 0x20007 := by
  obtain ⟨s', hs'⟩ := Option.isSome_iff_exists.1 twoPmaps_copy
  obtain ⟨hwalk, -, -, hrun⟩ := pmap_copy_duplicates twoPmaps_kernelWf twoPmaps_distinct twoPmaps_apart (by decide)
    (by decide) hs'
  have hold : twoPmaps.walk (.user false) 0x5000 = some 0x20007 := by decide
  obtain ⟨hnew, hsrc⟩ := hwalk 0x5000 (by decide)
  rw [hold] at hnew hsrc
  have hsome : (pmapEnter (.user true) 0x30000 0x5000 7 s').isSome := by
    refine pmapEnter_isSome ?_
    rw [hnew]
    rfl
  obtain ⟨s'', hs''⟩ := Option.isSome_iff_exists.1 hsome
  have hstep : PmapEnterStep (fun q => q = true ∨ q = false) s' ⟨true, 0x30000, 0x5000, 7⟩ s'' :=
    ⟨.inl rfl, by decide, by decide, hs''⟩
  have hkeep := hrun _ _ (.snoc .nil hstep) _ (mem_singleton_self _) false (.inr rfl) (by simp) 0x5000 (by decide)
  exact ⟨s', s'', hs', hs'', hnew, hkeep.trans hsrc⟩

end Copy

end Manrix
