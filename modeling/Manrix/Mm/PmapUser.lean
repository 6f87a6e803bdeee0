import Manrix.Mm.PmapGrowth

/-!
# The maps of processes

The maps of processes have their own directories and, below `KERNEL_BASE`, their own tables; in the kernel half they
have the tables of `kernel_map`.  The growth of the kernel map does not touch the former, and `pmap_enter` on a user
address changes one of the tables, or a new one, of one map (`withTable`).
-/

namespace Manrix

open Frames Function List

variable {π κ : Type*}

abbrev PmapState.udir (s : PmapState π κ) (p : π) : Frame := s.pdbr (.user p)

abbrev PmapState.upde (s : PmapState π κ) (p : π) (i : BitVec 10) : BitVec 32 := s.mem (s.udir p) i

/-- The frame is a table of the map for addresses below `KERNEL_BASE`. -/
def PmapState.UTable (s : PmapState π κ) (p : π) (x : Frame) : Prop :=
  ∃ i, i < ktableStart ∧ s.upde p i ≠ 0 ∧ frameOf (s.upde p i) = x

/-- The table of the map that the directory has at the index, with its words. -/
def PmapState.table (s : PmapState π κ) (p : π) (i : BitVec 10) : Option (BitVec 10 → BitVec 32) :=
  if s.upde p i = 0 then none else some (s.mem (frameOf (s.upde p i)))

/-- The entries of the kernel half are missing or those of `kernel_map`. -/
def PmapState.KernelHalf (s : PmapState π κ) (p : π) : Prop :=
  ∀ i, ktableStart ≤ i → s.upde p i = 0 ∨ s.upde p i = s.kpde i

/-- The maps `P` have directories and tables of their own. -/
structure PmapState.UserWf (s : PmapState π κ) (P : π → Prop) : Prop where
  dir_ne_zero : ∀ p, P p → s.udir p ≠ 0
  dir_ne_kdir : ∀ p, P p → s.udir p ≠ s.kdir
  dir_not_table : ∀ p, P p → ¬ s.KTable (s.udir p)
  dir_not_free : ∀ p, P p → s.udir p ∉ s.freePageList
  dir_inj : ∀ p q, P p → P q → s.udir p = s.udir q → p = q
  table_ne_kdir : ∀ p x, P p → s.UTable p x → x ≠ s.kdir
  table_not_table : ∀ p x, P p → s.UTable p x → ¬ s.KTable x
  table_not_proc : ∀ p x, P p → s.UTable p x → x ∉ s.procDirs
  table_not_free : ∀ p x, P p → s.UTable p x → x ∉ s.freePageList
  table_ne_dir : ∀ p q x, P p → P q → s.UTable p x → x ≠ s.udir q
  table_inj : ∀ p q i j, P p → P q → i < ktableStart → j < ktableStart → s.upde p i ≠ 0 → s.upde q j ≠ 0 →
    frameOf (s.upde p i) = frameOf (s.upde q j) → p = q ∧ i = j

section Growth

variable {s s' : PmapState π κ} {P : π → Prop} {taken : List Frame} {W : BitVec 10 → BitVec 10 → Prop} {p : π}

theorem Grown.not_taken (h : Grown s s' taken W) {x : Frame} (hx : x ∉ s.freePageList) : x ∉ taken := by
  intro ht
  exact hx (h.free ▸ mem_append_left _ ht)

theorem Grown.upde_kernel (h : Grown s s' taken W) (hu : s.UserWf P) (hp : P p) (i : BitVec 10) :
    s.kpde i = 0 ∧ s'.kpde i ≠ 0 ∧ s'.upde p i = s'.kpde i ∨ s'.upde p i = s.upde p i := by
  have hdir : s'.udir p = s.udir p := congrFun h.pdbr _
  change _ ∨ s'.mem (s'.udir p) i = _
  rw [PmapState.upde, hdir]
  by_cases hproc : s.udir p ∈ s.procDirs
  · rw [h.proc _ hproc i]
    split
    · rename_i hnew
      exact .inl ⟨hnew.1, hnew.2, rfl⟩
    · exact .inr rfl
  · rw [h.other _ (h.not_taken (hu.dir_not_free p hp)) (hu.dir_ne_kdir p hp) (hu.dir_not_table p hp) hproc]
    exact .inr rfl

theorem Grown.upde (h : Grown s s' taken W) (hu : s.UserWf P) (hp : P p) {i : BitVec 10} (hi : i < ktableStart) :
    s'.upde p i = s.upde p i := by
  refine (h.upde_kernel hu hp i).resolve_left ?_
  rintro ⟨h0, h1, -⟩
  have := (h.new i h0 h1).1
  bv_omega

theorem Grown.utable_mem (h : Grown s s' taken W) (hu : s.UserWf P) (hp : P p) {x : Frame} (hx : s.UTable p x) :
    s'.mem x = s.mem x :=
  h.other x (h.not_taken (hu.table_not_free p x hp hx)) (hu.table_ne_kdir p x hp hx)
    (hu.table_not_table p x hp hx) (hu.table_not_proc p x hp hx)

theorem Grown.utable_iff (h : Grown s s' taken W) (hu : s.UserWf P) (hp : P p) {x : Frame} :
    s'.UTable p x ↔ s.UTable p x := by
  unfold PmapState.UTable
  constructor
  · rintro ⟨i, hi, h0, hx⟩
    rw [h.upde hu hp hi] at h0 hx
    exact ⟨i, hi, h0, hx⟩
  · rintro ⟨i, hi, h0, hx⟩
    rw [← h.upde hu hp hi] at h0 hx
    exact ⟨i, hi, h0, hx⟩

/-- The maps keep their directories and tables if their directory entries stay the same, and only free frames have
become tables of the kernel. -/
theorem PmapState.UserWf.mono (hu : s.UserWf P) (hkd : s'.kdir = s.kdir) (hdir : ∀ p, P p → s'.udir p = s.udir p)
    (hupde : ∀ p i, P p → i < ktableStart → s'.upde p i = s.upde p i) (hproc : s'.procDirs = s.procDirs)
    (hfree : s'.freePageList ⊆ s.freePageList)
    (htable : ∀ x, s'.KTable x → s.KTable x ∨ x ∈ s.freePageList) : s'.UserWf P := by
  have hutable : ∀ p x, P p → s'.UTable p x → s.UTable p x := by
    rintro p x hp ⟨i, hi, h0, hx⟩
    rw [hupde p i hp hi] at h0 hx
    exact ⟨i, hi, h0, hx⟩
  constructor
  · intro p hp
    rw [hdir p hp]
    exact hu.dir_ne_zero p hp
  · intro p hp
    rw [hdir p hp, hkd]
    exact hu.dir_ne_kdir p hp
  · intro p hp h
    rw [hdir p hp] at h
    exact (htable _ h).elim (hu.dir_not_table p hp) (hu.dir_not_free p hp)
  · intro p hp h
    rw [hdir p hp] at h
    exact hu.dir_not_free p hp (hfree h)
  · intro p q hp hq hpq
    rw [hdir p hp, hdir q hq] at hpq
    exact hu.dir_inj p q hp hq hpq
  · intro p x hp hx
    rw [hkd]
    exact hu.table_ne_kdir p x hp (hutable p x hp hx)
  · intro p x hp hx h
    have hx' := hutable p x hp hx
    exact (htable x h).elim (hu.table_not_table p x hp hx') (hu.table_not_free p x hp hx')
  · intro p x hp hx
    rw [hproc]
    exact hu.table_not_proc p x hp (hutable p x hp hx)
  · intro p x hp hx h
    exact hu.table_not_free p x hp (hutable p x hp hx) (hfree h)
  · intro p q x hp hq hx
    rw [hdir q hq]
    exact hu.table_ne_dir p q x hp hq (hutable p x hp hx)
  · intro p q i j hp hq hi hj h0 h1 hx
    rw [hupde p i hp hi] at h0 hx
    rw [hupde q j hq hj] at h1 hx
    exact hu.table_inj p q i j hp hq hi hj h0 h1 hx

theorem Grown.userWf (h : Grown s s' taken W) (hu : s.UserWf P) : s'.UserWf P := by
  refine hu.mono h.kdir (fun p _ => congrFun h.pdbr _) (fun p i hp hi => h.upde hu hp hi) h.procDirs
    (fun x hx => h.free ▸ mem_append_right _ hx) fun x hx => ?_
  refine (h.table_or_taken hx).imp_right fun ht => ?_
  rw [h.free]
  exact mem_append_left _ ht

theorem Grown.table_user (h : Grown s s' taken W) (hu : s.UserWf P) (hp : P p) {i : BitVec 10}
    (hi : i < ktableStart) : s'.table p i = s.table p i := by
  unfold PmapState.table
  rw [h.upde hu hp hi]
  by_cases h0 : s.upde p i = 0
  · rw [if_pos h0, if_pos h0]
  · rw [if_neg h0, if_neg h0, h.utable_mem hu hp ⟨i, hi, h0, rfl⟩]

theorem PmapState.walk_eq_table (hd : s.udir p ≠ 0) (va : BitVec 32) :
    s.walk (.user p) va = (s.table p (addrToPdenum va)).map fun row => row (addrToPtenum va) := by
  unfold PmapState.table
  by_cases h0 : s.upde p (addrToPdenum va) = 0
  · rw [PmapState.walk_eq_none (.inr h0), if_pos h0]
    rfl
  · rw [PmapState.walk_eq hd rfl h0, if_neg h0]
    rfl

theorem Grown.walk_user (h : Grown s s' taken W) (hu : s.UserWf P) (hp : P p) {va : BitVec 32}
    (hv : va < kernelBase) : s'.walk (.user p) va = s.walk (.user p) va := by
  rw [PmapState.walk_eq_table (hu.dir_ne_zero p hp), PmapState.walk_eq_table ((h.userWf hu).dir_ne_zero p hp),
    h.table_user hu hp ((addrToPdenum_lt_iff va).2 hv)]

theorem PmapState.KernelHalf.eq (hk : s.KernelHalf p) {i : BitVec 10} (hi : ktableStart ≤ i)
    (h0 : s.upde p i ≠ 0) : s.upde p i = s.kpde i :=
  (hk i hi).resolve_left h0

theorem Grown.kernelHalf (h : Grown s s' taken W) (hu : s.UserWf P) (hp : P p) (hk : s.KernelHalf p) :
    s'.KernelHalf p := by
  intro i hi
  rcases h.upde_kernel hu hp i with ⟨-, -, hnew⟩ | hold
  · exact .inr hnew
  · rw [hold]
    by_cases h0 : s.kpde i = 0
    · rcases hk i hi with he | he
      · exact .inl he
      · exact .inl (he.trans h0)
    · rw [h.keep i h0]
      exact hk i hi

end Growth

/-- The directory has the entry `e` at `i`, and the table that it names has the words `row`. -/
def withTable (s : PmapState π κ) (p : π) (i : BitVec 10) (e : BitVec 32) (row : BitVec 10 → BitVec 32) :
    PmapState π κ :=
  { s with mem := update (setWord s.mem (s.udir p) i e) (frameOf e) row }

/-- There is a table at `i`, with the directory entry `e`, or `page_table_allocate` has supplied one. -/
def TableFor (s s₁ : PmapState π κ) (p : π) (i : BitVec 10) (e : BitVec 32) (taken : List Frame) : Prop :=
  s₁ = s ∧ taken = [] ∧ s.upde p i = e ∧ e ≠ 0 ∨
    s.upde p i = 0 ∧ e ≠ 0 ∧ Allocated s s₁ (frameOf e) taken

section Enter

variable {s s₁ s' : PmapState π κ} {P : π → Prop} {taken : List Frame} {p q : π} {i j : BitVec 10}
  {e paddr va protection : BitVec 32} {row : BitVec 10 → BitVec 32} {x : Frame}

theorem TableFor.grown (h : TableFor s s₁ p i e taken) : Grown s s₁ taken (KernelPages taken) := by
  rcases h with ⟨rfl, rfl, -, -⟩ | ⟨-, -, h⟩
  · exact Grown.refl _ _
  · exact h.grown

theorem TableFor.kernelWf (h : TableFor s s₁ p i e taken) (hw : s.KernelWf) : s₁.KernelWf := by
  rcases h with ⟨rfl, -, -, -⟩ | ⟨-, -, h⟩
  · exact hw
  · exact h.wf

theorem TableFor.ne_zero (h : TableFor s s₁ p i e taken) : e ≠ 0 := by
  rcases h with ⟨-, -, -, h⟩ | ⟨-, h, -⟩ <;> exact h

/-- The table is apart from the directories, the tables of the kernel and the free frames. -/
structure OwnTable (s : PmapState π κ) (P : π → Prop) (t : Frame) : Prop where
  ne_kdir : t ≠ s.kdir
  not_table : ¬ s.KTable t
  not_proc : t ∉ s.procDirs
  not_free : t ∉ s.freePageList
  ne_dir : ∀ q, P q → t ≠ s.udir q

theorem Allocated.own {t : Frame} (h : Allocated s s₁ t taken) (hu : s.UserWf P) : OwnTable s₁ P t := by
  refine ⟨h.unused.ne_kdir, h.unused.not_table, h.unused.not_proc, h.not_free, fun q hq hd => ?_⟩
  refine hu.dir_not_free q hq ?_
  rw [PmapState.udir, ← h.grown.pdbr, ← PmapState.udir, ← hd, h.grown.free]
  exact mem_append_left _ h.mem_taken

theorem Allocated.not_utable {t : Frame} (h : Allocated s s₁ t taken) (hu : s.UserWf P) (hq : P q) :
    ¬ s₁.UTable q t := by
  intro ht
  refine hu.table_not_free q t hq ((h.grown.utable_iff hu hq).1 ht) ?_
  rw [h.grown.free]
  exact mem_append_left _ h.mem_taken

theorem TableFor.own (h : TableFor s s₁ p i e taken) (hu : s.UserWf P) (hp : P p) (hi : i < ktableStart) :
    OwnTable s₁ P (frameOf e) := by
  rcases h with ⟨rfl, -, rfl, h0⟩ | ⟨-, -, h⟩
  · have ht : s₁.UTable p (frameOf (s₁.upde p i)) := ⟨i, hi, h0, rfl⟩
    exact ⟨hu.table_ne_kdir p _ hp ht, hu.table_not_table p _ hp ht, hu.table_not_proc p _ hp ht,
      hu.table_not_free p _ hp ht, fun q hq => hu.table_ne_dir p q _ hp hq ht⟩
  · exact h.own hu

theorem TableFor.table_eq (h : TableFor s s₁ p i e taken) (hu : s.UserWf P) (hp : P p) (hi : i < ktableStart)
    (hq : P q) (hj : j < ktableStart) (h0 : s₁.upde q j ≠ 0) (he : frameOf (s₁.upde q j) = frameOf e) :
    q = p ∧ j = i := by
  rcases h with ⟨rfl, -, rfl, h1⟩ | ⟨-, -, h⟩
  · exact hu.table_inj q p j i hq hp hj hi h0 h1 he
  · exact absurd ⟨j, hj, h0, he⟩ (h.not_utable hu hq)

/-- `pmap_enter` on an address for which the map has no table: it gets the frame `t`. -/
theorem pmapEnterWith_new [DecidableEq π] {alloc : PmapState π κ → Option (PmapState π κ × Frame)}
    (ha : AllocatesTable alloc) (hw : s.KernelWf) (hu : s.UserWf P) (hp : P p) (hprot : protection < 0x1000)
    (h0 : s.upde p (addrToPdenum va) = 0) (h : pmapEnterWith alloc (.user p) paddr va protection s = some s') :
    ∃ s₁ t taken, Allocated s s₁ t taken ∧
      s' = withTable s₁ p (addrToPdenum va) (addrToPte t.base ||| pagePresent ||| protection)
        (update (s₁.mem t) (addrToPtenum va) (addrToPte paddr ||| pagePresent ||| protection)) := by
  unfold pmapEnterWith at h
  rw [enterDirectory_of_ne_zero (hu.dir_ne_zero p hp)] at h
  simp only [enterTable] at h
  rw [if_pos h0] at h
  cases hal : alloc s with
  | none => simp [hal] at h
  | some r =>
    obtain ⟨s₁, t⟩ := r
    obtain ⟨taken, ht⟩ := ha s s₁ t hw hal
    have hframe := frameOf_base_entry t hprot
    have hne := (ht.own hu).ne_dir p hp
    have hdir : s.pdbr (.user p) = s₁.udir p := (congrFun ht.grown.pdbr _).symm
    simp only [hal, reduceCtorEq, if_false, Option.some.injEq] at h
    refine ⟨s₁, t, taken, ht, ?_⟩
    rw [← h, withTable, hframe, hdir, setWord, setWord_of_ne_frame hne]

theorem pmapEnterWith_user [DecidableEq π] {alloc : PmapState π κ → Option (PmapState π κ × Frame)}
    (ha : AllocatesTable alloc) (hw : s.KernelWf) (hu : s.UserWf P) (hp : P p) (hprot : protection < 0x1000)
    (h : pmapEnterWith alloc (.user p) paddr va protection s = some s') :
    ∃ s₁ taken e, TableFor s s₁ p (addrToPdenum va) e taken ∧ s' = withTable s₁ p (addrToPdenum va) e
      (update (s₁.mem (frameOf e)) (addrToPtenum va) (addrToPte paddr ||| pagePresent ||| protection)) ∧
      (s.upde p (addrToPdenum va) = 0 → e = addrToPte (frameOf e).base ||| pagePresent ||| protection) := by
  by_cases h0 : s.upde p (addrToPdenum va) = 0
  · obtain ⟨s₁, t, taken, ht, rfl⟩ := pmapEnterWith_new ha hw hu hp hprot h0 h
    have hframe := frameOf_base_entry t hprot
    refine ⟨s₁, taken, _, .inr ⟨h0, entry_ne_zero t.base protection, hframe.symm ▸ ht⟩, ?_, fun _ => ?_⟩
    · rw [hframe]
    · rw [hframe]
  · unfold pmapEnterWith at h
    rw [enterDirectory_of_ne_zero (hu.dir_ne_zero p hp)] at h
    simp only [enterTable] at h
    rw [if_neg h0] at h
    refine ⟨s, [], _, .inl ⟨rfl, rfl, rfl, h0⟩, ?_, fun h => absurd h h0⟩
    rw [← Option.some.inj h, withTable, setWord_eq_self]
    rfl

theorem withTable_mem (s : PmapState π κ) (p : π) (i : BitVec 10) (e : BitVec 32) (row : BitVec 10 → BitVec 32)
    (x : Frame) (k : BitVec 10) : (withTable s p i e row).mem x k =
      if x = frameOf e then row k else if x = s.udir p ∧ k = i then e else s.mem x k := by
  by_cases hx : x = frameOf e
  · simp [withTable, hx]
  · simp [withTable, hx, setWord_apply]

private theorem withTable_kpde (hu : s.UserWf P) (hp : P p) (ht : OwnTable s P (frameOf e)) (k : BitVec 10) :
    (withTable s p i e row).kpde k = s.kpde k := by
  change (withTable s p i e row).mem s.kdir k = _
  rw [withTable_mem, if_neg fun h => ht.ne_kdir h.symm, if_neg fun h => hu.dir_ne_kdir p hp h.1.symm]

private theorem withTable_kernelWf (hw : s.KernelWf) (hu : s.UserWf P) (hp : P p) (ht : OwnTable s P (frameOf e)) :
    (withTable s p i e row).KernelWf :=
  hw.congr rfl rfl (withTable_kpde hu hp ht) (List.Sublist.refl _)

variable [DecidableEq π]

theorem withTable_upde (hu : s.UserWf P) (hp : P p) (hq : P q) (ht : OwnTable s P (frameOf e)) (k : BitVec 10) :
    (withTable s p i e row).upde q k = if q = p ∧ k = i then e else s.upde q k := by
  change (withTable s p i e row).mem (s.udir q) k = _
  rw [withTable_mem, if_neg fun h => ht.ne_dir q hq h.symm]
  by_cases hqp : q = p
  · subst hqp
    simp
  · rw [if_neg fun h => hqp (hu.dir_inj q p hq hp h.1), if_neg fun h => hqp h.1]

private theorem withTable_utable (hu : s.UserWf P) (hp : P p) (hq : P q) (ht : OwnTable s P (frameOf e))
    (hx : (withTable s p i e row).UTable q x) : q = p ∧ x = frameOf e ∨ s.UTable q x := by
  obtain ⟨k, hk, h0, hx⟩ := hx
  rw [withTable_upde hu hp hq ht] at h0 hx
  by_cases hqk : q = p ∧ k = i
  · rw [if_pos hqk] at hx
    exact .inl ⟨hqk.1, hx.symm⟩
  · rw [if_neg hqk] at h0 hx
    exact .inr ⟨k, hk, h0, hx⟩

private theorem withTable_userWf (hu : s.UserWf P) (hp : P p) (ht : OwnTable s P (frameOf e))
    (hone : ∀ q k, P q → k < ktableStart → s.upde q k ≠ 0 → frameOf (s.upde q k) = frameOf e → q = p ∧ k = i) :
    (withTable s p i e row).UserWf P := by
  have htable : ∀ x, (withTable s p i e row).KTable x ↔ s.KTable x := by
    intro x
    unfold PmapState.KTable
    simp only [withTable_kpde hu hp ht]
  refine ⟨hu.dir_ne_zero, hu.dir_ne_kdir, fun q hq h => hu.dir_not_table q hq ((htable _).1 h), hu.dir_not_free,
    hu.dir_inj, fun q x hq hx => ?_, fun q x hq hx h => ?_, fun q x hq hx => ?_, fun q x hq hx => ?_,
    fun q r x hq hr hx => ?_, fun q r k l hq hr hk hl h0 h1 hkl => ?_⟩
  · rcases withTable_utable hu hp hq ht hx with ⟨-, rfl⟩ | hx
    · exact ht.ne_kdir
    · exact hu.table_ne_kdir q x hq hx
  · rw [htable] at h
    rcases withTable_utable hu hp hq ht hx with ⟨-, rfl⟩ | hx
    · exact ht.not_table h
    · exact hu.table_not_table q x hq hx h
  · rcases withTable_utable hu hp hq ht hx with ⟨-, rfl⟩ | hx
    · exact ht.not_proc
    · exact hu.table_not_proc q x hq hx
  · rcases withTable_utable hu hp hq ht hx with ⟨-, rfl⟩ | hx
    · exact ht.not_free
    · exact hu.table_not_free q x hq hx
  · rcases withTable_utable hu hp hq ht hx with ⟨-, rfl⟩ | hx
    · exact ht.ne_dir r hr
    · exact hu.table_ne_dir q r x hq hr hx
  · rw [withTable_upde hu hp hq ht] at h0 hkl
    rw [withTable_upde hu hp hr ht] at h1 hkl
    by_cases hqk : q = p ∧ k = i <;> by_cases hrl : r = p ∧ l = i
    · exact ⟨hqk.1.trans hrl.1.symm, hqk.2.trans hrl.2.symm⟩
    · rw [if_pos hqk, if_neg hrl] at hkl
      rw [if_neg hrl] at h1
      exact absurd (hone r l hr hl h1 hkl.symm) hrl
    · rw [if_neg hqk, if_pos hrl] at hkl
      rw [if_neg hqk] at h0
      exact absurd (hone q k hq hk h0 hkl) hqk
    · rw [if_neg hqk, if_neg hrl] at hkl
      rw [if_neg hqk] at h0
      rw [if_neg hrl] at h1
      exact hu.table_inj q r k l hq hr hk hl h0 h1 hkl

theorem withTable_walk_self (hu : s.UserWf P) (hp : P p) (ht : OwnTable s P (frameOf e)) (he : e ≠ 0)
    (hv : addrToPdenum va = i) : (withTable s p i e row).walk (.user p) va = some (row (addrToPtenum va)) := by
  have hd : (withTable s p i e row).pdbr (.user p) ≠ 0 := hu.dir_ne_zero p hp
  rw [PmapState.walk_eq hd ((withTable_upde hu hp hp ht _).trans (if_pos ⟨rfl, hv⟩)) he, withTable_mem,
    if_pos rfl]

private theorem withTable_table (hu : s.UserWf P) (hp : P p) (hq : P q) (ht : OwnTable s P (frameOf e)) (he : e ≠ 0)
    (hone : ∀ q k, P q → k < ktableStart → s.upde q k ≠ 0 → frameOf (s.upde q k) = frameOf e → q = p ∧ k = i)
    (hj : j < ktableStart) : (withTable s p i e row).table q j = if q = p ∧ j = i then some row else s.table q j := by
  unfold PmapState.table
  rw [withTable_upde hu hp hq ht]
  by_cases hqj : q = p ∧ j = i
  · rw [if_pos hqj, if_neg he, if_pos hqj]
    congr 1
    funext k
    rw [withTable_mem, if_pos rfl]
  · rw [if_neg hqj, if_neg hqj]
    by_cases h0 : s.upde q j = 0
    · rw [if_pos h0, if_pos h0]
    · rw [if_neg h0, if_neg h0]
      congr 1
      funext k
      rw [withTable_mem, if_neg, if_neg]
      · rintro ⟨hx, -⟩
        exact hu.table_ne_dir q p _ hq hp ⟨j, hj, h0, rfl⟩ hx
      · intro hx
        exact hqj (hone q j hq hj h0 hx)

variable {k : BitVec 10}

/-! What the maps have after a table was written that was there, or was supplied. -/

omit [DecidableEq π] in
theorem TableFor.write_kernelWf (h : TableFor s s₁ p i e taken) (hw : s.KernelWf) (hu : s.UserWf P) (hp : P p)
    (hi : i < ktableStart) : (withTable s₁ p i e row).KernelWf :=
  withTable_kernelWf (h.kernelWf hw) (h.grown.userWf hu) hp (h.own hu hp hi)

theorem TableFor.write_userWf (h : TableFor s s₁ p i e taken) (hu : s.UserWf P) (hp : P p) (hi : i < ktableStart) :
    (withTable s₁ p i e row).UserWf P :=
  withTable_userWf (h.grown.userWf hu) hp (h.own hu hp hi) fun _ _ hq hk => h.table_eq hu hp hi hq hk

omit [DecidableEq π] in
theorem TableFor.write_kpde (h : TableFor s s₁ p i e taken) (hu : s.UserWf P) (hp : P p) (hi : i < ktableStart)
    (k : BitVec 10) : (withTable s₁ p i e row).kpde k = s₁.kpde k :=
  withTable_kpde (h.grown.userWf hu) hp (h.own hu hp hi) k

theorem TableFor.write_upde (h : TableFor s s₁ p i e taken) (hu : s.UserWf P) (hp : P p) (hi : i < ktableStart)
    (hq : P q) (hk : k < ktableStart) :
    (withTable s₁ p i e row).upde q k = if q = p ∧ k = i then e else s.upde q k := by
  rw [withTable_upde (h.grown.userWf hu) hp hq (h.own hu hp hi), h.grown.upde hu hq hk]

theorem TableFor.write_upde_kernel (h : TableFor s s₁ p i e taken) (hu : s.UserWf P) (hp : P p)
    (hi : i < ktableStart) (hq : P q) (hk : ktableStart ≤ k) : (withTable s₁ p i e row).upde q k = s₁.upde q k := by
  rw [withTable_upde (h.grown.userWf hu) hp hq (h.own hu hp hi), if_neg]
  rintro ⟨-, rfl⟩
  bv_omega

theorem TableFor.write_table (h : TableFor s s₁ p i e taken) (hu : s.UserWf P) (hp : P p) (hi : i < ktableStart)
    (hq : P q) (hk : k < ktableStart) :
    (withTable s₁ p i e row).table q k = if q = p ∧ k = i then some row else s.table q k := by
  rw [withTable_table (h.grown.userWf hu) hp hq (h.own hu hp hi) h.ne_zero
    (fun _ _ hq hk => h.table_eq hu hp hi hq hk) hk, h.grown.table_user hu hq hk]

theorem TableFor.write_kernelHalf (h : TableFor s s₁ p i e taken) (hu : s.UserWf P) (hp : P p)
    (hi : i < ktableStart) (hq : P q) (hh : s.KernelHalf q) : (withTable s₁ p i e row).KernelHalf q := by
  intro k hk
  rw [h.write_upde_kernel hu hp hi hq hk, h.write_kpde hu hp hi]
  exact h.grown.kernelHalf hu hq hh k hk

end Enter

/-- The frame is neither free nor used for a directory or a table. -/
structure PmapState.Data (s : PmapState π κ) (P : π → Prop) (x : Frame) : Prop extends OwnTable s P x where
  not_utable : ∀ q, P q → ¬ s.UTable q x

section Data

variable {s s₁ : PmapState π κ} {P : π → Prop} {taken : List Frame} {W : BitVec 10 → BitVec 10 → Prop} {p : π}
  {i : BitVec 10} {e : BitVec 32} {x : Frame}

theorem Grown.data (h : Grown s s₁ taken W) (hu : s.UserWf P) (hx : s.Data P x) : s₁.Data P x ∧ s₁.mem x = s.mem x := by
  have hfree := h.free
  refine ⟨⟨⟨?_, ?_, ?_, ?_, ?_⟩, ?_⟩, h.other x (h.not_taken hx.not_free) hx.ne_kdir hx.not_table hx.not_proc⟩
  · rw [h.kdir]
    exact hx.ne_kdir
  · intro ht
    exact (h.table_or_taken ht).elim hx.not_table (h.not_taken hx.not_free)
  · rw [h.procDirs]
    exact hx.not_proc
  · intro hm
    exact hx.not_free (hfree ▸ mem_append_right _ hm)
  · intro q hq
    rw [PmapState.udir, h.pdbr]
    exact hx.ne_dir q hq
  · intro q hq ht
    exact hx.not_utable q hq ((h.utable_iff hu hq).1 ht)

variable [DecidableEq π]

omit [DecidableEq π] in
theorem TableFor.ne_data (h : TableFor s s₁ p i e taken) (hp : P p) (hi : i < ktableStart) (hx : s.Data P x) :
    x ≠ frameOf e := by
  rcases h with ⟨rfl, -, rfl, h0⟩ | ⟨-, -, h⟩
  · rintro rfl
    exact hx.not_utable p hp ⟨i, hi, h0, rfl⟩
  · rintro rfl
    exact hx.not_free (h.grown.free ▸ mem_append_left _ h.mem_taken)

theorem TableFor.write_data {row : BitVec 10 → BitVec 32} (h : TableFor s s₁ p i e taken) (hu : s.UserWf P)
    (hp : P p) (hi : i < ktableStart) (hx : s.Data P x) :
    (withTable s₁ p i e row).Data P x ∧ (withTable s₁ p i e row).mem x = s.mem x := by
  obtain ⟨hd, hm⟩ := h.grown.data hu hx
  have hne := h.ne_data hp hi hx
  have hk : ∀ k, (withTable s₁ p i e row).kpde k = s₁.kpde k := h.write_kpde hu hp hi
  refine ⟨⟨⟨hd.ne_kdir, ?_, hd.not_proc, hd.not_free, hd.ne_dir⟩, ?_⟩, ?_⟩
  · rintro ⟨k, hk', h0, hx'⟩
    rw [hk] at h0 hx'
    exact hd.not_table ⟨k, hk', h0, hx'⟩
  · intro q hq ht
    rcases withTable_utable (h.grown.userWf hu) hp hq (h.own hu hp hi) ht with ⟨-, hx'⟩ | ht
    · exact hne hx'
    · exact hd.not_utable q hq ht
  · funext k
    rw [withTable_mem, if_neg hne, if_neg fun h => hd.ne_dir p hp h.1, hm]

end Data

section Dir

variable [DecidableEq π] {s s₁ : PmapState π κ} {P : π → Prop} {taken : List Frame} {p q : π} {t : Frame}
  {i : BitVec 10}

/-- The map gets a directory. -/
def PmapState.setDir (s : PmapState π κ) (p : π) (t : Frame) : PmapState π κ :=
  { s with pdbr := update s.pdbr (.user p) t }

@[simp] theorem setDir_udir : (s.setDir p t).udir p = t := update_self ..

theorem setDir_udir_of_ne (h : q ≠ p) : (s.setDir p t).udir q = s.udir q :=
  update_of_ne (by simpa using h) ..

@[simp] theorem setDir_kdir : (s.setDir p t).kdir = s.kdir :=
  update_of_ne (by simp : (.kernelMap : Pmap π) ≠ .user p) t s.pdbr

@[simp] theorem setDir_kpde : (s.setDir p t).kpde i = s.kpde i := by
  change s.mem (s.setDir p t).kdir i = _
  rw [setDir_kdir]

@[simp] theorem setDir_ktable {x : Frame} : (s.setDir p t).KTable x ↔ s.KTable x := by
  unfold PmapState.KTable
  simp only [setDir_kpde]

theorem setDir_upde_of_ne (h : q ≠ p) : (s.setDir p t).upde q i = s.upde q i := by
  change s.mem ((s.setDir p t).udir q) i = _
  rw [setDir_udir_of_ne h]

theorem setDir_upde (hz : ∀ j, s.mem t j = 0) : (s.setDir p t).upde p i = 0 := by
  change s.mem ((s.setDir p t).udir p) i = 0
  rw [setDir_udir, hz]

theorem setDir_table_of_ne (h : q ≠ p) : (s.setDir p t).table q i = s.table q i := by
  unfold PmapState.table
  rw [setDir_upde_of_ne h]
  rfl

theorem mem_setDir_procDirs {x : Frame} (hx : x ∈ (s.setDir p t).procDirs) : x = t ∨ x ∈ s.procDirs := by
  obtain ⟨c, hc, rfl⟩ := mem_map.1 hx
  by_cases hcp : s.pmapOf c = p
  · exact .inl ((congrArg _ (congrArg Pmap.user hcp)).trans (update_self ..))
  · exact .inr (mem_map.2 ⟨c, hc, (setDir_udir_of_ne hcp).symm⟩)

theorem PmapState.KernelWf.setDir (hw : s.KernelWf) (ht : s.Unused t) (hf : t ∉ s.freePageList) :
    (s.setDir p t).KernelWf where
  kdir_ne_zero := by
    rw [setDir_kdir]
    exact hw.kdir_ne_zero
  kdir_not_table h := hw.kdir_not_table (by simpa using h)
  kdir_not_proc h := by
    rw [setDir_kdir] at h
    exact (mem_setDir_procDirs h).elim (fun h => ht.ne_kdir h.symm) hw.kdir_not_proc
  table_inj i j hi hj := by
    simp only [setDir_kpde]
    exact hw.table_inj i j hi hj
  table_not_proc x hx hp := by
    rw [setDir_ktable] at hx
    rcases mem_setDir_procDirs hp with rfl | hp
    · exact ht.not_table hx
    · exact hw.table_not_proc x hx hp
  free_nodup := hw.free_nodup
  free_unused x hx := by
    have hu := hw.free_unused x hx
    refine ⟨hu.ne_zero, hu.reachable, ?_, fun h => hu.not_table (setDir_ktable.1 h), fun hp => ?_⟩
    · rw [setDir_kdir]
      exact hu.ne_kdir
    rcases mem_setDir_procDirs hp with rfl | hp
    · exact hf hx
    · exact hu.not_proc hp

/-- The map is one of the maps with a directory of their own, and has no tables yet. -/
theorem PmapState.UserWf.setDir (hu : s.UserWf P) (hp : ¬ P p) (h0 : t ≠ 0) (ht : OwnTable s P t)
    (hnt : ∀ q, P q → ¬ s.UTable q t) (hz : ∀ j, s.mem t j = 0) : (s.setDir p t).UserWf fun q => q = p ∨ P q := by
  have hne : ∀ q, P q → q ≠ p := by
    rintro q hq rfl
    exact hp hq
  have hold : ∀ q, P q → (s.setDir p t).udir q = s.udir q := fun q hq => setDir_udir_of_ne (hne q hq)
  have hold' : ∀ q i, P q → (s.setDir p t).upde q i = s.upde q i := fun q i hq => setDir_upde_of_ne (hne q hq)
  -- a table is a table of one of the other maps
  have htable : ∀ q x, q = p ∨ P q → (s.setDir p t).UTable q x → P q ∧ s.UTable q x := by
    rintro q x hq ⟨i, hi, hi0, hx⟩
    rcases hq with rfl | hq
    · exact absurd (setDir_upde hz) hi0
    · rw [hold' q i hq] at hi0 hx
      exact ⟨hq, i, hi, hi0, hx⟩
  refine ⟨?_, ?_, ?_, ?_, ?_, ?_, ?_, ?_, ?_, ?_, ?_⟩
  · rintro q (rfl | hq)
    · rwa [setDir_udir]
    · rw [hold q hq]
      exact hu.dir_ne_zero q hq
  · rintro q (rfl | hq) <;> rw [setDir_kdir]
    · rw [setDir_udir]
      exact ht.ne_kdir
    · rw [hold q hq]
      exact hu.dir_ne_kdir q hq
  · rintro q (rfl | hq) <;> rw [setDir_ktable]
    · rw [setDir_udir]
      exact ht.not_table
    · rw [hold q hq]
      exact hu.dir_not_table q hq
  · rintro q (rfl | hq)
    · rw [setDir_udir]
      exact ht.not_free
    · rw [hold q hq]
      exact hu.dir_not_free q hq
  · rintro q r (rfl | hq) (rfl | hr) hqr
    · rfl
    · rw [setDir_udir, hold r hr] at hqr
      exact absurd hqr (ht.ne_dir r hr)
    · rw [setDir_udir, hold q hq] at hqr
      exact absurd hqr.symm (ht.ne_dir q hq)
    · rw [hold q hq, hold r hr] at hqr
      exact hu.dir_inj q r hq hr hqr
  · intro q x hq hx
    obtain ⟨hq, hx⟩ := htable q x hq hx
    rw [setDir_kdir]
    exact hu.table_ne_kdir q x hq hx
  · intro q x hq hx
    obtain ⟨hq, hx⟩ := htable q x hq hx
    rw [setDir_ktable]
    exact hu.table_not_table q x hq hx
  · intro q x hq hx hproc
    obtain ⟨hq', hx'⟩ := htable q x hq hx
    rcases mem_setDir_procDirs hproc with rfl | hproc
    · exact hnt q hq' hx'
    · exact hu.table_not_proc q x hq' hx' hproc
  · intro q x hq hx
    obtain ⟨hq, hx⟩ := htable q x hq hx
    exact hu.table_not_free q x hq hx
  · intro q r x hq hr hx
    obtain ⟨hq', hx'⟩ := htable q x hq hx
    rcases hr with rfl | hr
    · rw [setDir_udir]
      rintro rfl
      exact hnt q hq' hx'
    · rw [hold r hr]
      exact hu.table_ne_dir q r x hq' hr hx'
  · intro q r i j hq hr hi hj hi0 hj0 hij
    obtain ⟨hq, -⟩ := htable q _ hq ⟨i, hi, hi0, rfl⟩
    obtain ⟨hr, -⟩ := htable r _ hr ⟨j, hj, hj0, rfl⟩
    rw [hold' q i hq] at hi0 hij
    rw [hold' r j hr] at hj0 hij
    exact hu.table_inj q r i j hq hr hi hj hi0 hj0 hij

omit [DecidableEq π] in
theorem PmapState.UserWf.anti {Q : π → Prop} (hu : s.UserWf P) (h : ∀ q, Q q → P q) : s.UserWf Q where
  dir_ne_zero q hq := hu.dir_ne_zero q (h q hq)
  dir_ne_kdir q hq := hu.dir_ne_kdir q (h q hq)
  dir_not_table q hq := hu.dir_not_table q (h q hq)
  dir_not_free q hq := hu.dir_not_free q (h q hq)
  dir_inj q r hq hr := hu.dir_inj q r (h q hq) (h r hr)
  table_ne_kdir q x hq := hu.table_ne_kdir q x (h q hq)
  table_not_table q x hq := hu.table_not_table q x (h q hq)
  table_not_proc q x hq := hu.table_not_proc q x (h q hq)
  table_not_free q x hq := hu.table_not_free q x (h q hq)
  table_ne_dir q r x hq hr := hu.table_ne_dir q r x (h q hq) (h r hr)
  table_inj q r i j hq hr := hu.table_inj q r i j (h q hq) (h r hr)

omit [DecidableEq π] in
theorem PmapState.UserWf.of_false (s : PmapState π κ) : s.UserWf fun _ => False := by
  constructor <;> simp

theorem Allocated.setDir (h : Allocated s s₁ t taken) (hu : s.UserWf P) (hp : ¬ P p) :
    (s₁.setDir p t).KernelWf ∧ (s₁.setDir p t).UserWf (fun q => q = p ∨ P q) ∧ ∀ i, (s₁.setDir p t).upde p i = 0 :=
  ⟨h.wf.setDir h.unused h.not_free,
    (h.grown.userWf hu).setDir hp h.unused.ne_zero (h.own hu) (fun _ => h.not_utable hu) h.zero,
    fun _ => setDir_upde h.zero⟩

end Dir

end Manrix
