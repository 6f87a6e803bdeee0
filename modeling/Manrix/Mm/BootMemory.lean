import Manrix.Lib.Runs
import Manrix.Mm.VmMap
import Manrix.Mm.VmParam

/-!
# Frames at boot time (`arch/i386/memory.c`)

`get_next_frame` gives out the frames behind the kernel one after the other.  It skips those with a part of a region in
use: the structures of the modules, the command line, and the string and the image of every module.  After a skip it
starts anew with the first region.  A skip goes to the end of a region that reaches beyond the start of the frame, so
`next_frame` only grows, and the frame that is returned has been compared with every region since the last skip:
`boot_frames_avoid_regions`.

The regions are not moved while the kernel boots.  `strlen` stands for the length of the string at an address.
-/

namespace Manrix

open List Runs

/-- `struct module`. -/
structure Module where
  modStart : BitVec 32
  modEnd : BitVec 32
  string : BitVec 32

/-- The fields of `struct multiboot_info` that are used, with the structures at `mods_addr`. -/
structure MultibootInfo where
  memLower : BitVec 32
  memUpper : BitVec 32
  cmdline : BitVec 32
  modsAddr : BitVec 32
  mods : List Module
  strlen : BitVec 32 → BitVec 32

/-- The variables of `memory.c`. -/
structure BootMem where
  minfo : MultibootInfo
  endingMem : BitVec 32
  availableMem : BitVec 32
  nextFrame : BitVec 32
  modStart : BitVec 32
  modEnd : BitVec 32
  cmdstart : BitVec 32
  cmdend : BitVec 32

def initMemory (minfo : MultibootInfo) (nextFrame : BitVec 32) : BootMem where
  minfo := minfo
  endingMem := 0x100000 + minfo.memUpper * 1024
  availableMem := minfo.memUpper * 1024 + minfo.memLower * 1024
  nextFrame := nextFrame
  modStart := minfo.modsAddr
  modEnd := minfo.modsAddr + BitVec.ofNat 32 minfo.mods.length * 16
  cmdstart := minfo.cmdline
  cmdend := minfo.strlen minfo.cmdline + minfo.cmdline

/-- The frame at `next_frame` reaches into the region. -/
def BootMem.reaches (b : BootMem) (start stop : BitVec 32) : Bool := b.nextFrame + 0x1000 > start && b.nextFrame < stop

/-- The loop over the modules: the end of the first region that the frame reaches into. -/
def BootMem.skipModules (b : BootMem) : List Module → Option (BitVec 32)
  | [] => none
  | m :: ms =>
    let modcmdend := b.minfo.strlen m.string + m.string
    if b.reaches m.string modcmdend then some modcmdend
    else if b.reaches m.modStart m.modEnd then some m.modEnd
    else b.skipModules ms

def BootMem.skip (b : BootMem) : Option (BitVec 32) :=
  if b.reaches b.modStart b.modEnd then some b.modEnd
  else if b.reaches b.cmdstart b.cmdend then some b.cmdend
  else b.skipModules b.minfo.mods

/-- The body of `get_next_frame`, with its result or `none` where it goes back to the label `retry`. -/
def BootMem.attempt (b : BootMem) : BootMem × Option (BitVec 32) :=
  let b := { b with nextFrame := alignPage b.nextFrame }
  if b.nextFrame ≥ b.endingMem then (b, some 0)
  else
    match b.skip with
    | some next => ({ b with nextFrame := next }, none)
    | none =>
      ({ b with nextFrame := b.nextFrame + 0x1000, availableMem := b.availableMem - 0x1000 }, some b.nextFrame)

def getNextFrame : Nat → BootMem → Option (BootMem × BitVec 32)
  | 0, _ => none
  | fuel + 1, b =>
    match b.attempt with
    | (b, some addr) => some (b, addr)
    | (b, none) => getNextFrame fuel b

/-- A call and its result. -/
def NextFrame (b : BootMem) (r : BitVec 32) (b' : BootMem) : Prop := ∃ fuel, getNextFrame fuel b = some (b', r)

/-- The start and the end of the string and of the image. -/
def Module.regions (strlen : BitVec 32 → BitVec 32) (m : Module) : List (Nat × Nat) :=
  [(m.string.toNat, m.string.toNat + (strlen m.string).toNat), (m.modStart.toNat, m.modEnd.toNat)]

def BootMem.regions (b : BootMem) : List (Nat × Nat) :=
  (b.modStart.toNat, b.modEnd.toNat) :: (b.cmdstart.toNat, b.cmdend.toNat) ::
    b.minfo.mods.flatMap (Module.regions b.minfo.strlen)

/-- The memory and the regions end before the last page of the address space. -/
structure BootMem.Bounded (b : BootMem) : Prop where
  ending : b.endingMem.toNat ≤ 2 ^ 32 - 0x1000
  region : ∀ g ∈ b.regions, g.2 ≤ 2 ^ 32 - 0x1000

/-- The frame at `r` and the region have no address in common. -/
def FrameDisjoint (r : Nat) (g : Nat × Nat) : Prop := ∀ a, r ≤ a → a < r + 0x1000 → ¬ (g.1 ≤ a ∧ a < g.2)

section Regions

variable {b b' : BootMem} {start stop next r : BitVec 32} {fuel : Nat}

theorem BootMem.reaches_iff (hf : b.nextFrame.toNat < 2 ^ 32 - 0x1000) : b.reaches start stop = true ↔
    start.toNat < b.nextFrame.toNat + 0x1000 ∧ b.nextFrame.toNat < stop.toNat := by
  have h : (b.nextFrame + 0x1000).toNat = b.nextFrame.toNat + 0x1000 := toNat_add_page (by omega)
  unfold BootMem.reaches
  rw [Bool.and_eq_true, decide_eq_true_iff, decide_eq_true_iff, gt_iff_lt, BitVec.lt_def, BitVec.lt_def, h]

theorem BootMem.disjoint_of_reaches (hf : b.nextFrame.toNat < 2 ^ 32 - 0x1000) (h : ¬ b.reaches start stop = true) :
    FrameDisjoint b.nextFrame.toNat (start.toNat, stop.toNat) := by
  rw [BootMem.reaches_iff hf] at h
  intro a h1 h2 h3
  dsimp only at h3
  omega

private theorem toNat_stringEnd {strlen : BitVec 32 → BitVec 32} {s : BitVec 32}
    (h : s.toNat + (strlen s).toNat ≤ 2 ^ 32 - 0x1000) : (strlen s + s).toNat = s.toNat + (strlen s).toNat := by
  rw [BitVec.toNat_add]
  omega

/-- A skip leads to the end of a region, behind the start of the frame. -/
theorem BootMem.skipModules_some {ms : List Module} (hf : b.nextFrame.toNat < 2 ^ 32 - 0x1000)
    (hb : ∀ g ∈ ms.flatMap (Module.regions b.minfo.strlen), g.2 ≤ 2 ^ 32 - 0x1000)
    (h : b.skipModules ms = some next) : b.nextFrame.toNat < next.toNat ∧ next.toNat ≤ 2 ^ 32 - 0x1000 := by
  induction ms with
  | nil => cases h
  | cons m ms ih =>
    simp only [flatMap_cons, mem_append] at hb
    have hs := hb (m.string.toNat, m.string.toNat + (b.minfo.strlen m.string).toNat) (.inl (by simp [Module.regions]))
    have hi := hb (m.modStart.toNat, m.modEnd.toNat) (.inl (by simp [Module.regions]))
    rw [BootMem.skipModules] at h
    split at h
    · rename_i hr
      cases h
      refine ⟨((BootMem.reaches_iff hf).1 hr).2, ?_⟩
      rw [toNat_stringEnd hs]
      exact hs
    · split at h
      · rename_i hr
        cases h
        exact ⟨((BootMem.reaches_iff hf).1 hr).2, hi⟩
      · exact ih (fun g hg => hb g (.inr hg)) h

theorem BootMem.skip_some (hb : b.Bounded) (hf : b.nextFrame.toNat < 2 ^ 32 - 0x1000) (h : b.skip = some next) :
    b.nextFrame.toNat < next.toNat ∧ next.toNat ≤ 2 ^ 32 - 0x1000 := by
  unfold BootMem.skip at h
  split at h
  · rename_i hr
    cases h
    exact ⟨((BootMem.reaches_iff hf).1 hr).2, hb.region (_, b.modEnd.toNat) (mem_cons_self ..)⟩
  · split at h
    · rename_i hr
      cases h
      exact ⟨((BootMem.reaches_iff hf).1 hr).2,
        hb.region (_, b.cmdend.toNat) (mem_cons_of_mem _ (mem_cons_self ..))⟩
    · exact BootMem.skipModules_some hf
        (fun g hg => hb.region g (mem_cons_of_mem _ (mem_cons_of_mem _ hg))) h

/-- Without a skip the frame has been compared with the regions of all modules. -/
theorem BootMem.skipModules_none {ms : List Module} (hf : b.nextFrame.toNat < 2 ^ 32 - 0x1000)
    (hb : ∀ g ∈ ms.flatMap (Module.regions b.minfo.strlen), g.2 ≤ 2 ^ 32 - 0x1000) (h : b.skipModules ms = none) :
    ∀ g ∈ ms.flatMap (Module.regions b.minfo.strlen), FrameDisjoint b.nextFrame.toNat g := by
  induction ms with
  | nil => simp
  | cons m ms ih =>
    simp only [flatMap_cons, mem_append] at hb ⊢
    have hs := hb (m.string.toNat, m.string.toNat + (b.minfo.strlen m.string).toNat) (.inl (by simp [Module.regions]))
    rw [BootMem.skipModules] at h
    split at h
    · cases h
    · rename_i hstring
      split at h
      · cases h
      · rename_i himage
        rintro g (hg | hg)
        · rcases mem_cons.1 hg with rfl | hg
          · have := BootMem.disjoint_of_reaches hf hstring
            rwa [toNat_stringEnd hs] at this
          · rw [mem_singleton.1 hg]
            exact BootMem.disjoint_of_reaches hf himage
        · exact ih (fun g hg => hb g (.inr hg)) h g hg

theorem BootMem.skip_none (hb : b.Bounded) (hf : b.nextFrame.toNat < 2 ^ 32 - 0x1000) (h : b.skip = none) :
    ∀ g ∈ b.regions, FrameDisjoint b.nextFrame.toNat g := by
  unfold BootMem.skip at h
  split at h
  · cases h
  · rename_i hmod
    split at h
    · cases h
    · rename_i hcmd
      intro g hg
      rcases mem_cons.1 hg with rfl | hg
      · exact BootMem.disjoint_of_reaches hf hmod
      · rcases mem_cons.1 hg with rfl | hg
        · exact BootMem.disjoint_of_reaches hf hcmd
        · exact BootMem.skipModules_none hf
            (fun g hg => hb.region g (mem_cons_of_mem _ (mem_cons_of_mem _ hg))) h g hg

/-- Only `next_frame` and `available_mem` change. -/
structure SameLayout (b b' : BootMem) : Prop where
  regions : b'.regions = b.regions
  ending : b'.endingMem = b.endingMem

theorem SameLayout.bounded (h : SameLayout b b') (hb : b.Bounded) : b'.Bounded := by
  refine ⟨?_, ?_⟩
  · rw [h.ending]
    exact hb.ending
  · rw [h.regions]
    exact hb.region

theorem SameLayout.trans {b'' : BootMem} (h : SameLayout b b') (h' : SameLayout b' b'') : SameLayout b b'' :=
  ⟨h'.regions.trans h.regions, h'.ending.trans h.ending⟩

/-- The frame is behind the memory, or it is skipped for one farther on, or it is in no region. -/
theorem BootMem.attempt_cases (hb : b.Bounded) {r : Option (BitVec 32)} (h : b.attempt = (b', r)) : SameLayout b b' ∧
    (b.endingMem.toNat ≤ (alignPage b.nextFrame).toNat ∧ r = some 0 ∧ b'.nextFrame = alignPage b.nextFrame ∨
      (alignPage b.nextFrame).toNat < b'.nextFrame.toNat ∧ b'.nextFrame.toNat ≤ 2 ^ 32 - 0x1000 ∧ r = none ∨
      (alignPage b.nextFrame).toNat < b.endingMem.toNat ∧ r = some (alignPage b.nextFrame) ∧
        b'.nextFrame.toNat = (alignPage b.nextFrame).toNat + 0x1000 ∧
        ∀ g ∈ b.regions, FrameDisjoint (alignPage b.nextFrame).toNat g) := by
  unfold BootMem.attempt at h
  dsimp only at h
  split at h
  · rename_i hend
    cases h
    exact ⟨⟨rfl, rfl⟩, .inl ⟨BitVec.le_def.1 hend, rfl, rfl⟩⟩
  · rename_i hend
    have hlt : (alignPage b.nextFrame).toNat < b.endingMem.toNat := BitVec.lt_def.1 (BitVec.not_le.1 hend)
    have hf : (alignPage b.nextFrame).toNat < 2 ^ 32 - 0x1000 := lt_of_lt_of_le hlt hb.ending
    have hb' : ({ b with nextFrame := alignPage b.nextFrame } : BootMem).Bounded := ⟨hb.ending, hb.region⟩
    split at h
    · rename_i next hskip
      cases h
      obtain ⟨hgt, hle⟩ := BootMem.skip_some hb' hf hskip
      exact ⟨⟨rfl, rfl⟩, .inr (.inl ⟨hgt, hle, rfl⟩)⟩
    · rename_i hskip
      cases h
      have hadd : (alignPage b.nextFrame + 0x1000).toNat = (alignPage b.nextFrame).toNat + 0x1000 :=
        toNat_add_page (by omega)
      exact ⟨⟨rfl, rfl⟩, .inr (.inr ⟨hlt, rfl, hadd, BootMem.skip_none hb' hf hskip⟩)⟩

private theorem getNextFrame_spec (hb : b.Bounded) (h : getNextFrame fuel b = some (b', r)) :
    SameLayout b b' ∧ ∃ f, f % 0x1000 = 0 ∧ (alignPage b.nextFrame).toNat ≤ f ∧
      (b.endingMem.toNat ≤ f ∧ r = 0 ∧ b'.nextFrame.toNat = f ∨
        f < b.endingMem.toNat ∧ r.toNat = f ∧ b'.nextFrame.toNat = f + 0x1000 ∧
          ∀ g ∈ b.regions, FrameDisjoint f g) := by
  induction fuel generalizing b with
  | zero => cases h
  | succ fuel ih =>
    have hmod := toNat_alignPage_mod b.nextFrame
    rw [getNextFrame] at h
    split at h
    · rename_i b₁ addr ha
      cases h
      obtain ⟨hsame, ⟨hend, he, hnext⟩ | ⟨-, -, he⟩ | ⟨hlt, he, hnext, hdisj⟩⟩ := BootMem.attempt_cases hb ha
      · exact ⟨hsame, _, hmod, le_refl _, .inl ⟨hend, Option.some.inj he, by rw [hnext]⟩⟩
      · cases he
      · cases he
        exact ⟨hsame, _, hmod, le_refl _, .inr ⟨hlt, rfl, hnext, hdisj⟩⟩
    · rename_i b₁ ha
      obtain ⟨hsame, ⟨-, he, -⟩ | ⟨hgt, hle, -⟩ | ⟨-, he, -⟩⟩ := BootMem.attempt_cases hb ha
      · cases he
      · -- the call starts anew, farther on
        obtain ⟨hsame', f, hfmod, hfle, hcase⟩ := ih (hsame.bounded hb) h
        rw [hsame.ending, hsame.regions] at hcase
        have := le_toNat_alignPage hle
        exact ⟨hsame.trans hsame', f, hfmod, by omega, hcase⟩
      · cases he

private theorem getNextFrame_isSome (hb : b.Bounded) (hf : 2 ^ 32 - (alignPage b.nextFrame).toNat < fuel) :
    (getNextFrame fuel b).isSome := by
  induction fuel generalizing b with
  | zero => omega
  | succ fuel ih =>
    rw [getNextFrame]
    split
    · rfl
    · rename_i b₁ ha
      obtain ⟨hsame, ⟨-, he, -⟩ | ⟨hgt, hle, -⟩ | ⟨-, he, -⟩⟩ := BootMem.attempt_cases hb ha
      · cases he
      · have := le_toNat_alignPage hle
        exact ih (hsame.bounded hb) (by omega)
      · cases he

/-- The results so far: they lie before `next_frame`, in increasing order, and in no region. -/
structure FramesSoFar (b₀ b : BootMem) (rs : List (BitVec 32)) : Prop where
  same : SameLayout b₀ b
  next : rs ≠ [] → b.nextFrame.toNat % 0x1000 = 0
  below : ∀ r ∈ rs, r ≠ 0 → r.toNat + 0x1000 ≤ b.nextFrame.toNat
  increasing : (rs.filter (· ≠ 0)).Pairwise (· < ·)
  frame : ∀ r ∈ rs, r ≠ 0 → r.toNat % 0x1000 = 0 ∧ r < b₀.endingMem ∧ ∀ g ∈ b₀.regions, FrameDisjoint r.toNat g

theorem FramesSoFar.step {b₀ : BootMem} {rs : List (BitVec 32)} (h₀ : b₀.Bounded) (hs : FramesSoFar b₀ b rs)
    (h : NextFrame b r b') : FramesSoFar b₀ b' (rs ++ [r]) := by
  obtain ⟨fuel, h⟩ := h
  obtain ⟨hsame, f, hfmod, hfle, hcase⟩ := getNextFrame_spec (hs.same.bounded h₀) h
  have hnext : b'.nextFrame.toNat % 0x1000 = 0 ∧ f ≤ b'.nextFrame.toNat := by
    rcases hcase with ⟨-, -, h⟩ | ⟨-, -, h, -⟩ <;> omega
  -- `next_frame` does not become smaller, once there is a result
  have hgrow : ∀ q ∈ rs, q ≠ 0 → q.toNat + 0x1000 ≤ f := by
    intro q hq h0
    have hal := hs.next (ne_nil_of_mem hq)
    have hlt := b.nextFrame.isLt
    have := hs.below q hq h0
    have := le_toNat_alignPage (x := b.nextFrame) (by omega)
    omega
  have hr : r ≠ 0 → f < b.endingMem.toNat ∧ r.toNat = f ∧ b'.nextFrame.toNat = f + 0x1000 ∧
      ∀ g ∈ b.regions, FrameDisjoint f g := by
    intro h0
    rcases hcase with ⟨-, h, -⟩ | h
    · exact absurd h h0
    · exact h
  refine ⟨hs.same.trans hsame, fun _ => hnext.1, ?_, ?_, ?_⟩
  · intro q hq h0
    rcases mem_append.1 hq with hq | hq
    · have := hgrow q hq h0
      omega
    · rw [mem_singleton.1 hq] at h0 ⊢
      obtain ⟨-, h1, h2, -⟩ := hr h0
      omega
  · rw [filter_append, pairwise_append]
    refine ⟨hs.increasing, ?_, ?_⟩
    · exact (pairwise_singleton _ r).filter _
    · intro q hq p hp
      obtain ⟨hq, hq0⟩ := mem_filter.1 hq
      obtain ⟨hp, hp0⟩ := mem_filter.1 hp
      rw [mem_singleton.1 hp] at hp0 ⊢
      obtain ⟨-, h1, -, -⟩ := hr (by simpa using hp0)
      have := hgrow q hq (by simpa using hq0)
      rw [BitVec.lt_def]
      omega
  · intro q hq h0
    rcases mem_append.1 hq with hq | hq
    · exact hs.frame q hq h0
    · rw [mem_singleton.1 hq] at h0 ⊢
      obtain ⟨h1, h2, -, h3⟩ := hr h0
      rw [hs.same.ending] at h1
      rw [hs.same.regions] at h3
      refine ⟨by omega, ?_, ?_⟩
      · rw [BitVec.lt_def]
        omega
      · rw [h2]
        exact h3

/-- Every call returns, and the frames that a sequence of calls returns are aligned, in increasing order, in the memory
and in no region. -/
theorem boot_frames_avoid_regions {b₀ : BootMem} {tr : List (BootMem × BitVec 32 × BootMem)} (h₀ : b₀.Bounded)
    (hr : Run NextFrame b₀ tr b) : (∃ m, ∀ fuel, m < fuel → (getNextFrame fuel b).isSome) ∧
    ((tr.map (·.2.1)).filter (· ≠ 0)).Pairwise (· < ·) ∧ ∀ r ∈ tr.map (·.2.1), r ≠ 0 →
      r.toNat % 0x1000 = 0 ∧ r < b₀.endingMem ∧ ∀ g ∈ b₀.regions, FrameDisjoint r.toNat g := by
  have hs : FramesSoFar b₀ b (tr.map (·.2.1)) := by
    induction hr with
    | nil => exact ⟨⟨rfl, rfl⟩, by simp, by simp, by simp, by simp⟩
    | snoc _ hst ih =>
      rw [map_append]
      exact ih.step h₀ hst
  exact ⟨⟨_, fun fuel hf => getNextFrame_isSome (hs.same.bounded h₀) hf⟩, hs.increasing, hs.frame⟩

/-- A machine with 2 MB and one module. -/
def bootLayout : BootMem :=
  initMemory
    { memLower := 640, memUpper := 1024, cmdline := 0x106010, modsAddr := 0x108000
      mods := [⟨0x10a000, 0x10c345, 0x109000⟩], strlen := fun _ => 20 }
    0x105123

/-- The frames behind the kernel: one is skipped for the command line, then five for the module. -/
theorem boot_frames_avoid_regions_module :
    ∃ tr b, bootLayout.Bounded ∧ Run NextFrame bootLayout tr b ∧ tr.map (·.2.1) = [0x107000, 0x10d000] ∧
      ∀ r ∈ tr.map (·.2.1), r ≠ 0 →
        r.toNat % 0x1000 = 0 ∧ r < bootLayout.endingMem ∧ ∀ g ∈ bootLayout.regions, FrameDisjoint r.toNat g := by
  have h₀ : bootLayout.Bounded := ⟨by decide, by decide⟩
  have s1 : NextFrame bootLayout 0x107000
      { bootLayout with nextFrame := 0x108000, availableMem := bootLayout.availableMem - 0x1000 } := ⟨2, rfl⟩
  have s2 : NextFrame
      { bootLayout with nextFrame := 0x108000, availableMem := bootLayout.availableMem - 0x1000 } 0x10d000
      { bootLayout with nextFrame := 0x10e000, availableMem := bootLayout.availableMem - 0x1000 - 0x1000 } := ⟨4, rfl⟩
  have hr := (Run.nil.snoc s1).snoc s2
  exact ⟨_, _, h₀, hr, rfl, (boot_frames_avoid_regions h₀ hr).2.2⟩

end Regions

end Manrix
