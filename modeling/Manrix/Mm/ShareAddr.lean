import Manrix.Mm.PageFault
import Manrix.Mm.PageFinds

/-!
# Sharing pages between maps (`vm_share_addr` of `mm/vm_map.c`)

`vm_share_addr` allocates room in the map of the receiver and maps the pages of a buffer of the sender there, one round
of the loop for each page.  The number of rounds is that of the pages that a buffer of this size needs when it starts at
the beginning of a page: a buffer that starts later may lie on one page more, and this one is left out.
-/

namespace Manrix

open Chain List

/-! ### The function -/

variable {μ ε ω π κ : Type*}

/-- The address of an object, which may be null. -/
def Machine.addrOf (s : Machine μ ε ω π κ) (object : Option ω) : BitVec 32 := object.elim 0 s.objectAddr

section Functions

variable [DecidableEq μ] [DecidableEq ε] [DecidableEq π]

/-- The loop of `vm_share_addr`, with the number of rounds. -/
def shareLoop (rcv snd : μ) (fuel : Nat) (flag : BitVec 32) :
    Nat → BitVec 32 → BitVec 32 → Machine μ ε ω π κ → Option (Machine μ ε ω π κ × Int)
  | 0, _, _, s => some (s, 0)
  | times + 1, va, nextva, s =>
    match vmMapLookupEntry (s.vm snd) fuel va with
    | none => none
    | some (vm, none) => some (s.setVm snd vm, -1)
    | some (vm, some entry) =>
      let s := s.setVm snd vm
      let va := addrToPte va
      match vmPageLookup s.pages fuel (s.addrOf (s.entry entry).object) va with
      | some (.result none) => some (s, -1)
      | some (.result (some page)) =>
        match pmapEnter (.user (s.pmap rcv)) page.base nextva flag s.pm with
        | none => none
        | some pm => shareLoop rcv snd fuel flag times (va + 0x1000) (nextva + 0x1000) (s.setPm pm)
      | _ => none

/-- `new` is the entry that `vm_allocate` gets; the result has the returned value and `*ptr`. -/
def vmShareAddr (s : Machine μ ε ω π κ) (fuel : Nat) (rcv snd : μ) (new : ε) (ptr size flag : BitVec 32) :
    Option (Machine μ ε ω π κ × Int × BitVec 32) :=
  let size := alignPage size -- `align_page` assigns to its argument
  let times := size.toNat / 0x1000
  let alignedva := ptr - addrToPte ptr
  match vmAllocate (s.vm rcv) fuel new size with
  | none => none
  | some (vm, _, nextva) =>
    -- the loop counts down before it tests, so that it goes round through all integers from 0
    let times := if times = 0 then 2 ^ 32 else times
    (shareLoop rcv snd fuel flag times ptr nextva (s.setVm rcv vm)).map fun r =>
      (r.1, r.2, if r.2 = 0 then nextva + alignedva else nextva)

end Functions

/-! ### One round -/

/-- What the lookups of the loop find, from the address `va` on. -/
inductive LooksUp [DecidableEq ε] (finds : Option ω → BitVec 32 → Frame → Prop) (fuel : Nat) :
    Vm ε ω → BitVec 32 → List Frame → Prop
  | nil {vm : Vm ε ω} {va : BitVec 32} : LooksUp finds fuel vm va []
  | cons {vm vm' : Vm ε ω} {entry : ε} {va : BitVec 32} {page : Frame} {pages : List Frame}
      (hentry : vmMapLookupEntry vm fuel va = some (vm', some entry))
      (hpage : finds (vm'.entry entry).object (addrToPte va) page)
      (hrest : LooksUp finds fuel vm' (addrToPte va + 0x1000) pages) : LooksUp finds fuel vm va (page :: pages)

/-- `vm_page_lookup` finds the page of the object. -/
def Machine.FindsPage (s : Machine μ ε ω π κ) (object : Option ω) (offset : BitVec 32) (page : Frame) : Prop :=
  s.pages.Finds (s.addrOf object) offset page

/-- The page maps of `P` and the page hash are in order; the pages of objects are frames in use for pages, and the
tables of the receiver are accessible to it. -/
structure Shareable (s : Machine μ ε ω π κ) (P : π → Prop) (p : π) : Prop where
  space : s.pm.SpaceWf P
  mem : P p
  tables : ∀ i, i < ktableStart → s.pm.upde p i ≠ 0 → s.pm.upde p i &&& accessBits false = accessBits false
  hashed : s.pm.Hashed
  objects : ∀ object, s.addrOf object ≠ s.pmapObject
  pages : ∀ object offset page, s.FindsPage object offset page → s.pm.Data P page

section Round

variable [DecidableEq μ] [DecidableEq ε] [DecidableEq π] {s s' : Machine μ ε ω π κ} {pm : PmapState π κ}
  {P : π → Prop} {p : π} {rcv snd : μ} {fuel times : Nat} {va nextva flag : BitVec 32} {page : Frame}

private theorem shareLoop_succ (h : shareLoop rcv snd fuel flag (times + 1) va nextva s = some (s', 0)) :
    ∃ vm entry page pm, vmMapLookupEntry (s.vm snd) fuel va = some (vm, some entry) ∧
      s.FindsPage (vm.entry entry).object (addrToPte va) page ∧
      pmapEnter (.user (s.pmap rcv)) page.base nextva flag s.pm = some pm ∧
      shareLoop rcv snd fuel flag times (addrToPte va + 0x1000) (nextva + 0x1000) ((s.setVm snd vm).setPm pm) =
        some (s', 0) := by
  rw [shareLoop] at h
  split at h
  · cases h
  · cases h
  · rename_i vm entry hentry
    dsimp only at h
    split at h
    · cases h
    · rename_i page hpage
      split at h
      · cases h
      · rename_i pm hpm
        exact ⟨vm, entry, page, pm, hentry, ⟨fuel, hpage⟩, hpm, h⟩
    · cases h

private theorem accessBits_of_user (huser : flag &&& pageUser = pageUser) :
    (pagePresent ||| flag) &&& accessBits false = accessBits false := by
  have hpresent : (pagePresent ||| flag) &&& pagePresent = pagePresent := by
    rw [BitVec.or_comm]
    exact or_and_eq BitVec.and_self
  show (pagePresent ||| flag) &&& (pagePresent ||| pageUser) = pagePresent ||| pageUser
  rw [BitVec.and_or_distrib_left, hpresent, or_and_eq huser]

omit [DecidableEq μ] [DecidableEq ε] in
private theorem pmapEnter_upde {s s' : PmapState π κ} {paddr : BitVec 32} (hs : s.SpaceWf P) (hp : P p)
    (hv : va < kernelBase) (hflag : flag < 0x1000) (h : pmapEnter (.user p) paddr va flag s = some s')
    {i : BitVec 10} (hi : i < ktableStart) (hne : i ≠ addrToPdenum va) : s'.upde p i = s.upde p i := by
  have hva := (addrToPdenum_lt_iff va).2 hv
  obtain ⟨s₁, taken, e, ht, rfl, -⟩ := pmapEnterWith_user pageTableAllocate_ok hs.kernelWf hs.userWf hp hflag h
  rw [ht.write_upde hs.userWf hp hva hp hi, if_neg fun h => hne h.2]

omit [DecidableEq μ] [DecidableEq ε] in
/-- The page is mapped at the address, for reading, and the other pages of the map stay as they are. -/
theorem Shareable.enter (hw : Shareable s P p) (hv : nextva < kernelBase) (hflag : flag < 0x1000)
    (huser : flag &&& pageUser = pageUser) (hpage : s.pm.Data P page)
    (h : pmapEnter (.user p) page.base nextva flag s.pm = some pm) :
    Acts s.pm pm P p (fun _ _ => True) (fun _ => False) ∧
      (∀ i, i < ktableStart → pm.upde p i ≠ 0 → pm.upde p i &&& accessBits false = accessBits false) ∧
      ∀ va, va < kernelBase → pm.translate p false va =
        if frameOf va = frameOf nextva then some page else s.pm.translate p false va := by
  obtain ⟨hacts, hpte, hnew⟩ := pmapEnter_acts (F := fun _ => False) hw.space hw.mem hv hflag
    (by rw [frameOf_base]; exact hpage) h
  have hbits := accessBits_of_user huser
  have htables : ∀ i, i < ktableStart → pm.upde p i ≠ 0 → pm.upde p i &&& accessBits false = accessBits false := by
    intro i hi h0
    by_cases hold : s.pm.upde p i = 0
    · by_cases hne : i = addrToPdenum nextva
      · subst hne
        obtain ⟨t, ht⟩ := hnew hold
        rw [ht]
        exact entry_accessBits _ hbits
      · exact absurd ((pmapEnter_upde hw.space hw.mem hv hflag h hi hne).trans hold) h0
    · rw [hacts.upde p i hw.mem (.inr hold)]
      exact hw.tables i hi hold
  refine ⟨hacts.mono (fun _ _ _ => trivial) fun _ _ h => h, htables, fun va hva => ?_⟩
  split
  · rename_i hsame
    obtain ⟨hd, ht⟩ := (samePage_iff va nextva).2 hsame
    have hframe := frameOf_base_entry page hflag
    have h0 : pm.upde p (addrToPdenum nextva) ≠ 0 := by
      intro h0
      rw [PmapState.pte, if_pos h0] at hpte
      exact entry_ne_zero _ _ hpte.symm
    unfold PmapState.translate
    dsimp only
    rw [hd, ht, hpte, hframe, if_pos]
    exact ⟨hva, htables _ ((addrToPdenum_lt_iff nextva).2 hv) h0, entry_accessBits _ hbits⟩
  · rename_i hne
    exact hacts.translate hw.mem fun h => hne ((samePage_iff va nextva).1 h.2)

omit [DecidableEq ε] [DecidableEq π] in
private theorem setVm_vm_self {ρ : Type*} (s : VmState μ ε ω ρ) (m : μ) (vm : Vm ε ω) : (s.setVm m vm).vm m = vm := by
  simp [VmState.vm, VmState.setVm]

omit [DecidableEq ε] [DecidableEq π] in
theorem Shareable.round (hw : Shareable s P p) {vm : Vm ε ω} (hacts : Acts s.pm pm P p (fun _ _ => True) fun _ => False)
    (htables : ∀ i, i < ktableStart → pm.upde p i ≠ 0 → pm.upde p i &&& accessBits false = accessBits false)
    (hfinds : SameFinds s.pm pm) : Shareable ((s.setVm snd vm).setPm pm) P p where
  space := hacts.wf
  mem := hw.mem
  tables := htables
  hashed := hfinds.hashed
  objects object := fun h => hw.objects object (h.trans hfinds.pmapObject)
  pages object offset page h := by
    refine hacts.data page (hw.pages object offset page ?_)
    exact (hfinds.finds _ _ _ (hw.objects object)).1 h

omit [DecidableEq μ] [DecidableEq π] in
theorem LooksUp.mono {finds finds' : Option ω → BitVec 32 → Frame → Prop} {vm : Vm ε ω} {pages : List Frame}
    (h : LooksUp finds fuel vm va pages) (hf : ∀ o a x, finds o a x → finds' o a x) :
    LooksUp finds' fuel vm va pages := by
  induction h with
  | nil => exact .nil
  | cons hentry hpage _ ih => exact .cons hentry (hf _ _ _ hpage) ih

private theorem getElem?_cons_window {β : Type*} (x : β) (xs : List β) (old : Option β) (a b n : Nat) :
    (if b + 1 ≤ a ∧ a < b + 1 + n then xs[a - (b + 1)]? else if a = b then some x else old) =
      if b ≤ a ∧ a < b + (n + 1) then (x :: xs)[a - b]? else old := by
  rcases Nat.lt_trichotomy a b with hlt | rfl | hgt
  · rw [if_neg (by omega), if_neg (by omega), if_neg (by omega)]
  · rw [if_neg (by omega), if_pos rfl, if_pos (by omega), Nat.sub_self, getElem?_cons_zero]
  · rw [show a - b = a - (b + 1) + 1 by omega, getElem?_cons_succ, if_neg (show ¬ a = b by omega)]
    exact if_congr (by omega) rfl rfl

/-- The loop maps the pages that its lookups find, one behind the other. -/
private theorem shareLoop_pages (hw : Shareable s P (s.pmap rcv)) (hflag : flag < 0x1000)
    (huser : flag &&& pageUser = pageUser) (hend : nextva.toNat / 0x1000 + times ≤ 0xE0000)
    (h : shareLoop rcv snd fuel flag times va nextva s = some (s', 0)) :
    ∃ pages, pages.length = times ∧ LooksUp s.FindsPage fuel (s.vm snd) va pages ∧ s'.pmap = s.pmap ∧
      Acts s.pm s'.pm P (s.pmap rcv) (fun _ _ => True) (fun _ => False) ∧
      ∀ a, a < kernelBase → s'.pm.translate (s.pmap rcv) false a =
        if nextva.toNat / 0x1000 ≤ a.toNat / 0x1000 ∧ a.toNat / 0x1000 < nextva.toNat / 0x1000 + times
        then pages[a.toNat / 0x1000 - nextva.toNat / 0x1000]? else s.pm.translate (s.pmap rcv) false a := by
  induction times generalizing s va nextva with
  | zero =>
    cases h
    refine ⟨[], rfl, .nil, rfl, .refl hw.space, fun a _ => ?_⟩
    rw [if_neg (by omega)]
  | succ times ih =>
    obtain ⟨vm, entry, page, pm, hentry, hpage, hpm, h⟩ := shareLoop_succ h
    have hbase : kernelBase.toNat = 0xE0000000 := rfl
    have hv : nextva < kernelBase := by
      rw [BitVec.lt_def]
      omega
    have hnext : (nextva + 0x1000).toNat = nextva.toNat + 0x1000 := toNat_add_page (by omega)
    obtain ⟨hacts, htables, htrans⟩ := hw.enter hv hflag huser (hw.pages _ _ _ hpage) hpm
    have hfinds := pmapEnter_sameFinds hw.hashed hpm
    have hw₁ : Shareable ((s.setVm snd vm).setPm pm) P (s.pmap rcv) := hw.round hacts htables hfinds
    obtain ⟨pages, hlen, hlooks, hmap, hacts', htrans'⟩ := ih hw₁ (by omega) h
    refine ⟨page :: pages, by rw [length_cons, hlen], ?_, hmap, hacts.trans hacts', fun a ha => ?_⟩
    · rw [show ((s.setVm snd vm).setPm pm).vm snd = vm from setVm_vm_self s.toVmState snd vm] at hlooks
      refine .cons hentry hpage (hlooks.mono fun o b x hx => ?_)
      exact (hfinds.finds _ _ _ (hw.objects o)).1 hx
    · have hsame : frameOf a = frameOf nextva ↔ a.toNat / 0x1000 = nextva.toNat / 0x1000 := by
        rw [← BitVec.toNat_inj, toNat_frameOf, toNat_frameOf]
        rfl
      have htrans₁ : ((s.setVm snd vm).setPm pm).pm.translate (((s.setVm snd vm).setPm pm).pmap rcv) false a = _ :=
        htrans a ha
      refine (htrans' a ha).trans ?_
      rw [hnext, htrans₁, show (nextva.toNat + 0x1000) / 0x1000 = nextva.toNat / 0x1000 + 1 by omega]
      simp only [hsame]
      exact getElem?_cons_window page pages _ _ _ times

end Round

/-! ### The buffer -/

/-- Every address of the buffer is readable for the sender, the receiver has it in the same frame and at the same place
of the page, and reads the byte that the sender reads. -/
def CoversBuffer (s s' : Machine μ ε ω π κ) (rcv snd : μ) (ptr ptr' size : BitVec 32) : Prop :=
  ∀ i, i < size.toNat → ∃ x, s.pm.translate (s.pmap snd) false (ptr + BitVec.ofNat 32 i) = some x ∧
    s'.pm.translate (s'.pmap rcv) false (ptr' + BitVec.ofNat 32 i) = some x ∧
    (ptr' + BitVec.ofNat 32 i).toNat % 0x1000 = (ptr + BitVec.ofNat 32 i).toNat % 0x1000 ∧
    s'.pm.userByte (s'.pmap rcv) (ptr' + BitVec.ofNat 32 i) = s.pm.userByte (s.pmap snd) (ptr + BitVec.ofNat 32 i)

/-- The room that `vm_allocate` finds starts at a page and leaves the buffer below `KERNEL_BASE`; the lookups find the
pages that the sender has mapped; and the buffer ends on the pages that are counted, or the receiver has the next one
already. -/
def ShareFits [DecidableEq μ] [DecidableEq ε] (s : Machine μ ε ω π κ) (fuel : Nat) (rcv snd : μ) (new : ε)
    (ptr size : BitVec 32) : Prop :=
  ∃ vm nextva pages, vmAllocate (s.vm rcv) fuel new (alignPage size) = some (vm, 0, nextva) ∧
    nextva.toNat % 0x1000 = 0 ∧ nextva.toNat + ptr.toNat % 0x1000 + size.toNat ≤ kernelBase.toNat ∧
    pages.length = (alignPage size).toNat / 0x1000 ∧
    LooksUp s.FindsPage fuel ((s.setVm rcv vm).vm snd) ptr pages ∧
    (∀ k, k < pages.length →
      s.pm.translate (s.pmap snd) false (addrToPte ptr + BitVec.ofNat 32 (0x1000 * k)) = pages[k]?) ∧
    (ptr.toNat % 0x1000 + size.toNat ≤ (alignPage size).toNat ∨
      ∃ x, s.pm.translate (s.pmap snd) false (addrToPte ptr + alignPage size) = some x ∧
        s.pm.translate (s.pmap rcv) false (nextva + alignPage size) = some x)

section Buffer

variable [DecidableEq μ] [DecidableEq ε] [DecidableEq π] {s s' : Machine μ ε ω π κ}
  {P : π → Prop} {p : π} {rcv snd : μ} {fuel : Nat} {ptr ptr' size flag a b : BitVec 32} {new : ε} {nextva : BitVec 32}
  {vm : Vm ε ω}

omit [DecidableEq π] in
private theorem translate_page {s : PmapState π κ} {write : Bool} (h : a.toNat / 0x1000 = b.toNat / 0x1000) :
    s.translate p write a = s.translate p write b := by
  obtain ⟨hd, ht⟩ := (samePage_iff a b).2 (BitVec.eq_of_toNat_eq (by rw [toNat_frameOf, toNat_frameOf]; exact h))
  have hk : a < kernelBase ↔ b < kernelBase := by rw [← addrToPdenum_lt_iff, ← addrToPdenum_lt_iff, hd]
  unfold PmapState.translate
  simp only [hd, ht, hk]

theorem Frame.at_congr (x : Frame) (h : a.toNat % 0x1000 = b.toNat % 0x1000) : x.at a = x.at b := by
  have hlow : ∀ c : BitVec 32, (c &&& 0xFFF).toNat = c.toNat % 0x1000 :=
    fun c => Nat.and_two_pow_sub_one_eq_mod c.toNat 12
  have : a &&& 0xFFF = b &&& 0xFFF := BitVec.eq_of_toNat_eq (by rw [hlow, hlow, h])
  rw [Frame.at, Frame.at, this]

omit [DecidableEq μ] [DecidableEq ε] [DecidableEq π] in
theorem Shareable.finds_unique (hw : Shareable s P p) {o : Option ω} {offset : BitVec 32} {x y : Frame}
    (hx : s.FindsPage o offset x) (hy : s.FindsPage o offset y) : x = y := by
  obtain ⟨xs, hc, -⟩ := hw.hashed.chain (pageIndex (s.addrOf o) offset)
  exact Option.some.inj (((PageHash.finds_iff hc).1 hx).symm.trans ((PageHash.finds_iff hc).1 hy))

omit [DecidableEq μ] [DecidableEq π] in
theorem LooksUp.unique {finds : Option ω → BitVec 32 → Frame → Prop} {va : BitVec 32}
    {xs ys : List Frame} (hf : ∀ o a x y, finds o a x → finds o a y → x = y) (hx : LooksUp finds fuel vm va xs)
    (hy : LooksUp finds fuel vm va ys) (hlen : xs.length = ys.length) : xs = ys := by
  induction hx generalizing ys with
  | nil => exact (length_eq_zero_iff.1 hlen.symm).symm
  | cons hentry hpage _ ih =>
    cases hy with
    | nil => cases hlen
    | cons hentry' hpage' hrest' =>
      rw [hentry, Option.some.injEq, Prod.mk.injEq, Option.some.injEq] at hentry'
      obtain ⟨rfl, rfl⟩ := hentry'
      rw [hf _ _ _ _ hpage hpage', ih hrest' (Nat.succ.inj hlen)]

private theorem vmShareAddr_some (hsize : 0 < size.toNat) (hmax : size.toNat ≤ 2 ^ 32 - 0x1000)
    (h : vmShareAddr s fuel rcv snd new ptr size flag = some (s', 0, ptr')) :
    ∃ vm nextva, vmAllocate (s.vm rcv) fuel new (alignPage size) = some (vm, 0, nextva) ∧
      shareLoop rcv snd fuel flag ((alignPage size).toNat / 0x1000) ptr nextva (s.setVm rcv vm) = some (s', 0) ∧
      ptr' = nextva + (ptr - addrToPte ptr) := by
  have htimes : (alignPage size).toNat / 0x1000 ≠ 0 := by
    have := le_toNat_alignPage hmax
    have := toNat_alignPage_mod size
    omega
  simp only [vmShareAddr] at h
  split at h
  · cases h
  · rename_i vm r nextva hal
    rw [if_neg htimes] at h
    obtain ⟨⟨s₁, ret⟩, hloop, he⟩ := Option.map_eq_some_iff.1 h
    simp only [Prod.mk.injEq] at he
    obtain ⟨rfl, rfl, rfl⟩ := he
    refine ⟨vm, nextva, ?_, hloop, by rw [if_pos rfl]⟩
    have hr : r = 0 := by
      unfold vmAllocate at hal
      split at hal
      · cases hal
      · exact (Prod.mk.inj (Prod.mk.inj (Option.some.inj hal)).2).1.symm
    rw [hal, hr]

private theorem toNat_add_ofNat {i : Nat} (h : a.toNat + i < 2 ^ 32) : (a + BitVec.ofNat 32 i).toNat = a.toNat + i := by
  rw [BitVec.toNat_add, BitVec.toNat_ofNat]
  omega

private theorem toNat_sub_addrToPte (a : BitVec 32) : (a - addrToPte a).toNat = a.toNat % 0x1000 := by
  have := a.isLt
  rw [BitVec.toNat_sub, toNat_addrToPte]
  omega

omit [DecidableEq μ] [DecidableEq ε] [DecidableEq π] in
private theorem translate_buffer {s : PmapState π κ} {i : Nat} (h : ptr.toNat + i < 2 ^ 32) :
    s.translate p false (ptr + BitVec.ofNat 32 i) = s.translate p false
      (addrToPte ptr + BitVec.ofNat 32 (0x1000 * ((ptr.toNat % 0x1000 + i) / 0x1000))) := by
  have hpte := toNat_addrToPte ptr
  have hle : 0x1000 * ((ptr.toNat % 0x1000 + i) / 0x1000) ≤ ptr.toNat % 0x1000 + i := Nat.mul_div_le _ _
  refine translate_page ?_
  rw [toNat_add_ofNat h, toNat_add_ofNat (by omega), hpte]
  omega

/-- What the receiver has where the buffer is mapped. -/
private theorem shareLoop_buffer (hw : Shareable s P (s.pmap rcv)) (hflag : flag < 0x1000)
    (huser : flag &&& pageUser = pageUser) (hmax : size.toNat ≤ 2 ^ 32 - 0x1000) (hstart : nextva.toNat % 0x1000 = 0)
    (hend : nextva.toNat + ptr.toNat % 0x1000 + size.toNat ≤ kernelBase.toNat)
    (h : shareLoop rcv snd fuel flag ((alignPage size).toNat / 0x1000) ptr nextva (s.setVm rcv vm) = some (s', 0)) :
    ∃ pages, pages.length = (alignPage size).toNat / 0x1000 ∧
      LooksUp s.FindsPage fuel ((s.setVm rcv vm).vm snd) ptr pages ∧ s'.pmap = s.pmap ∧
      (∀ x, s.pm.Data P x → s'.pm.mem x = s.pm.mem x) ∧ ∀ i, i < size.toNat →
        (nextva + (ptr - addrToPte ptr) + BitVec.ofNat 32 i).toNat = nextva.toNat + (ptr.toNat % 0x1000 + i) ∧
        s'.pm.translate (s.pmap rcv) false (nextva + (ptr - addrToPte ptr) + BitVec.ofNat 32 i) =
          if (ptr.toNat % 0x1000 + i) / 0x1000 < pages.length then pages[(ptr.toNat % 0x1000 + i) / 0x1000]?
          else s.pm.translate (s.pmap rcv) false (nextva + alignPage size) := by
  have hbase : kernelBase.toNat = 0xE0000000 := rfl
  have hround := toNat_alignPage size
  have hw₁ : Shareable (s.setVm rcv vm) P (s.pmap rcv) :=
    ⟨hw.space, hw.mem, hw.tables, hw.hashed, hw.objects, hw.pages⟩
  obtain ⟨pages, hlen, hlooks, hmap, hacts, htrans⟩ := shareLoop_pages hw₁ hflag huser (by omega) h
  refine ⟨pages, hlen, hlooks, hmap, fun x hx => hacts.mem x hx id, fun i hi => ?_⟩
  have hoff := toNat_sub_addrToPte ptr
  have hsum : (nextva + (ptr - addrToPte ptr) + BitVec.ofNat 32 i).toNat = nextva.toNat + (ptr.toNat % 0x1000 + i) := by
    rw [toNat_add_ofNat, BitVec.toNat_add, hoff]
    · omega
    · rw [BitVec.toNat_add, hoff]
      omega
  refine ⟨hsum, (htrans _ ?_).trans ?_⟩
  · rw [BitVec.lt_def, hsum]
    omega
  · rw [hsum, hlen]
    have hdiv : (nextva.toNat + (ptr.toNat % 0x1000 + i)) / 0x1000 =
        nextva.toNat / 0x1000 + (ptr.toNat % 0x1000 + i) / 0x1000 := by omega
    by_cases hk : (ptr.toNat % 0x1000 + i) / 0x1000 < (alignPage size).toNat / 0x1000
    · rw [if_pos (by omega), if_pos hk, hdiv, Nat.add_sub_cancel_left]
    · rw [if_neg (by omega), if_neg hk]
      refine translate_page ?_
      rw [hsum, BitVec.toNat_add]
      omega

omit [DecidableEq μ] [DecidableEq ε] [DecidableEq π] in
/-- The room in which the receiver has the buffer starts at a page and ends below `KERNEL_BASE`. -/
theorem CoversBuffer.room (hsize : 0 < size.toNat)
    (hc : CoversBuffer s s' rcv snd ptr (nextva + (ptr - addrToPte ptr)) size) :
    nextva.toNat % 0x1000 = 0 ∧ nextva.toNat + ptr.toNat % 0x1000 + size.toNat ≤ kernelBase.toNat := by
  have hbase : kernelBase.toNat = 0xE0000000 := rfl
  have hoff := toNat_sub_addrToPte ptr
  have hstart : nextva.toNat % 0x1000 = 0 := by
    obtain ⟨x, -, -, hmod, -⟩ := hc 0 hsize
    simp only [BitVec.add_zero, BitVec.toNat_add, hoff] at hmod
    omega
  have hsum : (nextva + (ptr - addrToPte ptr)).toNat = nextva.toNat + ptr.toNat % 0x1000 := by
    rw [BitVec.toNat_add, hoff]
    omega
  -- the addresses do not wrap, since one would be above `KERNEL_BASE` before
  have hlt : ∀ i, i < size.toNat → nextva.toNat + ptr.toNat % 0x1000 + i < 0xE0000000 := by
    intro i
    induction i with
    | zero =>
      intro hi
      obtain ⟨x, -, hx, -⟩ := hc 0 hi
      have hlt := BitVec.lt_def.1 (translate_some hx).1
      rw [BitVec.add_zero, hsum] at hlt
      exact hlt
    | succ i ih =>
      intro hi
      have hi' := ih (by omega)
      obtain ⟨x, -, hx, -⟩ := hc (i + 1) hi
      have hlt := BitVec.lt_def.1 (translate_some hx).1
      rw [toNat_add_ofNat (by omega), hsum] at hlt
      exact hlt
  have := hlt (size.toNat - 1) (by omega)
  exact ⟨hstart, by omega⟩

theorem CoversBuffer.fits (hw : Shareable s P (s.pmap rcv)) (hflag : flag < 0x1000)
    (huser : flag &&& pageUser = pageUser) (hsize : 0 < size.toNat) (hwrap : ptr.toNat + size.toNat ≤ 2 ^ 32)
    (hmax : size.toNat ≤ 2 ^ 32 - 0x1000) (hal : vmAllocate (s.vm rcv) fuel new (alignPage size) = some (vm, 0, nextva))
    (h : shareLoop rcv snd fuel flag ((alignPage size).toNat / 0x1000) ptr nextva (s.setVm rcv vm) = some (s', 0))
    (hc : CoversBuffer s s' rcv snd ptr (nextva + (ptr - addrToPte ptr)) size) :
    ShareFits s fuel rcv snd new ptr size := by
  have hround := toNat_alignPage size
  obtain ⟨hstart, hend⟩ := hc.room hsize
  obtain ⟨pages, hlen, hlooks, hmap, -, hbuf⟩ := shareLoop_buffer hw hflag huser hmax hstart hend h
  refine ⟨vm, nextva, pages, hal, hstart, hend, hlen, hlooks, fun k hk => ?_, ?_⟩
  · -- the first address of the buffer on the page
    have hi : 0x1000 * k - ptr.toNat % 0x1000 < size.toNat := by omega
    have hdiv : (ptr.toNat % 0x1000 + (0x1000 * k - ptr.toNat % 0x1000)) / 0x1000 = k := by omega
    obtain ⟨x, hx, hx', -⟩ := hc _ hi
    have htr := (hbuf _ hi).2
    rw [hdiv, if_pos hk, ← hmap, hx'] at htr
    rw [translate_buffer (by omega), hdiv] at hx
    rw [hx, htr]
  · refine (Nat.lt_or_ge (alignPage size).toNat (ptr.toNat % 0x1000 + size.toNat)).symm.imp id fun hlt => ?_
    have hi : (alignPage size).toNat - ptr.toNat % 0x1000 < size.toNat := by omega
    have hdiv : (ptr.toNat % 0x1000 + ((alignPage size).toNat - ptr.toNat % 0x1000)) / 0x1000 =
        (alignPage size).toNat / 0x1000 := by omega
    have hmul : 0x1000 * ((alignPage size).toNat / 0x1000) = (alignPage size).toNat := by omega
    obtain ⟨x, hx, hx', -⟩ := hc _ hi
    have htr := (hbuf _ hi).2
    rw [hdiv, if_neg (by omega), ← hmap, hx', hmap] at htr
    rw [translate_buffer (by omega), hdiv, hmul, BitVec.ofNat_toNat, BitVec.setWidth_eq] at hx
    exact ⟨x, hx, htr.symm⟩

theorem ShareFits.covers (hw : Shareable s P (s.pmap rcv)) (hsnd : P (s.pmap snd))
    (hflag : flag < 0x1000) (huser : flag &&& pageUser = pageUser) (hwrap : ptr.toNat + size.toNat ≤ 2 ^ 32)
    (hmax : size.toNat ≤ 2 ^ 32 - 0x1000) (hal : vmAllocate (s.vm rcv) fuel new (alignPage size) = some (vm, 0, nextva))
    (h : shareLoop rcv snd fuel flag ((alignPage size).toNat / 0x1000) ptr nextva (s.setVm rcv vm) = some (s', 0))
    (hfits : ShareFits s fuel rcv snd new ptr size) :
    CoversBuffer s s' rcv snd ptr (nextva + (ptr - addrToPte ptr)) size := by
  have hround := toNat_alignPage size
  obtain ⟨vm', nextva', pages', hal', hstart, hend, hlen', hlooks', hpages, hnext⟩ := hfits
  have hsame := Option.some.inj (hal.symm.trans hal')
  obtain rfl : vm = vm' := congrArg Prod.fst hsame
  obtain rfl : nextva = nextva' := congrArg (fun r => r.2.2) hsame
  obtain ⟨pages, hlen, hlooks, hmap, hmem, hbuf⟩ := shareLoop_buffer hw hflag huser hmax hstart hend h
  have hf : ∀ o a x y, s.FindsPage o a x → s.FindsPage o a y → x = y := fun _ _ _ _ => hw.finds_unique
  obtain rfl : pages = pages' := hlooks.unique hf hlooks' (hlen.trans hlen'.symm)
  intro i hi
  obtain ⟨hsum, htr⟩ := hbuf i hi
  have hx : ∃ x, s.pm.translate (s.pmap snd) false (ptr + BitVec.ofNat 32 i) = some x ∧
      s'.pm.translate (s'.pmap rcv) false (nextva + (ptr - addrToPte ptr) + BitVec.ofNat 32 i) = some x := by
    rw [hmap, htr, translate_buffer (by omega)]
    split
    · rename_i hk
      rw [hpages _ hk, getElem?_eq_getElem hk]
      exact ⟨_, rfl, rfl⟩
    · rename_i hk
      have hdiv : 0x1000 * ((ptr.toNat % 0x1000 + i) / 0x1000) = (alignPage size).toNat := by omega
      rw [hdiv, BitVec.ofNat_toNat, BitVec.setWidth_eq]
      exact hnext.resolve_left (by omega)
  obtain ⟨x, hx, hx'⟩ := hx
  have hplace : (nextva + (ptr - addrToPte ptr) + BitVec.ofNat 32 i).toNat % 0x1000 =
      (ptr + BitVec.ofNat 32 i).toNat % 0x1000 := by
    rw [hsum, toNat_add_ofNat (by omega)]
    omega
  refine ⟨x, hx, hx', hplace, ?_⟩
  unfold PmapState.userByte
  rw [hx, hx', Option.map_some, Option.map_some, x.at_congr hplace]
  refine congrArg some (getByte_congr ?_)
  rw [frameOf_at]
  exact hmem x (translate_data hw.space hsnd hx)

omit [DecidableEq μ] [DecidableEq ε] [DecidableEq π] in
theorem CoversBuffer.size_le (hsize : 0 < size.toNat) (hwrap : ptr.toNat + size.toNat ≤ 2 ^ 32)
    (hc : CoversBuffer s s' rcv snd ptr ptr' size) : size.toNat ≤ kernelBase.toNat := by
  obtain ⟨x, hx, -⟩ := hc (size.toNat - 1) (by omega)
  have hlt := BitVec.lt_def.1 (translate_some hx).1
  rw [toNat_add_ofNat (by omega)] at hlt
  omega

/-- The receiver has the buffer exactly when the room that is found for it fits, the lookups find the pages of the
sender, and the buffer ends on the pages that are counted, unless the receiver has the next one already. -/
theorem share_addr_covers (hw : Shareable s P (s.pmap rcv)) (hsnd : P (s.pmap snd)) (hflag : flag < 0x1000)
    (huser : flag &&& pageUser = pageUser) (hsize : 0 < size.toNat) (hwrap : ptr.toNat + size.toNat ≤ 2 ^ 32)
    (h : vmShareAddr s fuel rcv snd new ptr size flag = some (s', 0, ptr')) :
    CoversBuffer s s' rcv snd ptr ptr' size ↔ ShareFits s fuel rcv snd new ptr size := by
  have hbase : kernelBase.toNat = 0xE0000000 := rfl
  constructor
  · intro hc
    have hmax : size.toNat ≤ 2 ^ 32 - 0x1000 := (hc.size_le hsize hwrap).trans (by omega)
    obtain ⟨vm, nextva, hal, hloop, rfl⟩ := vmShareAddr_some hsize hmax h
    exact hc.fits hw hflag huser hsize hwrap hmax hal hloop
  · intro hf
    have hmax : size.toNat ≤ 2 ^ 32 - 0x1000 := by
      obtain ⟨_, nextva, _, -, -, hend, -⟩ := hf
      omega
    obtain ⟨vm, nextva, hal, hloop, rfl⟩ := vmShareAddr_some hsize hmax h
    exact hf.covers hw hsnd hflag huser hwrap hmax hal hloop

end Buffer

/-! ### Two processes -/

/-- The sender `false` has pages at `0x5000` and `0x6000`, in the frames `0x20` and `0x21`; the receiver `true` has a
table and no page.  The directories are the frames 1, 3 and 5, the tables 2, 4 and 6. -/
def twoSharers : Machine Bool Bool Unit Bool Unit where
  maps := fun m => ⟨if m then none else some false, 0x10000, kernelBase - 1, none⟩
  entries := ⟨id, id⟩
  entry := fun _ => ⟨0x5000, 0x7000, some (), 8, 0⟩
  entryFreed := id
  refCount := fun _ => 1
  objectFreed := fun _ => false
  objectAttribute := fun _ => 0
  page := fun _ => [0x20, 0x21]
  pages := ⟨fun x => ⟨none, 0x100000, if x = 0x20 then 0x5000 else 0x6000, 1⟩,
    fun b => if b = 5 then some 0x20 else if b = 6 then some 0x21 else none⟩
  freePageList := []
  vn := fun _ => ⟨0, 0, 0⟩
  objectAddr := fun _ => 0x100000
  pmap := id
  mem := fun x i =>
    if x = 4 then if i = 5 then 0x20007 else if i = 6 then 0x21007 else 0
    else if x = 3 ∧ i = 0 then 0x4007 else if x = 5 ∧ i = 0 then 0x6007
    else if (x = 1 ∨ x = 3 ∨ x = 5) ∧ i = ktableStart then 0x2003 else 0
  pdbr := fun
    | .kernelMap => 1
    | .user b => if b then 5 else 3
  pmapObject := 0x300000
  kernelObject := 0x310000
  proclist := []
  pmapOf := fun _ => false

private theorem twoSharers_kpde (i : BitVec 10) : twoSharers.pm.kpde i = if i = ktableStart then 0x2003 else 0 := by
  simp [twoSharers, Machine.pm, PmapState.kpde, PmapState.kdir]

private theorem twoSharers_upde (b : Bool) (i : BitVec 10) : twoSharers.pm.upde b i =
    if i = 0 then if b then 0x6007 else 0x4007 else if i = ktableStart then 0x2003 else 0 := by
  cases b <;> simp [twoSharers, Machine.pm, PmapState.upde, PmapState.udir]

private theorem twoSharers_ktable {x : Frame} (h : twoSharers.pm.KTable x) : x = 2 := by
  obtain ⟨i, -, h0, rfl⟩ := h
  rw [twoSharers_kpde] at h0 ⊢
  split at h0
  · rename_i hi
    rw [if_pos hi]
    decide
  · exact absurd rfl h0

private theorem twoSharers_utable {b : Bool} {i : BitVec 10} (hi : i < ktableStart) (h0 : twoSharers.pm.upde b i ≠ 0) :
    i = 0 ∧ frameOf (twoSharers.pm.upde b i) = if b then 6 else 4 := by
  rw [twoSharers_upde] at h0 ⊢
  split at h0
  · rename_i hi0
    refine ⟨hi0, ?_⟩
    rw [if_pos hi0]
    cases b <;> decide
  · rw [if_neg] at h0
    · exact absurd rfl h0
    · rintro rfl
      exact absurd hi (by decide)

private theorem twoSharers_data {x : Frame} (h : x = 0x20 ∨ x = 0x21) : twoSharers.pm.Data (fun _ => True) x := by
  refine ⟨⟨?_, fun ht => ?_, not_mem_nil, not_mem_nil, fun q _ => ?_⟩, fun q _ ht => ?_⟩
  · rcases h with rfl | rfl <;> decide
  · rw [twoSharers_ktable ht] at h
    exact absurd h (by decide)
  · cases q <;> rcases h with rfl | rfl <;> decide
  · obtain ⟨i, hi, h0, hx⟩ := ht
    rw [← hx, (twoSharers_utable hi h0).2] at h
    cases q <;> exact absurd h (by decide)

private theorem twoSharers_pte {b : Bool} {i j : BitVec 10} (hi : i < ktableStart)
    (h : twoSharers.pm.pte b i j &&& pagePresent ≠ 0) :
    frameOf (twoSharers.pm.pte b i j) = 0x20 ∨ frameOf (twoSharers.pm.pte b i j) = 0x21 := by
  have h0 : twoSharers.pm.upde b i ≠ 0 := by
    intro h0
    rw [PmapState.pte, if_pos h0] at h
    exact h (by decide)
  obtain ⟨-, hx⟩ := twoSharers_utable hi h0
  rw [PmapState.pte, if_neg h0, hx] at h ⊢
  cases b with
  | false =>
    have hrow : twoSharers.pm.mem 4 j = if j = 5 then 0x20007 else if j = 6 then 0x21007 else 0 := rfl
    simp only [Bool.false_eq_true, if_false, hrow] at h ⊢
    split
    · exact .inl (by decide)
    · rename_i h5
      rw [if_neg h5] at h
      split
      · exact .inr (by decide)
      · rename_i h6
        rw [if_neg h6] at h
        exact absurd (by decide) h
  | true =>
    have hrow : twoSharers.pm.mem 6 j = 0 := by simp [twoSharers, Machine.pm]
    simp only [if_true, hrow] at h
    exact absurd (by decide) h

private theorem twoSharers_spaceWf : twoSharers.pm.SpaceWf (fun _ => True) where
  kernelWf := {
    kdir_ne_zero := by decide
    kdir_not_table := fun h => absurd (twoSharers_ktable h) (by decide)
    kdir_not_proc := not_mem_nil
    table_inj := fun i j _ _ hi hj _ => by
      rw [twoSharers_kpde] at hi hj
      simp only [ne_eq, ite_eq_right_iff, not_forall] at hi hj
      exact hi.1.trans hj.1.symm
    table_not_proc := fun _ _ => not_mem_nil
    free_nodup := nodup_nil
    free_unused := fun _ h => absurd h not_mem_nil }
  userWf := {
    dir_ne_zero := fun p _ => by cases p <;> decide
    dir_ne_kdir := fun p _ => by cases p <;> decide
    dir_not_table := fun p _ h => by cases p <;> exact absurd (twoSharers_ktable h) (by decide)
    dir_not_free := fun _ _ => not_mem_nil
    dir_inj := fun p q _ _ => by cases p <;> cases q <;> decide
    table_ne_kdir := fun p x _ ⟨i, hi, h0, hx⟩ => by
      rw [← hx, (twoSharers_utable hi h0).2]
      cases p <;> decide
    table_not_table := fun p x _ ⟨i, hi, h0, hx⟩ h => by
      rw [← hx, (twoSharers_utable hi h0).2] at h
      cases p <;> exact absurd (twoSharers_ktable h) (by decide)
    table_not_proc := fun _ _ _ _ => not_mem_nil
    table_not_free := fun _ _ _ _ => not_mem_nil
    table_ne_dir := fun p q x _ _ ⟨i, hi, h0, hx⟩ => by
      rw [← hx, (twoSharers_utable hi h0).2]
      cases p <;> cases q <;> decide
    table_inj := fun p q i j _ _ hi hj h0 h1 he => by
      obtain ⟨hi0, hx⟩ := twoSharers_utable hi h0
      obtain ⟨hj0, hy⟩ := twoSharers_utable hj h1
      rw [hx, hy] at he
      refine ⟨?_, hi0.trans hj0.symm⟩
      revert he
      cases p <;> cases q <;> decide }
  kernelHalf p _ i hi := by
    rw [twoSharers_upde, twoSharers_kpde, if_neg]
    · exact .inr rfl
    · rintro rfl
      exact absurd hi (by decide)
  data p i j _ hi hpres := twoSharers_data (twoSharers_pte hi hpres)

private theorem twoSharers_chain (b) : IsChain (fun p => (twoSharers.pm.pages.page p).next)
    (twoSharers.pm.pages.pagehash b) (twoSharers.pm.pages.pagehash b).toList := by
  cases hb : twoSharers.pm.pages.pagehash b with
  | none => rfl
  | some x => exact ⟨rfl, rfl⟩

private theorem twoSharers_shareable : Shareable twoSharers (fun _ => True) true where
  space := twoSharers_spaceWf
  mem := trivial
  tables i hi h0 := by
    obtain ⟨rfl, -⟩ := twoSharers_utable hi h0
    decide
  hashed := ⟨nodup_nil, fun b => ⟨_, twoSharers_chain b, fun _ _ => not_mem_nil⟩⟩
  objects object := by cases object with
    | none => decide
    | some object => cases object; decide
  pages object offset page h := by
    have hmem := mem_of_find?_eq_some ((PageHash.finds_iff (twoSharers_chain _)).1 h)
    rw [Option.mem_toList] at hmem
    refine twoSharers_data ?_
    simp only [twoSharers, Machine.pm] at hmem
    grind

private theorem twoSharers_looksUp : LooksUp twoSharers.FindsPage 1 ((twoSharers.setVm true
    ((vmAllocate (twoSharers.vm true) 1 true 0x1000).get (by decide)).1).vm false) 0x5010 [0x20] :=
  .cons rfl ⟨1, rfl⟩ .nil

theorem share_addr_covers_small : ∃ s', vmShareAddr twoSharers 1 true false true 0x5010 0x10 pageUser =
    some (s', 0, 0x10010) ∧ CoversBuffer twoSharers s' true false 0x5010 0x10010 0x10 := by
  obtain ⟨s', h⟩ : ∃ s', vmShareAddr twoSharers 1 true false true 0x5010 0x10 pageUser = some (s', 0, 0x10010) := by
    exact ⟨_, rfl⟩
  refine ⟨s', h, (share_addr_covers twoSharers_shareable trivial (by decide) (by decide) (by decide)
    (by decide) h).2 ?_⟩
  exact ⟨_, 0x10000, [0x20], rfl, rfl, by decide, rfl, twoSharers_looksUp, by decide, .inl (by decide)⟩

/-- Of the two bytes from the end of a page on only the first is mapped. -/
theorem last_page_not_shared : ∃ s', vmShareAddr twoSharers 1 true false true 0x5FFF 2 pageUser =
      some (s', 0, 0x10FFF) ∧
    (twoSharers.pm.translate false false 0x5FFF = some 0x20 ∧ twoSharers.pm.translate false false 0x6000 = some 0x21) ∧
    s'.pm.translate true false 0x11000 = none ∧ ¬ CoversBuffer twoSharers s' true false 0x5FFF 0x10FFF 2 := by
  obtain ⟨s', h, hnone⟩ : ∃ s', vmShareAddr twoSharers 1 true false true 0x5FFF 2 pageUser = some (s', 0, 0x10FFF) ∧
      s'.pm.translate true false 0x11000 = none ∧ s'.pmap true = true := by
    exact ⟨_, rfl, by decide +kernel, rfl⟩
  refine ⟨s', h, ⟨by decide, by decide⟩, hnone.1, fun hc => ?_⟩
  obtain ⟨x, -, hx, -⟩ := hc 1 (by decide)
  rw [hnone.2] at hx
  exact absurd (hnone.1.symm.trans hx) nofun

end Manrix
