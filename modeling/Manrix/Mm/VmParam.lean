import Mathlib.Data.BitVec

/-!
# Addresses, frames and page table entries (`vm_param.h`)

A frame is given by the upper 20 bits of the addresses in it.  An entry of a page table or of a page directory has the
frame it names in its upper 20 bits and the protection in its lower 12 bits.
-/

namespace Manrix

abbrev Frame : Type := BitVec 20

def kernelBase : BitVec 32 := 0xE0000000

/-- The directory entries of the kernel are those from here on. -/
def ktableStart : BitVec 10 := 1024 - 128

def pagePresent : BitVec 32 := 0x001
def pageRw : BitVec 32 := 0x002
def pageUser : BitVec 32 := 0x004

def addrToPdenum (addr : BitVec 32) : BitVec 10 := (addr >>> 22).setWidth 10
def addrToPtenum (addr : BitVec 32) : BitVec 10 := (addr >>> 12).setWidth 10
def addrToPte (addr : BitVec 32) : BitVec 32 := addr &&& 0xfffff000

/-- The field `base` of the frame's `struct vm_page`. -/
def Frame.base (f : Frame) : BitVec 32 := f.setWidth 32 <<< 12

/-- The frame that the address is in, and the one that an entry names. -/
def frameOf (addr : BitVec 32) : Frame := (addr >>> 12).setWidth 20

/-- The address at which the kernel reaches the frame. -/
def Frame.kernelAddr (f : Frame) : BitVec 32 := f.base + kernelBase

theorem toNat_addrToPdenum (a : BitVec 32) : (addrToPdenum a).toNat = a.toNat / 2 ^ 22 := by
  have := a.isLt
  simp only [addrToPdenum, BitVec.toNat_setWidth, BitVec.toNat_ushiftRight, Nat.shiftRight_eq_div_pow]
  omega

theorem toNat_addrToPtenum (a : BitVec 32) : (addrToPtenum a).toNat = a.toNat / 2 ^ 12 % 2 ^ 10 := by
  simp only [addrToPtenum, BitVec.toNat_setWidth, BitVec.toNat_ushiftRight, Nat.shiftRight_eq_div_pow]

theorem toNat_frameOf (a : BitVec 32) : (frameOf a).toNat = a.toNat / 2 ^ 12 := by
  have := a.isLt
  simp only [frameOf, BitVec.toNat_setWidth, BitVec.toNat_ushiftRight, Nat.shiftRight_eq_div_pow]
  omega

theorem toNat_base (f : Frame) : f.base.toNat = f.toNat * 2 ^ 12 := by
  have := f.isLt
  simp only [Frame.base, BitVec.toNat_shiftLeft, BitVec.toNat_setWidth, Nat.shiftLeft_eq]
  omega

@[simp] theorem frameOf_base (f : Frame) : frameOf f.base = f := by
  apply BitVec.eq_of_toNat_eq
  rw [toNat_frameOf, toNat_base]
  omega

theorem frameOf_or (a b : BitVec 32) : frameOf (a ||| b) = frameOf a ||| frameOf b := by
  ext i hi
  simp [frameOf]

theorem frameOf_and (a b : BitVec 32) : frameOf (a &&& b) = frameOf a &&& frameOf b := by
  ext i hi
  simp [frameOf]

private theorem frameOf_addrToPte (a : BitVec 32) : frameOf (addrToPte a) = frameOf a := by
  have hmask : ∀ i < 20, BitVec.getLsbD (0xfffff000 : BitVec 32) (12 + i) = true := by decide
  ext i hi
  simp only [frameOf, addrToPte, BitVec.getElem_setWidth, BitVec.getLsbD_ushiftRight, BitVec.getLsbD_and]
  rw [hmask i hi, Bool.and_true]

private theorem addrToPte_eq_base (a : BitVec 32) : addrToPte a = (frameOf a).base := by
  have hmask : ∀ i < 32, BitVec.getLsbD (0xfffff000 : BitVec 32) i = decide (12 ≤ i) := by decide
  apply BitVec.eq_of_getLsbD_eq
  intro i hi
  simp only [addrToPte, Frame.base, frameOf, BitVec.getLsbD_and, hmask i hi, BitVec.getLsbD_shiftLeft,
    BitVec.getLsbD_setWidth, BitVec.getLsbD_ushiftRight]
  by_cases h : i < 12
  · simp [h, Nat.not_le.2 h]
  · have h1 : 12 + (i - 12) = i := by omega
    have h2 : i - 12 < 20 := by omega
    simp [h, hi, h1, h2, Nat.not_lt.1 h, Nat.lt_of_lt_of_le h2]

theorem toNat_addrToPte (a : BitVec 32) : (addrToPte a).toNat = a.toNat / 0x1000 * 0x1000 := by
  rw [addrToPte_eq_base, toNat_base, toNat_frameOf]
  rfl

theorem frameOf_of_lt {a : BitVec 32} (h : a < 0x1000) : frameOf a = 0 := by
  apply BitVec.eq_of_toNat_eq
  rw [toNat_frameOf]
  have : a.toNat < 0x1000 := h
  simp
  omega

theorem frameOf_entry {a protection : BitVec 32} (h : protection < 0x1000) :
    frameOf (addrToPte a ||| pagePresent ||| protection) = frameOf a := by
  have hp : frameOf pagePresent = 0 := frameOf_of_lt (by decide)
  rw [frameOf_or, frameOf_or, frameOf_addrToPte, frameOf_of_lt h, hp]
  simp

theorem frameOf_base_entry (f : Frame) {protection : BitVec 32} (h : protection < 0x1000) :
    frameOf (addrToPte f.base ||| pagePresent ||| protection) = f := by
  rw [frameOf_entry h, frameOf_base]

theorem entry_ne_zero (a protection : BitVec 32) : addrToPte a ||| pagePresent ||| protection ≠ 0 := by
  intro h
  have := congrArg (fun w => w.getLsbD 0) h
  simp [pagePresent] at this

theorem and_low_lt (a : BitVec 32) : a &&& 0xFFF < 0x1000 := by
  have : a.toNat &&& 0xFFF ≤ 0xFFF := Nat.and_le_right
  rw [BitVec.lt_def, BitVec.toNat_and]
  exact Nat.lt_succ_of_le this

theorem frameOf_or_low (a b : BitVec 32) : frameOf (addrToPte a ||| (b &&& 0xFFF)) = frameOf a := by
  rw [frameOf_or, frameOf_addrToPte, frameOf_of_lt (and_low_lt b)]
  simp

theorem or_low_and_low (a b : BitVec 32) : (addrToPte a ||| (b &&& 0xFFF)) &&& 0xFFF = b &&& 0xFFF := by
  have hmask : (0xfffff000 : BitVec 32) &&& 0xFFF = 0 := by decide
  have ha : addrToPte a &&& 0xFFF = 0 := by
    rw [addrToPte, BitVec.and_assoc, hmask]
    simp
  have hdist : ∀ x y z : BitVec 32, (x ||| y) &&& z = (x &&& z) ||| (y &&& z) := by
    intro x y z
    ext i hi
    simp [Bool.and_or_distrib_right]
  rw [hdist, ha, BitVec.and_assoc, BitVec.and_self]
  simp

theorem toNat_add_page {a : BitVec 32} (h : a.toNat + 0x1000 < 2 ^ 32) : (a + 0x1000).toNat = a.toNat + 0x1000 := by
  rw [BitVec.toNat_add]
  exact Nat.mod_eq_of_lt h

def SamePage (a b : BitVec 32) : Prop := addrToPdenum a = addrToPdenum b ∧ addrToPtenum a = addrToPtenum b

theorem samePage_iff (a b : BitVec 32) : SamePage a b ↔ frameOf a = frameOf b := by
  simp only [SamePage, ← BitVec.toNat_inj, toNat_addrToPdenum, toNat_addrToPtenum, toNat_frameOf]
  omega

theorem addrToPdenum_lt_iff (a : BitVec 32) : addrToPdenum a < ktableStart ↔ a < kernelBase := by
  rw [BitVec.lt_def, BitVec.lt_def, toNat_addrToPdenum]
  have : kernelBase.toNat = 0xE0000000 := rfl
  have : ktableStart.toNat = 896 := rfl
  omega

theorem samePage_addrToPte (a : BitVec 32) : SamePage (addrToPte a) a := (samePage_iff _ _).2 (frameOf_addrToPte a)

theorem addrToPte_lt {a : BitVec 32} (h : a < kernelBase) : addrToPte a < kernelBase := by
  rw [← addrToPdenum_lt_iff, (samePage_addrToPte a).1]
  exact (addrToPdenum_lt_iff a).2 h

/-- The frames that the kernel can reach are those below 512 MB. -/
def Frame.Reachable (f : Frame) : Prop := f < 0x20000

theorem toNat_kernelAddr {f : Frame} (h : f.Reachable) : f.kernelAddr.toNat = f.toNat * 2 ^ 12 + 0xE0000000 := by
  have : f.toNat < 0x20000 := h
  have : kernelBase.toNat = 0xE0000000 := rfl
  rw [Frame.kernelAddr, BitVec.toNat_add, toNat_base]
  omega

theorem kernelAddr_pdenum {f : Frame} (h : f.Reachable) : ktableStart ≤ addrToPdenum f.kernelAddr := by
  rw [BitVec.le_def, toNat_addrToPdenum, toNat_kernelAddr h]
  have : ktableStart.toNat = 896 := rfl
  omega

end Manrix
