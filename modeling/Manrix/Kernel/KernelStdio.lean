import Manrix.Lib.Memcpy
import Manrix.Lib.Numeral

/-!
# Numbers on the console (`kernel/kernel_stdio.c`)

`ctrl_to_str` divides the number by the base until nothing is left, collects the digits in an array of 36 bytes and
copies them back in the other order.
-/

namespace Manrix

open Function List Numeral

def upperCase : BitVec 32 := 64

/-- `lower`, with the terminator of the string. -/
def lower : List (BitVec 8) :=
  [0x30, 0x31, 0x32, 0x33, 0x34, 0x35, 0x36, 0x37, 0x38, 0x39, 0x61, 0x62, 0x63, 0x64, 0x65, 0x66, 0]

def upper : List (BitVec 8) :=
  [0x30, 0x31, 0x32, 0x33, 0x34, 0x35, 0x36, 0x37, 0x38, 0x39, 0x41, 0x42, 0x43, 0x44, 0x45, 0x46, 0]

/-- The size of `tmps`. -/
def tmpsSize : Nat := 36

/-- The digits that `flag` selects. -/
def ctrlDigits (flag : BitVec 32) : List (BitVec 8) := if flag &&& upperCase ≠ 0 then upper else lower

/-- The loop that collects the digits, with the places that are left in `tmps`.  There is no result after a division by
zero and after an access outside of `tmps` or `digits`. -/
def digitLoop (digits : List (BitVec 8)) (base : BitVec 32) :
    Nat → BitVec 32 → Nat → (Nat → BitVec 8) → Option (Nat × (Nat → BitVec 8))
  | 0, num, count, tmps => if num ≠ 0 then none else some (count, tmps)
  | room + 1, num, count, tmps =>
    if num ≠ 0 then
      if base = 0 then none
      else
        match digits[(num % base).toNat]? with
        | none => none
        | some c => digitLoop digits base room (num / base) (count + 1) (update tmps count c)
    else some (count, tmps)

/-- The loop that copies the digits to `buff`. -/
def copyBack (tmps : Nat → BitVec 8) : Nat → BitVec 32 → (BitVec 32 → BitVec 8) → BitVec 32 → BitVec 8
  | 0, _, mem => mem
  | count + 1, buff, mem => copyBack tmps count (buff + 1) (update mem buff (tmps count))

/-- `ctrl_to_str`, with what `tmps` has in the beginning. -/
def ctrlToStr (tmps : Nat → BitVec 8) (mem : BitVec 32 → BitVec 8) (buff base flag num : BitVec 32) :
    Option ((BitVec 32 → BitVec 8) × Nat) :=
  let digits := ctrlDigits flag
  let (count, tmps) := if num = 0 then (1, update tmps 0 0x30) else (0, tmps)
  match digitLoop digits base (tmpsSize - count) num count tmps with
  | none => none
  | some (count, tmps) =>
    -- `num` is unsigned, so that no sign is written
    some (copyBack tmps count buff mem, count)

/-- The first `count` bytes of `tmps`. -/
def digitsIn (tmps : Nat → BitVec 8) (count : Nat) : List (BitVec 8) := (List.range count).map tmps

section

variable {digits : List (BitVec 8)} {base : BitVec 32} {room count : Nat} {num : BitVec 32} {tmps : Nat → BitVec 8}

private theorem digitsIn_succ (tmps : Nat → BitVec 8) (count : Nat) :
    digitsIn tmps (count + 1) = digitsIn tmps count ++ [tmps count] := by
  rw [digitsIn, range_succ, map_append]
  rfl

private theorem digitsIn_update (tmps : Nat → BitVec 8) (count : Nat) (c : BitVec 8) :
    digitsIn (update tmps count c) (count + 1) = digitsIn tmps count ++ [c] := by
  rw [digitsIn_succ, update_self, digitsIn, digitsIn]
  congr 1
  refine map_congr_left fun k hk => update_of_ne ?_ _ _
  exact Nat.ne_of_lt (mem_range.1 hk)

/-- The loop appends the digits `cs` of the number, the lowest one first. -/
private theorem digitLoop_digits (hb : 1 < base.toNat) {cs : List (BitVec 8)}
    (hcs : cs.map some = (Nat.digits base.toNat num.toNat).map (digits[·]?)) (hroom : cs.length ≤ room) (count : Nat)
    (tmps : Nat → BitVec 8) : ∃ tmps', digitLoop digits base room num count tmps = some (count + cs.length, tmps') ∧
      digitsIn tmps' (count + cs.length) = digitsIn tmps count ++ cs := by
  induction cs generalizing room num count tmps with
  | nil =>
    have hnum : num = 0 :=
      BitVec.eq_of_toNat_eq (Nat.digits_eq_nil_iff_eq_zero.1 (map_eq_nil_iff.1 hcs.symm))
    refine ⟨tmps, ?_, (append_nil _).symm⟩
    cases room with
    | zero => exact if_neg (not_not.2 hnum)
    | succ room => exact if_neg (not_not.2 hnum)
  | cons c cs ih =>
    have hnum : num ≠ 0 := by
      rintro rfl
      cases hcs.trans (congrArg (List.map (digits[·]?)) (Nat.digits_zero base.toNat))
    have hbase : base ≠ 0 := by
      rintro rfl
      exact absurd hb (by decide)
    obtain ⟨room, rfl⟩ := Nat.exists_eq_add_of_le' (Nat.le_trans (Nat.succ_le_succ (Nat.zero_le cs.length)) hroom)
    rw [Nat.digits_def' hb (Nat.pos_of_ne_zero fun h => hnum (BitVec.eq_of_toNat_eq h)), map_cons, map_cons,
      List.cons.injEq] at hcs
    obtain ⟨tmps', hloop, hin⟩ := @ih room (num / base) hcs.2 (Nat.le_of_succ_le_succ hroom) (count + 1)
      (update tmps count c)
    have hcount : count + (cs.length + 1) = count + 1 + cs.length := by omega
    rw [length_cons, hcount]
    refine ⟨tmps', ?_, ?_⟩
    · rw [digitLoop, if_pos hnum, if_neg hbase, BitVec.toNat_umod, ← hcs.1]
      exact hloop
    · rw [hin, digitsIn_update, append_assoc]
      rfl

private theorem copyBack_eq (tmps : Nat → BitVec 8) {count : Nat} (hc : count < 2 ^ 32) (buff : BitVec 32)
    (mem : BitVec 32 → BitVec 8) : copyBack tmps count buff mem = memcpy mem buff (digitsIn tmps count).reverse := by
  induction count generalizing buff mem with
  | zero => rfl
  | succ count ih =>
    have happ := memcpy_append mem buff [tmps count] (digitsIn tmps count).reverse
      (by simpa [digitsIn, Nat.add_comm] using hc)
    rw [copyBack, ih (Nat.lt_of_succ_lt hc), ← memcpy_singleton, digitsIn_succ, reverse_append]
    exact happ

end

private theorem ctrlDigits_nodup (flag : BitVec 32) : (ctrlDigits flag).Nodup := by
  unfold ctrlDigits
  split <;> decide

private theorem ctrlDigits_length (flag : BitVec 32) : (ctrlDigits flag).length = 17 := by
  unfold ctrlDigits
  split <;> rfl

private theorem ctrlDigits_zero (flag : BitVec 32) : (ctrlDigits flag)[0]? = some 0x30 := by
  unfold ctrlDigits
  split <;> rfl

def maxDigits (base : BitVec 32) : Nat := if base = 10 then 10 else 8

section

variable {base num : BitVec 32}

private theorem digits_length_le (hb : base = 10 ∨ base = 16) (num : BitVec 32) :
    (Nat.digits base.toNat num.toNat).length ≤ maxDigits base := by
  have hlt := num.isLt
  rcases hb with rfl | rfl
  · exact (Nat.digits_length_le_iff (by decide) _).2 (Nat.lt_trans hlt (by decide))
  · exact (Nat.digits_length_le_iff (by decide) _).2 (Nat.lt_of_lt_of_le hlt (by decide))

/-- The call writes `s` and nothing else. -/
def WritesString (base flag num : BitVec 32) (s : List (BitVec 8)) : Prop :=
  ∀ tmps mem buff, ctrlToStr tmps mem buff base flag num = some (memcpy mem buff s, s.length)

private theorem writes_zero (base flag : BitVec 32) : WritesString base flag 0 [0x30] := by
  intro tmps mem buff
  change some (copyBack (update tmps 0 0x30) 1 buff mem, 1) = _
  rw [copyBack_eq _ (by decide), digitsIn_update]
  rfl

private theorem writes_digits (hb : 1 < base.toNat) {flag : BitVec 32} (hnum : num ≠ 0) {cs : List (BitVec 8)}
    (hcs : cs.map some = (Nat.digits base.toNat num.toNat).map ((ctrlDigits flag)[·]?)) (hlen : cs.length ≤ tmpsSize) :
    WritesString base flag num cs.reverse := by
  intro tmps mem buff
  obtain ⟨tmps', hloop, hin⟩ := digitLoop_digits hb hcs hlen 0 tmps
  rw [Nat.zero_add] at hloop hin
  unfold ctrlToStr
  rw [if_neg hnum]
  dsimp only
  rw [Nat.sub_zero, hloop]
  dsimp only
  rw [copyBack_eq tmps' (Nat.lt_of_le_of_lt hlen (by decide)), hin, length_reverse]
  rfl

private theorem exists_writes (hb : base = 10 ∨ base = 16) (flag num : BitVec 32) : ∃ s,
    IsNumeral (ctrlDigits flag) base.toNat num.toNat s ∧ s.length ≤ maxDigits base ∧ WritesString base flag num s := by
  have hb1 : 1 < base.toNat := by rcases hb with rfl | rfl <;> decide
  by_cases hnum : num = 0
  · subst hnum
    refine ⟨[0x30], ?_, ?_, writes_zero base flag⟩
    · exact isNumeral_zero (ctrlDigits_nodup flag) (Nat.lt_trans Nat.zero_lt_one hb1) (ctrlDigits_zero flag)
    · rcases hb with rfl | rfl <;> decide
  · have hb16 : base.toNat ≤ (ctrlDigits flag).length := by
      rw [ctrlDigits_length]
      rcases hb with rfl | rfl <;> decide
    have hmax : maxDigits base ≤ tmpsSize := by rcases hb with rfl | rfl <;> decide
    obtain ⟨cs, hcs⟩ := exists_letters hb1 hb16 num.toNat
    have hlen : cs.length ≤ maxDigits base := by
      rw [← length_map some, hcs, length_map]
      exact digits_length_le hb num
    have h0 : num.toNat ≠ 0 := fun h => hnum (BitVec.eq_of_toNat_eq h)
    refine ⟨cs.reverse, isNumeral_of_digits (ctrlDigits_nodup flag) hb1 h0 hcs, ?_,
      writes_digits hb1 hnum hcs (Nat.le_trans hlen hmax)⟩
    rwa [length_reverse]

/-- For every number and the bases 10 and 16, `ctrl_to_str` writes the number to `buff` in the digits that `flag`
selects, at most 10 or 8 of them, without leaving its array, and returns how many it has written.  A call that writes
the same string had the same number. -/
theorem ctrl_to_str_numeral (hb : base = 10 ∨ base = 16) (flag num : BitVec 32) : ∃ s,
    WritesString base flag num s ∧ IsNumeral (ctrlDigits flag) base.toNat num.toNat s ∧ s.length ≤ maxDigits base ∧
    ∀ tmps mem buff num', ctrlToStr tmps mem buff base flag num' = some (memcpy mem buff s, s.length) → num' = num := by
  obtain ⟨s, hs, hlen, hw⟩ := exists_writes hb flag num
  refine ⟨s, hw, hs, hlen, fun tmps mem buff num' h => ?_⟩
  obtain ⟨s', hs', hlen', hw'⟩ := exists_writes hb flag num'
  have hmax : maxDigits base ≤ 2 ^ 32 := by rcases hb with rfl | rfl <;> decide
  rw [hw', Option.some.injEq, Prod.mk.injEq] at h
  obtain rfl := memcpy_inj h.2 (Nat.le_trans hlen' hmax) h.1
  exact BitVec.eq_of_toNat_eq (hs'.unique hs)

/-- The largest number in capital letters. -/
theorem ctrl_to_str_max : ∃ s, WritesString 16 upperCase 0xFFFFFFFF s ∧
    IsNumeral (ctrlDigits upperCase) 16 (2 ^ 32 - 1) s ∧ s.length ≤ 8 := by
  obtain ⟨s, hw, hs, hlen, -⟩ := @ctrl_to_str_numeral 16 (.inr rfl) upperCase 0xFFFFFFFF
  exact ⟨s, hw, hs, hlen⟩

end

end Manrix
