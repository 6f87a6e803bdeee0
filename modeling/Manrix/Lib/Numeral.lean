import Mathlib.Data.Nat.Digits.Lemmas

/-!
# Numbers written with the letters of an alphabet

The letters of an alphabet are the digits, in their order, and a number is written with the highest digit first.
-/

namespace Numeral

variable {α : Type*} [DecidableEq α]

/-- `s` is the number `n` in the base `base`, without a zero in front. -/
structure IsNumeral (alphabet : List α) (base n : Nat) (s : List α) : Prop where
  nonempty : s ≠ []
  digits : ∀ c ∈ s, ∃ d < base, alphabet[d]? = some c
  value : Nat.ofDigits base (s.reverse.map alphabet.idxOf) = n
  leading : ∀ c ∈ s.head?, alphabet.idxOf c = 0 → n = 0 ∧ s = [c]

variable {alphabet s cs : List α} {base n m : Nat} {ds : List Nat} {c : α}

/-- A string is the numeral of one number. -/
theorem IsNumeral.unique (h : IsNumeral alphabet base n s) (h' : IsNumeral alphabet base m s) : n = m :=
  h.value.symm.trans h'.value

theorem idxOf_of_getElem? (hn : alphabet.Nodup) {d : Nat} (h : alphabet[d]? = some c) : alphabet.idxOf c = d := by
  obtain ⟨hd, rfl⟩ := List.getElem?_eq_some_iff.1 h
  exact hn.idxOf_getElem d hd

theorem map_idxOf (hn : alphabet.Nodup) (h : cs.map some = ds.map (alphabet[·]?)) : cs.map alphabet.idxOf = ds := by
  induction ds generalizing cs with
  | nil =>
    obtain rfl := List.map_eq_nil_iff.1 h
    rfl
  | cons d ds ih =>
    obtain ⟨c, cs, rfl, hc, hcs⟩ := List.map_eq_cons_iff.1 h
    rw [List.map_cons, idxOf_of_getElem? hn hc.symm, ih hcs]

omit [DecidableEq α] in
/-- The digits have letters when the alphabet is large enough. -/
theorem exists_letters (hb : 1 < base) (hlen : base ≤ alphabet.length) (n : Nat) :
    ∃ cs : List α, cs.map some = (Nat.digits base n).map (alphabet[·]?) := by
  have hd : ∀ d ∈ Nat.digits base n, d < alphabet.length := fun d hd =>
    Nat.lt_of_lt_of_le (Nat.digits_lt_base hb hd) hlen
  generalize Nat.digits base n = ds at hd
  induction ds with
  | nil => exact ⟨[], rfl⟩
  | cons d ds ih =>
    obtain ⟨cs, hcs⟩ := ih fun d' hd' => hd d' (List.mem_cons_of_mem _ hd')
    have hlt := hd d (List.mem_cons_self ..)
    exact ⟨alphabet[d] :: cs, by rw [List.map_cons, List.map_cons, List.getElem?_eq_getElem hlt, hcs]⟩

theorem isNumeral_zero (hn : alphabet.Nodup) (hb : 0 < base) (h : alphabet[0]? = some c) :
    IsNumeral alphabet base 0 [c] where
  nonempty := List.cons_ne_nil c []
  digits b hb' := ⟨0, hb, h.trans (congrArg some (List.mem_singleton.1 hb').symm)⟩
  value := by
    change Nat.ofDigits base [alphabet.idxOf c] = 0
    rw [idxOf_of_getElem? hn h, Nat.ofDigits_singleton]
  leading b hb' _ := ⟨rfl, congrArg (fun a => [a]) (Option.some.inj hb')⟩

/-- The letters of the digits, read backwards. -/
theorem isNumeral_of_digits (hn : alphabet.Nodup) (hb : 1 < base) (h0 : n ≠ 0)
    (hcs : cs.map some = (Nat.digits base n).map (alphabet[·]?)) : IsNumeral alphabet base n cs.reverse where
  nonempty := by
    intro h
    rw [List.reverse_eq_nil_iff.1 h] at hcs
    exact Nat.digits_ne_nil_iff_ne_zero.2 h0 (List.map_eq_nil_iff.1 hcs.symm)
  digits c hc := by
    have hmem : some c ∈ cs.map some := List.mem_map_of_mem (List.mem_reverse.1 hc)
    rw [hcs] at hmem
    obtain ⟨d, hd, he⟩ := List.mem_map.1 hmem
    exact ⟨d, Nat.digits_lt_base hb hd, he⟩
  value := by rw [List.reverse_reverse, map_idxOf hn hcs, Nat.ofDigits_digits]
  leading c hc hz := by
    have hlast : (Nat.digits base n).getLast? = some 0 := by
      rw [← map_idxOf hn hcs, List.getLast?_map, ← List.head?_reverse, hc, Option.map_some, hz]
    rw [List.getLast?_eq_some_getLast (Nat.digits_ne_nil_iff_ne_zero.2 h0), Option.some.injEq] at hlast
    exact absurd hlast (Nat.getLast_digit_ne_zero base h0)

end Numeral
