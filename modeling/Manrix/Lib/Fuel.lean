import Mathlib.Tactic.TypeStar

/-!
# Loops with fuel

A loop that need not end is a function with fuel, which has no value when the fuel runs out.  `Extends a b` says that a
value of `a` is also the value of `b`.  The operations that such functions are made of keep it, and so does a round of a
loop; by `le_rounds` a loop is then extended by the one with more fuel, and its value does not depend on the fuel
(`eq_of_extends`).
-/

namespace Fuel

variable {α β : Type*} {a a' b b' : Option α}

/-- If `a` has a value, it is that of `b`. -/
def Extends (a b : Option α) : Prop := ∀ r, a = some r → b = some r

theorem Extends.refl (a : Option α) : Extends a a := fun _ h => h

theorem extends_none (b : Option α) : Extends none b := by
  intro r h
  cases h

theorem Extends.map (h : Extends a b) (f : α → β) : Extends (a.map f) (b.map f) := by
  intro r hr
  obtain ⟨x, hx, rfl⟩ := Option.map_eq_some_iff.mp hr
  exact Option.map_eq_some_iff.mpr ⟨x, h x hx, rfl⟩

theorem Extends.bind {f g : α → Option β} (h : Extends a b) (hfg : ∀ x, Extends (f x) (g x)) :
    Extends (a.bind f) (b.bind g) := by
  intro r hr
  obtain ⟨x, hx, hr⟩ := Option.bind_eq_some_iff.mp hr
  exact Option.bind_eq_some_iff.mpr ⟨x, h x hx, hfg x r hr⟩

theorem Extends.ite {c : Prop} [Decidable c] (ha : Extends a a') (hb : Extends b b') :
    Extends (if c then a else b) (if c then a' else b') := by
  split
  · exact ha
  · exact hb

/-- Induction for a loop and the same loop with more fuel. -/
theorem le_rounds {R : Nat → Nat → Prop} (zero : ∀ m, R 0 m) (succ : ∀ n m, R n m → R (n + 1) (m + 1)) {n m : Nat}
    (h : n ≤ m) : R n m := by
  induction n generalizing m with
  | zero => exact zero m
  | succ n ih =>
    obtain ⟨m, rfl⟩ := Nat.exists_eq_add_one_of_ne_zero (Nat.ne_zero_of_lt h)
    exact succ n m (ih (Nat.le_of_succ_le_succ h))

/-- The value does not depend on the fuel. -/
theorem eq_of_extends {f : Nat → Option α} {n m : Nat} {x y : α} (hf : ∀ {n m}, n ≤ m → Extends (f n) (f m))
    (hx : f n = some x) (hy : f m = some y) : x = y := by
  rcases Nat.le_total n m with h | h
  · exact Option.some.inj ((hf h x hx).symm.trans hy)
  · exact Option.some.inj (hx.symm.trans (hf h y hy))

end Fuel
