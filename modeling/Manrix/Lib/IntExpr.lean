import Mathlib.Algebra.Group.Int.Defs
import Mathlib.Algebra.Group.Nat.Defs

/-!
# Expressions of the type `int`

An expression has a value over the integers.  Evaluated with 32 bits it has none if it or a part of it does not fit into
an `int`, or if it divides by zero.  Where all parts fit, the two values are the same.
-/

namespace IntExpr

def IsInt (x : Int) : Prop := -2 ^ 31 ≤ x ∧ x < 2 ^ 31

instance (x : Int) : Decidable (IsInt x) := inferInstanceAs (Decidable (_ ∧ _))

inductive Op where
  | add
  | sub
  | mul
  | div
  deriving DecidableEq

/-- The division of C rounds towards zero. -/
def Op.apply : Op → Int → Int → Int
  | .add, x, y => x + y
  | .sub, x, y => x - y
  | .mul, x, y => x * y
  | .div, x, y => x.tdiv y

inductive Expr where
  | int (n : Int)
  | bin (o : Op) (a b : Expr)

namespace Expr

instance (n : Nat) : OfNat Expr n := ⟨.int n⟩
instance : Add Expr := ⟨.bin .add⟩
instance : Sub Expr := ⟨.bin .sub⟩
instance : Mul Expr := ⟨.bin .mul⟩
instance : Div Expr := ⟨.bin .div⟩

/-- The value over the integers. -/
def value : Expr → Int
  | .int n => n
  | .bin o a b => o.apply a.value b.value

def eval : Expr → Option Int
  | .int n => if IsInt n then some n else none
  | .bin o a b =>
    a.eval.bind fun x => b.eval.bind fun y =>
      if (o = .div ∧ y = 0) ∨ ¬ IsInt (o.apply x y) then none else some (o.apply x y)

/-- The expression and all its parts have values that fit. -/
def Fits : Expr → Prop
  | .int n => IsInt n
  | .bin o a b => a.Fits ∧ b.Fits ∧ (o = .div → b.value ≠ 0) ∧ IsInt (o.apply a.value b.value)

theorem eval_eq_value {e : Expr} (h : e.Fits) : e.eval = some e.value := by
  induction e with
  | int n => exact if_pos h
  | bin o a b iha ihb =>
    obtain ⟨ha, hb, h0, hv⟩ := h
    have hd : ¬ ((o = .div ∧ b.value = 0) ∨ ¬ IsInt (o.apply a.value b.value)) := by
      rintro (⟨ho, hz⟩ | hn)
      · exact h0 ho hz
      · exact hn hv
    rw [eval, iha ha, ihb hb, Option.bind_some, Option.bind_some, if_neg hd]
    rfl

variable (a b : Expr) (n : Nat)

@[simp] theorem value_int (m : Int) : (int m).value = m := rfl
@[simp] theorem value_ofNat : (no_index (OfNat.ofNat n) : Expr).value = OfNat.ofNat n := rfl
@[simp] theorem value_add : (a + b).value = a.value + b.value := rfl
@[simp] theorem value_sub : (a - b).value = a.value - b.value := rfl
@[simp] theorem value_mul : (a * b).value = a.value * b.value := rfl
@[simp] theorem value_div : (a / b).value = a.value.tdiv b.value := rfl

theorem fits_int (m : Int) : (int m).Fits ↔ IsInt m := Iff.rfl

theorem fits_ofNat : (no_index (OfNat.ofNat n) : Expr).Fits ↔ IsInt (OfNat.ofNat n) := Iff.rfl

theorem fits_add : (a + b).Fits ↔ a.Fits ∧ b.Fits ∧ IsInt (a.value + b.value) := by
  show _ ∧ _ ∧ (_ → _) ∧ _ ↔ _
  simp [Op.apply]

theorem fits_sub : (a - b).Fits ↔ a.Fits ∧ b.Fits ∧ IsInt (a.value - b.value) := by
  show _ ∧ _ ∧ (_ → _) ∧ _ ↔ _
  simp [Op.apply]

theorem fits_mul : (a * b).Fits ↔ a.Fits ∧ b.Fits ∧ IsInt (a.value * b.value) := by
  show _ ∧ _ ∧ (_ → _) ∧ _ ↔ _
  simp [Op.apply]

theorem fits_div : (a / b).Fits ↔ a.Fits ∧ b.Fits ∧ b.value ≠ 0 ∧ IsInt (a.value.tdiv b.value) := by
  show _ ∧ _ ∧ (_ → _) ∧ _ ↔ _
  simp [Op.apply]

end Expr

end IntExpr
