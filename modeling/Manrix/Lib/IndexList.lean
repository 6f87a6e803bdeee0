import Mathlib.Data.List.Basic
import Mathlib.Logic.Function.Basic

/-!
# A list threaded through an array of indices

An array `next` holds, for every element of a list, the element after it, and a `stop` value ends the list; the list is
given by its first element.  Pushing an element writes one entry of the array, popping the first one writes none.
-/

namespace IndexList

open Function

variable {α : Type*}

/-- From `top` along `next` one meets `xs` and then `stop`. -/
def IsChain (next : α → α) (stop : α) : α → List α → Prop
  | top, [] => top = stop
  | top, x :: xs => top = x ∧ IsChain next stop (next x) xs

variable {next next' : α → α} {stop top x : α} {xs : List α}

theorem IsChain.congr (h : IsChain next stop top xs) (he : ∀ y ∈ xs, next' y = next y) : IsChain next' stop top xs := by
  induction xs generalizing top with
  | nil => exact h
  | cons y ys ih =>
    refine ⟨h.1, ?_⟩
    rw [he y (List.mem_cons_self ..)]
    exact ih h.2 fun z hz => he z (List.mem_cons_of_mem _ hz)

/-- The entry of the new first element is the old first element. -/
theorem IsChain.push [DecidableEq α] (h : IsChain next stop top xs) (hx : x ∉ xs) :
    IsChain (update next x top) stop x (x :: xs) := by
  refine ⟨rfl, ?_⟩
  rw [update_self]
  refine h.congr fun y hy => update_of_ne ?_ _ _
  rintro rfl
  exact hx hy

/-- An array that counts up to a last entry holds the whole range. -/
theorem isChain_range {f : Nat → α} {m i : Nat} (hs : ∀ k, i ≤ k → k < i + m → next (f k) = f (k + 1))
    (he : next (f (i + m)) = stop) : IsChain next stop (f i) ((List.range' i (m + 1)).map f) := by
  induction m generalizing i with
  | zero => exact ⟨rfl, he⟩
  | succ m ih =>
    rw [List.range'_succ, List.map_cons]
    refine ⟨rfl, ?_⟩
    rw [hs i (Nat.le_refl i) (by omega)]
    exact ih (fun k h1 h2 => hs k (by omega) (by omega)) (by rw [← he]; congr 2; omega)

end IndexList
