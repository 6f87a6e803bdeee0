import Mathlib.Data.List.Basic
import Mathlib.Logic.Function.Basic
import Manrix.Lib.Fuel

/-!
# Chains that end in a null pointer

A chain is given by a pointer to its first cell, and every cell has a pointer to the next one.  `chainFind` is the loop
that follows the pointers until a cell passes a test; on a chain it is `List.find?`.  In a table of chains a cell that
is on none of them is put in front of one.
-/

namespace Chain

open Fuel Function List

variable {α : Type*}

/-- From `top` along `next` one meets `xs` and then the null pointer. -/
def IsChain (next : α → Option α) : Option α → List α → Prop
  | top, [] => top = none
  | top, x :: xs => top = some x ∧ IsChain next (next x) xs

variable {next next' : α → Option α} {top : Option α} {x : α} {xs ys : List α} {test : α → Bool}

theorem IsChain.congr (h : IsChain next top xs) (he : ∀ y ∈ xs, next' y = next y) : IsChain next' top xs := by
  induction xs generalizing top with
  | nil => exact h
  | cons y ys ih =>
    refine ⟨h.1, ?_⟩
    rw [he y (mem_cons_self ..)]
    exact ih h.2 fun z hz => he z (mem_cons_of_mem _ hz)

theorem IsChain.nil_iff (h : IsChain next top xs) : top = none ↔ xs = [] := by
  cases xs with
  | nil => exact ⟨fun _ => rfl, fun _ => h⟩
  | cons x xs =>
    rw [h.1]
    simp

theorem IsChain.head_eq (h : IsChain next (some x) xs) : xs = x :: xs.tail := by
  cases xs with
  | nil => cases h
  | cons y ys =>
    cases h.1
    rfl

theorem IsChain.tail (h : IsChain next (some x) xs) : IsChain next (next x) xs.tail := by
  rw [h.head_eq] at h
  exact h.2

/-- A pointer leads to one chain at most. -/
theorem IsChain.unique (h : IsChain next top xs) (h' : IsChain next top ys) : xs = ys := by
  induction xs generalizing top ys with
  | nil =>
    cases ys with
    | nil => rfl
    | cons y ys => exact absurd (h.symm.trans h'.1) (by simp)
  | cons x xs ih =>
    cases ys with
    | nil => exact absurd (h'.symm.trans h.1) (by simp)
    | cons y ys =>
      cases h.1.symm.trans h'.1
      rw [ih h.2 h'.2]

/-- The part of a chain behind a cell. -/
theorem IsChain.behind {us : List α} (h : IsChain next top (us ++ x :: xs)) : IsChain next (next x) xs := by
  induction us generalizing top with
  | nil => exact h.2
  | cons u us ih => exact ih h.2

/-- A chain that ends does not come back to a cell. -/
theorem IsChain.nodup (h : IsChain next top xs) : xs.Nodup := by
  induction xs generalizing top with
  | nil => exact nodup_nil
  | cons x xs ih =>
    refine nodup_cons.2 ⟨fun hm => ?_, ih h.2⟩
    obtain ⟨us, vs, hxs⟩ := append_of_mem hm
    have hvs : IsChain next (next x) vs := (hxs ▸ h.2 : IsChain next (next x) (us ++ x :: vs)).behind
    have hlen := congrArg List.length ((h.2.unique hvs).symm.trans hxs)
    rw [length_append, length_cons] at hlen
    omega

/-- A chain leads to `x` if the pointers of the cells before it are those of a chain with `x`. -/
theorem IsChain.mem_of_agree {us vs : List α} (h : IsChain next top (us ++ x :: vs)) (h' : IsChain next' top ys)
    (he : ∀ u ∈ us, next' u = next u) : x ∈ ys := by
  induction us generalizing top ys with
  | nil =>
    have htop : top = some x := h.1
    rw [htop] at h'
    rw [h'.head_eq]
    exact mem_cons_self ..
  | cons u us ih =>
    have htop : top = some u := h.1
    rw [htop] at h'
    have hd := he u (mem_cons_self ..)
    rw [h'.head_eq]
    exact mem_cons_of_mem _ (ih h.2 (hd ▸ h'.tail) fun w hw => he w (mem_cons_of_mem _ hw))

/-- A cell of a chain gets a pointer to the first cell of another one. -/
theorem IsChain.redirect [DecidableEq α] {us vs ws : List α} {top' : Option α} (h : IsChain next top (us ++ x :: vs))
    (hx : x ∉ us) (h' : IsChain next top' ws) (hw : x ∉ ws) : IsChain (update next x top') top (us ++ x :: ws) := by
  have hne : ∀ l : List α, x ∉ l → ∀ y ∈ l, update next x top' y = next y := fun l hl y hy =>
    update_of_ne (ne_of_mem_of_not_mem hy hl) ..
  induction us generalizing top with
  | nil =>
    refine ⟨h.1, ?_⟩
    rw [update_self]
    exact h'.congr (hne ws hw)
  | cons u us ih =>
    refine ⟨h.1, ?_⟩
    rw [hne _ hx u (mem_cons_self ..)]
    exact ih h.2 fun hm => hx (mem_cons_of_mem _ hm)

/-- The new first cell points to the old one. -/
theorem IsChain.push [DecidableEq α] (h : IsChain next top xs) (hx : x ∉ xs) :
    IsChain (update next x top) (some x) (x :: xs) := by
  refine ⟨rfl, ?_⟩
  rw [update_self]
  refine h.congr fun y hy => update_of_ne ?_ _ _
  rintro rfl
  exact hx hy

section Table

variable [DecidableEq α] {β : Type*} [DecidableEq β] {table : β → Option α} {chain : β → List α} {b b' : β}

/-- The new cell is put in front of the chain at `b`: the chain at `b'` has it in front, or stays. -/
theorem IsChain.push_table (h : IsChain next (table b') xs) (hx : x ∉ xs) :
    IsChain (update next x (table b)) (update table b (some x) b') (if b' = b then x :: xs else xs) := by
  split
  · rename_i hb
    rw [← hb, update_self]
    exact h.push hx
  · rename_i hb
    rw [update_of_ne hb]
    refine h.congr fun y hy => update_of_ne ?_ _ _
    rintro rfl
    exact hx hy

omit [DecidableEq α] in
theorem push_eq_ite : update chain b (x :: chain b) b' = if b' = b then x :: chain b' else chain b' := by
  rw [update_apply]
  split
  · rename_i hb
    rw [hb]
  · rfl

theorem isChain_push (h : ∀ b, IsChain next (table b) (chain b)) (hx : ∀ b, x ∉ chain b) (b b' : β) :
    IsChain (update next x (table b)) (update table b (some x) b') (update chain b (x :: chain b) b') := by
  rw [push_eq_ite]
  exact (h b').push_table (hx b')

omit [DecidableEq α] in
theorem nodup_push (h : ∀ b, (chain b).Nodup) (hx : ∀ b, x ∉ chain b) (b b' : β) :
    (update chain b (x :: chain b) b').Nodup := by
  rw [push_eq_ite]
  split
  · exact nodup_cons.2 ⟨hx b', h b'⟩
  · exact h b'

omit [DecidableEq α] in
theorem mem_push {y : α} : y ∈ update chain b (x :: chain b) b' ↔ (b' = b ∧ y = x) ∨ y ∈ chain b' := by
  rw [push_eq_ite]
  split
  · rename_i hb
    simp [hb]
  · rename_i hb
    simp [hb]

omit [DecidableEq β] in
/-- A cell with a new key is added to a table, or gets the key there. -/
theorem distinct_update {κ : Type*} {key key' : α → κ} {inTable : α → Bool}
    (hd : ∀ y z, inTable y = true → inTable z = true → key y = key z → y = z) (hkey : ∀ y, y ≠ x → key' y = key y)
    (hnew : ∀ y, inTable y = true → key y ≠ key' x) (y z : α) (hy : update inTable x true y = true)
    (hz : update inTable x true z = true) (he : key' y = key' z) : y = z := by
  by_cases hyx : y = x <;> by_cases hzx : z = x
  · rw [hyx, hzx]
  · rw [update_of_ne hzx] at hz
    rw [hyx, hkey z hzx] at he
    exact absurd he.symm (hnew z hz)
  · rw [update_of_ne hyx] at hy
    rw [hzx, hkey y hyx] at he
    exact absurd he (hnew y hy)
  · rw [update_of_ne hyx] at hy
    rw [update_of_ne hzx] at hz
    rw [hkey y hyx, hkey z hzx] at he
    exact hd y z hy hz he

end Table

/-- Follow `next` from a cell until one passes the test. -/
def chainFind (next : α → Option α) (test : α → Bool) : Nat → Option α → Option (Option α)
  | 0, _ => none
  | _ + 1, none => some none
  | fuel + 1, some x => if test x then some (some x) else chainFind next test fuel (next x)

theorem chainFind_eq (h : IsChain next top xs) (test : α → Bool) {fuel : Nat} (hf : xs.length < fuel) :
    chainFind next test fuel top = some (xs.find? test) := by
  induction xs generalizing top fuel with
  | nil =>
    rcases fuel with _ | fuel
    · omega
    rw [show top = none from h]
    rfl
  | cons x xs ih =>
    rcases fuel with _ | fuel
    · omega
    rw [h.1, find?_cons]
    unfold chainFind
    cases test x with
    | true => rfl
    | false =>
      refine (if_neg Bool.false_ne_true).trans (ih h.2 ?_)
      rw [length_cons] at hf
      omega

/-- A cell that is found is one of those that the pointers lead to, and passes the test. -/
theorem chainFind_mem {A : α → Prop} {fuel : Nat} (hnext : ∀ y z, A y → next y = some z → A z)
    (htop : ∀ y, top = some y → A y) (h : chainFind next test fuel top = some (some x)) : A x ∧ test x = true := by
  induction fuel generalizing top with
  | zero => cases h
  | succ fuel ih =>
    cases top with
    | none => cases h
    | some y =>
      unfold chainFind at h
      split at h
      · rename_i hy
        obtain rfl := Option.some.inj (Option.some.inj h)
        exact ⟨htop y rfl, hy⟩
      · exact ih (fun z hz => hnext y z (htop y rfl) hz) h

theorem chainFind_test {fuel : Nat} (h : chainFind next test fuel top = some (some x)) : test x = true :=
  (chainFind_mem (A := fun _ => True) (fun _ _ _ _ => trivial) (fun _ _ => trivial) h).2

/-- A search that finds a cell also ends if it looks for the cell itself. -/
theorem chainFind_self [DecidableEq α] {fuel : Nat} (h : chainFind next test fuel top = some (some x)) :
    chainFind next (fun y => y = x) fuel top = some (some x) := by
  induction fuel generalizing top with
  | zero => cases h
  | succ fuel ih =>
    cases top with
    | none => cases h
    | some y =>
      unfold chainFind at h ⊢
      by_cases hy : y = x
      · simp [hy]
      · rw [if_neg (by simpa using hy)]
        split at h
        · exact absurd (Option.some.inj (Option.some.inj h)) hy
        · exact ih h

theorem chainFind_extends {fuel fuel' : Nat} (hf : fuel ≤ fuel') (top : Option α) :
    Extends (chainFind next test fuel top) (chainFind next test fuel' top) := by
  refine le_rounds (R := fun n m => ∀ top, Extends (chainFind next test n top) (chainFind next test m top)) ?_ ?_ hf top
  · exact fun m top => extends_none _
  · intro n m ih top
    cases top with
    | none => exact .refl _
    | some x => exact .ite (.refl _) (ih (next x))

/-- Whatever the fuel, a result is that of `List.find?`. -/
theorem chainFind_some (h : IsChain next top xs) {test : α → Bool} {fuel : Nat} {r : Option α}
    (hr : chainFind next test fuel top = some r) : r = xs.find? test :=
  eq_of_extends (fun hf => chainFind_extends hf top) hr (chainFind_eq h test (Nat.lt_succ_self xs.length))

end Chain
