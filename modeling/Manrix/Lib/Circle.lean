import Mathlib.Logic.Function.Iterate
import Manrix.Lib.Fuel
import Manrix.Lib.Links

/-!
# Circular lists along one field, and loops around them

`IsCircle f v xs`: following `f` from `v` visits each of `xs` once and returns to `v`.  Nothing is asked of a field for
the way back, so a circle survives a `prev` field that is not maintained.

`circleLoop` is the loop that starts at a cell and follows `f` until it is back at `v`, unless its body stops it; on a
circle it computes `scan`, which runs the body over the list of cells (`circleLoop_eq`).  `Reaches` is what a walk along
any field meets; `reaches_redirect_iff` follows a walk whose field has been redirected.
-/

namespace Links

open Fuel Function List

variable {α β σ : Type*} {f : α → α} {v a e x : α} {xs : List α}

/-- Following `f` from `v` visits each of `xs` once and returns to `v`. -/
structure IsCircle (f : α → α) (v : α) (xs : List α) : Prop where
  nodup : (v :: xs).Nodup
  path : Path f v xs v

/-- The cell `e` is reached from `v` in some number of steps. -/
def Reaches (f : α → α) (v e : α) : Prop := ∃ n : Nat, f^[n] v = e

theorem Reaches.refl (f : α → α) (v : α) : Reaches f v v := ⟨0, rfl⟩

theorem Reaches.step (h : Reaches f v a) : Reaches f v (f a) := by
  obtain ⟨n, rfl⟩ := h
  exact ⟨n + 1, Function.iterate_succ_apply' ..⟩

/-- What holds at `v` and is kept by a step holds at every reached cell. -/
theorem Reaches.induct {P : α → Prop} (h : Reaches f v e) (h0 : P v) (hs : ∀ a, Reaches f v a → P a → P (f a)) :
    P e := by
  obtain ⟨n, rfl⟩ := h
  induction n with
  | zero => exact h0
  | succ n ih =>
    rw [Function.iterate_succ_apply']
    exact hs _ ⟨n, rfl⟩ ih

theorem IsCircle.apply_mem (hc : IsCircle f v xs) (hx : x ∈ v :: xs) : f x ∈ v :: xs := by
  obtain ⟨us, vs, rfl, rfl⟩ := exists_split hx
  have hm : (vs ++ [v]).head (by simp) ∈ vs ++ [v] := head_mem _
  rw [hc.path.apply_split]
  simp only [mem_append, mem_cons, not_mem_nil, or_false] at hm ⊢
  tauto

theorem Path.reaches (h : Path f a xs e) : Reaches f a e := by
  induction xs generalizing a with
  | nil => exact ⟨1, h⟩
  | cons x xs ih =>
    obtain ⟨n, hn⟩ := ih h.2
    refine ⟨n + 1, ?_⟩
    rw [Function.iterate_succ_apply, h.1, hn]

/-- The cells of a circle are those reached from `v`. -/
theorem IsCircle.reaches_iff (hc : IsCircle f v xs) : Reaches f v e ↔ e ∈ v :: xs := by
  constructor
  · intro h
    exact h.induct (mem_cons_self ..) fun a _ ha => hc.apply_mem ha
  · intro h
    rcases mem_cons.1 h with rfl | h
    · exact ⟨0, rfl⟩
    · obtain ⟨us, vs, rfl⟩ := append_of_mem h
      exact (path_append_cons.1 hc.path).1.reaches

/-- From every cell of a circle the way back to `v` is a path. -/
theorem IsCircle.path_back (hc : IsCircle f v xs) (hx : x ∈ v :: xs) :
    ∃ vs, Path f x vs v ∧ v ∉ vs ∧ (∀ y ∈ x :: vs, y ∈ v :: xs) ∧ vs.length ≤ xs.length := by
  have hnd := hc.nodup
  rw [nodup_cons] at hnd
  rcases mem_cons.1 hx with rfl | h
  · exact ⟨xs, hc.path, hnd.1, fun y hy => hy, Nat.le_refl _⟩
  · obtain ⟨us, vs, rfl⟩ := append_of_mem h
    refine ⟨vs, (path_append_cons.1 hc.path).2, ?_, ?_, ?_⟩
    · intro hm
      exact hnd.1 (by simp [hm])
    · intro y hy
      exact mem_cons_of_mem _ (mem_append_right _ hy)
    · rw [length_append, length_cons]
      omega

/-- Putting a new cell behind the cell `a`. -/
theorem IsCircle.insert [DecidableEq α] (hc : IsCircle f v xs) (ha : a ∈ v :: xs) (hx : x ∉ v :: xs) :
    ∃ ys, IsCircle (update (update f a x) x (f a)) v ys ∧ ∀ e, e ∈ v :: ys ↔ e = x ∨ e ∈ v :: xs := by
  obtain ⟨us, vs, rfl, rfl⟩ := exists_split ha
  have hp : (v :: (us ++ x :: vs)).Perm (x :: v :: (us ++ vs)) :=
    (List.Perm.cons v perm_middle).trans (List.Perm.swap ..)
  have hnd := hp.nodup_iff.2 (nodup_cons.2 ⟨hx, hc.nodup⟩)
  refine ⟨us ++ x :: vs, ⟨hnd, hc.path.insert hc.nodup hx⟩, fun e => ?_⟩
  rw [hp.mem_iff, mem_cons]

/-- The walk along `f` that does not go on from the cells of `S`. -/
def stopAt (f : α → α) (S : α → Prop) [DecidablePred S] (a : α) : α := if S a then a else f a

section Stop

variable {g : α → α} {S : α → Prop} [DecidablePred S] {n : α}

theorem stopAt_of_mem (hS : S a) : stopAt f S a = a := if_pos hS

theorem stopAt_of_notMem (hS : ¬ S a) : stopAt f S a = f a := if_neg hS

theorem Reaches.step_stopAt (h : Reaches (stopAt f S) v a) (hS : ¬ S a) : Reaches (stopAt f S) v (f a) := by
  have hs := h.step
  rwa [stopAt_of_notMem hS] at hs

/-- A walk that agrees with `f` outside of `S` meets the cells of the walk that stops. -/
theorem Reaches.of_stopAt (hg : ∀ a, Reaches (stopAt f S) v a → ¬ S a → g a = f a) (h : Reaches (stopAt f S) v e) :
    Reaches g v e := by
  refine h.induct (Reaches.refl g v) fun a ha hr => ?_
  by_cases hS : S a
  · rwa [stopAt_of_mem hS]
  · rw [stopAt_of_notMem hS, ← hg a ha hS]
    exact hr.step

/-- On the way to a cell of `S` the walk that stops meets one. -/
theorem Reaches.exists_stop (h : Reaches f v e) (he : S e) : ∃ s, S s ∧ Reaches (stopAt f S) v s := by
  have hor : Reaches (stopAt f S) v e ∨ ∃ s, S s ∧ Reaches (stopAt f S) v s := by
    refine h.induct (P := fun e => Reaches (stopAt f S) v e ∨ _) (.inl (Reaches.refl _ v)) fun a _ ih => ?_
    rcases ih with ha | ih
    · by_cases hS : S a
      · exact .inr ⟨a, hS, ha⟩
      · exact .inl (ha.step_stopAt hS)
    · exact .inr ih
  rcases hor with h | h
  · exact ⟨e, he, h⟩
  · exact h

/-- If the walk goes from the cells of `S` to a cell `n` that it does not leave, it meets the cells of the walk that
stops at `S`, and `n`. -/
theorem reaches_redirect_iff (hg : ∀ a, Reaches (stopAt f S) v a → g a = if S a then n else f a) (hn : g n = n)
    (hs : ∃ s, S s ∧ Reaches (stopAt f S) v s) : Reaches g v e ↔ Reaches (stopAt f S) v e ∨ e = n := by
  have hsub {a : α} (ha : Reaches (stopAt f S) v a) : Reaches g v a :=
    ha.of_stopAt fun b hb hS => by rw [hg b hb, if_neg hS]
  constructor
  · intro h
    refine h.induct (P := fun e => Reaches (stopAt f S) v e ∨ e = n) (.inl (Reaches.refl _ v))
      fun a _ ih => ?_
    rcases ih with ha | rfl
    · rw [hg a ha]
      split
      · exact .inr rfl
      · exact .inl (ha.step_stopAt ‹_›)
    · exact .inr hn
  · intro h
    rcases h with h | rfl
    · exact hsub h
    · obtain ⟨s, hS, hs⟩ := hs
      have := (hsub hs).step
      rwa [hg s hs, if_pos hS] at this

end Stop

/-- Run `body` at `a`, at `f a` and so on until it stops with a result or the next cell is `v`. -/
def circleLoop [DecidableEq α] (f : α → α) (v : α) (body : α → σ → β ⊕ σ) : Nat → α → σ → Option (β ⊕ σ)
  | 0, _, _ => none
  | fuel + 1, a, s =>
    match body a s with
    | .inl r => some (.inl r)
    | .inr s' => if f a = v then some (.inr s') else circleLoop f v body fuel (f a) s'

/-- Run `body` over a list of cells until it stops with a result. -/
def scan (body : α → σ → β ⊕ σ) : List α → σ → β ⊕ σ
  | [], s => .inr s
  | a :: as, s =>
    match body a s with
    | .inl r => .inl r
    | .inr s' => scan body as s'

variable {body : α → σ → β ⊕ σ} {s s' : σ} {r : β} {as : List α}

theorem scan_cons : scan body (a :: as) s = match body a s with
    | .inl r => .inl r
    | .inr s' => scan body as s' := rfl

theorem scan_of_inl (h : body a s = .inl r) : scan body (a :: as) s = .inl r := by
  rw [scan_cons, h]

theorem scan_of_inr (h : body a s = .inr s') : scan body (a :: as) s = scan body as s' := by
  rw [scan_cons, h]

section Loop

variable [DecidableEq α] {fuel : Nat}

theorem circleLoop_succ : circleLoop f v body (fuel + 1) a s = match body a s with
    | .inl r => some (.inl r)
    | .inr s' => if f a = v then some (.inr s') else circleLoop f v body fuel (f a) s' := rfl

theorem circleLoop_of_inl (h : body a s = .inl r) : circleLoop f v body (fuel + 1) a s = some (.inl r) := by
  rw [circleLoop_succ, h]

theorem circleLoop_of_inr (h : body a s = .inr s') : circleLoop f v body (fuel + 1) a s =
    if f a = v then some (.inr s') else circleLoop f v body fuel (f a) s' := by
  rw [circleLoop_succ, h]

omit [DecidableEq α] in
private theorem Path.apply_ne (hp : Path f a (x :: xs) v) (hv : v ∉ x :: xs) : f a ≠ v := by
  rw [hp.1]
  rintro rfl
  exact hv (mem_cons_self ..)

theorem circleLoop_eq (hp : Path f a xs v) (hv : v ∉ xs) (hf : xs.length < fuel) :
    circleLoop f v body fuel a s = some (scan body (a :: xs) s) := by
  induction xs generalizing a s fuel with
  | nil =>
    rcases fuel with _ | fuel
    · omega
    cases hb : body a s with
    | inl r => rw [circleLoop_of_inl hb, scan_of_inl hb]
    | inr s' =>
      rw [circleLoop_of_inr hb, scan_of_inr hb]
      exact if_pos hp
  | cons x xs ih =>
    rcases fuel with _ | fuel
    · omega
    cases hb : body a s with
    | inl r => rw [circleLoop_of_inl hb, scan_of_inl hb]
    | inr s' =>
      rw [circleLoop_of_inr hb, scan_of_inr hb, if_neg (hp.apply_ne hv), hp.1]
      exact ih hp.2 (fun h => hv (mem_cons_of_mem _ h)) (by rw [length_cons] at hf; omega)

theorem circleLoop_extends {fuel' : Nat} (hf : fuel ≤ fuel') (a : α) (s : σ) :
    Extends (circleLoop f v body fuel a s) (circleLoop f v body fuel' a s) := by
  refine le_rounds (R := fun n m => ∀ a s, Extends (circleLoop f v body n a s) (circleLoop f v body m a s)) ?_ ?_ hf a s
  · exact fun m a s => extends_none _
  · intro n m ih a s
    rw [circleLoop_succ, circleLoop_succ]
    cases body a s with
    | inl r => exact .refl _
    | inr s' => exact .ite (.refl _) (ih (f a) s')

/-- Whatever the fuel, a result is that of `scan`. -/
theorem circleLoop_some {t : β ⊕ σ} (hp : Path f a xs v) (hv : v ∉ xs)
    (h : circleLoop f v body fuel a s = some t) : t = scan body (a :: xs) s :=
  eq_of_extends (fun hf => circleLoop_extends hf a s) h (circleLoop_eq hp hv (Nat.lt_succ_self xs.length))

end Loop

/-- A body without state that never stops the scan. -/
theorem scan_inr {body : α → Unit → β ⊕ Unit} (h : scan body as () = .inr ()) : ∀ y ∈ as, body y () = .inr () := by
  induction as with
  | nil => simp
  | cons a as ih =>
    cases hb : body a () with
    | inl r =>
      rw [scan_of_inl hb] at h
      cases h
    | inr u =>
      rw [scan_of_inr hb] at h
      intro y hy
      rcases mem_cons.1 hy with rfl | hy
      · exact hb
      · exact ih h y hy

/-- A body without state stops at the first cell at which it has a result. -/
theorem scan_inl {body : α → Unit → β ⊕ Unit} (h : scan body as () = .inl r) :
    ∃ us y vs, as = us ++ y :: vs ∧ (∀ u ∈ us, body u () = .inr ()) ∧ body y () = .inl r := by
  induction as with
  | nil => cases h
  | cons a as ih =>
    cases hb : body a () with
    | inl r' =>
      rw [scan_of_inl hb] at h
      exact ⟨[], a, as, rfl, by simp, hb.trans h⟩
    | inr u =>
      rw [scan_of_inr hb] at h
      obtain ⟨us, y, vs, rfl, h1, h2⟩ := ih h
      refine ⟨a :: us, y, vs, rfl, fun w hw => ?_, h2⟩
      rcases mem_cons.1 hw with rfl | hw
      · exact hb
      · exact h1 w hw

end Links
