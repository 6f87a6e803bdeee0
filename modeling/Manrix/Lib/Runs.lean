import Mathlib.Logic.Basic

/-!
# Runs of a step relation

A run is recorded as the list of its steps, oldest first, each with the state before it, its label and the state after
it.  `Run.inv` is the invariant rule; its guard restricts the steps that have to keep the invariant, so the same rule
serves runs all of whose steps meet a condition.  `Run.forall_iff` turns an equivalence about one step taken from a
state with the invariant into an equivalence about whole runs.
-/

namespace Runs

open List

variable {σ α : Type*}

/-- `Run step s₀ tr s`: the steps `tr` lead from `s₀` to `s`. -/
inductive Run (step : σ → α → σ → Prop) (s₀ : σ) : List (σ × α × σ) → σ → Prop
  | nil : Run step s₀ [] s₀
  | snoc {tr : List (σ × α × σ)} {s s' : σ} {a : α} :
      Run step s₀ tr s → step s a s' → Run step s₀ (tr ++ [(s, a, s')]) s'

variable {step : σ → α → σ → Prop} {s₀ s : σ} {tr : List (σ × α × σ)}

/-- The invariant rule, for runs all of whose steps meet the guard `G`. -/
theorem Run.inv_of_guard (I : σ → Prop) (G : σ × α × σ → Prop) (h₀ : I s₀)
    (hs : ∀ s a s', I s → G (s, a, s') → step s a s' → I s') (hr : Run step s₀ tr s) (hg : ∀ x ∈ tr, G x) : I s := by
  induction hr with
  | nil => exact h₀
  | snoc _ hst ih =>
    exact hs _ _ _ (ih fun x hx => hg x (mem_append_left _ hx)) (hg _ (by simp)) hst

theorem Run.inv (I : σ → Prop) (h₀ : I s₀) (hs : ∀ s a s', I s → step s a s' → I s') (hr : Run step s₀ tr s) : I s :=
  hr.inv_of_guard I (fun _ => True) h₀ (fun s a s' hi _ => hs s a s' hi) fun _ _ => trivial

/-- If guarded steps from a state with the invariant are safe, then all steps of a guarded run are. -/
theorem Run.forall_of_guard (I : σ → Prop) (G S : σ × α × σ → Prop) (h₀ : I s₀)
    (hs : ∀ s a s', I s → G (s, a, s') → step s a s' → I s' ∧ S (s, a, s')) (hr : Run step s₀ tr s)
    (hg : ∀ x ∈ tr, G x) : ∀ x ∈ tr, S x := by
  induction hr with
  | nil => simp
  | @snoc tr s s' a hr hst ih =>
    have hg' : ∀ x ∈ tr, G x := fun x hx => hg x (mem_append_left _ hx)
    have hi := hr.inv_of_guard I G h₀ (fun s a s' hi hg hst => (hs s a s' hi hg hst).1) hg'
    intro x hx
    rcases mem_append.1 hx with hx | hx
    · exact ih hg' x hx
    · rw [mem_singleton.1 hx]
      exact (hs s a s' hi (hg _ (by simp)) hst).2

/-- If a step from a state with the invariant is safe exactly when it meets the guard, and guarded steps keep the
invariant, then the steps of a run are all safe exactly when they all meet the guard. -/
theorem Run.forall_iff (I : σ → Prop) (G S : σ × α × σ → Prop) (h₀ : I s₀)
    (hs : ∀ s a s', I s → G (s, a, s') → step s a s' → I s')
    (hiff : ∀ s a s', I s → step s a s' → (S (s, a, s') ↔ G (s, a, s'))) (hr : Run step s₀ tr s) :
    (∀ x ∈ tr, S x) ↔ ∀ x ∈ tr, G x := by
  induction hr with
  | nil => simp
  | @snoc tr s s' a hr hst ih =>
    simp only [mem_append, mem_singleton, or_imp, forall_and, forall_eq]
    rw [ih]
    constructor
    · rintro ⟨hg, h⟩
      exact ⟨hg, (hiff s a s' (hr.inv_of_guard I G h₀ hs hg) hst).1 h⟩
    · rintro ⟨hg, h⟩
      exact ⟨hg, (hiff s a s' (hr.inv_of_guard I G h₀ hs hg) hst).2 h⟩

theorem Run.append {s' : σ} {tr' : List (σ × α × σ)} (hr : Run step s₀ tr s) (hr' : Run step s tr' s') :
    Run step s₀ (tr ++ tr') s' := by
  induction hr' with
  | nil => rwa [append_nil]
  | snoc _ hst ih =>
    rw [← append_assoc]
    exact .snoc ih hst

/-- A step of a run is taken from the state that the steps before it lead to. -/
theorem Run.split {tr₁ tr₂ : List (σ × α × σ)} {x : σ × α × σ} (hr : Run step s₀ (tr₁ ++ x :: tr₂) s) :
    Run step s₀ tr₁ x.1 ∧ step x.1 x.2.1 x.2.2 := by
  generalize h : tr₁ ++ x :: tr₂ = tr at hr
  induction hr generalizing tr₂ with
  | nil => simp at h
  | @snoc tr s s' a hr hst ih =>
    rcases eq_nil_or_concat tr₂ with rfl | ⟨tr₃, y, rfl⟩
    · obtain ⟨rfl, hx⟩ := append_inj' h rfl
      obtain rfl := singleton_inj.1 hx
      exact ⟨hr, hst⟩
    · rw [concat_eq_append, ← cons_append, ← append_assoc] at h
      exact ih (append_inj' h rfl).1

/-- A run all of whose steps have the property `N` is one of the restricted relation. -/
theorem Run.restrict {N : σ × α × σ → Prop} (hr : Run step s₀ tr s) (hN : ∀ x ∈ tr, N x) :
    Run (fun s a s' => step s a s' ∧ N (s, a, s')) s₀ tr s := by
  induction hr with
  | nil => exact .nil
  | snoc _ hst ih =>
    exact .snoc (ih fun x hx => hN x (mem_append_left _ hx)) ⟨hst, hN _ (by simp)⟩

end Runs
