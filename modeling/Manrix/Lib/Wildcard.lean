import Mathlib.Computability.Language

/-!
# Patterns with wildcards

A pattern is a list of pieces: a letter stands for itself, `one` for any letter and `many` for any word.  What a pattern
matches is the product of the languages of its pieces.
-/

namespace Wildcard

inductive Piece (α : Type*) where
  | one
  | many
  | lit (a : α)
  deriving DecidableEq

variable {α : Type*}

def Piece.language : Piece α → Language α
  | .one => {w | w.length = 1}
  | .many => ⊤
  | .lit a => {[a]}

def language (ps : List (Piece α)) : Language α := (ps.map Piece.language).prod

/-- The pieces that take exactly one letter. -/
def singles [DecidableEq α] (ps : List (Piece α)) : Nat := ps.countP (· ≠ .many)

variable {ps : List (Piece α)} {w : List α} {a : α}

theorem mem_nil : w ∈ language ([] : List (Piece α)) ↔ w = [] := Iff.rfl

theorem mem_cons {p : Piece α} : w ∈ language (p :: ps) ↔ ∃ u v, w = u ++ v ∧ u ∈ p.language ∧ v ∈ language ps := by
  constructor
  · rintro ⟨u, hu, v, hv, rfl⟩
    exact ⟨u, v, rfl, hu, hv⟩
  · rintro ⟨u, v, rfl, hu, hv⟩
    exact ⟨u, hu, v, hv, rfl⟩

theorem mem_one_cons : w ∈ language (.one :: ps) ↔ ∃ b v, w = b :: v ∧ v ∈ language ps := by
  rw [mem_cons]
  constructor
  · rintro ⟨u, v, rfl, hu, hv⟩
    obtain ⟨b, rfl⟩ := List.length_eq_one_iff.1 hu
    exact ⟨b, v, rfl, hv⟩
  · rintro ⟨b, v, rfl, hv⟩
    exact ⟨[b], v, rfl, rfl, hv⟩

theorem mem_lit_cons : w ∈ language (.lit a :: ps) ↔ ∃ v, w = a :: v ∧ v ∈ language ps := by
  rw [mem_cons]
  constructor
  · rintro ⟨u, v, rfl, rfl, hv⟩
    exact ⟨v, rfl, hv⟩
  · rintro ⟨v, rfl, hv⟩
    exact ⟨[a], v, rfl, rfl, hv⟩

theorem mem_many_cons : w ∈ language (.many :: ps) ↔ ∃ u v, w = u ++ v ∧ v ∈ language ps := by
  rw [mem_cons]
  constructor
  · rintro ⟨u, v, hw, -, hv⟩
    exact ⟨u, v, hw, hv⟩
  · rintro ⟨u, v, hw, hv⟩
    exact ⟨u, v, hw, trivial, hv⟩

/-- A word has all the letters of the pattern. -/
theorem mem_of_lit (hw : w ∈ language ps) (ha : .lit a ∈ ps) : a ∈ w := by
  induction ps generalizing w with
  | nil => cases ha
  | cons p ps ih =>
    obtain ⟨u, v, rfl, hu, hv⟩ := mem_cons.1 hw
    rcases List.mem_cons.1 ha with rfl | ha
    · obtain rfl : u = [a] := hu
      exact List.mem_cons_self ..
    · exact List.mem_append_right u (ih hv ha)

section

variable [DecidableEq α]

@[simp] theorem singles_one_cons : singles (.one :: ps) = singles ps + 1 := List.countP_cons_of_pos (by simp)

@[simp] theorem singles_many_cons : singles (.many :: ps) = singles ps := List.countP_cons_of_neg (by simp)

@[simp] theorem singles_lit_cons : singles (.lit a :: ps) = singles ps + 1 := List.countP_cons_of_pos (by simp)

/-- A word has a letter for each of those pieces. -/
theorem singles_le_length (hw : w ∈ language ps) : singles ps ≤ w.length := by
  induction ps generalizing w with
  | nil => exact Nat.zero_le _
  | cons p ps ih =>
    cases p with
    | one =>
      obtain ⟨b, v, rfl, hv⟩ := mem_one_cons.1 hw
      rw [singles_one_cons, List.length_cons]
      exact Nat.succ_le_succ (ih hv)
    | many =>
      obtain ⟨u, v, rfl, hv⟩ := mem_many_cons.1 hw
      rw [singles_many_cons, List.length_append]
      exact Nat.le_add_left_of_le (ih hv)
    | lit b =>
      obtain ⟨v, rfl, hv⟩ := mem_lit_cons.1 hw
      rw [singles_lit_cons, List.length_cons]
      exact Nat.succ_le_succ (ih hv)

/-- Behind `many`, a pattern without letters matches every word that is long enough. -/
theorem mem_many_cons_of_length (hps : ∀ b, .lit b ∉ ps) (hw : singles ps ≤ w.length) : w ∈ language (.many :: ps) := by
  induction ps generalizing w with
  | nil => exact mem_many_cons.2 ⟨w, [], (List.append_nil w).symm, mem_nil.2 rfl⟩
  | cons p ps ih =>
    have hps' : ∀ b, .lit b ∉ ps := fun b hb => hps b (List.mem_cons_of_mem _ hb)
    cases p with
    | one =>
      rw [singles_one_cons] at hw
      obtain ⟨b, v, rfl⟩ := List.exists_cons_of_length_pos (Nat.lt_of_lt_of_le (Nat.succ_pos _) hw)
      obtain ⟨u, v, rfl, hv⟩ := mem_many_cons.1 (ih hps' (Nat.le_of_succ_le_succ hw))
      -- the last letter of `b :: u` is the one that `one` takes
      refine mem_many_cons.2 ⟨(b :: u).dropLast, (b :: u).getLast (List.cons_ne_nil b u) :: v, ?_,
        mem_one_cons.2 ⟨_, v, rfl, hv⟩⟩
      calc b :: u ++ v = (b :: u).dropLast ++ [(b :: u).getLast (List.cons_ne_nil b u)] ++ v := by
            rw [List.dropLast_append_getLast]
        _ = (b :: u).dropLast ++ (b :: u).getLast (List.cons_ne_nil b u) :: v := List.append_assoc ..
    | many =>
      rw [singles_many_cons] at hw
      exact mem_many_cons.2 ⟨[], w, rfl, ih hps' hw⟩
    | lit b => exact absurd (List.mem_cons_self ..) (hps b)

end

end Wildcard
