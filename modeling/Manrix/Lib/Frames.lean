import Mathlib.Data.List.Nodup
import Mathlib.Logic.Function.Basic

/-!
# Memory divided into frames

A memory gives every word of every frame its value.  The lemmas say which words an operation writes; the loops that
write one word in several frames, or copy the words of one frame to another one, are folds over lists.
-/

namespace Frames

open Function

variable {φ ι β : Type*} [DecidableEq φ] [DecidableEq ι] {m : φ → ι → β} {f g x : φ} {i j : ι} {w : β}

def setWord (m : φ → ι → β) (f : φ) (i : ι) (w : β) : φ → ι → β :=
  update m f (update (m f) i w)

omit [DecidableEq ι] in
/-- All words of a frame get the same value. -/
def fill (m : φ → ι → β) (f : φ) (w : β) : φ → ι → β := update m f fun _ => w

theorem setWord_apply : setWord m f i w x j = if x = f ∧ j = i then w else m x j := by
  unfold setWord
  by_cases hx : x = f
  · subst hx
    by_cases hj : j = i <;> simp [hj]
  · simp [hx]

@[simp] theorem setWord_self : setWord m f i w f i = w := by simp [setWord_apply]

theorem setWord_eq_self (m : φ → ι → β) (f : φ) (i : ι) : setWord m f i (m f i) = m := by simp [setWord]

theorem setWord_of_ne_frame (h : x ≠ f) : setWord m f i w x = m x := by
  funext j
  simp [setWord_apply, h]

theorem setWord_of_ne_index (h : j ≠ i) : setWord m f i w x j = m x j := by simp [setWord_apply, h]

omit [DecidableEq ι] in
theorem fill_self : fill m f w f j = w := by simp [fill]

omit [DecidableEq ι] in
theorem fill_of_ne (h : x ≠ f) : fill m f w x = m x := by simp [fill, h]

/-- The word `i` is written in several frames, one after the other. -/
def setWords (m : φ → ι → β) (fs : List φ) (i : ι) (w : β) : φ → ι → β :=
  fs.foldl (fun m f => setWord m f i w) m

theorem setWords_apply {fs : List φ} : setWords m fs i w x j = if x ∈ fs ∧ j = i then w else m x j := by
  unfold setWords
  induction fs generalizing m with
  | nil => simp
  | cons f fs ih =>
    rw [List.foldl_cons, ih, setWord_apply]
    by_cases hj : j = i <;> by_cases hx : x ∈ fs <;> by_cases hf : x = f <;> simp [hj, hx, hf]

/-- The words of `src` at the indices `is` are copied to `dest`, but for those that have the value `z`. -/
def copyWords [DecidableEq β] (z : β) (src dest : φ) (is : List ι) (m : φ → ι → β) : φ → ι → β :=
  is.foldl (fun m i => if m src i = z then m else setWord m dest i (m src i)) m

theorem copyWords_apply [DecidableEq β] {z : β} {src dest : φ} {is : List ι} (h : src ≠ dest) :
    copyWords z src dest is m x j = if x = dest ∧ j ∈ is ∧ m src j ≠ z then m src j else m x j := by
  unfold copyWords
  induction is generalizing m with
  | nil => simp
  | cons i is ih =>
    rw [List.foldl_cons, ih]
    by_cases hz : m src i = z
    · rw [if_pos hz]
      by_cases hj : j = i
      · subst hj
        simp [hz]
      · simp [hj]
    · rw [if_neg hz, setWord_of_ne_frame h, setWord_apply]
      by_cases hj : j = i
      · subst hj
        by_cases hx : x = dest <;> simp [hx, hz]
      · simp [hj]

end Frames
