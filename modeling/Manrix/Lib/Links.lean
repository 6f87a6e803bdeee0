import Mathlib.Logic.Function.Basic
import Mathlib.Data.List.Nodup

/-!
# Circular doubly linked lists in a store of link fields

A store `Links α` gives every cell of `α` a `next` and a `prev` field.  `Path f a xs b` says that following `f` from `a`
visits `xs` and then arrives at `b`; a ring with head `h` and members `xs` (`IsRing`) is a path along `next` from `h`
through `xs` back to `h` and a path along `prev` through the reverse.

The two surgeries are `splice` (put a cell behind another one) and `unlink` (take a cell out).  Both are computed on a
single path (`Path.insert`, `Path.skip`), once for `next` and once for `prev`.
-/

/-- The two link fields of every cell. -/
structure Links (α : Type*) where
  next : α → α
  prev : α → α

namespace Links

open Function List

variable {α : Type*}

section Surgery

variable [DecidableEq α]

def setNext (s : Links α) (a b : α) : Links α := { s with next := update s.next a b }

def setPrev (s : Links α) (a b : α) : Links α := { s with prev := update s.prev a b }

@[simp] theorem setNext_next (s : Links α) (a b : α) :
    (s.setNext a b).next = update s.next a b := rfl

@[simp] theorem setNext_prev (s : Links α) (a b : α) : (s.setNext a b).prev = s.prev := rfl

@[simp] theorem setPrev_next (s : Links α) (a b : α) : (s.setPrev a b).next = s.next := rfl

@[simp] theorem setPrev_prev (s : Links α) (a b : α) :
    (s.setPrev a b).prev = update s.prev a b := rfl

/-- Put the cell `x` directly behind `a`. -/
def splice (s : Links α) (a x : α) : Links α :=
  (((s.setNext a x).setPrev x a).setNext x (s.next a)).setPrev (s.next a) x

/-- Take the cell `x` out: its two neighbours are linked to each other. -/
def unlink (s : Links α) (x : α) : Links α :=
  (s.setNext (s.prev x) (s.next x)).setPrev (s.next x) (s.prev x)

end Surgery

/-- Following `f` from `a` visits `xs` and then arrives at `b`. -/
def Path (f : α → α) : α → List α → α → Prop
  | a, [], b => f a = b
  | a, x :: xs, b => f a = x ∧ Path f x xs b

variable {f g : α → α} {a b x : α} {xs us vs : List α} {s : Links α} {h : α}

@[simp] theorem path_nil : Path f a [] b ↔ f a = b := Iff.rfl

@[simp] theorem path_cons : Path f a (x :: xs) b ↔ f a = x ∧ Path f x xs b := Iff.rfl

theorem path_append_cons : Path f a (us ++ x :: vs) b ↔ Path f a us x ∧ Path f x vs b := by
  induction us generalizing a with
  | nil => simp
  | cons u us ih => simp only [cons_append, path_cons, ih, and_assoc]

/-- A path is cut behind the last cell of any first part of it. -/
theorem path_append : Path f a (us ++ vs) b ↔
    Path f a us (f ((a :: us).getLast (by simp))) ∧ Path f ((a :: us).getLast (by simp)) vs b := by
  induction us generalizing a with
  | nil => simp
  | cons u us ih => simp only [cons_append, path_cons, ih, and_assoc, getLast_cons_cons]

/-- A path reads `f` only at its start and at the cells it visits. -/
theorem Path.congr (h : Path f a xs b) (he : ∀ y ∈ a :: xs, g y = f y) : Path g a xs b := by
  induction xs generalizing a with
  | nil => rw [path_nil, he a (by simp)]; exact h
  | cons x xs ih =>
    obtain ⟨h1, h2⟩ := h
    exact ⟨by rw [he a (by simp), h1], ih h2 (fun y hy => he y (mem_cons_of_mem _ hy))⟩

/-- A path depends on its start only through the first step. -/
theorem Path.congr_start {c : α} (h : Path f a xs b) (hc : g c = f a) (he : ∀ y ∈ xs, g y = f y) : Path g c xs b := by
  cases xs with
  | nil => exact hc.trans h
  | cons x xs => exact ⟨hc.trans h.1, h.2.congr he⟩

/-- The step of a path that leaves a prefix `us` of the visited cells. -/
theorem Path.apply_split (h : Path f a (us ++ vs) b) :
    f ((a :: us).getLast (by simp)) = (vs ++ [b]).head (by simp) := by
  have h2 := (path_append.1 h).2
  cases vs with
  | nil => exact h2
  | cons v vs => exact h2.1

/-- The cells visited before the first occurrence of the end are determined by the start. -/
theorem Path.unique {ys : List α} (h : Path f a xs b) (h' : Path f a ys b) (hx : b ∉ xs) (hy : b ∉ ys) : xs = ys := by
  induction xs generalizing a ys with
  | nil =>
    cases ys with
    | nil => rfl
    | cons y ys => exact absurd (h'.1.symm.trans h) (fun e => hy (by simp [e]))
  | cons x xs ih =>
    cases ys with
    | nil => exact absurd (h.1.symm.trans h') (fun e => hx (by simp [e]))
    | cons y ys =>
      obtain rfl : x = y := h.1.symm.trans h'.1
      rw [ih h.2 h'.2 (fun hm => hx (mem_cons_of_mem _ hm)) (fun hm => hy (mem_cons_of_mem _ hm))]

/-- The ring with head `h` and members `xs`: along `next` from `h` through `xs` back to `h`, along `prev` through the
reverse of `xs`. -/
structure IsRing (s : Links α) (h : α) (xs : List α) : Prop where
  nodup : (h :: xs).Nodup
  next : Path s.next h xs h
  prev : Path s.prev h xs.reverse h

theorem IsRing.congr {s s' : Links α} (hr : IsRing s h xs)
    (he : ∀ y ∈ h :: xs, s'.next y = s.next y ∧ s'.prev y = s.prev y) : IsRing s' h xs :=
  ⟨hr.nodup, hr.next.congr fun y hy => (he y hy).1,
    hr.prev.congr fun y hy => (he y (by simpa using hy)).2⟩

theorem IsRing.nodup_reverse (hr : IsRing s h xs) : (h :: xs.reverse).Nodup := by
  simpa using hr.nodup

/-- Read backwards, a ring is a ring. -/
theorem IsRing.reverse (hr : IsRing s h xs) : IsRing ⟨s.prev, s.next⟩ h xs.reverse :=
  ⟨hr.nodup_reverse, hr.prev, by simpa using hr.next⟩

/-- The successor of the last cell of `h :: us` in a ring `us ++ vs`. -/
theorem IsRing.next_getLast (hr : IsRing s h (us ++ vs)) :
    s.next ((h :: us).getLast (by simp)) = (h :: vs.reverse).getLast (by simp) := by
  rw [hr.next.apply_split, getLast_eq_head_reverse]
  simp

/-- The predecessor of the first cell of `vs ++ [h]` in a ring `us ++ vs`. -/
theorem IsRing.prev_getLast (hr : IsRing s h (us ++ vs)) :
    s.prev ((h :: vs.reverse).getLast (by simp)) = (h :: us).getLast (by simp) := by
  have hp := hr.prev
  rw [reverse_append] at hp
  rw [hp.apply_split, getLast_eq_head_reverse]
  simp

theorem IsRing.prev_mid (hr : IsRing s h (us ++ x :: vs)) :
    s.prev x = (h :: us).getLast (by simp) := by
  simpa using hr.prev_getLast

theorem IsRing.next_mid (hr : IsRing s h (us ++ x :: vs)) :
    s.next x = (h :: vs.reverse).getLast (by simp) := by
  have hr' : IsRing s h ((us ++ [x]) ++ vs) := by simpa using hr
  simpa using hr'.next_getLast

/-- A cell among `h` and `xs` is the last one of a first part of them. -/
theorem exists_split (hx : x ∈ h :: xs) :
    ∃ us vs, xs = us ++ vs ∧ (h :: us).getLast (by simp) = x := by
  rcases mem_cons.1 hx with rfl | hx
  · exact ⟨[], xs, rfl, rfl⟩
  · obtain ⟨us, vs, rfl⟩ := append_of_mem hx
    exact ⟨us ++ [x], vs, by simp, by simp⟩

/-- In a ring `prev` undoes `next`. -/
theorem IsRing.prev_next (hr : IsRing s h xs) (hx : x ∈ h :: xs) : s.prev (s.next x) = x ∧ s.next x ∈ h :: xs := by
  obtain ⟨us, vs, rfl, hl⟩ := exists_split hx
  have hn := hr.next_getLast
  rw [hl] at hn
  have hm : (h :: vs.reverse).getLast (by simp) ∈ h :: vs.reverse := getLast_mem _
  refine ⟨by rw [hn, hr.prev_getLast, hl], ?_⟩
  rw [hn]
  simp only [mem_cons, mem_reverse, mem_append] at hm ⊢
  tauto

/-- In a ring `next` undoes `prev`. -/
theorem IsRing.next_prev (hr : IsRing s h xs) (hx : x ∈ h :: xs) : s.next (s.prev x) = x ∧ s.prev x ∈ h :: xs := by
  have hm : x ∈ h :: xs.reverse := by simpa using hx
  simpa using hr.reverse.prev_next hm

theorem IsRing.prev_ne (hr : IsRing s h xs) (hx : x ∈ xs) : s.prev x ≠ x := by
  obtain ⟨us, vs, rfl⟩ := append_of_mem hx
  have hm : (h :: us).getLast (by simp) ∈ h :: us := getLast_mem _
  have hnd := hr.nodup
  rw [← cons_append] at hnd
  intro he
  rw [hr.prev_mid] at he
  rw [he] at hm
  exact (nodup_append.1 hnd).2.2 x hm x (by simp) rfl

/-- The two stores have the same link fields outside `cells`. -/
def AgreeOff (s s' : Links α) (cells : List α) : Prop :=
  ∀ y, y ∉ cells → s'.next y = s.next y ∧ s'.prev y = s.prev y

theorem AgreeOff.mono {s s' : Links α} {c c' : List α} (h : AgreeOff s s' c) (hc : c ⊆ c') : AgreeOff s s' c' :=
  fun y hy => h y fun hm => hy (hc hm)

variable [DecidableEq α]

instance decidablePath (f : α → α) : ∀ (a : α) (xs : List α) (b : α), Decidable (Path f a xs b)
  | a, [], b => inferInstanceAs (Decidable (f a = b))
  | a, x :: xs, b => @instDecidableAnd _ _ (inferInstanceAs (Decidable (f a = x))) (decidablePath f x xs b)

/-- Redirecting the last step of a path redirects its end. -/
theorem Path.redirect {c : α} (h : Path f a us b) (hnd : (a :: us).Nodup) :
    Path (update f ((a :: us).getLast (by simp)) c) a us c := by
  induction us generalizing a with
  | nil => simp
  | cons u us ih =>
    rw [nodup_cons] at hnd
    rw [getLast_cons (by simp)]
    refine ⟨?_, ih h.2 hnd.2⟩
    rw [update_of_ne, h.1]
    intro e
    exact hnd.1 (e ▸ getLast_mem (by simp))

/-- A path that jumps over the cell `x`. -/
theorem Path.skip (h : Path f a (us ++ x :: vs) b) (hnd : (a :: (us ++ x :: vs)).Nodup) :
    Path (update f ((a :: us).getLast (by simp)) (f x)) a (us ++ vs) b := by
  rw [path_append_cons] at h
  rw [path_append, update_self]
  refine ⟨h.1.redirect (hnd.sublist (by simp)), h.2.congr_start (update_self ..) fun y hy => ?_⟩
  refine update_of_ne ?_ _ _
  intro e
  have hl : y ∈ a :: us := e ▸ getLast_mem _
  exact (nodup_append.1 (show ((a :: us) ++ x :: vs).Nodup from hnd)).2.2 y hl y
    (mem_cons_of_mem _ hy) rfl

/-- A path that makes a detour over the new cell `x`. -/
theorem Path.insert (h : Path f a (us ++ vs) b) (hnd : (a :: (us ++ vs)).Nodup) (hx : x ∉ a :: (us ++ vs)) :
    Path (update (update f ((a :: us).getLast (by simp)) x) x
      (f ((a :: us).getLast (by simp)))) a (us ++ x :: vs) b := by
  rw [path_append] at h
  rw [path_append_cons]
  refine ⟨(h.1.redirect (hnd.sublist (by simp))).congr fun y hy => ?_,
    h.2.congr_start (update_self ..) fun y hy => ?_⟩
  · refine update_of_ne ?_ _ _
    rintro rfl
    exact hx (mem_append_left vs hy)
  · rw [update_of_ne, update_of_ne]
    · intro e
      have hl : y ∈ a :: us := e ▸ getLast_mem _
      exact (nodup_append.1 (show ((a :: us) ++ vs).Nodup from hnd)).2.2 y hl y hy rfl
    · rintro rfl
      exact hx (mem_append_right (a :: us) hy)

instance (s : Links α) (h : α) (xs : List α) : Decidable (IsRing s h xs) :=
  decidable_of_iff ((h :: xs).Nodup ∧ Path s.next h xs h ∧ Path s.prev h xs.reverse h)
    ⟨fun ⟨h1, h2, h3⟩ => ⟨h1, h2, h3⟩, fun ⟨h1, h2, h3⟩ => ⟨h1, h2, h3⟩⟩

theorem IsRing.unlink (hr : IsRing s h (us ++ x :: vs)) : IsRing (s.unlink x) h (us ++ vs) := by
  refine ⟨hr.nodup.sublist (by simp), ?_, ?_⟩
  · simp only [Links.unlink, setPrev_next, setNext_next, hr.prev_mid]
    exact hr.next.skip hr.nodup
  · have hp := hr.prev
    have hnd := hr.nodup_reverse
    simp only [reverse_append, reverse_cons, append_assoc, cons_append, nil_append]
      at hp hnd ⊢
    simp only [Links.unlink, setPrev_prev, setNext_prev, hr.next_mid]
    exact hp.skip hnd

theorem IsRing.splice (hr : IsRing s h (us ++ vs)) (hx : x ∉ h :: (us ++ vs)) :
    IsRing (s.splice ((h :: us).getLast (by simp)) x) h (us ++ x :: vs) := by
  have hnd : (h :: (us ++ x :: vs)).Nodup := by
    have hp : (h :: (us ++ x :: vs)).Perm (x :: h :: (us ++ vs)) :=
      (List.Perm.cons h perm_middle).trans (List.Perm.swap ..)
    exact hp.nodup_iff.2 (nodup_cons.2 ⟨hx, hr.nodup⟩)
  refine ⟨hnd, ?_, ?_⟩
  · simp only [Links.splice, setPrev_next, setNext_next]
    exact hr.next.insert hr.nodup hx
  · have hp := hr.prev
    have hndr := hr.nodup_reverse
    have hx' : x ∉ h :: (us ++ vs).reverse := fun hm => hx (by simp at hm ⊢; tauto)
    have hlast := hr.prev_getLast
    have hl : (h :: vs.reverse).getLast (by simp) ≠ x := by
      intro e
      have := getLast_mem (l := h :: vs.reverse) (by simp)
      rw [e] at this
      exact hx (by simp at this ⊢; tauto)
    simp only [reverse_append, reverse_cons, append_assoc, cons_append, nil_append]
      at hp hndr hx' ⊢
    simp only [Links.splice, setPrev_prev, setNext_prev, hr.next_getLast]
    rw [update_comm hl.symm, ← hlast]
    exact hp.insert hndr hx'

omit [DecidableEq α] in
theorem IsRing.next_ne (hr : IsRing s h xs) (hx : x ∈ xs) : s.next x ≠ x := by
  have hx' : x ∈ xs.reverse := by simpa using hx
  exact hr.reverse.prev_ne hx'

/-- A cell that is out already can be taken out again. -/
theorem unlink_unlink (hn : s.next x ≠ x) (hp : s.prev x ≠ x) : (s.unlink x).unlink x = s.unlink x := by
  simp [Links.unlink, setNext, setPrev, hn.symm, hp.symm]

theorem IsRing.splice_agreeOff (hr : IsRing s h (us ++ vs)) (x : α) :
    AgreeOff s (s.splice ((h :: us).getLast (by simp)) x) (h :: x :: (us ++ vs)) := by
  intro y hy
  have ha : (h :: us).getLast (by simp) ∈ h :: us := getLast_mem _
  have hb : s.next ((h :: us).getLast (by simp)) ∈ h :: vs.reverse := hr.next_getLast ▸ getLast_mem _
  generalize (h :: us).getLast (by simp) = a at ha hb ⊢
  have h1 : y ≠ a := by rintro rfl; exact hy (by simp at ha ⊢; tauto)
  have h2 : y ≠ s.next a := by rintro rfl; exact hy (by simp at hb ⊢; tauto)
  have h3 : y ≠ x := by rintro rfl; exact hy (by simp)
  simp [Links.splice, h1, h2, h3]

/-- Behind the head itself. -/
theorem IsRing.splice_head (hr : IsRing s h vs) (hx : x ∉ h :: vs) : IsRing (s.splice h x) h (x :: vs) := by
  have hr' : IsRing s h ([] ++ vs) := hr
  exact hr'.splice hx

theorem IsRing.splice_head_agreeOff (hr : IsRing s h vs) (x : α) : AgreeOff s (s.splice h x) (h :: x :: vs) := by
  have hr' : IsRing s h ([] ++ vs) := hr
  exact hr'.splice_agreeOff x

theorem IsRing.unlink_agreeOff (hr : IsRing s h (us ++ x :: vs)) : AgreeOff s (s.unlink x) (h :: (us ++ vs)) := by
  intro y hy
  have ha : s.prev x ∈ h :: us := hr.prev_mid ▸ getLast_mem _
  have hb : s.next x ∈ h :: vs.reverse := hr.next_mid ▸ getLast_mem _
  have h1 : y ≠ s.prev x := by rintro rfl; exact hy (by simp at ha ⊢; tauto)
  have h2 : y ≠ s.next x := by rintro rfl; exact hy (by simp at hb ⊢; tauto)
  simp [Links.unlink, h1, h2]

end Links
