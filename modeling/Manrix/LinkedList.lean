import Manrix.Lib.Links

/-!
# The kernel's list primitives (`kernel/list.h`)

A link of `list.h` points to an object and not to the link field inside it, and the head of a list is a bare `struct
linked_list`.  The store `Links α` therefore has one pair of fields per address: at the address of a head they are the
head's own `next` and `prev`, at the address of an object they are those of its `member`.  The casts of the macros
compare addresses, so `(type)(head)` is the head's address.

`list_enqueue` and `list_add` put the new object behind the head, `list_dequeue` takes the object in front of the head,
`list_remove` the one behind it, and `list_del` takes an object out wherever it is.  On a ring all five are `splice` and
`unlink`.
-/

namespace Manrix

open Links List

variable {α : Type*} [DecidableEq α] {s : Links α}

def listInit (s : Links α) (l : α) : Links α := (s.setNext l l).setPrev l l

def listIsempty (s : Links α) (list : α) : Bool := s.next list = list

def lastEntry (s : Links α) (head : α) : α := s.prev head

def listEnqueue (s : Links α) (head pointer : α) : Links α :=
  let nxt := s.next head
  let s := s.setNext head pointer
  let s := s.setPrev pointer head
  let s := s.setNext pointer nxt
  if nxt = head then s.setPrev head pointer else s.setPrev nxt pointer

/-- The store after `list_dequeue`, and the object it took off the list. -/
def listDequeue (s : Links α) (head : α) : Links α × α :=
  let pointer := s.prev head
  let nxt := s.prev pointer
  let s := s.setPrev head nxt
  (if nxt = head then s.setNext head head else s.setNext nxt head, pointer)

/-- The text of `list_add` is that of `list_enqueue`. -/
def listAdd (s : Links α) (head pointer : α) : Links α := listEnqueue s head pointer

/-- The store after `list_remove`, and the object it took off the list. -/
def listRemove (s : Links α) (head : α) : Links α × α :=
  let pointer := s.next head
  let nxt := s.next pointer
  let s := s.setNext head nxt
  (if nxt = head then s.setPrev head head else s.setPrev nxt head, pointer)

def listDel (s : Links α) (head item : α) : Links α :=
  let prev := s.prev item
  let next := s.next item
  -- the two arms differ in the type of the field they write, not in its address
  let s := if prev = head then s.setNext head next else s.setNext prev next
  if next = head then s.setPrev head prev else s.setPrev next prev

/-- `list_add_next` does not write the `prev` field of the object that `item` is put in front of. -/
def listAddNext (s : Links α) (prv item : α) : Links α :=
  let nxt := s.next prv
  let s := s.setNext prv item
  let s := s.setPrev item prv
  s.setNext item nxt

theorem listEnqueue_eq (s : Links α) (head pointer : α) : listEnqueue s head pointer = s.splice head pointer := by
  simp only [listEnqueue, splice]
  split
  · rename_i h; simp only [h]
  · rfl

theorem listDel_eq (s : Links α) (head item : α) : listDel s head item = s.unlink item := by
  simp only [listDel, unlink]
  split <;> split <;> simp_all

private theorem listDequeue_eq {head : α} (h : s.next (s.prev head) = head) :
    listDequeue s head = (s.unlink (s.prev head), s.prev head) := by
  simp only [listDequeue, unlink, h, Prod.mk.injEq, and_true]
  split
  · rename_i he; rw [he]; rfl
  · rfl

private theorem listRemove_eq {head : α} (h : s.prev (s.next head) = head) :
    listRemove s head = (s.unlink (s.next head), s.next head) := by
  simp only [listRemove, unlink, h, Prod.mk.injEq, and_true]
  split
  · rename_i he; rw [he]
  · rfl

theorem listIsempty_iff {h : α} {xs : List α} (hr : IsRing s h xs) : listIsempty s h = true ↔ xs = [] := by
  have hnd := hr.nodup
  have hn := hr.next
  cases xs with
  | nil => simpa [listIsempty] using hn
  | cons x xs =>
    simp only [path_cons] at hn
    have : x ≠ h := by rintro rfl; simp at hnd
    simp [listIsempty, hn.1, this]

variable {s : Links α} {h x : α} {xs us vs : List α}

theorem listInit_ring (s : Links α) (h : α) : IsRing (listInit s h) h [] :=
  ⟨by simp, by simp [listInit], by simp [listInit]⟩

theorem listEnqueue_ring (hr : IsRing s h xs) (hx : x ∉ h :: xs) : IsRing (listEnqueue s h x) h (x :: xs) := by
  rw [listEnqueue_eq]
  exact hr.splice_head hx

private theorem listEnqueue_agreeOff (hr : IsRing s h xs) (x : α) : AgreeOff s (listEnqueue s h x) (h :: x :: xs) := by
  rw [listEnqueue_eq]
  exact hr.splice_head_agreeOff x

theorem listDel_ring (hr : IsRing s h (us ++ x :: vs)) : IsRing (listDel s h x) h (us ++ vs) := by
  rw [listDel_eq]
  exact hr.unlink

theorem listDel_agreeOff (hr : IsRing s h (us ++ x :: vs)) : AgreeOff s (listDel s h x) (h :: (us ++ vs)) := by
  rw [listDel_eq]
  exact hr.unlink_agreeOff

omit [DecidableEq α] in
theorem lastEntry_concat (hr : IsRing s h (xs ++ [x])) : lastEntry s h = x := by
  have hp := hr.prev
  rw [reverse_append, reverse_singleton, singleton_append, path_cons] at hp
  exact hp.1

theorem listDequeue_concat (hr : IsRing s h (xs ++ [x])) : listDequeue s h = (s.unlink x, x) := by
  have hp : s.prev h = x := lastEntry_concat hr
  rw [listDequeue_eq, hp]
  rw [hp, hr.next_mid]
  simp

theorem listDequeue_ring (hr : IsRing s h (xs ++ [x])) : IsRing (listDequeue s h).1 h xs := by
  rw [listDequeue_concat hr]
  simpa using hr.unlink

private theorem listDequeue_agreeOff (hr : IsRing s h (xs ++ [x])) : AgreeOff s (listDequeue s h).1 (h :: xs) := by
  rw [listDequeue_concat hr]
  simpa using hr.unlink_agreeOff

theorem listRemove_cons (hr : IsRing s h (x :: xs)) : listRemove s h = (s.unlink x, x) := by
  have hn : s.next h = x := hr.next.1
  have hr' : IsRing s h ([] ++ x :: xs) := hr
  rw [listRemove_eq, hn]
  rw [hn, hr'.prev_mid]
  simp

private theorem listRemove_ring (hr : IsRing s h (x :: xs)) : IsRing (listRemove s h).1 h xs := by
  have hr' : IsRing s h ([] ++ x :: xs) := hr
  rw [listRemove_cons hr]
  exact hr'.unlink

private theorem listRemove_agreeOff (hr : IsRing s h (x :: xs)) : AgreeOff s (listRemove s h).1 (h :: xs) := by
  have hr' : IsRing s h ([] ++ x :: xs) := hr
  rw [listRemove_cons hr]
  exact hr'.unlink_agreeOff

inductive QueueOp (α : Type*) where
  | enqueue (x : α)
  | dequeue

/-- A run of `list_enqueue` and `list_dequeue` on the list `head`, with the objects the dequeues returned. -/
def runQueue (s : Links α) (head : α) : List (QueueOp α) → Links α × List α
  | [] => (s, [])
  | .enqueue x :: ops => runQueue (listEnqueue s head x) head ops
  | .dequeue :: ops =>
    let (s, x) := listDequeue s head
    let (s, out) := runQueue s head ops
    (s, x :: out)

/-- The same run on a queue of objects, the next one to leave first. -/
def runFifo (q : List α) : List (QueueOp α) → List α × List α
  | [] => (q, [])
  | .enqueue x :: ops => runFifo (q ++ [x]) ops
  | .dequeue :: ops =>
    let (q', out) := runFifo q.tail ops
    (q', q.head?.toList ++ out)

/-- Only non-members are enqueued and only a non-empty queue is dequeued. -/
def QueueOk (head : α) (q : List α) : List (QueueOp α) → Prop
  | [] => True
  | .enqueue x :: ops => x ∉ head :: q ∧ QueueOk head (q ++ [x]) ops
  | .dequeue :: ops => q ≠ [] ∧ QueueOk head q.tail ops

private theorem runQueue_refines_runFifo (ops : List (QueueOp α)) {s : Links α} {q : List α}
    (hr : IsRing s h q.reverse) (hok : QueueOk h q ops) :
    IsRing (runQueue s h ops).1 h (runFifo q ops).1.reverse ∧ (runQueue s h ops).2 = (runFifo q ops).2 := by
  induction ops generalizing s q with
  | nil => exact ⟨hr, rfl⟩
  | cons op ops ih =>
    cases op with
    | enqueue x =>
      obtain ⟨hx, hok⟩ := hok
      refine ih ?_ hok
      rw [reverse_append]
      exact listEnqueue_ring hr (by simpa using hx)
    | dequeue =>
      obtain ⟨hne, hok⟩ := hok
      obtain ⟨x, q, rfl⟩ := exists_cons_of_ne_nil hne
      rw [reverse_cons] at hr
      have ih' := ih (listDequeue_ring hr) hok
      refine ⟨ih'.1, ?_⟩
      have hx : (listDequeue s h).2 = x := by rw [listDequeue_concat hr]
      show (listDequeue s h).2 :: (runQueue (listDequeue s h).1 h ops).2 = x :: (runFifo q ops).2
      rw [hx, ih'.2]

/-- The list primitives refine operations on sequences. -/
theorem list_primitives_refine_sequences (hr : IsRing s h xs) : (∀ x, x ∉ h :: xs →
      IsRing (listEnqueue s h x) h (x :: xs) ∧ AgreeOff s (listEnqueue s h x) (h :: x :: xs) ∧
      IsRing (listAdd s h x) h (x :: xs) ∧ AgreeOff s (listAdd s h x) (h :: x :: xs)) ∧ (∀ hne : xs ≠ [],
      (listDequeue s h).2 = xs.getLast hne ∧ IsRing (listDequeue s h).1 h xs.dropLast ∧
      AgreeOff s (listDequeue s h).1 (h :: xs) ∧
      (listRemove s h).2 = xs.head hne ∧ IsRing (listRemove s h).1 h xs.tail ∧
      AgreeOff s (listRemove s h).1 (h :: xs)) ∧
    (∀ m ∈ xs, IsRing (listDel s h m) h (xs.erase m) ∧ AgreeOff s (listDel s h m) (h :: xs)) ∧
    (∀ ops, QueueOk h xs.reverse ops → IsRing (runQueue s h ops).1 h (runFifo xs.reverse ops).1.reverse ∧
      (runQueue s h ops).2 = (runFifo xs.reverse ops).2) := by
  refine ⟨fun x hx => ?_, fun hne => ?_, fun m hm => ?_, fun ops hok => ?_⟩
  · have hadd : listAdd s h x = listEnqueue s h x := rfl
    rw [hadd]
    exact ⟨listEnqueue_ring hr hx, listEnqueue_agreeOff hr x, listEnqueue_ring hr hx,
      listEnqueue_agreeOff hr x⟩
  · have hlast : IsRing s h (xs.dropLast ++ [xs.getLast hne]) := by rwa [dropLast_append_getLast]
    have hhead : IsRing s h (xs.head hne :: xs.tail) := by rwa [cons_head_tail]
    refine ⟨by rw [listDequeue_concat hlast], listDequeue_ring hlast, ?_,
      by rw [listRemove_cons hhead], listRemove_ring hhead, ?_⟩
    · exact (listDequeue_agreeOff hlast).mono (cons_subset_cons _ (dropLast_subset _))
    · exact (listRemove_agreeOff hhead).mono (cons_subset_cons _ (tail_sublist _).subset)
  · obtain ⟨us, vs, rfl⟩ := append_of_mem hm
    have hmu : m ∉ us := fun h => (nodup_append.1 (nodup_cons.1 hr.nodup).2).2.2 m h m (by simp) rfl
    rw [erase_append_right _ hmu, erase_cons_head]
    refine ⟨listDel_ring hr, (listDel_agreeOff hr).mono (cons_subset_cons _ ?_)⟩
    exact (List.Sublist.append_left (sublist_cons_self m vs) us).subset
  · exact runQueue_refines_runFifo ops (by rwa [reverse_reverse]) hok

/-- The list of three objects `1, 2, 3` with head `0`, built by three enqueues. -/
theorem list_primitives_refine_sequences_three :
    let s := listEnqueue (listEnqueue (listEnqueue (listInit ⟨id, id⟩ 0) 0 3) 0 2) 0 1
    IsRing s 0 [1, 2, 3] ∧ (listDequeue s 0).2 = 3 ∧ IsRing (listDel s 0 2) 0 [1, 3] := by
  have hr : IsRing (listEnqueue (listEnqueue (listEnqueue (listInit ⟨id, id⟩ 0) 0 3) 0 2) 0 1) 0
      [1, 2, 3] := by
    decide
  obtain ⟨-, hne, hdel, -⟩ := list_primitives_refine_sequences hr
  exact ⟨hr, (hne (by simp)).1, (hdel 2 (by simp)).1⟩

end Manrix
