import Manrix.Kernel.Sleep

/-!
# Interrupt lines with several handlers (`kernel/irq.c`)

The first registration of a line is its element of `pc_irq`, the others are allocated, put on the list of the line and
found by their id in a hash table.  The loop of `handle_IRQ` tests whether the list of the line is empty and not whether
it has come to its end, so it ends only on a line with an empty list.  A list that has had an entry is never empty
again: `syscall_IRQ_free` gives `list_del` the head of the element `pc_irq[irqid]`, which lies behind the array, and the
link of the real head is not written.

A read through a null pointer, a structure read at the address of a list head and a loop without an end have no result.
-/

namespace Manrix

open Function Links List Runs

structure IrqEntry (τ ι : Type*) where
  id : Nat
  flag : Nat
  next : Option ι
  handler : BitVec 32
  owner : Option τ

/-- A registration: what `syscall_IRQ_request` has returned, the line and the thread. -/
structure IrqReg (τ : Type*) where
  id : Nat
  line : Nat
  owner : τ
  deriving DecidableEq

/-- The lines, the allocated structures and the hash table.  The heads of the lists are those of `pc_irq`, by index;
`addr` gives the addresses.  No call reads `allocated`, the structures in use, and `regs`, the registrations in force.
-/
structure IrqTable (τ ι : Type*) where
  pcIrq : Nat → IrqEntry τ ι
  irq : ι → IrqEntry τ ι
  list : Links (Node Nat ι)
  irqhash : Nat → Option ι
  nextId : Nat
  addr : Node Nat ι → BitVec 32
  allocated : List ι
  regs : List (IrqReg τ)

variable {τ ι : Type*} [DecidableEq τ] [DecidableEq ι]

/-- The bit `IRQ_REQUEST` is set and a blocked thread is woken. -/
def irqNotify (k : Kernel τ) (thr : τ) : Kernel τ :=
  let k := k.modThread thr fun t => { t with irqflag := t.irqflag ||| irqRequest }
  if (k.thread thr).states &&& threadBlocked ≠ 0 then wakeup k thr else k

def handlerOk : BitVec 32 := 0xDEAD

namespace IrqTable

def irqhashInsert (s : IrqTable τ ι) (irq : ι) : IrqTable τ ι :=
  let p := hashFn (s.irq irq).id
  { s with irq := update s.irq irq { s.irq irq with next := s.irqhash p },
           irqhash := update s.irqhash p (some irq) }

/-- The loop of `irqhash_remove`, which ends at a link that is both `irq` and null. -/
def removeLoop (s : IrqTable τ ι) (irq : ι) : Nat → Option ι → Option ι
  | 0, _ => none
  | _, none => none
  | fuel + 1, some link =>
    if (s.irq link).next ≠ some irq ∨ (s.irq link).next ≠ none then removeLoop s irq fuel (s.irq link).next
    else some link

def irqhashRemove (fuel : Nat) (s : IrqTable τ ι) (irq : ι) : Option (IrqTable τ ι) :=
  let bucket := hashFn (s.irq irq).id
  if s.irqhash bucket = some irq then
    some { s with irqhash := update s.irqhash bucket (s.irq irq).next }
  else
    (removeLoop s irq fuel (s.irqhash bucket)).map fun link =>
      { s with irq := update s.irq link { s.irq link with next := (s.irq irq).next } }

/-- The loop of `find_by_irqid` from `link` on. -/
def findLoop (s : IrqTable τ ι) (id : Nat) : Nat → Option ι → Option (Option ι)
  | 0, _ => none
  | _, none => none
  | fuel + 1, some link =>
    if (s.irq link).id ≠ id then
      if (s.irq link).next = none then some none else findLoop s id fuel (s.irq link).next
    else some (some link)

def findByIrqid (fuel : Nat) (s : IrqTable τ ι) (id : Nat) : Option (Option ι) :=
  (s.irqhash (hashFn id)).bind fun p =>
    if (s.irq p).id = id then some (some p) else findLoop s id fuel (s.irq p).next

/-- What the body of the loop of `handle_IRQ` does with a structure. -/
def notifyEntry (k : Kernel τ) (nextirq : IrqEntry τ ι) : Option (Kernel τ) :=
  if nextirq.handler ≠ 0 then nextirq.owner.map (irqNotify k) else some k

/-- The loop of `handle_IRQ` from the test on. -/
def handleLoop (s : IrqTable τ ι) (irqno : Nat) : Nat → Kernel τ → Node Nat ι → Option (Kernel τ)
  | 0, _, _ => none
  | fuel + 1, k, nextirq =>
    if s.list.next (.head irqno) ≠ .head irqno then
      match nextirq with
      | .head _ => none
      | .obj irq => (notifyEntry k (s.irq irq)).bind fun k => handleLoop s irqno fuel k (s.list.next (.obj irq))
    else some k

def handleIrq (fuel : Nat) (s : IrqTable τ ι) (k : Kernel τ) (irqno : Nat) : Option (Kernel τ) :=
  (notifyEntry k (s.pcIrq irqno)).bind fun k =>
    (handleLoop s irqno fuel k (s.list.next (.head irqno))).map schedule

/-- `syscall_IRQ_request` by the thread `current`; `nextirq` is what the allocation gives. -/
def syscallIrqRequest (s : IrqTable τ ι) (superuser : Bool) (current : τ) (irqnum : Nat) (nextirq : ι) :
    IrqTable τ ι × Int :=
  if !superuser then (s, -eperm)
  else
    let irq := s.pcIrq irqnum
    if irq.handler = 0 then
      ({ s with pcIrq := update s.pcIrq irqnum
                  { irq with id := irqnum, flag := 0, handler := handlerOk, owner := some current },
                regs := ⟨irqnum, irqnum, current⟩ :: s.regs }, irqnum)
    else
      let s := { s with list := listAdd s.list (.head irqnum) (.obj nextirq), allocated := nextirq :: s.allocated }
      let id : Nat := s.nextId
      let s := { s with nextId := s.nextId + 1, irq := update s.irq nextirq
                          { s.irq nextirq with id := id, flag := 0, handler := handlerOk, owner := some current } }
      ({ s.irqhashInsert nextirq with regs := ⟨id, irqnum, current⟩ :: s.regs }, (id : Int))

/-- The first half of `list_del` with the head of `pc_irq[irqid]`. -/
def setNextAt (s : IrqTable τ ι) (irqid : Nat) (prev next : Node Nat ι) : IrqTable τ ι :=
  match prev with
  | .obj irq => { s with list := s.list.setNext (.obj irq) next }
  | .head line =>
    if line = irqid then { s with list := s.list.setNext (.head line) next }
    -- another head is taken for a structure: the field next of pc_irq[line] is written, which is not read
    else s

/-- The second half. -/
def setPrevAt (s : IrqTable τ ι) (irqid : Nat) (next prev : Node Nat ι) : IrqTable τ ι :=
  match next with
  | .obj irq => { s with list := s.list.setPrev (.obj irq) prev }
  | .head line =>
    if line = irqid then { s with list := s.list.setPrev (.head line) prev }
    -- here it is the field handler of pc_irq[line]
    else { s with pcIrq := update s.pcIrq line { s.pcIrq line with handler := s.addr prev } }

def listDelAt (s : IrqTable τ ι) (irqid : Nat) (tofree : ι) : IrqTable τ ι :=
  let prev := s.list.prev (.obj tofree)
  let next := s.list.next (.obj tofree)
  (s.setNextAt irqid prev next).setPrevAt irqid next prev

def syscallIrqFree (fuel : Nat) (s : IrqTable τ ι) (superuser : Bool) (irqid : Nat) : Option (IrqTable τ ι × Int) :=
  if !superuser then some (s, -eperm)
  else
    let regs := s.regs.filter fun r => r.id ≠ irqid
    if irqid < maxIrq then
      some ({ s with pcIrq := update s.pcIrq irqid
                      { s.pcIrq irqid with handler := 0, flag := 0, owner := none },
                     regs := regs }, 0)
    else
      (findByIrqid fuel s irqid).bind fun
        | none => some (s, -einval)
        | some tofree =>
          (irqhashRemove fuel (s.listDelAt irqid tofree) tofree).map fun s =>
            ({ s with allocated := s.allocated.erase tofree, regs := regs }, 0)

/-- After `IRQ_init`; the links of a structure that is not allocated are not read before they are written. -/
def irqInit (addr : Node Nat ι → BitVec 32) : IrqTable τ ι where
  pcIrq _ := ⟨0, 0, none, 0, none⟩
  irq _ := ⟨0, 0, none, 0, none⟩
  list := ⟨id, id⟩
  irqhash _ := none
  nextId := 16
  addr := addr
  allocated := []
  regs := []

end IrqTable

inductive IrqOp (τ ι : Type*) where
  | request (thr : τ) (irqnum : Nat) (nextirq : ι)
  | free (irqid : Nat)

/-- The calls of superuser threads: requests for the lines of the machine, where the allocation gives a structure that
is not in use and `next_id`, an `int`, does not overflow, and the freeing of ids in force. -/
inductive IrqStep : IrqTable τ ι → IrqOp τ ι → IrqTable τ ι → Prop
  | request {s : IrqTable τ ι} {thr : τ} {irqnum : Nat} {nextirq : ι} (hline : irqnum < maxIrq)
      (hnew : nextirq ∉ s.allocated) (hid : (s.pcIrq irqnum).handler ≠ 0 → s.nextId + 1 < 2 ^ 31) :
      IrqStep s (.request thr irqnum nextirq) (s.syscallIrqRequest true thr irqnum nextirq).1
  | free {s s' : IrqTable τ ι} {irqid fuel : Nat} {ret : Int} (hid : ∃ r ∈ s.regs, r.id = irqid)
      (hret : s.syscallIrqFree fuel true irqid = some (s', ret)) : IrqStep s (.free irqid) s'

/-- The request is for the line `n`, which has a handler. -/
def SharesLine (n : Nat) : IrqTable τ ι × IrqOp τ ι × IrqTable τ ι → Prop
  | (s, .request _ irqnum _, _) => irqnum = n ∧ (s.pcIrq n).handler ≠ 0
  | (_, .free _, _) => False

/-- `handle_IRQ` ends; it has notified the owners of the registrations of the line, each of them once, and set
`IRQ_REQUEST` for no other thread. -/
def DispatchRight (s : IrqTable τ ι) (k : Kernel τ) (n : Nat) : Prop :=
  ∃ (fuel : Nat) (k' : Kernel τ) (owners : List τ), s.handleIrq fuel k n = some k' ∧ owners.Nodup ∧
    (∀ t, t ∈ owners ↔ ∃ r ∈ s.regs, r.line = n ∧ r.owner = t) ∧ k' = schedule (owners.foldl irqNotify k) ∧
    ∀ t, (k'.thread t).irqflag =
      if t ∈ owners then (k.thread t).irqflag ||| irqRequest else (k.thread t).irqflag

namespace IrqTable

variable {s s' : IrqTable τ ι} {n irqid fuel : Nat} {tofree : ι}

omit [DecidableEq τ] in
private theorem irqhashRemove_keep (h : irqhashRemove fuel s tofree = some s') :
    s'.list = s.list ∧ s'.pcIrq = s.pcIrq := by
  simp only [irqhashRemove] at h
  split at h
  · cases h
    exact ⟨rfl, rfl⟩
  · obtain ⟨link, -, rfl⟩ := Option.map_eq_some_iff.mp h
    exact ⟨rfl, rfl⟩

section ListDel

variable (s : IrqTable τ ι) (irqid : Nat) (x y : Node Nat ι) (tofree : ι)

omit [DecidableEq τ] in
private theorem setPrevAt_next : (s.setPrevAt irqid x y).list.next = s.list.next := by
  unfold setPrevAt
  split
  · rfl
  · split <;> rfl

omit [DecidableEq τ] in
private theorem setPrevAt_pcIrq (hx : x ≠ .head n) : (s.setPrevAt irqid x y).pcIrq n = s.pcIrq n := by
  unfold setPrevAt
  split
  · rfl
  · rename_i line
    split
    · rfl
    · exact update_of_ne (fun h => hx (by rw [h])) _ _

omit [DecidableEq τ] in
private theorem setNextAt_pcIrq : (s.setNextAt irqid x y).pcIrq = s.pcIrq := by
  unfold setNextAt
  split
  · rfl
  · split <;> rfl

omit [DecidableEq τ] in
private theorem setNextAt_next_head (hn : n ≠ irqid) :
    (s.setNextAt irqid x y).list.next (.head n) = s.list.next (.head n) := by
  unfold setNextAt
  split
  · simp
  · split
    · rename_i line hl
      exact update_of_ne (fun h => hn ((Node.head.inj h).trans hl)) _ _
    · rfl

omit [DecidableEq τ] in
private theorem setNextAt_next_obj (o : ι) : (s.setNextAt irqid x y).list.next (.obj o) = s.list.next (.obj o) ∨
    (s.setNextAt irqid x y).list.next (.obj o) = y := by
  unfold setNextAt
  split
  · rename_i irq
    by_cases ho : o = irq
    · subst ho
      exact .inr (update_self ..)
    · exact .inl (update_of_ne (by simp [ho]) _ _)
  · split
    · exact .inl (by simp)
    · exact .inl rfl

end ListDel

omit [DecidableEq τ] [DecidableEq ι] in
/-- The registrations of the line `n`. -/
def regsOf (s : IrqTable τ ι) (n : Nat) : List (IrqReg τ) := s.regs.filter fun r => r.line = n

/-- A line without a list: it has no handler and no registration, or one of each. -/
def Single (s : IrqTable τ ι) (n : Nat) : Prop :=
  (s.pcIrq n).handler = 0 ∧ s.regsOf n = [] ∨
    ∃ t, (s.pcIrq n).handler ≠ 0 ∧ (s.pcIrq n).owner = some t ∧ s.regsOf n = [⟨n, n, t⟩]

/-- The list of a line is empty as long as no link but its own leads to the head, and the line is then single. -/
structure LinesOk (s : IrqTable τ ι) : Prop where
  head : ∀ n m, n < maxIrq → s.list.next (.head n) = .head m → m = n
  obj : ∀ o n, n < maxIrq → s.list.next (.obj o) = .head n → s.list.next (.head n) ≠ .head n
  single : ∀ n, n < maxIrq → s.list.next (.head n) = .head n → s.Single n

omit [DecidableEq τ] [DecidableEq ι] in
private theorem irqInit_linesOk (addr : Node Nat ι → BitVec 32) : (irqInit addr : IrqTable τ ι).LinesOk where
  head n m _ h := by simpa [irqInit, eq_comm] using h
  obj o n _ h := by simp [irqInit] at h
  single n _ _ := .inl ⟨rfl, rfl⟩

omit [DecidableEq τ] [DecidableEq ι] in
private theorem regsOf_cons {r : IrqReg τ} (h : s'.regs = r :: s.regs) :
    s'.regsOf n = if r.line = n then r :: s.regsOf n else s.regsOf n := by
  simp [regsOf, h, filter_cons]

omit [DecidableEq τ] [DecidableEq ι] in
private theorem regsOf_filter (h : s'.regs = s.regs.filter fun r => r.id ≠ irqid) :
    s'.regsOf n = (s.regsOf n).filter fun r => r.id ≠ irqid := by
  rw [regsOf, h, regsOf, filter_filter, filter_filter]
  simp only [Bool.and_comm]

omit [DecidableEq τ] [DecidableEq ι] in
theorem Single.filter (h : s.Single n) (hp : s'.pcIrq n = s.pcIrq n)
    (hr : s'.regs = s.regs.filter fun r => r.id ≠ irqid) (hn : n ≠ irqid) : s'.Single n := by
  rw [Single, hp, regsOf_filter hr]
  rcases h with ⟨hz, hr⟩ | ⟨t, hh, ho, hr⟩
  · exact .inl ⟨hz, by simp [hr]⟩
  · exact .inr ⟨t, hh, ho, by simp [hr, hn]⟩

omit [DecidableEq τ] [DecidableEq ι] in
theorem Single.cons {r : IrqReg τ} (h : s.Single n) (hp : s'.pcIrq n = s.pcIrq n)
    (hr : s'.regs = r :: s.regs) (hn : r.line ≠ n) : s'.Single n := by
  rw [Single, hp, regsOf_cons hr, if_neg hn]
  exact h

omit [DecidableEq τ] in
/-- The first handler of a line. -/
theorem LinesOk.request_first {irqnum : Nat} (h : s.LinesOk) (t : τ) (nextirq : ι) (hz : (s.pcIrq irqnum).handler = 0) :
    (s.syscallIrqRequest true t irqnum nextirq).1.LinesOk ∧
      (s.syscallIrqRequest true t irqnum nextirq).1.list = s.list := by
  have hs : (s.syscallIrqRequest true t irqnum nextirq).1 = { s with
      pcIrq := update s.pcIrq irqnum
        { s.pcIrq irqnum with id := irqnum, flag := 0, handler := handlerOk, owner := some t },
      regs := ⟨irqnum, irqnum, t⟩ :: s.regs } := by
    simp [syscallIrqRequest, hz]
  rw [hs]
  refine ⟨⟨h.head, h.obj, fun n hn he => ?_⟩, rfl⟩
  by_cases hni : irqnum = n
  · subst hni
    have hnil : s.regsOf irqnum = [] := by
      rcases h.single irqnum hn he with ⟨-, hr⟩ | ⟨u, hh, -⟩
      · exact hr
      · exact absurd hz hh
    refine .inr ⟨t, ?_, ?_, ?_⟩
    · simp [handlerOk]
    · simp
    · rw [regsOf_cons rfl, if_pos rfl]
      exact congrArg _ hnil
  · exact (h.single n hn he).cons (update_of_ne (Ne.symm hni) _ _) rfl hni

omit [DecidableEq τ] in
/-- A further handler. -/
theorem LinesOk.request_shared {irqnum : Nat} (h : s.LinesOk) (t : τ) (nextirq : ι) (hl : irqnum < maxIrq)
    (hz : (s.pcIrq irqnum).handler ≠ 0) : (s.syscallIrqRequest true t irqnum nextirq).1.LinesOk ∧ ∀ n,
      (s.syscallIrqRequest true t irqnum nextirq).1.list.next (.head n) =
        if n = irqnum then .obj nextirq else s.list.next (.head n) := by
  generalize hs : (s.syscallIrqRequest true t irqnum nextirq).1 = s'
  simp only [syscallIrqRequest, Bool.not_true, Bool.false_eq_true, if_false, if_neg hz, irqhashInsert] at hs
  have hnext : ∀ x, s'.list.next x =
      if x = .obj nextirq then s.list.next (.head irqnum)
      else if x = .head irqnum then .obj nextirq else s.list.next x := by
    intro x
    rw [← hs]
    show (listAdd s.list (.head irqnum) (.obj nextirq)).next x = _
    rw [listAdd, listEnqueue_eq]
    simp [splice, update_apply]
  have hhead : ∀ n, s'.list.next (.head n) = if n = irqnum then .obj nextirq else s.list.next (.head n) := by
    intro n
    rw [hnext, if_neg (by simp)]
    simp
  have hpc : s'.pcIrq = s.pcIrq := by rw [← hs]
  have hregs : s'.regs = ⟨s.nextId, irqnum, t⟩ :: s.regs := by rw [← hs]
  refine ⟨⟨fun n m hn he => ?_, fun o n hn he => ?_, fun n hn he => ?_⟩, hhead⟩
  · rw [hhead] at he
    split at he
    · cases he
    · exact h.head n m hn he
  · rw [hhead]
    split
    · simp
    · rename_i hne
      rw [hnext] at he
      split at he
      · exact absurd (h.head irqnum n hl he) hne
      · rw [if_neg (by simp)] at he
        exact h.obj o n hn he
  · rw [hhead] at he
    split at he
    · cases he
    · rename_i hne
      exact (h.single n hn he).cons (by rw [hpc]) hregs (Ne.symm hne)

omit [DecidableEq τ] in
private theorem syscallIrqFree_cases {ret : Int} (h : s.syscallIrqFree fuel true irqid = some (s', ret)) :
    irqid < maxIrq ∧ s' = { s with
        pcIrq := update s.pcIrq irqid { s.pcIrq irqid with handler := 0, flag := 0, owner := none },
        regs := s.regs.filter fun r => r.id ≠ irqid } ∨
      maxIrq ≤ irqid ∧ (s' = s ∨ ∃ tofree, s'.list = (s.listDelAt irqid tofree).list ∧
        s'.pcIrq = (s.listDelAt irqid tofree).pcIrq ∧ s'.regs = s.regs.filter fun r => r.id ≠ irqid) := by
  simp only [syscallIrqFree, Bool.not_true, Bool.false_eq_true, if_false] at h
  split at h
  · rename_i hlt
    exact .inl ⟨hlt, (Prod.mk.inj (Option.some.inj h)).1.symm⟩
  · rename_i hge
    refine .inr ⟨by omega, ?_⟩
    obtain ⟨r, -, h⟩ := Option.bind_eq_some_iff.mp h
    cases r with
    | none => exact .inl (Prod.mk.inj (Option.some.inj h)).1.symm
    | some tofree =>
      obtain ⟨s₁, hr, he⟩ := Option.map_eq_some_iff.mp h
      obtain ⟨hlist, hpc⟩ := irqhashRemove_keep hr
      obtain rfl := (Prod.mk.inj he).1
      exact .inr ⟨tofree, hlist, hpc, rfl⟩

omit [DecidableEq τ] in
theorem LinesOk.free {ret : Int} (h : s.LinesOk) (hf : s.syscallIrqFree fuel true irqid = some (s', ret)) :
    s'.LinesOk ∧ ∀ n, n < maxIrq → s'.list.next (.head n) = s.list.next (.head n) := by
  rcases syscallIrqFree_cases hf with ⟨hlt, rfl⟩ | ⟨hge, rfl | ⟨tofree, hlist, hpc, hregs⟩⟩
  · refine ⟨⟨h.head, h.obj, fun n hn he => ?_⟩, fun _ _ => rfl⟩
    by_cases hni : n = irqid
    · subst hni
      refine .inl ⟨by simp, ?_⟩
      rw [regsOf_filter rfl]
      rcases h.single n hn he with ⟨-, hr⟩ | ⟨t, -, -, hr⟩
      · simp [hr]
      · simp [hr]
    · exact (h.single n hn he).filter (update_of_ne hni _ _) rfl hni
  · exact ⟨h, fun _ _ => rfl⟩
  · have hhead : ∀ n, n < maxIrq → s'.list.next (.head n) = s.list.next (.head n) := by
      intro n hn
      rw [hlist, listDelAt, setPrevAt_next, setNextAt_next_head _ _ _ _ (by omega)]
    refine ⟨⟨fun n m hn he => ?_, fun o n hn he => ?_, fun n hn he => ?_⟩, hhead⟩
    · rw [hhead n hn] at he
      exact h.head n m hn he
    · rw [hhead n hn]
      rw [hlist, listDelAt, setPrevAt_next] at he
      rcases setNextAt_next_obj s irqid (s.list.prev (.obj tofree)) (s.list.next (.obj tofree)) o with ho | ho
      · exact h.obj o n hn (ho.symm.trans he)
      · exact h.obj tofree n hn (ho.symm.trans he)
    · rw [hhead n hn] at he
      -- the handler of the line is not written, because its head is not the neighbour of a structure
      have hne : s.list.next (.obj tofree) ≠ .head n := fun hm => h.obj tofree n hn hm he
      refine (h.single n hn he).filter ?_ hregs (by omega)
      rw [hpc, listDelAt, setPrevAt_pcIrq _ _ _ _ hne, setNextAt_pcIrq]

end IrqTable

open IrqTable

omit [DecidableEq τ] in
theorem IrqStep.linesOk {s s' : IrqTable τ ι} {op : IrqOp τ ι} (hs : IrqStep s op s') (h : s.LinesOk) :
    s'.LinesOk ∧ ∀ n, n < maxIrq →
      (s'.list.next (.head n) = .head n ↔ s.list.next (.head n) = .head n ∧ ¬ SharesLine n (s, op, s')) := by
  cases hs with
  | @request thr irqnum nextirq hline hnew hid =>
    by_cases hz : (s.pcIrq irqnum).handler = 0
    · obtain ⟨hok, hlist⟩ := h.request_first thr nextirq hz
      refine ⟨hok, fun n _ => ?_⟩
      rw [hlist, iff_self_and]
      rintro - ⟨rfl, hne⟩
      exact hne hz
    · obtain ⟨hok, hhead⟩ := h.request_shared thr nextirq hline hz
      refine ⟨hok, fun n _ => ?_⟩
      rw [hhead]
      by_cases hni : n = irqnum
      · subst hni
        simp only [if_true, reduceCtorEq, false_iff, not_and, not_not]
        exact fun _ => ⟨rfl, hz⟩
      · simp [SharesLine, hni, Ne.symm hni]
  | free hid hret =>
    obtain ⟨hok, hhead⟩ := h.free hret
    refine ⟨hok, fun n hn => ?_⟩
    rw [hhead n hn]
    simp [SharesLine]

omit [DecidableEq τ] in
private theorem irqRun_linesOk {s₀ s : IrqTable τ ι} {tr : List (IrqTable τ ι × IrqOp τ ι × IrqTable τ ι)} {n : Nat}
    (h₀ : s₀.LinesOk) (hn : n < maxIrq) (he : s₀.list.next (.head n) = .head n) (hrun : Run IrqStep s₀ tr s) :
    s.LinesOk ∧ (s.list.next (.head n) = .head n ↔ ∀ x ∈ tr, ¬ SharesLine n x) := by
  induction hrun with
  | nil => simp [h₀, he]
  | snoc hr hst ih =>
    obtain ⟨hok, hhead⟩ := hst.linesOk ih.1
    refine ⟨hok, ?_⟩
    rw [hhead n hn, ih.2]
    simp [or_imp, forall_and]

namespace IrqTable

variable {s : IrqTable τ ι} {n : Nat}

private theorem handleLoop_shared (he : s.list.next (.head n) ≠ .head n) (fuel : Nat) (k : Kernel τ)
    (nextirq : Node Nat ι) : s.handleLoop n fuel k nextirq = none := by
  induction fuel generalizing k nextirq with
  | zero => rfl
  | succ fuel ih =>
    unfold handleLoop
    rw [if_pos he]
    cases nextirq with
    | head _ => rfl
    | obj irq => exact Option.bind_eq_none_iff.mpr fun k _ => ih k _

private theorem handleIrq_single (he : s.list.next (.head n) = .head n) (fuel : Nat) (k : Kernel τ) :
    s.handleIrq (fuel + 1) k n = (notifyEntry k (s.pcIrq n)).map schedule := by
  rw [handleIrq]
  cases notifyEntry k (s.pcIrq n) with
  | none => rfl
  | some k =>
    rw [Option.bind_some]
    unfold handleLoop
    rw [if_neg (not_not.mpr he)]

theorem handleIrq_eq {ρ : Type*} {y : Sys τ ρ} (he : s.list.next (.head n) = .head n)
    (hh : (s.pcIrq n).handler = (y.pcIrq n).handler)
    (ho : (s.pcIrq n).handler ≠ 0 → (s.pcIrq n).owner = some (y.pcIrq n).owner) (fuel : Nat) :
    s.handleIrq (fuel + 1) y.k n = some (Manrix.handleIrq y n).k := by
  rw [handleIrq_single he, notifyEntry, Manrix.handleIrq, ← hh]
  split
  · rename_i hne
    rw [ho hne]
    rfl
  · rfl

end IrqTable

private theorem irqNotify_irqflag (k : Kernel τ) (t u : τ) : ((irqNotify k t).thread u).irqflag =
    if u = t then (k.thread u).irqflag ||| irqRequest else (k.thread u).irqflag := by
  have hset : ((k.modThread t fun t => { t with irqflag := t.irqflag ||| irqRequest }).thread u).irqflag =
      if u = t then (k.thread u).irqflag ||| irqRequest else (k.thread u).irqflag := by
    split
    · rename_i hu
      rw [hu, modThread_thread_self]
    · rename_i hu
      rw [modThread_thread_of_ne _ _ _ hu]
  unfold irqNotify
  dsimp only
  split
  · rw [wakeup_keep (g := Thread.irqflag) _ _ _ fun _ _ _ _ => rfl, hset]
  · exact hset

theorem IrqTable.Single.dispatchRight {s : IrqTable τ ι} {n : Nat} (h : s.Single n)
    (he : s.list.next (.head n) = .head n) (k : Kernel τ) : DispatchRight s k n := by
  have hmem : ∀ t, (∃ r ∈ s.regs, r.line = n ∧ r.owner = t) ↔ ∃ r ∈ s.regsOf n, r.owner = t := by
    simp [IrqTable.regsOf, and_assoc]
  rcases h with ⟨hz, hr⟩ | ⟨t, hh, ho, hr⟩
  · refine ⟨1, schedule k, [], ?_, nodup_nil, fun t => ?_, rfl, fun t => ?_⟩
    · rw [handleIrq_single he, notifyEntry, if_neg (not_not.mpr hz)]
      rfl
    · rw [hmem, hr]
      simp
    · rw [schedule_keep (g := Thread.irqflag) fun _ _ => rfl]
      simp
  · refine ⟨1, schedule (irqNotify k t), [t], ?_, nodup_singleton t, fun u => ?_, rfl, fun u => ?_⟩
    · rw [handleIrq_single he, notifyEntry, if_pos hh, ho]
      rfl
    · rw [hmem, hr]
      simp [eq_comm]
    · rw [schedule_keep (g := Thread.irqflag) fun _ _ => rfl, irqNotify_irqflag]
      simp

/-- After any calls an interrupt is dispatched right on exactly the lines that have never been requested while they had
a handler. -/
theorem irq_dispatch (addr : Node Nat ι → BitVec 32) (tr : List (IrqTable τ ι × IrqOp τ ι × IrqTable τ ι))
    (s : IrqTable τ ι) (hrun : Run IrqStep (irqInit addr) tr s) (k : Kernel τ) (n : Nat) (hn : n < maxIrq) :
    DispatchRight s k n ↔ ∀ x ∈ tr, ¬ SharesLine n x := by
  obtain ⟨hok, hhead⟩ := irqRun_linesOk (irqInit_linesOk addr) hn rfl hrun
  rw [← hhead]
  constructor
  · rintro ⟨fuel, k', owners, hk, -⟩
    by_contra hne
    obtain ⟨k₁, -, hk⟩ := Option.bind_eq_some_iff.mp hk
    rw [handleLoop_shared hne] at hk
    cases hk
  · intro he
    exact (hok.single n hn he).dispatchRight he k

/-- The table after requests by the threads `false` and `true`. -/
def twoRequests (line line' : Nat) : IrqTable Bool Bool :=
  (((irqInit fun _ => 1).syscallIrqRequest true false line false).1.syscallIrqRequest true true line' false).1

private theorem twoRequests_run (line line' : Nat) (h : line < maxIrq) (h' : line' < maxIrq) :
    ∃ s, Run IrqStep (irqInit fun _ => 1)
      [(irqInit fun _ => 1, .request false line false, s), (s, .request true line' false, twoRequests line line')]
      (twoRequests line line') :=
  ⟨_, .snoc (.snoc .nil (.request h not_mem_nil fun hne => absurd rfl hne))
    (.request h' not_mem_nil fun _ => (by decide : 16 + 1 < 2 ^ 31))⟩

/-- Two lines, each with a handler. -/
theorem irq_dispatch_two : ∃ tr, Run IrqStep (irqInit fun _ => 1) tr (twoRequests 5 7) ∧
    ∀ k, DispatchRight (twoRequests 5 7) k 5 := by
  obtain ⟨s, hrun⟩ := twoRequests_run 5 7 (by decide) (by decide)
  refine ⟨_, hrun, fun k => (irq_dispatch _ _ _ hrun k 5 (by decide)).2 ?_⟩
  simp [SharesLine, irqInit]

/-- Two handlers on one line: the interrupt handler does not end. -/
theorem shared_line_hangs : ∃ tr, Run IrqStep (irqInit fun _ => 1) tr (twoRequests 5 5) ∧
    (twoRequests 5 5).regs = [⟨16, 5, true⟩, ⟨5, 5, false⟩] ∧
    (∀ fuel k, (twoRequests 5 5).handleIrq fuel k 5 = none) ∧ ∀ k, ¬ DispatchRight (twoRequests 5 5) k 5 := by
  obtain ⟨s, hrun⟩ := twoRequests_run 5 5 (by decide) (by decide)
  have hnone : ∀ fuel k, (twoRequests 5 5).handleIrq fuel k 5 = none := fun fuel k =>
    Option.bind_eq_none_iff.mpr fun k _ => by rw [handleLoop_shared (by decide)]; rfl
  refine ⟨_, hrun, by decide, hnone, fun k h => ?_⟩
  obtain ⟨fuel, k', -, hk, -⟩ := h
  rw [hnone] at hk
  cases hk

end Manrix
