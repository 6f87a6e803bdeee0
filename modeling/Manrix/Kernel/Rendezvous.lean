import Manrix.Kernel.Thread

/-!
# Synchronous message passing, abstractly

What the message primitives are for, without state words, run queues and links: each thread has a status, a message and
a queue of senders, and a sender stays blocked until its message has been taken and, unless it wants no reply, answered.
The machine keeps a history of what happened, the latest event first, and the invariant `Rendezvous.Inv` reads the
status of every thread, the contents of every queue and the results of the calls off this history.
-/

namespace Manrix

open Function List

/-- The states a thread takes in the message primitives. -/
inductive Status where
  | ready
  | sendBlocked
  | receiveBlocked
  | replyBlocked
  deriving DecidableEq

/-- Where a thread stands: outside of a call, behind the `schedule` in `send_message`, or behind the one in
`receive_message`. -/
inductive Pc where
  | user
  | sending
  | receiving
  deriving DecidableEq

/-- `send t r m`: `t` put its message `m` on the queue of `r`; `take r t m ret`: `receive_message` gave `r` the message
`m` of `t` and returned `ret`; `answer s t m`: `reply_message` of `s` gave `t` the message `m` and returned 0; `ret t
m`: `send_message` returned the message `m` to `t`. -/
inductive Event (τ : Type*) where
  | send (t r : τ) (m : Message)
  | take (r t : τ) (m : Message) (ret : Int)
  | answer (s t : τ) (m : Message)
  | ret (t : τ) (m : Message)

/-- What has become of the last message a thread sent. -/
inductive Outstanding (τ : Type*) where
  | idle
  | queued (r : τ) (m : Message)
  | received (r : τ) (m : Message)
  deriving DecidableEq

def Outstanding.message {τ : Type*} : Outstanding τ → Option Message
  | .idle => none
  | .queued _ m | .received _ m => some m

/-- The status of the thread that goes with what has become of its last message. -/
def Outstanding.Fits {τ : Type*} : Outstanding τ → Status → Prop
  | .idle, .ready | .idle, .receiveBlocked | .queued _ _, .sendBlocked | .received _ _, .replyBlocked => True
  | _, _ => False

def Pc.Fits : Pc → Status → Prop
  | _, .ready | .sending, .sendBlocked | .sending, .replyBlocked | .receiving, .receiveBlocked => True
  | _, _ => False

section Fits

variable {τ : Type*} {o : Outstanding τ} {st : Status} {r : τ} {m : Message}

theorem Outstanding.Fits.idle_iff (h : o.Fits st) : o = .idle ↔ st = .ready ∨ st = .receiveBlocked := by
  cases o <;> cases st <;> simp_all [Outstanding.Fits]

theorem Outstanding.Fits.sendBlocked (h : (Outstanding.queued r m).Fits st) : st = .sendBlocked := by
  cases st with
  | sendBlocked => rfl
  | ready | receiveBlocked | replyBlocked => exact h.elim

theorem Outstanding.Fits.received (h : o.Fits .replyBlocked) : ∃ r m, o = .received r m := by
  cases o with
  | received r m => exact ⟨r, m, rfl⟩
  | idle | queued r m => exact h.elim

end Fits

/-- The message as `send_message` stores it. -/
def Message.stamp (m : Message) (id : Int) : Message := { m with tid := id }

/-- `m'` is the message `m` up to the `tid`, which `send_message` fills in. -/
def Message.Carries (m' m : Message) : Prop := m' = m.stamp m'.tid

instance (m' m : Message) : Decidable (m'.Carries m) := inferInstanceAs (Decidable (_ = _))

variable {τ : Type*} [DecidableEq τ]

/-- A message is outstanding from its send until its receiver has taken that very message and, unless it wants no reply,
some reply has been made to its sender after that. -/
def outstanding : List (Event τ) → τ → Outstanding τ
  | [], _ => .idle
  | .send u r m :: h, t => if u = t then .queued r m else outstanding h t
  | .take r u m _ :: h, t =>
    if u = t then
      match outstanding h t with
      | .queued r' m' =>
        if r' = r ∧ m.Carries m' then (if m.NoReply then .idle else .received r' m') else .queued r' m'
      | o => o
    else outstanding h t
  | .answer _ u _ :: h, t =>
    if u = t then
      match outstanding h t with
      | .received _ _ => .idle
      | o => o
    else outstanding h t
  | .ret _ _ :: h, t => outstanding h t

/-- The messages sent to `r` with their senders, the oldest first. -/
def sendsTo (r : τ) : List (Event τ) → List (τ × Message)
  | [] => []
  | .send t r' m :: h => if r' = r then sendsTo r h ++ [(t, m)] else sendsTo r h
  | _ :: h => sendsTo r h

/-- The messages `r` received with their senders, the oldest first. -/
def takesBy (r : τ) : List (Event τ) → List (τ × Message)
  | [] => []
  | .take r' t m _ :: h => if r' = r then takesBy r h ++ [(t, m)] else takesBy r h
  | _ :: h => takesBy r h

def Event.isSendOf (t : τ) : Event τ → Bool
  | .send u _ _ => u = t
  | _ => false

/-- The event ends the wait of `t` for its message. -/
def Event.completes (t : τ) : Event τ → Bool
  | .take _ u m _ => u = t ∧ m.NoReply
  | .answer _ u _ => u = t
  | _ => false

/-- The last message `t` sent. -/
def lastSent : List (Event τ) → τ → Option Message
  | [], _ => none
  | .send u _ m :: h, t => if u = t then some m else lastSent h t
  | _ :: h, t => lastSent h t

/-- The last message passed to a reply addressed to `t` since `t` sent its last message. -/
def lastAnswer : List (Event τ) → τ → Option Message
  | [], _ => none
  | .send u _ _ :: h, t => if u = t then none else lastAnswer h t
  | .answer _ u m :: h, t => if u = t then some m else lastAnswer h t
  | _ :: h, t => lastAnswer h t

section History

variable {h : List (Event τ)} {t u r s : τ} {m m' : Message} {ret : Int}

private theorem outstanding_send_self : outstanding (.send t r m :: h) t = .queued r m := if_pos rfl

theorem outstanding_send_of_ne (hne : u ≠ t) : outstanding (.send t r m :: h) u = outstanding h u := if_neg hne.symm

theorem outstanding_take_of_ne (hne : u ≠ t) : outstanding (.take r t m ret :: h) u = outstanding h u :=
  if_neg hne.symm

theorem outstanding_take_self (ho : outstanding h t = .queued r m') (hc : m.Carries m') :
    outstanding (.take r t m ret :: h) t = if m.NoReply then .idle else .received r m' := by
  simp [outstanding, ho, hc]

theorem outstanding_answer_of_ne (hne : u ≠ t) : outstanding (.answer s t m :: h) u = outstanding h u :=
  if_neg hne.symm

theorem outstanding_answer_self (ho : outstanding h t = .received r m') :
    outstanding (.answer s t m :: h) t = .idle := by
  simp [outstanding, ho]

/-- The outstanding message is the last one sent. -/
private theorem lastSent_of_outstanding (ho : (outstanding h t).message = some m) : lastSent h t = some m := by
  induction h with
  | nil => simp [outstanding, Outstanding.message] at ho
  | cons e h ih =>
    cases e with
    | send u r' m' =>
      simp only [outstanding, lastSent] at ho ⊢
      split at ho
      · rename_i hu
        rw [if_pos hu]
        exact ho
      · rename_i hu
        rw [if_neg hu]
        exact ih ho
    | take r' u m' ret =>
      refine ih ?_
      by_cases hu : t = u
      · subst hu
        cases hh : outstanding h t with
        | idle => simpa [outstanding, hh] using ho
        | received r₁ m₁ => simpa [outstanding, hh] using ho
        | queued r₁ m₁ =>
          simp only [outstanding, hh, if_true] at ho
          split at ho
          · split at ho
            · simp [Outstanding.message] at ho
            · exact ho
          · exact ho
      · rwa [outstanding_take_of_ne hu] at ho
    | answer s' u m' =>
      refine ih ?_
      by_cases hu : t = u
      · subst hu
        cases hh : outstanding h t with
        | idle => simpa [outstanding, hh] using ho
        | received r₁ m₁ => simp [outstanding, hh, Outstanding.message] at ho
        | queued r₁ m₁ => simpa [outstanding, hh] using ho
      · rwa [outstanding_answer_of_ne hu] at ho
    | ret u m' => exact ih ho

end History

structure Rendezvous (τ : Type*) where
  status : τ → Status
  msg : τ → Message
  rcvq : τ → List τ
  pc : τ → Pc
  hist : List (Event τ)

namespace Rendezvous

/-- `t` sends `m` to `r` and waits; a receiver that waits for a message is woken.  `id` is the `tid` of `t`. -/
def send (a : Rendezvous τ) (t r : τ) (m : Message) (id : Int) : Rendezvous τ :=
  { status := update
      (if a.status r = .receiveBlocked then update a.status r .ready else a.status) t .sendBlocked
    msg := update a.msg t (m.stamp id)
    rcvq := update a.rcvq r (t :: a.rcvq r)
    pc := update a.pc t .sending
    hist := .send t r m :: a.hist }

/-- `r` finds no message and waits. -/
def await (a : Rendezvous τ) (r : τ) : Rendezvous τ :=
  { a with
    status := update a.status r .receiveBlocked
    pc := update a.pc r .receiving }

/-- `r` takes the message of `t`, which is the oldest of its queue; `id` is the `tid` of `t`. -/
def take (a : Rendezvous τ) (r t : τ) (id : Int) : Rendezvous τ :=
  { a with
    status := update a.status t (if (a.msg t).NoReply then .ready else .replyBlocked)
    rcvq := update a.rcvq r (a.rcvq r).dropLast
    pc := update a.pc r .user
    hist := .take r t (a.msg t) (if (a.msg t).NoReply then 0 else id) :: a.hist }

/-- `s` answers `t`. -/
def answer (a : Rendezvous τ) (s t : τ) (m : Message) : Rendezvous τ :=
  { a with
    status := update a.status t .ready
    msg := update a.msg t m
    hist := .answer s t m :: a.hist }

/-- `send_message` of `t` returns. -/
def finish (a : Rendezvous τ) (t : τ) : Rendezvous τ :=
  { a with
    pc := update a.pc t .user
    hist := .ret t (a.msg t) :: a.hist }

end Rendezvous

/-- The steps of the machine, with the `tid`s of the threads. -/
inductive RendezvousStep (tid : τ → Int) (a : Rendezvous τ) : Rendezvous τ → Prop
  | skip : RendezvousStep tid a a
  | send {t r : τ} {m : Message} (ht : a.status t = .ready) (hpc : a.pc t = .user) :
      RendezvousStep tid a (a.send t r m (tid t))
  | await {r : τ} (hr : a.status r = .ready) (hpc : a.pc r ≠ .sending) : RendezvousStep tid a (a.await r)
  | take {r t : τ} {ts : List τ} (hr : a.status r = .ready) (hpc : a.pc r ≠ .sending)
      (hq : a.rcvq r = ts ++ [t]) : RendezvousStep tid a (a.take r t (tid t))
  | answer {s t : τ} {m : Message} (hs : a.status s = .ready) (ht : a.status t = .replyBlocked) :
      RendezvousStep tid a (a.answer s t m)
  | finish {t : τ} (ht : a.status t = .ready) (hpc : a.pc t = .sending) : RendezvousStep tid a (a.finish t)

structure Rendezvous.Inv (tid : τ → Int) (a : Rendezvous τ) : Prop where
  fits : ∀ t, (outstanding a.hist t).Fits (a.status t)
  pc : ∀ t, (a.pc t).Fits (a.status t)
  nodup : ∀ r, (a.rcvq r).Nodup
  mem : ∀ r t, t ∈ a.rcvq r ↔ ∃ m, outstanding a.hist t = .queued r m
  msg : ∀ t r m, outstanding a.hist t = .queued r m → a.msg t = m.stamp (tid t)
  /-- Every queue holds what was sent to its thread and not taken yet, in the order of the sends. -/
  order : ∀ r, (sendsTo r a.hist).map (fun p => (p.1, p.2.stamp (tid p.1))) =
    takesBy r a.hist ++ (a.rcvq r).reverse.map fun t => (t, a.msg t)
  count : ∀ t, a.hist.countP (Event.isSendOf t) =
    a.hist.countP (Event.completes t) + if outstanding a.hist t = .idle then 0 else 1
  /-- The message that `send_message` is about to return. -/
  result : ∀ t m, a.pc t = .sending → outstanding a.hist t = .idle → lastSent a.hist t = some m →
    ¬ m.NoReply → lastAnswer a.hist t = some (a.msg t)
  /-- Every message that `send_message` returned. -/
  rets : ∀ h t m m', (.ret t m :: h) <:+ a.hist → lastSent h t = some m' → ¬ m'.NoReply →
    lastAnswer h t = some m

namespace Rendezvous

variable {tid : τ → Int} {a : Rendezvous τ} {t r s : τ} {m : Message} {ts : List τ}

theorem Inv.notMem (hi : a.Inv tid) (ht : a.status t ≠ .sendBlocked) (r : τ) : t ∉ a.rcvq r := by
  intro hm
  obtain ⟨m, ho⟩ := (hi.mem r t).1 hm
  have hf := hi.fits t
  rw [ho] at hf
  exact ht hf.sendBlocked

theorem Inv.idle (hi : a.Inv tid) (ht : a.status t = .ready) : outstanding a.hist t = .idle :=
  (hi.fits t).idle_iff.2 (.inl ht)

/-- An event that is no return of `send_message`. -/
private theorem rets_cons {h : List (Event τ)} {e : Event τ} (he : ∀ t m, e ≠ .ret t m)
    (hr : ∀ h' t m m', (.ret t m :: h') <:+ h → lastSent h' t = some m' → ¬ m'.NoReply → lastAnswer h' t = some m)
    (h' : List (Event τ)) (t : τ) (m m' : Message) (hs : (.ret t m :: h') <:+ e :: h) :
    lastSent h' t = some m' → ¬ m'.NoReply → lastAnswer h' t = some m := by
  rcases suffix_cons_iff.1 hs with h | h
  · exact absurd (List.cons.inj h).1.symm (he t m)
  · exact hr h' t m m' h

@[simp] theorem send_hist (id : Int) : (a.send t r m id).hist = .send t r m :: a.hist := rfl

private theorem send_status_self (id : Int) : (a.send t r m id).status t = .sendBlocked := by simp [Rendezvous.send]

private theorem send_status_of_ne {u : τ} (id : Int) (hu : u ≠ t) : (a.send t r m id).status u = a.status u ∨
      a.status u = .receiveBlocked ∧ (a.send t r m id).status u = .ready := by
  simp only [Rendezvous.send, update_of_ne hu]
  split
  · rename_i hr
    by_cases hur : u = r
    · subst hur; exact .inr ⟨hr, by simp⟩
    · exact .inl (by simp [hur])
  · exact .inl rfl

private theorem send_pc_of_ne {u : τ} (id : Int) (hu : u ≠ t) : (a.send t r m id).pc u = a.pc u := by
  simp [Rendezvous.send, hu]

private theorem Inv.send_fits (hi : a.Inv tid) (u : τ) :
    (outstanding (a.send t r m (tid t)).hist u).Fits ((a.send t r m (tid t)).status u) := by
  rw [send_hist]
  by_cases hu : u = t
  · subst hu
    rw [send_status_self, outstanding_send_self]
    trivial
  · have hf := hi.fits u
    rw [outstanding_send_of_ne hu]
    rcases send_status_of_ne (tid t) hu with h | ⟨h, h'⟩
    · rw [h]
      exact hf
    · rw [h', hf.idle_iff.2 (.inr h)]
      trivial

private theorem Inv.send_pc (hi : a.Inv tid) (u : τ) :
    ((a.send t r m (tid t)).pc u).Fits ((a.send t r m (tid t)).status u) := by
  by_cases hu : u = t
  · subst hu
    rw [send_status_self]
    simp [Rendezvous.send, Pc.Fits]
  · have hp := hi.pc u
    rw [send_pc_of_ne (tid t) hu]
    rcases send_status_of_ne (tid t) hu with h | ⟨h, h'⟩
    · rw [h]
      exact hp
    · rw [h']
      trivial

private theorem Inv.send_mem (hi : a.Inv tid) (ht : a.status t = .ready) (r' u : τ) :
    u ∈ (a.send t r m (tid t)).rcvq r' ↔ ∃ m', outstanding (a.send t r m (tid t)).hist u = .queued r' m' := by
  have hmem := hi.mem r' u
  rw [send_hist]
  simp only [Rendezvous.send, update_apply]
  by_cases hu : u = t
  · subst hu
    have hq := hi.notMem (t := u) (by simp [ht]) r'
    rw [outstanding_send_self]
    split
    · rename_i he; subst he; simp
    · rename_i he; simp [hq, Ne.symm he]
  · rw [outstanding_send_of_ne hu, ← hmem]
    split
    · rename_i he; subst he; simp [hu]
    · rfl

/-- The queues of the others, and the old part of the queue of the receiver, do not hold the new sender. -/
private theorem Inv.send_old (hi : a.Inv tid) (ht : a.status t = .ready) (r' : τ) :
    ((a.rcvq r').reverse.map fun u => (u, (a.send t r m (tid t)).msg u)) =
      (a.rcvq r').reverse.map fun u => (u, a.msg u) := by
  refine map_congr_left fun u hu => ?_
  have hut : u ≠ t := by
    rintro rfl
    exact hi.notMem (by simp [ht]) r' (mem_reverse.1 hu)
  simp [Rendezvous.send, hut]

private theorem Inv.send_order (hi : a.Inv tid) (ht : a.status t = .ready) (r' : τ) :
    (sendsTo r' (a.send t r m (tid t)).hist).map (fun p => (p.1, p.2.stamp (tid p.1))) =
      takesBy r' (a.send t r m (tid t)).hist ++
        ((a.send t r m (tid t)).rcvq r').reverse.map fun u => (u, (a.send t r m (tid t)).msg u) := by
  have ho := hi.order r'
  have hold := hi.send_old (r := r) (m := m) ht r'
  rw [send_hist]
  by_cases he : r' = r
  · subst he
    have hq : (a.send t r' m (tid t)).rcvq r' = t :: a.rcvq r' := by simp [Rendezvous.send]
    rw [hq, reverse_cons, map_append, hold]
    simp only [sendsTo, takesBy, if_true, map_append, ho, append_assoc]
    simp [Rendezvous.send]
  · have hq : (a.send t r m (tid t)).rcvq r' = a.rcvq r' := by simp [Rendezvous.send, he]
    rw [hq, hold]
    simp only [sendsTo, takesBy, if_neg (Ne.symm he), ho]

theorem Inv.send (hi : a.Inv tid) (ht : a.status t = .ready) : (a.send t r m (tid t)).Inv tid := by
  refine ⟨hi.send_fits, hi.send_pc, fun r' => ?_, hi.send_mem ht, fun u r' m' ho => ?_, hi.send_order ht,
    fun u => ?_, fun u m' hpc ho hl hn => ?_, rets_cons (by simp) hi.rets⟩
  · simp only [Rendezvous.send, update_apply]
    split
    · exact nodup_cons.2 ⟨hi.notMem (by simp [ht]) r, hi.nodup r⟩
    · exact hi.nodup r'
  · rw [send_hist] at ho
    by_cases hu : u = t
    · subst hu
      rw [outstanding_send_self] at ho
      obtain ⟨-, rfl⟩ : r = r' ∧ m = m' := by simpa using ho
      simp [Rendezvous.send]
    · rw [outstanding_send_of_ne hu] at ho
      simpa [Rendezvous.send, hu] using hi.msg u r' m' ho
  · have hc := hi.count u
    rw [send_hist, countP_cons, countP_cons]
    by_cases hu : u = t
    · subst hu
      rw [hi.idle ht] at hc
      simp [outstanding_send_self, Event.isSendOf, Event.completes, hc]
    · rw [outstanding_send_of_ne hu]
      simp [Event.isSendOf, Event.completes, Ne.symm hu, hc]
  · rw [send_hist] at ho hl
    have hu : u ≠ t := by rintro rfl; simp [outstanding_send_self] at ho
    rw [outstanding_send_of_ne hu] at ho
    rw [send_pc_of_ne (tid t) hu] at hpc
    simp only [lastSent, if_neg (Ne.symm hu)] at hl
    simpa [lastAnswer, Ne.symm hu, Rendezvous.send, hu] using hi.result u m' hpc ho hl hn

theorem Inv.await (hi : a.Inv tid) (hr : a.status r = .ready) : (a.await r).Inv tid := by
  refine { hi with fits := fun u => ?_, pc := fun u => ?_, result := fun u m hpc => ?_ }
  · by_cases hu : u = r
    · subst hu
      have := hi.idle hr
      simp [Rendezvous.await, this, Outstanding.Fits]
    · simpa [Rendezvous.await, hu] using hi.fits u
  · by_cases hu : u = r
    · subst hu; simp [Rendezvous.await, Pc.Fits]
    · simpa [Rendezvous.await, hu] using hi.pc u
  · have hu : u ≠ r := by rintro rfl; simp [Rendezvous.await] at hpc
    exact hi.result u m (by simpa [Rendezvous.await, hu] using hpc)

theorem Inv.oldest (hi : a.Inv tid) (hq : a.rcvq r = ts ++ [t]) :
    a.status t = .sendBlocked ∧ ∃ m, outstanding a.hist t = .queued r m := by
  obtain ⟨m, ho⟩ := (hi.mem r t).1 (by rw [hq]; simp)
  have hf := hi.fits t
  rw [ho] at hf
  exact ⟨hf.sendBlocked, m, ho⟩

theorem Inv.take_outstanding_self (hi : a.Inv tid) (ho : outstanding a.hist t = .queued r m) (id : Int) :
    outstanding (a.take r t id).hist t = if (a.msg t).NoReply then .idle else .received r m := by
  refine outstanding_take_self ho ?_
  rw [hi.msg t r m ho]
  rfl

private theorem take_outstanding_of_ne {u : τ} (id : Int) (hu : u ≠ t) :
    outstanding (a.take r t id).hist u = outstanding a.hist u :=
  outstanding_take_of_ne hu

private theorem Inv.take_fits (hi : a.Inv tid) (ho : outstanding a.hist t = .queued r m) (u : τ) :
    (outstanding (a.take r t (tid t)).hist u).Fits ((a.take r t (tid t)).status u) := by
  by_cases hu : u = t
  · subst hu
    rw [hi.take_outstanding_self ho]
    simp only [Rendezvous.take, update_self]
    split <;> trivial
  · rw [take_outstanding_of_ne _ hu]
    simpa [Rendezvous.take, hu] using hi.fits u

private theorem Inv.take_pc (hi : a.Inv tid) (hr : a.status r = .ready) (ht : a.status t = .sendBlocked) (u : τ) :
    ((a.take r t (tid t)).pc u).Fits ((a.take r t (tid t)).status u) := by
  have htr : t ≠ r := by rintro rfl; rw [hr] at ht; cases ht
  have hp := hi.pc u
  by_cases hu : u = t
  · subst hu
    have hsend : a.pc u = .sending := by
      rw [ht] at hp
      cases hpc : a.pc u <;> simp_all [Pc.Fits]
    simp only [Rendezvous.take, update_self, update_of_ne htr, hsend]
    split <;> trivial
  · by_cases hur : u = r
    · subst hur
      simp [Rendezvous.take, hu, hr, Pc.Fits]
    · simpa [Rendezvous.take, hu, hur] using hp

private theorem Inv.take_mem (hi : a.Inv tid) (hq : a.rcvq r = ts ++ [t])
    (ho : outstanding a.hist t = .queued r m) (r' u : τ) :
    u ∈ (a.take r t (tid t)).rcvq r' ↔ ∃ m', outstanding (a.take r t (tid t)).hist u = .queued r' m' := by
  have hmem := hi.mem r' u
  have hrcvq : (a.take r t (tid t)).rcvq r' = if r' = r then ts else a.rcvq r' := by
    simp only [Rendezvous.take, update_apply, hq, dropLast_concat]
  rw [hrcvq]
  by_cases hu : u = t
  · subst hu
    rw [hi.take_outstanding_self ho]
    refine iff_of_false ?_ ?_
    · split
      · have hnd := hi.nodup r
        rw [hq] at hnd
        exact fun hm => (nodup_append.1 hnd).2.2 u hm u (by simp) rfl
      · rename_i hne
        rw [hmem, ho]
        simp [Ne.symm hne]
    · rintro ⟨m', hm'⟩
      split at hm' <;> cases hm'
  · rw [take_outstanding_of_ne _ hu, ← hmem]
    split
    · rename_i he; subst he; simp [hq, hu]
    · rfl

private theorem Inv.take_order (hi : a.Inv tid) (hq : a.rcvq r = ts ++ [t]) (r' : τ) :
    (sendsTo r' (a.take r t (tid t)).hist).map (fun p => (p.1, p.2.stamp (tid p.1))) =
      takesBy r' (a.take r t (tid t)).hist ++
        ((a.take r t (tid t)).rcvq r').reverse.map fun u => (u, (a.take r t (tid t)).msg u) := by
  have ho := hi.order r'
  by_cases he : r' = r
  · subst he
    simp only [Rendezvous.take, sendsTo, takesBy, if_true, update_self, ho, hq, dropLast_concat,
      reverse_append, reverse_singleton, map_append, map_singleton, append_assoc]
  · simp only [Rendezvous.take, sendsTo, takesBy, if_neg (Ne.symm he), update_of_ne he, ho]

private theorem Inv.take_count (hi : a.Inv tid) (ho : outstanding a.hist t = .queued r m) (u : τ) :
    (a.take r t (tid t)).hist.countP (Event.isSendOf u) = (a.take r t (tid t)).hist.countP (Event.completes u) +
        if outstanding (a.take r t (tid t)).hist u = .idle then 0 else 1 := by
  have hc := hi.count u
  by_cases hu : u = t
  · subst hu
    rw [ho] at hc
    rw [hi.take_outstanding_self ho]
    by_cases hn : (a.msg u).NoReply
    · simp [Rendezvous.take, Event.isSendOf, Event.completes, hn, hc]
    · simp [Rendezvous.take, Event.isSendOf, Event.completes, hn, hc]
  · rw [take_outstanding_of_ne _ hu]
    simp [Rendezvous.take, Event.isSendOf, Event.completes, Ne.symm hu, hc]

/-- A message that is taken and no longer outstanding without an answer is one that wants no reply. -/
private theorem Inv.take_noReply (hi : a.Inv tid) (ho : outstanding a.hist t = .queued r m) {m' : Message}
    (hidle : outstanding (a.take r t (tid t)).hist t = .idle) (hl : lastSent a.hist t = some m') : m'.NoReply := by
  have hs := lastSent_of_outstanding (m := m) (by rw [ho]; rfl)
  rw [hl, Option.some.injEq] at hs
  subst hs
  rw [hi.take_outstanding_self ho] at hidle
  by_contra hn
  have hn' : ¬ (a.msg t).NoReply := by
    rw [hi.msg t r m' ho]
    exact hn
  rw [if_neg hn'] at hidle
  cases hidle

theorem Inv.take (hi : a.Inv tid) (hr : a.status r = .ready) (hq : a.rcvq r = ts ++ [t]) :
    (a.take r t (tid t)).Inv tid := by
  obtain ⟨hst, m, ho⟩ := hi.oldest hq
  refine ⟨hi.take_fits ho, hi.take_pc hr hst, fun r' => ?_, hi.take_mem hq ho, fun u r' m' ho' => ?_,
    hi.take_order hq, hi.take_count ho, fun u m' hpc hidle hl hn => ?_, rets_cons (by simp) hi.rets⟩
  · simp only [Rendezvous.take, update_apply]
    split
    · exact (hi.nodup r).sublist (dropLast_sublist _)
    · exact hi.nodup r'
  · by_cases hu : u = t
    · subst hu
      rw [hi.take_outstanding_self ho] at ho'
      split at ho' <;> cases ho'
    · rw [take_outstanding_of_ne _ hu] at ho'
      exact hi.msg u r' m' ho'
  · by_cases hu : u = t
    · subst hu
      exact absurd (hi.take_noReply ho hidle hl) hn
    · rw [take_outstanding_of_ne _ hu] at hidle
      have hur : u ≠ r := by rintro rfl; simp [Rendezvous.take] at hpc
      exact hi.result u m' (by simpa [Rendezvous.take, hur] using hpc) hidle hl hn

theorem Inv.answer (hi : a.Inv tid) (ht : a.status t = .replyBlocked) : (a.answer s t m).Inv tid := by
  have hf := hi.fits t
  rw [ht] at hf
  obtain ⟨r₀, m₀, ho⟩ := hf.received
  have htq := hi.notMem (t := t) (by simp [ht])
  have hself : outstanding (a.answer s t m).hist t = .idle := outstanding_answer_self ho
  have hother : ∀ u, u ≠ t → outstanding (a.answer s t m).hist u = outstanding a.hist u :=
    fun u hu => outstanding_answer_of_ne hu
  refine ⟨fun u => ?_, fun u => ?_, hi.nodup, fun r' u => ?_, fun u r' m' ho' => ?_, fun r' => ?_,
    fun u => ?_, fun u m' hpc ho' hl hn => ?_, rets_cons (by simp) hi.rets⟩
  · by_cases hu : u = t
    · subst hu
      rw [hself]
      simp [Rendezvous.answer, Outstanding.Fits]
    · rw [hother u hu]
      simpa [Rendezvous.answer, hu] using hi.fits u
  · by_cases hu : u = t
    · subst hu; simp [Rendezvous.answer, Pc.Fits]
    · simpa [Rendezvous.answer, hu] using hi.pc u
  · have hmem := hi.mem r' u
    by_cases hu : u = t
    · subst hu
      rw [hself]
      exact iff_of_false (htq r') (by simp)
    · rw [hother u hu]
      exact hmem
  · have hu : u ≠ t := by rintro rfl; rw [hself] at ho'; cases ho'
    rw [hother u hu] at ho'
    simpa [Rendezvous.answer, hu] using hi.msg u r' m' ho'
  · have hq : ((a.answer s t m).rcvq r').reverse.map (fun u => (u, (a.answer s t m).msg u)) =
        (a.rcvq r').reverse.map fun u => (u, a.msg u) := by
      refine map_congr_left fun u hu => ?_
      have hut : u ≠ t := by rintro rfl; exact htq r' (mem_reverse.1 hu)
      simp [Rendezvous.answer, hut]
    rw [hq]
    exact hi.order r'
  · have hc := hi.count u
    by_cases hu : u = t
    · subst hu
      rw [ho] at hc
      rw [hself]
      simp [Rendezvous.answer, Event.isSendOf, Event.completes, hc]
    · rw [hother u hu]
      simp [Rendezvous.answer, Event.isSendOf, Event.completes, Ne.symm hu, hc]
  · by_cases hu : u = t
    · subst hu; simp [Rendezvous.answer, lastAnswer]
    · rw [hother u hu] at ho'
      simpa [Rendezvous.answer, lastAnswer, hu, Ne.symm hu] using hi.result u m' hpc ho' hl hn

theorem Inv.finish (hi : a.Inv tid) (ht : a.status t = .ready) (hpc : a.pc t = .sending) : (a.finish t).Inv tid := by
  have hidle := hi.idle ht
  refine ⟨hi.fits, fun u => ?_, hi.nodup, hi.mem, hi.msg, hi.order, fun u => ?_,
    fun u m' hpc' ho' hl hn => ?_, fun h u m' m₀ hs hl hn => ?_⟩
  · by_cases hu : u = t
    · subst hu; simp [Rendezvous.finish, ht, Pc.Fits]
    · simpa [Rendezvous.finish, hu] using hi.pc u
  · have hc := hi.count u
    simpa [Rendezvous.finish, Event.isSendOf, Event.completes, outstanding] using hc
  · have hu : u ≠ t := by rintro rfl; simp [Rendezvous.finish] at hpc'
    exact hi.result u m' (by simpa [Rendezvous.finish, hu] using hpc') ho' hl hn
  · rcases suffix_cons_iff.1 hs with he | he
    · obtain ⟨hev, rfl⟩ := List.cons.inj he
      obtain ⟨rfl, rfl⟩ := Event.ret.inj hev
      exact hi.result u m₀ hpc hidle hl hn
    · exact hi.rets h u m' m₀ he hl hn

end Rendezvous

theorem RendezvousStep.inv {tid : τ → Int} {a a' : Rendezvous τ} (hi : a.Inv tid) (hs : RendezvousStep tid a a') :
    a'.Inv tid := by
  cases hs with
  | skip => exact hi
  | send ht _ => exact hi.send ht
  | await hr _ => exact hi.await hr
  | take hr _ hq => exact hi.take hr hq
  | answer _ ht => exact hi.answer ht
  | finish ht hpc => exact hi.finish ht hpc

end Manrix
