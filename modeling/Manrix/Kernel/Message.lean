import Manrix.Kernel.Rendezvous
import Manrix.Kernel.Scheduling
import Manrix.Mm.VmParam

/-!
# Message passing (`kernel/message.c`)

`send_message`, `receive_message` and `reply_message`, each as it runs until it returns or calls `schedule` after
blocking its thread.  `Refines` relates the kernel to the abstract machine: the state words, the messages, the run queue
and the queues `rcvq` are those of the machine.  Each thing the primitives do to the kernel is one step of the machine's
state, as long as they wake only threads that are waiting for what has happened.
-/

namespace Manrix

open Function Links List

def esrch : Int := 0x49
def enomem : Int := 0x31

variable {τ : Type*} [DecidableEq τ]

def makeSendBlocked (k : Kernel τ) (thr : τ) : Kernel τ := makeBlocked sendBlocked k thr

def makeReceiveBlocked (k : Kernel τ) (thr : τ) : Kernel τ := makeBlocked receiveBlocked k thr

/-- The first part of `send_message`: the sender carries its message to the queue of the receiver. -/
def queueMessage (k : Kernel τ) (rThr : τ) (mesg : Message) : Kernel τ :=
  let sender := k.current
  let k := k.modThread sender fun t => { t with msg := mesg }
  let k := k.modThread sender fun t => { t with msg := { t.msg with tid := t.tid } }
  { k with sndq := listEnqueue k.sndq (.head rThr) (.obj sender) }

section Transfer

-- `vm_share_addr` on the maps of a receiver and a sender, with an address, a size and a protection: its
-- result and the new address
variable (share : τ → τ → BitVec 32 → BitVec 32 → BitVec 32 → Int × BitVec 32)

def transferMsg (k : Kernel τ) (rcv snd : τ) : Kernel τ × Int :=
  let msg := (k.thread snd).msg
  if msg.flags &&& msgShort ≠ 0 then (k, 0)
  else if msg.flags &&& msgMapReceive ≠ 0 then
    let (ret, rcvptr) := share rcv snd msg.w4 msg.w5 (pageRw ||| pageUser)
    (k.modThread snd fun t => { t with msg := { t.msg with w4 := rcvptr } }, ret)
  else if msg.flags &&& msgMapSend ≠ 0 then
    let (ret, sndptr) := share rcv snd msg.w2 msg.w3 pageUser
    (k.modThread snd fun t => { t with msg := { t.msg with w2 := sndptr } }, ret)
  else (k, 0)

/-- `send_message` of the current thread up to its return (`some`) or its call of `schedule` (`none`). -/
def sendMessage (k : Kernel τ) (tid : Int) (mesg : Message) : Kernel τ × Option Int :=
  let sender := k.current
  match findByTid k tid with
  | none => (k, some (-esrch))
  | some rThr =>
    let k := queueMessage k rThr mesg
    let (k, ret) := transferMsg share k rThr sender
    if ret < 0 then (k, some (-enomem))
    else
      let k := if (k.thread rThr).states &&& receiveBlocked ≠ 0 then wakeup k rThr else k
      (makeSendBlocked k sender, none)

end Transfer

/-- What `send_message` gives its caller when the thread runs again: the message and the result. -/
def sendReturn (k : Kernel τ) (sender : τ) : Message × Int :=
  ((k.thread sender).msg, (k.thread sender).msg.w1.toInt)

/-- The ends of a pass through `receive_message`: at `schedule`, with an error, or with a message, whose sender is the
local variable `snd`. -/
inductive ReceiveResult (τ : Type*) where
  | blocked
  | error (ret : Int)
  | message (snd : τ) (msg : Message) (ret : Int)

/-- `receive_message` of the current thread from the label `again`. -/
def receiveMessage (k : Kernel τ) : Kernel τ × ReceiveResult τ :=
  let rcv := k.current
  if listIsempty k.sndq (.head rcv) then (makeReceiveBlocked k rcv, .blocked)
  else
    match listDequeue k.sndq (.head rcv) with
    -- not met: the last entry of a list that is not empty is a thread; the source tests for `NULL` here
    | (sndq, .head _) => ({ k with sndq := sndq }, .error (-1))
    | (sndq, .obj snd) =>
      let k := { k with sndq := sndq }
      let msg := (k.thread snd).msg
      if msg.flags &&& msgNoreply ≠ 0 then (wakeup k snd, .message snd msg 0)
      else
        let k := k.modThread snd fun t => { t with states := replyBlocked }
        (k, .message snd msg (k.thread snd).tid)

def unmapMessage (k : Kernel τ) (rcv : τ) (message : Message) : Kernel τ × Int :=
  if message.flags &&& msgShort ≠ 0 then (k.modThread rcv fun t => { t with msg := message }, 0)
  else (k, 0)

def replyMessage (k : Kernel τ) (tid : Int) (msg : Message) : Kernel τ × Int :=
  match findByTid k tid with
  | none => (k, -esrch)
  | some wait =>
    if (k.thread wait).states &&& replyBlocked = 0 then (k, -esrch)
    else
      let k := k.modThread wait fun t => { t with msg := msg }
      let (k, ret) := unmapMessage k wait msg
      (wakeup k wait, ret)

def Status.word : Status → BitVec 32
  | .ready => threadReady
  | .sendBlocked => Manrix.sendBlocked
  | .receiveBlocked => Manrix.receiveBlocked
  | .replyBlocked => Manrix.replyBlocked

theorem Status.word_inj {s s' : Status} (h : s.word = s'.word) : s = s' := by
  cases s <;> cases s' <;> first | rfl | exact absurd h (by decide)

theorem Status.word_and_receiveBlocked (s : Status) : s.word &&& Manrix.receiveBlocked ≠ 0 ↔ s ≠ .ready := by
  cases s <;> decide

theorem Status.word_and_replyBlocked (s : Status) : s.word &&& Manrix.replyBlocked = 0 ↔ s = .ready := by
  cases s <;> decide

theorem Status.word_and_threadBlocked (s : Status) : s.word &&& threadBlocked ≠ 0 ↔ s ≠ .ready := by
  cases s <;> decide

/-- The kernel `k` is in the state `a` of the machine; `tid` and `find` are the thread table. -/
structure Refines {τ : Type*} (tid : τ → Int) (find : Int → Option τ) (k : Kernel τ) (a : Rendezvous τ) :
    Prop where
  states : ∀ t, (k.thread t).states = (a.status t).word
  msg : ∀ t, (k.thread t).msg = a.msg t
  tid : ∀ t, (k.thread t).tid = tid t
  find : ∀ i, findByTid k i = find i
  runnable : QueuedSet IsRun k fun t => a.status t = .ready
  senders : Queues (fun _ => True) k.sndq a.rcvq
  heads : ∀ t, IsRun (k.wakeHead t)

section Refines

variable {τ : Type*} {tid : τ → Int} {find : Int → Option τ} {k : Kernel τ} {a : Rendezvous τ} {t r : τ}
  {b : Status} {m : Message}

theorem Refines.change {k' : Kernel τ} {a' : Rendezvous τ} (hR : Refines tid find k a) (hh : k'.thash = k.thash)
    (hc : k'.cpuHint = k.cpuHint) (hid : ∀ u, (k'.thread u).tid = (k.thread u).tid)
    (hp : ∀ u, (k'.thread u).priorityStat = (k.thread u).priorityStat)
    (hs : ∀ u, (k'.thread u).states = (a'.status u).word) (hm : ∀ u, (k'.thread u).msg = a'.msg u)
    (hr : QueuedSet IsRun k' fun t => a'.status t = .ready) (hq : Queues (fun _ => True) k'.sndq a'.rcvq) :
    Refines tid find k' a' := by
  refine ⟨hs, hm, fun u => (hid u).trans (hR.tid u), fun i => (findByTid_congr hh hid i).trans (hR.find i),
    hr, hq, fun u => ?_⟩
  have := hR.heads u
  rwa [Kernel.wakeHead, ← hc, ← hp u] at this

theorem Refines.setCurrent (hR : Refines tid find k a) (t : τ) : Refines tid find (k.withCurrent t) a :=
  hR.change rfl rfl (fun _ => rfl) (fun _ => rfl) hR.states hR.msg
    (hR.runnable.congr rfl (fun _ _ => rfl) fun _ => Iff.rfl) hR.senders

theorem Refines.congr {a' : Rendezvous τ} (hR : Refines tid find k a) (hs : a'.status = a.status)
    (hm : a'.msg = a.msg) (hq : a'.rcvq = a.rcvq) : Refines tid find k a' :=
  ⟨hs ▸ hR.states, hm ▸ hR.msg, hR.tid, hR.find, hs ▸ hR.runnable, hq ▸ hR.senders, hR.heads⟩

section

variable [DecidableEq τ]

/-- A write to a thread that keeps it on or off the run queue. -/
theorem Refines.modThread {f : Thread → Thread} (hR : Refines tid find k a)
    (hf : f (k.thread t) = { k.thread t with states := b.word, msg := m })
    (hst : b = .ready ↔ a.status t = .ready) :
    Refines tid find (k.modThread t f)
      { a with status := update a.status t b, msg := update a.msg t m } := by
  have hkeep : ∀ {β : Type} {g : Thread → β}, (∀ th s m, g { th with states := s, msg := m } = g th) → ∀ u,
      g ((k.modThread t f).thread u) = g (k.thread u) :=
    fun hg u => modThread_thread_keep k t u f (by rw [hf]; exact hg _ _ _)
  have hhome : ∀ u, (k.modThread t f).home u = k.home u := fun u => by
    have h1 := hkeep (g := Thread.cpu) (fun _ _ _ => rfl) u
    have h2 := hkeep (g := Thread.priorityDyn) (fun _ _ _ => rfl) u
    simp only [Kernel.home, h1, h2]
  refine hR.change (modThread_thash k t f) (modThread_cpuHint k t f)
    (hkeep (g := Thread.tid) fun _ _ _ => rfl) (hkeep (g := Thread.priorityStat) fun _ _ _ => rfl) (fun u => ?_)
    (fun u => ?_)
    (hR.runnable.congr (modThread_runq k t f) (fun u _ => hhome u) fun u => ?_) hR.senders
  · show _ = (update a.status t b u).word
    by_cases hu : u = t
    · subst hu; rw [modThread_thread_self, hf, update_self]
    · rw [modThread_thread_of_ne k t f hu, hR.states, update_of_ne hu]
  · show _ = update a.msg t m u
    by_cases hu : u = t
    · subst hu; rw [modThread_thread_self, hf, update_self]
    · rw [modThread_thread_of_ne k t f hu, hR.msg, update_of_ne hu]
  · show update a.status t b u = .ready ↔ a.status u = .ready
    by_cases hu : u = t
    · subst hu; rw [update_self, hst]
    · rw [update_of_ne hu]

theorem Refines.setMsg {f : Thread → Thread} (hR : Refines tid find k a)
    (hf : f (k.thread t) = { k.thread t with msg := m }) :
    Refines tid find (k.modThread t f) { a with msg := update a.msg t m } := by
  have h := hR.modThread (t := t) (m := m) (f := f) (by rw [hf, ← hR.states]) Iff.rfl
  rwa [update_eq_self] at h

theorem Refines.enqueueSender (hR : Refines tid find k a) (ht : ∀ r, t ∉ a.rcvq r) :
    Refines tid find { k with sndq := listEnqueue k.sndq (.head r) (.obj t) }
      { a with rcvq := update a.rcvq r (t :: a.rcvq r) } := by
  refine hR.change rfl rfl (fun _ => rfl) (fun _ => rfl) hR.states hR.msg
    (hR.runnable.congr rfl (fun _ _ => rfl) fun _ => Iff.rfl) ?_
  rw [listEnqueue_eq]
  exact hR.senders.splice trivial ht

theorem Refines.dequeueSender {ts : List τ} (hR : Refines tid find k a) (hq : a.rcvq r = ts ++ [t]) :
    (listDequeue k.sndq (.head r)).2 = .obj t ∧
      Refines tid find { k with sndq := (listDequeue k.sndq (.head r)).1 }
        { a with rcvq := update a.rcvq r (a.rcvq r).dropLast } := by
  have hring := hR.senders.ring r trivial
  have hnd := hR.senders.nodup r
  have hu := hR.senders.unlink (h := r) (x := t) (by rw [hq]; simp)
  rw [hq] at hnd hu
  have hts : t ∉ ts := fun hm => (nodup_append.1 hnd).2.2 t hm t (by simp) rfl
  rw [erase_append_right _ hts, erase_cons_head, append_nil] at hu
  rw [hq, map_append, map_singleton] at hring
  rw [listDequeue_concat hring, hq, dropLast_concat]
  exact ⟨rfl, hR.change rfl rfl (fun _ => rfl) (fun _ => rfl) hR.states hR.msg
    (hR.runnable.congr rfl (fun _ _ => rfl) fun _ => Iff.rfl) hu⟩

theorem Refines.wakeup (hR : Refines tid find k a) (ht : a.status t ≠ .ready) :
    Refines tid find (wakeup k t) { a with status := update a.status t .ready } := by
  refine hR.change rfl rfl (fun u => wakeup_keep (g := Thread.tid) k t u fun _ _ _ _ => rfl)
    (fun u => wakeup_keep (g := Thread.priorityStat) k t u fun _ _ _ _ => rfl) (fun u => ?_)
    (fun u => (wakeup_keep (g := Thread.msg) k t u fun _ _ _ _ => rfl).trans (hR.msg u)) ?_ hR.senders
  · show _ = (update a.status t .ready u).word
    by_cases hu : u = t
    · subst hu; simp [Manrix.wakeup, Status.word]
    · simp [Manrix.wakeup, hu, modThread_thread_of_ne, hR.states]
  · refine (hR.runnable.wakeup (hR.heads t) ht).congr rfl (fun _ _ => rfl) fun u => ?_
    show update a.status t .ready u = .ready ↔ u = t ∨ a.status u = .ready
    by_cases hu : u = t
    · simp [hu]
    · simp [hu]

theorem Refines.makeBlocked (hR : Refines tid find k a) (ht : a.status t = .ready) (hst : b ≠ .ready) :
    Refines tid find (makeBlocked b.word k t) { a with status := update a.status t b } := by
  have hrest := makeBlocked_rest (w := b.word) (k := k) (t := t)
  refine hR.change hrest.1 hrest.2.1 (fun u => makeBlocked_keep (g := Thread.tid) fun _ _ _ => rfl)
    (fun u => makeBlocked_keep (g := Thread.priorityStat) fun _ _ _ => rfl) (fun u => ?_)
    (fun u => (makeBlocked_keep (g := Thread.msg) fun _ _ _ => rfl).trans (hR.msg u))
    ((hR.runnable.makeBlocked ht).congr rfl (fun _ _ => rfl) fun u => ?_) (hrest.2.2 ▸ hR.senders)
  · show _ = (update a.status t b u).word
    rw [makeBlocked_states, hR.states, update_apply]
    split <;> rfl
  · show update a.status t b u = .ready ↔ u ≠ t ∧ a.status u = .ready
    by_cases hu : u = t
    · subst hu; simp [hst]
    · simp [hu]

variable (share : τ → τ → BitVec 32 → BitVec 32 → BitVec 32 → Int × BitVec 32) {i : Int}

private theorem transferMsg_short {snd : τ} (h : (k.thread snd).msg.IsShort) : transferMsg share k r snd = (k, 0) := by
  unfold transferMsg
  exact if_pos h

private theorem queueMessage_isShort (hm : m.IsShort) : ((queueMessage k r m).thread k.current).msg.IsShort := by
  simpa [queueMessage, Message.IsShort] using hm

theorem Refines.queueMessage (hR : Refines tid find k a) (hq : ∀ r, k.current ∉ a.rcvq r) :
    Refines tid find (queueMessage k r m)
      { a with msg := update a.msg k.current (m.stamp (tid k.current))
               rcvq := update a.rcvq r (k.current :: a.rcvq r) } := by
  have h1 : Refines tid find (k.modThread k.current fun t => { t with msg := m }) _ := hR.setMsg rfl
  have h2 : Refines tid find ((k.modThread k.current fun t => { t with msg := m }).modThread k.current
      fun t => { t with msg := { t.msg with tid := t.tid } }) _ := h1.setMsg rfl
  refine (h2.enqueueSender (r := r) hq).congr rfl ?_ rfl
  simp [Message.stamp, hR.tid]

theorem Refines.sendMessage_ready (hR : Refines tid find k a) (ht : a.status k.current = .ready)
    (hq : ∀ r, k.current ∉ a.rcvq r) (hm : m.IsShort) (hf : find i = some r) (hr : a.status r = .ready) :
    (sendMessage share k i m).2 = none ∧ Refines tid find (sendMessage share k i m).1
        { a.send k.current r m (tid k.current) with status := update a.status k.current .sendBlocked } := by
  have hQ := hR.queueMessage (r := r) (m := m) hq
  have hshort := queueMessage_isShort (k := k) (r := r) hm
  have htest := (a.status r).word_and_receiveBlocked
  rw [← hQ.states r] at htest
  simp only [sendMessage, (hR.find i).trans hf, transferMsg_short share hshort, lt_self_iff_false, if_false,
    true_and]
  rw [if_neg fun h => htest.1 h hr]
  exact (hQ.makeBlocked (b := .sendBlocked) ht (by decide)).congr rfl rfl rfl

/-- A message to a blocked thread wakes it, whatever it waits for. -/
theorem Refines.sendMessage_blocked (hR : Refines tid find k a) (ht : a.status k.current = .ready)
    (hq : ∀ r, k.current ∉ a.rcvq r) (hm : m.IsShort) (hf : find i = some r) (hr : a.status r ≠ .ready) :
    (sendMessage share k i m).2 = none ∧
      Refines tid find (sendMessage share k i m).1 { a.send k.current r m (tid k.current) with
        status := update (update a.status r .ready) k.current .sendBlocked } := by
  have hQ := hR.queueMessage (r := r) (m := m) hq
  have hshort := queueMessage_isShort (k := k) (r := r) hm
  have htest := (a.status r).word_and_receiveBlocked
  rw [← hQ.states r] at htest
  have hrt : k.current ≠ r := by
    intro h
    rw [← h] at hr
    exact hr ht
  simp only [sendMessage, (hR.find i).trans hf, transferMsg_short share hshort, lt_self_iff_false, if_false,
    true_and]
  rw [if_pos (htest.2 hr)]
  have hW := hQ.wakeup (t := r) hr
  refine (hW.makeBlocked (t := k.current) (b := .sendBlocked) ?_ (by decide)).congr rfl rfl rfl
  show update a.status r .ready k.current = .ready
  rw [update_of_ne hrt, ht]

theorem Refines.sendMessage (hR : Refines tid find k a) (ht : a.status k.current = .ready)
    (hq : ∀ r, k.current ∉ a.rcvq r) (hm : m.IsShort) (hf : find i = some r)
    (hr : a.status r = .ready ∨ a.status r = .receiveBlocked) : (sendMessage share k i m).2 = none ∧
      Refines tid find (sendMessage share k i m).1 (a.send k.current r m (tid k.current)) := by
  rcases hr with hr | hr
  · obtain ⟨h, hS⟩ := hR.sendMessage_ready share ht hq hm hf hr
    exact ⟨h, hS.congr (by simp [Rendezvous.send, hr]) rfl rfl⟩
  · obtain ⟨h, hS⟩ := hR.sendMessage_blocked share ht hq hm hf (by simp [hr])
    exact ⟨h, hS.congr (by simp [Rendezvous.send, hr]) rfl rfl⟩

theorem Refines.receiveMessage_nil (hR : Refines tid find k a) (ht : a.status k.current = .ready)
    (hq : a.rcvq k.current = []) :
    (receiveMessage k).2 = .blocked ∧ Refines tid find (receiveMessage k).1 (a.await k.current) := by
  have hring := hR.senders.ring k.current trivial
  have hemp : listIsempty k.sndq (.head k.current) = true := by
    rw [listIsempty_iff hring, hq]
    rfl
  simp only [receiveMessage, hemp, if_true, true_and]
  exact (hR.makeBlocked (b := .receiveBlocked) ht (by decide)).congr rfl rfl rfl

/-- `receive_message` takes the oldest message of the queue. -/
theorem Refines.receiveMessage_concat {ts : List τ} (hR : Refines tid find k a) (ht : a.status t ≠ .ready)
    (hq : a.rcvq k.current = ts ++ [t]) :
    (receiveMessage k).2 = .message t (a.msg t) (if (a.msg t).NoReply then 0 else tid t) ∧
      Refines tid find (receiveMessage k).1 (a.take k.current t (tid t)) := by
  have hring := hR.senders.ring k.current trivial
  have hemp : ¬ listIsempty k.sndq (.head k.current) = true := by
    rw [listIsempty_iff hring, hq]
    simp
  obtain ⟨hobj, hD⟩ := hR.dequeueSender hq
  rcases hdeq : listDequeue k.sndq (.head k.current) with ⟨sndq, node⟩
  rw [hdeq] at hobj hD
  simp only at hobj hD
  subst hobj
  have hm := hR.msg t
  simp only [receiveMessage, if_neg hemp, hdeq]
  rw [hm]
  by_cases hn : (a.msg t).NoReply
  · have hn' : (a.msg t).flags &&& msgNoreply ≠ 0 := hn
    rw [if_pos hn, if_pos hn']
    exact ⟨rfl, (hD.wakeup ht).congr (by simp [Rendezvous.take, hn]) rfl rfl⟩
  · have hn' : ¬ (a.msg t).flags &&& msgNoreply ≠ 0 := hn
    rw [if_neg hn, if_neg hn']
    refine ⟨by simp [hR.tid], ?_⟩
    have hB := hD.modThread (t := t) (f := fun th => { th with states := replyBlocked }) (m := a.msg t)
      (b := .replyBlocked) (by rw [← hm]; rfl) (by simp [ht])
    exact hB.congr (by simp [Rendezvous.take, hn]) (by simp [Rendezvous.take]) rfl

theorem Refines.replyMessage (hR : Refines tid find k a) (hf : find i = some t) (ht : a.status t ≠ .ready)
    (s : τ) : (replyMessage k i m).2 = 0 ∧ Refines tid find (replyMessage k i m).1 (a.answer s t m) := by
  have htest := (a.status t).word_and_replyBlocked
  rw [← hR.states t] at htest
  have h1 : Refines tid find (k.modThread t fun th => { th with msg := m }) _ := hR.setMsg rfl
  have h2 : (unmapMessage (k.modThread t fun th => { th with msg := m }) t m).2 = 0 ∧
      Refines tid find (unmapMessage (k.modThread t fun th => { th with msg := m }) t m).1
        { a with msg := update a.msg t m } := by
    unfold unmapMessage
    split
    · have h1' := h1.setMsg (t := t) (f := fun th => { th with msg := m }) rfl
      exact ⟨rfl, h1'.congr rfl (by simp) rfl⟩
    · exact ⟨rfl, h1⟩
  simp only [Manrix.replyMessage, (hR.find i).trans hf, if_neg fun h => ht (htest.1 h)]
  exact ⟨h2.1, (h2.2.wakeup (t := t) ht).congr rfl rfl rfl⟩

theorem Refines.replyMessage_ready (hR : Refines tid find k a) (hf : find i = some t) (ht : a.status t = .ready) :
    Manrix.replyMessage k i m = (k, -esrch) := by
  have hf' : findByTid k i = some t := (hR.find i).trans hf
  have htest := (a.status t).word_and_replyBlocked.2 ht
  rw [← hR.states t] at htest
  simp only [Manrix.replyMessage, hf', if_pos htest]

end

end Refines

end Manrix
