import Manrix.Kernel.Ipc

/-!
# Clients and servers

Clients call `send_message`; servers call `receive_message` and `reply_message`, the latter only with results of their
own `receive_message` calls that they have not answered yet.  If every message is addressed to a server, then no step
has a wrong target, so the run is one of the abstract machine, and its invariant gives the order of delivery, the
matching of replies to requests and the state of the queues.  A message to a client that waits for its own reply ends
the wait (`client_woken_without_reply`).
-/

namespace Manrix

open Function Links List Runs

variable {τ : Type*} [DecidableEq τ]

/-- The non-zero results of the `receive_message` calls of `s` that `s` has not answered, the latest first. -/
def unanswered (tid : τ → Int) (s : τ) : List (Event τ) → List Int
  | [] => []
  | .take r _ _ ret :: h => if r = s ∧ ret ≠ 0 then ret :: unanswered tid s h else unanswered tid s h
  | .answer s' t _ :: h => if s' = s then (unanswered tid s h).erase (tid t) else unanswered tid s h
  | _ :: h => unanswered tid s h

/-- What the clients and the servers do. -/
def Conforms (server : τ → Prop) (x : Ipc τ × IpcOp τ × Ipc τ) : Prop :=
  match x.2.1 with
  | .send t i _ => ¬ server t ∧ (findByTid x.1.k i).isSome
  | .receive t => server t
  | .reply t i _ => server t ∧ i ∈ unanswered (fun t => (x.1.k.thread t).tid) t x.1.hist
  | .resume _ => True

/-- A message is addressed to a server. -/
def ToServer (server : τ → Prop) (x : Ipc τ × IpcOp τ × Ipc τ) : Prop :=
  match x.2.1 with
  | .send _ i _ => ∀ r, findByTid x.1.k i = some r → server r
  | _ => True

/-- The events that an operation can add. -/
inductive IpcOp.Adds (k : Kernel τ) : IpcOp τ → Event τ → Prop
  | send {t r : τ} {i : Int} {m : Message} (hf : findByTid k i = some r) : Adds k (.send t i m) (.send t r m)
  | receive {r t : τ} {m : Message} {ret : Int} : Adds k (.receive r) (.take r t m ret)
  | resume {r t : τ} {m : Message} {ret : Int} : Adds k (.resume r) (.take r t m ret)
  | reply {t w : τ} {i : Int} {m : Message} (hf : findByTid k i = some w) :
      Adds k (.reply t i m) (.answer t w m)
  | finish {t : τ} {m : Message} : Adds k (.resume t) (.ret t m)

variable {share : τ → τ → BitVec 32 → BitVec 32 → BitVec 32 → Int × BitVec 32} {tid : τ → Int}
  {find : Int → Option τ} {s s' : Ipc τ} {a : Rendezvous τ} {op : IpcOp τ} {t r : τ}

theorem Ipc.receive_hist (s : Ipc τ) (t : τ) :
    (s.receive t).hist = s.hist ∨ ∃ u m ret, (s.receive t).hist = .take t u m ret :: s.hist := by
  unfold Ipc.receive
  split
  · exact .inl rfl
  · exact .inl rfl
  · exact .inr ⟨_, _, _, rfl⟩

theorem IpcStep.hist_cases (hs : IpcStep share s op s') :
    s'.hist = s.hist ∨ ∃ e, op.Adds s.k e ∧ s'.hist = e :: s.hist := by
  obtain ⟨-, rfl⟩ := hs
  cases op with
  | send t i m =>
    simp only [IpcOp.exec, Ipc.send]
    split
    · rename_i hf _
      exact .inr ⟨_, .send hf, rfl⟩
    · exact .inl rfl
  | receive t =>
    rcases s.receive_hist t with h | ⟨_, _, _, h⟩
    · exact .inl h
    · exact .inr ⟨_, .receive, h⟩
  | reply t i m =>
    simp only [IpcOp.exec, Ipc.reply]
    split
    · rename_i hf
      split
      · exact .inr ⟨_, .reply hf, rfl⟩
      · exact .inl rfl
    · exact .inl rfl
  | resume t =>
    simp only [IpcOp.exec]
    split
    · exact .inr ⟨_, .finish, rfl⟩
    · rcases s.receive_hist t with h | ⟨_, _, _, h⟩
      · exact .inl h
      · exact .inr ⟨_, .resume, h⟩
    · exact .inl rfl

theorem IpcStep.adds {e : Event τ} (hs : IpcStep share s op s') (h : s'.hist = e :: s.hist) : op.Adds s.k e := by
  rcases hs.hist_cases with h' | ⟨e', he, h'⟩
  · rw [h] at h'
    exact absurd (congrArg List.length h') (by simp)
  · rw [h] at h'
    rw [(List.cons.inj h').1]
    exact he

/-- No server has a message of its own outstanding, and what a server has not answered are the requests it took. -/
structure Requests (server : τ → Prop) (tid : τ → Int) (h : List (Event τ)) : Prop where
  idle : ∀ t, server t → outstanding h t = .idle
  taken : ∀ s i, i ∈ unanswered tid s h → ∃ t m, tid t = i ∧ outstanding h t = .received s m
  nodup : ∀ s, (unanswered tid s h).Nodup

variable {server : τ → Prop} {h : List (Event τ)} {m m' : Message} {ret : Int}

theorem Requests.send (hq : Requests server tid h) (hc : ¬ server t) (ht : outstanding h t = .idle) :
    Requests server tid (.send t r m :: h) := by
  refine ⟨fun u hu => ?_, fun v i hi => ?_, hq.nodup⟩
  · have hut : u ≠ t := by rintro rfl; exact hc hu
    rw [outstanding_send_of_ne hut]
    exact hq.idle u hu
  · obtain ⟨u, m', hid, ho⟩ := hq.taken v i hi
    have hut : u ≠ t := by rintro rfl; rw [ht] at ho; cases ho
    exact ⟨u, m', hid, by rw [outstanding_send_of_ne hut]; exact ho⟩

theorem Requests.take (hq : Requests server tid h) (hinj : Injective tid)
    (ht : outstanding h t = .queued r m') (hm : m.Carries m') (hret : ret = if m.NoReply then 0 else tid t) :
    Requests server tid (.take r t m ret :: h) := by
  have hself : outstanding (.take r t m ret :: h) t = _ := outstanding_take_self ht hm
  have hne : ∀ u v m₀, outstanding h u = .received v m₀ → u ≠ t := by
    rintro u v m₀ ho rfl
    rw [ht] at ho
    cases ho
  -- a result that is not zero is the `tid` of a sender that waits for its reply
  have hreply : ret ≠ 0 → ¬ m.NoReply ∧ ret = tid t := by
    intro h0
    by_cases hn : m.NoReply
    · rw [if_pos hn] at hret
      exact absurd hret h0
    · rw [if_neg hn] at hret
      exact ⟨hn, hret⟩
  refine ⟨fun u hu => ?_, fun v i hi => ?_, fun v => ?_⟩
  · have hut : u ≠ t := by
      rintro rfl
      have := hq.idle u hu
      rw [ht] at this
      cases this
    rw [outstanding_take_of_ne hut]
    exact hq.idle u hu
  · have hold : i ∈ unanswered tid v h → ∃ u m₀, tid u = i ∧
        outstanding (.take r t m ret :: h) u = .received v m₀ := by
      intro hi
      obtain ⟨u, m₀, hid, ho⟩ := hq.taken v i hi
      exact ⟨u, m₀, hid, by rw [outstanding_take_of_ne (hne u v m₀ ho)]; exact ho⟩
    simp only [unanswered] at hi
    split at hi
    · rename_i hrv
      obtain ⟨hn, hid⟩ := hreply hrv.2
      rcases mem_cons.1 hi with rfl | hi
      · exact ⟨t, m', hid.symm, by rw [hself, if_neg hn, hrv.1]⟩
      · exact hold hi
    · exact hold hi
  · simp only [unanswered]
    split
    · rename_i hrv
      refine nodup_cons.2 ⟨fun hi => ?_, hq.nodup v⟩
      obtain ⟨u, m₀, hid, ho⟩ := hq.taken v _ hi
      exact hne u v m₀ ho (hinj (hid.trans (hreply hrv.2).2))
    · exact hq.nodup v

theorem Requests.answer {v : τ} (hq : Requests server tid h) (hv : tid t ∈ unanswered tid v h)
    (hinj : Injective tid) : Requests server tid (.answer v t m :: h) := by
  obtain ⟨u, m', hid, ho⟩ := hq.taken v _ hv
  obtain rfl : u = t := hinj hid
  refine ⟨fun w hw => ?_, fun w i hi => ?_, fun w => ?_⟩
  · by_cases hwu : w = u
    · subst hwu; exact outstanding_answer_self ho
    · rw [outstanding_answer_of_ne hwu]
      exact hq.idle w hw
  · have hmem : i ∈ unanswered tid w h ∧ (w = v → i ≠ tid u) := by
      simp only [unanswered] at hi
      split at hi
      · rename_i hvw
        subst hvw
        rw [(hq.nodup v).mem_erase_iff] at hi
        exact ⟨hi.2, fun _ => hi.1⟩
      · rename_i hvw
        exact ⟨hi, fun he => absurd he.symm hvw⟩
    obtain ⟨x, m₀, hx, hox⟩ := hq.taken w i hmem.1
    have hxu : x ≠ u := by
      rintro rfl
      rw [ho] at hox
      exact hmem.2 (Outstanding.received.inj hox).1.symm hx.symm
    exact ⟨x, m₀, hx, by rw [outstanding_answer_of_ne hxu]; exact hox⟩
  · simp only [unanswered]
    split
    · exact (hq.nodup w).erase _
    · exact hq.nodup w

theorem Ipc.Sim.targetOk (h : s.Sim tid find a) (hq : Requests server tid s.hist)
    (hlive : ∀ t, find (tid t) = some t) (hc : Conforms server (s, op, s')) (hto : ToServer server (s, op, s')) :
    TargetOk (s, op, s') := by
  cases op with
  | send t i m =>
    intro r hf
    rw [h.status_of_send, ← (h.inv.fits r).idle_iff, h.hist]
    exact hq.idle r (hto r hf)
  | reply t i m =>
    intro w hf
    obtain ⟨u, m', hid, ho⟩ := hq.taken t i (by simpa only [h.refines.tid] using hc.2)
    have hw : u = w := by
      rw [h.refines.find, ← hid, hlive u] at hf
      exact Option.some.inj hf
    have hfit := h.inv.fits w
    rw [h.hist, ← hw, ho, hw] at hfit
    rw [h.status_of_reply]
    right
    cases hst : a.status w <;> simp_all [Outstanding.Fits]
  | receive t => trivial
  | resume t => trivial

/-- A step of a client or a server keeps the requests. -/
theorem IpcStep.requests {a' : Rendezvous τ} (h : s.Sim tid find a) (h' : s'.Sim tid find a')
    (hq : Requests server tid s.hist) (hlive : ∀ t, find (tid t) = some t) (hc : Conforms server (s, op, s'))
    (hs : IpcStep share s op s') (hst : RendezvousStep tid a a') : Requests server tid s'.hist := by
  have hinj : Injective tid := by
    intro t u he
    have := hlive t
    rw [he, hlive u] at this
    exact (Option.some.inj this).symm
  have hh := h'.hist
  cases hst with
  | skip => rw [← hh, h.hist]; exact hq
  | await _ _ => rw [← hh]; exact h.hist ▸ hq
  | @send t r m ht _ =>
    have hadd : s'.hist = .send t r m :: s.hist := by rw [← hh, ← h.hist]; rfl
    have hop := hs.adds hadd
    rw [hadd]
    cases hop with
    | send hf => exact hq.send hc.1 (h.hist ▸ h.inv.idle ht)
  | @take r t ts hr _ hts =>
    have hadd : s'.hist = .take r t (a.msg t) (if (a.msg t).NoReply then 0 else tid t) :: s.hist := by
      rw [← hh, ← h.hist]; rfl
    obtain ⟨m₀, ho⟩ := (h.inv.mem r t).1 (by rw [hts]; simp)
    have hm := h.inv.msg t r m₀ ho
    rw [hadd]
    exact hq.take hinj (h.hist ▸ ho) (by rw [hm]; rfl) rfl
  | @answer v t m _ _ =>
    have hadd : s'.hist = .answer v t m :: s.hist := by rw [← hh, ← h.hist]; rfl
    have hop := hs.adds hadd
    rw [hadd]
    cases hop with
    | @reply _ _ i _ hf =>
      have hid : tid t = i := (h.refines.tid t).symm.trans (findByTid_tid hf)
      refine hq.answer ?_ hinj
      rw [hid]
      simpa only [h.refines.tid] using hc.2
  | @finish t _ _ =>
    have hadd : s'.hist = .ret t (a.msg t) :: s.hist := by rw [← hh, ← h.hist]; rfl
    rw [hadd]
    exact ⟨hq.idle, hq.taken, hq.nodup⟩

/-- The state of the queues and what the calls have returned, with the queues `rcvq` in `w` and the run queue in `q`. -/
structure Delivered (s : Ipc τ) (w : τ → List τ) (q : RunHead → List τ) : Prop where
  senders : ∀ r, IsRing s.k.sndq (.head r) ((w r).map .obj)
  /-- What was sent to `r`, with the `tid` of its sender, is what `r` received followed by what is in its
  queue. -/
  order : ∀ r, (sendsTo r s.hist).map (fun p => (p.1, p.2.stamp (s.k.thread p.1).tid)) =
    takesBy r s.hist ++ (w r).reverse.map fun t => (t, (s.k.thread t).msg)
  /-- At most one message of a thread is outstanding. -/
  single : ∀ t, s.hist.countP (Event.isSendOf t) ≤ s.hist.countP (Event.completes t) + 1
  disjoint : ∀ t r r', t ∈ w r → t ∈ w r' → r = r'
  /-- A send that wants a reply returned the message of the reply made to it. -/
  replies : ∀ h t m m', (.ret t m :: h) <:+ s.hist → lastSent h t = some m' → ¬ m'.NoReply →
    lastAnswer h t = some m
  runq : ∀ h, IsRun h → IsRing s.k.runq (.head h) ((q h).map .obj)
  queued : ∀ t, ¬ (s.k.thread t).Blocked → ∃ h, IsRun h ∧ ∀ h', (q h').count t = if h' = h then 1 else 0
  blocked : ∀ t, (s.k.thread t).Blocked → ∀ h, t ∉ q h

theorem Ipc.Sim.delivered (h : s.Sim tid find a) : ∃ w q, Delivered s w q := by
  obtain ⟨q, hq, hmem⟩ := h.refines.runnable
  have hblocked : ∀ t, (s.k.thread t).Blocked ↔ a.status t ≠ .ready := by
    intro t
    unfold Thread.Blocked
    rw [h.refines.states t]
    exact (a.status t).word_and_threadBlocked
  refine ⟨a.rcvq, q, fun r => h.refines.senders.ring r trivial, fun r => ?_, fun t => ?_,
    fun t r r' => h.refines.senders.disjoint r r' t, ?_, hq.queues.ring, fun t ht => ?_, fun t ht u hu => ?_⟩
  · simp only [h.refines.tid, h.refines.msg, ← h.hist]
    exact h.inv.order r
  · have hc := h.inv.count t
    rw [h.hist] at hc
    split at hc <;> omega
  · rw [← h.hist]
    exact h.inv.rets
  · obtain ⟨u, hu⟩ := (hmem t).2 (by by_contra hne; exact ht ((hblocked t).2 hne))
    refine ⟨u, hq.queues.head_of_mem hu, fun v => ?_⟩
    split
    · rename_i hv
      subst hv
      exact count_eq_one_of_mem (hq.queues.nodup v) hu
    · rename_i hv
      rw [count_eq_zero]
      exact fun hm => hv (hq.queues.disjoint v u t hm hu)
  · exact (hblocked t).1 ht ((hmem t).1 ⟨u, hu⟩)

/-- Delivery between clients and servers in every interleaving in which all messages are addressed to servers. -/
theorem client_server_delivery (server : τ → Prop) {s₀ : Ipc τ} {tr : List (Ipc τ × IpcOp τ × Ipc τ)} (h₀ : s₀.Initial)
    (hlive : ∀ t, findByTid s₀.k (s₀.k.thread t).tid = some t) (hr : Run (IpcStep share) s₀ tr s)
    (hc : ∀ x ∈ tr, Conforms server x) (hto : ∀ x ∈ tr, ToServer server x) : ∃ w q, Delivered s w q := by
  have hinv : ∃ a, s.Sim (fun t => (s₀.k.thread t).tid) (findByTid s₀.k) a ∧
      Requests server (fun t => (s₀.k.thread t).tid) s.hist := by
    refine hr.inv_of_guard (fun s => ∃ a, s.Sim (fun t => (s₀.k.thread t).tid) (findByTid s₀.k) a ∧
      Requests server (fun t => (s₀.k.thread t).tid) s.hist) (fun x => Conforms server x ∧ ToServer server x)
      ⟨_, h₀.sim, ?_⟩ ?_ fun x hx => ⟨hc x hx, hto x hx⟩
    · rw [h₀.hist]
      exact ⟨fun _ _ => rfl, by simp [unanswered], fun _ => nodup_nil⟩
    · rintro s op s' ⟨a, h, hq⟩ ⟨hc, hto⟩ hs
      obtain ⟨a', hst, h'⟩ := hs.simulates h (h.targetOk hq hlive hc hto)
      exact ⟨a', h', hs.requests h h' hq hlive hc hst⟩
  obtain ⟨a, h, -⟩ := hinv
  exact h.delivered

/-- A request of the thread 1, its receipt and its reply by the server 2, and the return of the call. -/
theorem client_server_delivery_reply : ∃ (tr : List (Ipc (Fin 3) × IpcOp (Fin 3) × Ipc (Fin 3))) (s : Ipc (Fin 3)),
      Run (IpcStep fun _ _ _ _ _ => (0, 0)) threeThreads tr s ∧ tr.map (fun x => x.2.1.thread) = [0, 1, 1, 0] ∧
      takesBy 1 s.hist = [(0, shortMessage.stamp 1)] ∧ ∃ w q, Delivered s w q := by
  have h1 := Run.nil.snoc (IpcStep.of_enabled (fun _ _ _ _ _ => (0, 0)) threeThreads (.send 0 2 shortMessage)
    ⟨⟨⟨0, 5⟩, by decide, [], by decide⟩, by decide, by decide⟩)
  have h2 := h1.snoc (IpcStep.of_enabled _ _ (.receive 1)
    ⟨⟨⟨0, 5⟩, by decide, [], by decide +kernel⟩, by decide⟩)
  have h3 := h2.snoc (IpcStep.of_enabled _ _ (.reply 1 1 shortMessage)
    ⟨⟨⟨0, 5⟩, by decide, [], by decide +kernel⟩, by decide +kernel, by decide⟩)
  have hr := h3.snoc (IpcStep.of_enabled _ _ (.resume 0)
    ⟨⟨⟨0, 5⟩, by decide, [], by decide +kernel⟩, by decide +kernel⟩)
  refine ⟨_, _, hr, rfl, by decide +kernel, client_server_delivery (· = 1) threeThreads_initial
    (by decide +kernel) hr (fun x hx => ?_) fun x hx => ?_⟩
  · simp only [nil_append, cons_append, mem_cons, not_mem_nil, or_false] at hx
    rcases hx with rfl | rfl | rfl | rfl
    · exact ⟨by decide, by decide +kernel⟩
    · rfl
    · exact ⟨rfl, by decide +kernel⟩
    · trivial
  · simp only [nil_append, cons_append, mem_cons, not_mem_nil, or_false] at hx
    rcases hx with rfl | rfl | rfl | rfl
    · show ∀ r : Fin 3, findByTid threeThreads.k 2 = some r → r = 1
      decide +kernel
    · trivial
    · trivial
    · trivial

/-- While the client 1 waits for the server 2, a message of the client 3 to it ends its call without a reply. -/
theorem client_woken_without_reply :
    ∃ (tr : List (Ipc (Fin 3) × IpcOp (Fin 3) × Ipc (Fin 3))) (s : Ipc (Fin 3)), threeThreads.Initial ∧
      (∀ t, findByTid threeThreads.k (threeThreads.k.thread t).tid = some t) ∧
      Run (IpcStep fun _ _ _ _ _ => (0, 0)) threeThreads tr s ∧ tr.map (fun x => x.2.1.thread) = [0, 2, 0] ∧
      (∀ x ∈ tr, Conforms (· = 1) x) ∧ ¬ ∃ w q, Delivered s w q := by
  have h1 := Run.nil.snoc (IpcStep.of_enabled (fun _ _ _ _ _ => (0, 0)) threeThreads (.send 0 2 shortMessage)
    ⟨⟨⟨0, 5⟩, by decide, [], by decide⟩, by decide, by decide⟩)
  have h2 := h1.snoc (IpcStep.of_enabled _ _ (.send 2 1 shortMessage)
    ⟨⟨⟨0, 5⟩, by decide, [1], by decide +kernel⟩, by decide, by decide⟩)
  have hr := h2.snoc (IpcStep.of_enabled _ _ (.resume 0)
    ⟨⟨⟨0, 5⟩, by decide, [], by decide +kernel⟩, by decide +kernel⟩)
  refine ⟨_, _, threeThreads_initial, by decide +kernel, hr, rfl, fun x hx => ?_, ?_⟩
  · simp only [nil_append, cons_append, mem_cons, not_mem_nil, or_false] at hx
    rcases hx with rfl | rfl | rfl
    · exact ⟨by decide, by decide +kernel⟩
    · exact ⟨by decide, by decide +kernel⟩
    · trivial
  · rintro ⟨w, q, h⟩
    have hans := h.replies _ 0 _ shortMessage (suffix_refl _) (by decide +kernel) (by decide)
    revert hans
    decide +kernel

end Manrix
