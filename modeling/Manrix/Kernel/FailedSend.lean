import Manrix.Kernel.Message
import Manrix.Mm.ShareAddr

/-!
# Sends that fail

`send_message` together with the maps of the processes: `transfer_msg` calls `vm_share_addr` on the map of the receiver
and the map of the sender.  `sendMessage_kernel` connects it with the model of the message primitives, where the result
of `vm_share_addr` is a parameter.

The sender is put on the queue of the receiver before the transfer is tried, and room is allocated in the map of the
receiver before the first page of the buffer is looked up.  When a page is missing neither is undone: the receiver still
gets the message.
-/

namespace Manrix

open Function Links

variable {τ μ ε ω π κ : Type*}

/-- The kernel, the maps, and for each thread the map of its process. -/
structure SendMem (τ μ ε ω π κ : Type*) where
  k : Kernel τ
  vm : Machine μ ε ω π κ
  map : τ → μ

section Functions

variable [DecidableEq τ] [DecidableEq μ] [DecidableEq ε] [DecidableEq π]

/-- `vm_share_addr` on the maps of two threads; `new` is the entry that it allocates. -/
def SendMem.vmShareAddr (s : SendMem τ μ ε ω π κ) (fuel : Nat) (new : ε) (rcv snd : τ) (ptr size flag : BitVec 32) :
    Option (SendMem τ μ ε ω π κ × Int × BitVec 32) :=
  (Manrix.vmShareAddr s.vm fuel (s.map rcv) (s.map snd) new ptr size flag).map fun r => ({ s with vm := r.1 }, r.2)

def SendMem.transferMsg (s : SendMem τ μ ε ω π κ) (fuel : Nat) (new : ε) (rcv snd : τ) :
    Option (SendMem τ μ ε ω π κ × Int) :=
  let msg := (s.k.thread snd).msg
  if msg.flags &&& msgShort ≠ 0 then some (s, 0)
  else if msg.flags &&& msgMapReceive ≠ 0 then
    (s.vmShareAddr fuel new rcv snd msg.w4 msg.w5 (pageRw ||| pageUser)).map fun (s, ret, rcvptr) =>
      ({ s with k := s.k.modThread snd fun t => { t with msg := { t.msg with w4 := rcvptr } } }, ret)
  else if msg.flags &&& msgMapSend ≠ 0 then
    (s.vmShareAddr fuel new rcv snd msg.w2 msg.w3 pageUser).map fun (s, ret, sndptr) =>
      ({ s with k := s.k.modThread snd fun t => { t with msg := { t.msg with w2 := sndptr } } }, ret)
  else some (s, 0)

/-- `send_message` of the current thread up to its return or its call of `schedule`. -/
def SendMem.sendMessage (s : SendMem τ μ ε ω π κ) (fuel : Nat) (new : ε) (tid : Int) (mesg : Message) :
    Option (SendMem τ μ ε ω π κ × Option Int) :=
  let sender := s.k.current
  match findByTid s.k tid with
  | none => some (s, some (-esrch))
  | some rThr =>
    let s := { s with k := queueMessage s.k rThr mesg }
    match s.transferMsg fuel new rThr sender with
    | none => none
    | some (s, ret) =>
      if ret < 0 then some (s, some (-enomem))
      else
        let k := if (s.k.thread rThr).states &&& receiveBlocked ≠ 0 then wakeup s.k rThr else s.k
        some ({ s with k := makeSendBlocked k sender }, none)

/-- The result of `vm_share_addr` and the new address, as a parameter of the message primitives. -/
def SendMem.shared (s : SendMem τ μ ε ω π κ) (fuel : Nat) (new : ε) (rcv snd : τ) (ptr size flag : BitVec 32) :
    Int × BitVec 32 :=
  match Manrix.vmShareAddr s.vm fuel (s.map rcv) (s.map snd) new ptr size flag with
  | some r => r.2
  | none => (0, 0)

end Functions

/-- What a send that fails should leave: the queue of the receiver, its map and its pages, and the states of both
threads are as before. -/
structure SendMem.Untraced [DecidableEq τ] (s s' : SendMem τ μ ε ω π κ) (r : τ) : Prop where
  rcvq : ∀ l : List τ, IsRing s.k.sndq (.head r) (l.map .obj) → IsRing s'.k.sndq (.head r) (l.map .obj)
  map : s'.vm.vm (s.map r) = s.vm.vm (s.map r)
  pages : ∀ write va, s'.vm.pm.translate (s.vm.pmap (s.map r)) write va =
    s.vm.pm.translate (s.vm.pmap (s.map r)) write va
  states : ∀ t, t = s.k.current ∨ t = r → (s'.k.thread t).states = (s.k.thread t).states

section Kernel

variable [DecidableEq τ] {share : τ → τ → BitVec 32 → BitVec 32 → BitVec 32 → Int × BitVec 32} {k k' : Kernel τ}
  {tid : Int} {mesg : Message} {r : τ} {l : List τ}

private theorem transferMsg_sndq (rcv snd : τ) : (transferMsg share k rcv snd).1.sndq = k.sndq := by
  simp only [transferMsg]
  split
  · rfl
  · split
    · rfl
    · split <;> rfl

private theorem sendMessage_enomem_sndq (h : sendMessage share k tid mesg = (k', some (-enomem)))
    (ht : findByTid k tid = some r) : k'.sndq = k.sndq.splice (.head r) (.obj k.current) := by
  simp only [sendMessage, ht] at h
  split at h
  · cases h
    rw [transferMsg_sndq, ← listEnqueue_eq]
    rfl
  · cases (Prod.mk.inj h).2

private theorem splice_not_same_ring {s : Links (Node τ τ)} {x : τ} (hr : IsRing s (.head r) (l.map .obj)) :
    ¬ IsRing (s.splice (.head r) (.obj x)) (.head r) (l.map .obj) := by
  intro hr'
  have hhead : (s.splice (.head r) (.obj x)).next (.head r) = .obj x := by simp [Links.splice]
  cases l with
  | nil =>
    have hn := hr'.next
    rw [List.map_nil, path_nil, hhead] at hn
    cases hn
  | cons y l =>
    -- the sender was the first already, and is linked to itself
    have hy : x = y := Node.obj.inj (hhead.symm.trans hr'.next.1)
    subst hy
    have hfirst : s.next (.head r) = .obj x := hr.next.1
    have hself : (s.splice (.head r) (.obj x)).next (.obj x) = .obj x := by simp [Links.splice, hfirst]
    exact hr'.next_ne (by simp) hself

end Kernel

section Maps

variable [DecidableEq μ] [DecidableEq ε] [DecidableEq π]

private theorem shareLoop_maps {rcv snd m : μ} {fuel times : Nat} {flag va nextva : BitVec 32}
    {s s' : Machine μ ε ω π κ}
    {ret : Int} (hm : m ≠ snd) (h : shareLoop rcv snd fuel flag times va nextva s = some (s', ret)) :
    s'.maps m = s.maps m := by
  induction times generalizing s va nextva with
  | zero =>
    cases h
    rfl
  | succ times ih =>
    have hset : ∀ vm, (s.setVm snd vm).maps m = s.maps m := fun vm => update_of_ne hm _ _
    rw [shareLoop] at h
    split at h
    · cases h
    · cases h
      exact hset _
    · dsimp only at h
      split at h
      · cases h
        exact hset _
      · split at h
        · cases h
        · exact (ih h).trans (hset _)
      · cases h

private theorem vmShareAddr_maps {rcv snd : μ} {fuel : Nat} {new : ε} {ptr size flag p : BitVec 32}
    {s s' : Machine μ ε ω π κ}
    {ret : Int} (hm : rcv ≠ snd) (h : vmShareAddr s fuel rcv snd new ptr size flag = some (s', ret, p)) :
    ∃ vm code nextva, vmAllocate (s.vm rcv) fuel new (alignPage size) = some (vm, code, nextva) ∧
      s'.maps rcv = vm.map := by
  simp only [vmShareAddr] at h
  split at h
  · cases h
  · rename_i vm code nextva hal
    obtain ⟨r, hloop, hr⟩ := Option.map_eq_some_iff.1 h
    cases hr
    refine ⟨vm, code, nextva, hal, (shareLoop_maps hm hloop).trans ?_⟩
    exact update_self ..

end Maps

section Sends

variable [DecidableEq τ] [DecidableEq μ] [DecidableEq ε] [DecidableEq π] {s s' : SendMem τ μ ε ω π κ} {fuel : Nat}
  {new : ε} {tid : Int} {mesg : Message} {r : τ} {l : List τ}

/-- The kernel does what it does in the model of the message primitives, and the result is 0 or that of
`vm_share_addr`. -/
private theorem transferMsg_kernel {rcv snd : τ} {ret : Int} (h : s.transferMsg fuel new rcv snd = some (s', ret)) :
    transferMsg (s.shared fuel new) s.k rcv snd = (s'.k, ret) ∧ (ret = 0 ∨ ∃ ptr size flag p,
      vmShareAddr s.vm fuel (s.map rcv) (s.map snd) new ptr size flag = some (s'.vm, ret, p)) := by
  have hshared : ∀ {ptr size flag : BitVec 32} {s₁ : SendMem τ μ ε ω π κ} {p : BitVec 32},
      s.vmShareAddr fuel new rcv snd ptr size flag = some (s₁, ret, p) →
      s₁.k = s.k ∧ s.shared fuel new rcv snd ptr size flag = (ret, p) ∧
        vmShareAddr s.vm fuel (s.map rcv) (s.map snd) new ptr size flag = some (s₁.vm, ret, p) := by
    intro ptr size flag s₁ p hs
    obtain ⟨⟨m, ret', p'⟩, hm, he⟩ := Option.map_eq_some_iff.1 hs
    obtain ⟨rfl, he'⟩ := Prod.mk.inj he
    cases he'
    exact ⟨rfl, by simp only [SendMem.shared, hm], hm⟩
  simp only [SendMem.transferMsg] at h
  unfold transferMsg
  split at h
  · rename_i hshort
    cases h
    exact ⟨if_pos hshort, .inl rfl⟩
  · rename_i hshort
    split at h
    · rename_i hrcv
      obtain ⟨⟨s₁, ret', p⟩, hs, he⟩ := Option.map_eq_some_iff.1 h
      cases he
      obtain ⟨hk, hval, hvm⟩ := hshared hs
      refine ⟨?_, .inr ⟨_, _, _, p, hvm⟩⟩
      simp only [if_neg hshort, if_pos hrcv, hval, hk]
    · rename_i hrcv
      split at h
      · rename_i hsnd
        obtain ⟨⟨s₁, ret', p⟩, hs, he⟩ := Option.map_eq_some_iff.1 h
        cases he
        obtain ⟨hk, hval, hvm⟩ := hshared hs
        refine ⟨?_, .inr ⟨_, _, _, p, hvm⟩⟩
        simp only [if_neg hshort, if_neg hrcv, if_pos hsnd, hval, hk]
      · rename_i hsnd
        cases h
        exact ⟨by simp only [if_neg hshort, if_neg hrcv, if_neg hsnd], .inl rfl⟩

theorem sendMessage_kernel {ret : Option Int} (h : s.sendMessage fuel new tid mesg = some (s', ret)) :
    sendMessage (s.shared fuel new) s.k tid mesg = (s'.k, ret) := by
  unfold SendMem.sendMessage at h
  unfold sendMessage
  cases ht : findByTid s.k tid with
  | none =>
    rw [ht] at h
    cases h
    rfl
  | some rThr =>
    rw [ht] at h
    dsimp only at h ⊢
    split at h
    · cases h
    · rename_i s₁ ret' htr
      have hk : transferMsg (s.shared fuel new) (queueMessage s.k rThr mesg) rThr s.k.current = (s₁.k, ret') :=
        (transferMsg_kernel htr).1
      rw [hk]
      split at h
      · rename_i hneg
        cases h
        exact if_pos hneg
      · rename_i hneg
        cases h
        exact if_neg hneg

private theorem sendMessage_enomem_maps (h : s.sendMessage fuel new tid mesg = some (s', some (-enomem)))
    (ht : findByTid s.k tid = some r) (hm : s.map r ≠ s.map s.k.current) :
    ∃ size vm code nextva, vmAllocate (s.vm.vm (s.map r)) fuel new size = some (vm, code, nextva) ∧
      s'.vm.maps (s.map r) = vm.map := by
  simp only [SendMem.sendMessage, ht] at h
  split at h
  · cases h
  · rename_i s₁ ret htr
    split at h
    · rename_i hneg
      cases h
      rcases (transferMsg_kernel htr).2 with hret | ⟨_, size, _, _, hvm⟩
      · omega
      · obtain ⟨vm, code, nextva, hal, hmap⟩ := vmShareAddr_maps hm hvm
        exact ⟨alignPage size, vm, code, nextva, hal, hmap⟩
    · cases (Prod.mk.inj (Option.some.inj h)).2

/-- No send that fails is without a trace: the sender stays on the queue of the receiver, and the room in the map of the
receiver stays allocated. -/
theorem failed_send_never_untraced (h : s.sendMessage fuel new tid mesg = some (s', some (-enomem)))
    (ht : findByTid s.k tid = some r) (hr : IsRing s.k.sndq (.head r) (l.map .obj)) : ¬ s.Untraced s' r ∧
    (s.k.current ∉ l → IsRing s'.k.sndq (.head r) ((s.k.current :: l).map .obj)) ∧
    (s.map r ≠ s.map s.k.current → ∃ size vm code nextva,
      vmAllocate (s.vm.vm (s.map r)) fuel new size = some (vm, code, nextva) ∧ s'.vm.maps (s.map r) = vm.map) := by
  have hsndq := sendMessage_enomem_sndq (sendMessage_kernel h) ht
  refine ⟨fun hu => ?_, fun hnew => ?_, sendMessage_enomem_maps h ht⟩
  · have hring := hu.rcvq l hr
    rw [hsndq] at hring
    exact splice_not_same_ring hr hring
  · rw [hsndq]
    exact hr.splice_head (by simpa using hnew)

end Sends

/-- The sender `false` and the receiver `true`, with the maps of `twoSharers`. -/
def twoSenders : SendMem Bool Bool Bool Unit Bool Unit :=
  ⟨.ofThreads [false, true] (fun b => .ready (if b then 2 else 1) 20) false, twoSharers, id⟩

/-- A message with a buffer at `0x9000`, where the sender has no page. -/
def badBuffer : Message := { Message.empty with w2 := 0x9000, w3 := 0x10, flags := msgMapSend }

theorem failed_send_never_untraced_two : ∃ s', twoSenders.sendMessage 3 true 2 badBuffer = some (s', some (-enomem)) ∧
    ¬ twoSenders.Untraced s' true := by
  obtain ⟨s', h⟩ : ∃ s', twoSenders.sendMessage 3 true 2 badBuffer = some (s', some (-enomem)) := ⟨_, rfl⟩
  have hr : IsRing twoSenders.k.sndq (.head true) (([] : List Bool).map .obj) := by decide
  exact ⟨s', h, (failed_send_never_untraced h (by decide) hr).1⟩

/-- The send fails, and the receiver gets the message of the sender, which is not blocked. -/
theorem failed_message_received : ∃ s', twoSenders.sendMessage 3 true 2 badBuffer = some (s', some (-enomem)) ∧
    (s'.k.thread false).states = threadReady ∧ s'.k.sndq.next (.head true) = .obj false ∧
    (∃ msg ret, (receiveMessage (s'.k.withCurrent true)).2 = .message false msg ret) := by
  exact ⟨_, rfl, by decide, by decide, _, _, rfl⟩

end Manrix
