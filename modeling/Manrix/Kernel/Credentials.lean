import Manrix.Kernel.Process
import Manrix.Kernel.Sleep
import Manrix.Lib.Fuel
import Manrix.Lib.Runs

/-!
# The users of processes (`syscall_set_user`)

`syscall_set_user` sets the effective user before it asks whether the caller is the superuser.  A caller that is not can
give to a process only the effective user that is the real one already, and a new process has the users of its parent.
So no process with two other users than 0 comes to one with an effective user 0, and neither do its descendants.

A process with the real user 0 and another effective user can make itself the superuser, and in the same call, as the
superuser it has become, change its real user.  This is the only way that a real user changes: `no_privilege_gain`.
-/

namespace Manrix

open Fuel Function Runs

variable {ρ : Type*} [DecidableEq ρ]

/-- The registers that `syscall_set_user` reads. -/
structure UserRegs where
  ebx : BitVec 32
  ecx : BitVec 32
  edx : BitVec 32
  esi : BitVec 32
  edi : BitVec 32

omit [DecidableEq ρ] in
/-- The macro `superuser`, in a thread of the process `current`. -/
def ProcMem.superuser (s : ProcMem ρ) (current : ρ) : Bool := (s.proc current).euid = 0

def setPgrp (s : ProcMem ρ) (p : ρ) : ProcMem ρ :=
  s.modProc p fun p => { p with gid := p.pid, egid := p.pid, session := p.pid }

def setUid (s : ProcMem ρ) (p : ρ) (uid : BitVec 32) : ProcMem ρ := s.modProc p ({ · with uid := uid, euid := uid })

def setEuid (s : ProcMem ρ) (current p : ρ) (euid : BitVec 32) : ProcMem ρ :=
  if euid = (s.proc p).uid ∨ s.superuser current then s.modProc p ({ · with euid := euid }) else s

def setEgid (s : ProcMem ρ) (current p : ρ) (egid : BitVec 32) : ProcMem ρ :=
  if egid = (s.proc p).gid ∨ s.superuser current then s.modProc p ({ · with egid := egid }) else s

omit [DecidableEq ρ] in
/-- The process that the call is about; without a value the search has read through a null pointer. -/
def userTarget (s : ProcMem ρ) (fuel : Nat) (current : ρ) (ebx : BitVec 32) : Option (Option ρ) :=
  if ebx = 0 then some (some current)
  else
    match findByPid s fuel ebx with
    | some (.result process) => some process
    | _ => none

/-- The part of `syscall_set_user` before the macro `superuser`. -/
def setEffective (s : ProcMem ρ) (current process : ρ) (r : UserRegs) : ProcMem ρ :=
  if r.edx ≠ -1 then setEuid s current process r.edx
  else if r.edi ≠ -1 then setEgid s current process r.edi
  else s

def syscallSetUser (s : ProcMem ρ) (fuel : Nat) (current : ρ) (r : UserRegs) : Option (ProcMem ρ × Int) :=
  match userTarget s fuel current r.ebx with
  | none => none
  | some none => some (s, -esrch)
  | some (some process) =>
    -- the caller is asked for only after this, and may be another user by then
    let s := setEffective s current process r
    if !s.superuser current then some (s, -eperm)
    else if r.ecx ≠ -1 then some (setUid s process r.ecx, 0)
    else if r.esi ≠ -1 then some (setPgrp s process, 0)
    else some (s, 0)

/-- The processes, and for each one the process of the start that it descends from. -/
structure CredState (ρ : Type*) where
  mem : ProcMem ρ
  line : ρ → ρ

inductive CredOp (ρ : Type*) where
  | setUser (current : ρ) (r : UserRegs)
  | create (op : CreateOp ρ)

/-- Only processes with another effective user than 0 call `syscall_set_user`. -/
def CredStep (s : CredState ρ) (op : CredOp ρ) (s' : CredState ρ) : Prop :=
  match op with
  | .setUser current r => current ∈ s.mem.live ∧ (s.mem.proc current).euid ≠ 0 ∧
      (∃ fuel ret, syscallSetUser s.mem fuel current r = some (s'.mem, ret)) ∧ s'.line = s.line
  | .create op => CreateStep s.mem op s'.mem ∧
      s'.line = match op.new with
        | some new => update s.line new (s.line op.parent)
        | none => s.line

omit [DecidableEq ρ] in
/-- Neither user is the superuser. -/
def Plain (s : ProcMem ρ) (p : ρ) : Prop := (s.proc p).uid ≠ 0 ∧ (s.proc p).euid ≠ 0

omit [DecidableEq ρ] in
/-- The process, with the real user 0, calls `syscall_set_user` for itself, takes the effective user 0 and another real
one. -/
def DropsRoot (s : ProcMem ρ) (op : CredOp ρ) (p : ρ) : Prop :=
  ∃ r, op = .setUser p r ∧ (∃ fuel, userTarget s fuel p r.ebx = some (some p)) ∧ (s.proc p).uid = 0 ∧
    r.edx = 0 ∧ r.ecx ≠ -1 ∧ r.ecx ≠ 0

section Steps

variable {s s' : ProcMem ρ} {current process p : ρ} {r : UserRegs} {fuel fuel' : Nat} {ret : Int}

omit [DecidableEq ρ] in
private theorem findPid_extends (pid : BitVec 32) (hf : fuel ≤ fuel') (link : Option ρ) :
    Extends (findPid s pid fuel link) (findPid s pid fuel' link) := by
  refine le_rounds (R := fun n m => ∀ link, Extends (findPid s pid n link) (findPid s pid m link)) ?_ ?_ hf link
  · exact fun m link => extends_none _
  · intro n m ih link
    cases link with
    | none => exact .refl _
    | some p => exact .ite (.refl _) (.ite (.refl _) (ih _))

omit [DecidableEq ρ] in
private theorem findByPid_extends (pid : BitVec 32) (hf : fuel ≤ fuel') :
    Extends (findByPid s fuel pid) (findByPid s fuel' pid) := by
  unfold findByPid
  cases s.phash (hashFn pid.toInt) with
  | none => exact .refl _
  | some p => exact .ite (.refl _) (findPid_extends pid hf _)

omit [DecidableEq ρ] in
theorem findByPid_det {pid : BitVec 32} {a b : PidLookup ρ} (ha : findByPid s fuel pid = some a)
    (hb : findByPid s fuel' pid = some b) : a = b :=
  eq_of_extends (fun hf => findByPid_extends pid hf) ha hb

omit [DecidableEq ρ] in
private theorem userTarget_det {ebx : BitVec 32} {a b : Option ρ} (ha : userTarget s fuel current ebx = some a)
    (hb : userTarget s fuel' current ebx = some b) : a = b := by
  unfold userTarget at ha hb
  split at ha
  · rename_i h
    rw [if_pos h] at hb
    exact (Option.some.inj ha).symm.trans (Option.some.inj hb)
  · rename_i h
    rw [if_neg h] at hb
    split at ha
    · rename_i hf
      split at hb
      · rename_i hf'
        cases findByPid_det hf hf'
        exact (Option.some.inj ha).symm.trans (Option.some.inj hb)
      · cases hb
    · cases ha

private theorem setPgrp_users (p q : ρ) :
    ((setPgrp s p).proc q).uid = (s.proc q).uid ∧ ((setPgrp s p).proc q).euid = (s.proc q).euid := by
  unfold setPgrp
  constructor
  · refine modProc_keeps Proc.uid ?_ q
    exact fun _ => rfl
  · refine modProc_keeps Proc.euid ?_ q
    exact fun _ => rfl

/-- Before the macro `superuser` only the effective user can change, and to the real one. -/
private theorem setEffective_spec (process : ρ) (r : UserRegs) (hc : (s.proc current).euid ≠ 0) :
    (setEffective s current process r).live = s.live ∧
    (∀ q, ((setEffective s current process r).proc q).uid = (s.proc q).uid) ∧
    ∀ q, ((setEffective s current process r).proc q).euid =
      if q = process ∧ r.edx ≠ -1 ∧ r.edx = (s.proc q).uid then r.edx else (s.proc q).euid := by
  have hsuper : ¬ s.superuser current = true := by simpa [ProcMem.superuser] using hc
  unfold setEffective
  split
  · rename_i hedx
    unfold setEuid
    split
    · rename_i he
      have he := he.resolve_right hsuper
      refine ⟨rfl, modProc_keeps Proc.uid fun _ => rfl, fun q => ?_⟩
      by_cases hq : q = process
      · subst hq
        rw [if_pos ⟨rfl, hedx, he⟩]
        simp [ProcMem.modProc]
      · rw [if_neg fun h => hq h.1]
        simp [ProcMem.modProc, hq]
    · rename_i he
      refine ⟨rfl, fun _ => rfl, fun q => ?_⟩
      rw [if_neg]
      rintro ⟨rfl, -, h⟩
      exact he (.inl h)
  · rename_i hedx
    have hif : ∀ q, ¬ (q = process ∧ r.edx ≠ -1 ∧ r.edx = (s.proc q).uid) := fun q h => hedx h.2.1
    simp only [hif, if_false]
    unfold setEgid
    split
    · split
      · exact ⟨rfl, modProc_keeps Proc.uid fun _ => rfl, modProc_keeps Proc.euid fun _ => rfl⟩
      · exact ⟨rfl, fun _ => rfl, fun _ => rfl⟩
    · exact ⟨rfl, fun _ => rfl, fun _ => rfl⟩

/-- The caller has become the superuser. -/
def BecomesRoot (s : ProcMem ρ) (current process : ρ) (r : UserRegs) : Prop :=
  process = current ∧ (s.proc current).uid = 0 ∧ r.edx = 0

private theorem setEffective_superuser_iff (process : ρ) (r : UserRegs) (hc : (s.proc current).euid ≠ 0) :
    (setEffective s current process r).superuser current = true ↔ BecomesRoot s current process r := by
  obtain ⟨-, -, heuid⟩ := setEffective_spec process r hc
  unfold ProcMem.superuser BecomesRoot
  rw [decide_eq_true_iff, heuid]
  constructor
  · split
    · rename_i he
      intro h0
      exact ⟨he.1.symm, he.2.2 ▸ h0, h0⟩
    · exact fun h0 => absurd h0 hc
  · rintro ⟨rfl, h0, he⟩
    rw [if_pos ⟨rfl, by rw [he]; decide, he.trans h0.symm⟩, he]

/-- The users after a call for the process `process`. -/
private theorem syscallSetUser_spec (hc : (s.proc current).euid ≠ 0)
    (ht : userTarget s fuel current r.ebx = some (some process))
    (h : syscallSetUser s fuel current r = some (s', ret)) : s'.live = s.live ∧
    (∀ q, q ≠ process → (s'.proc q).uid = (s.proc q).uid ∧ (s'.proc q).euid = (s.proc q).euid) ∧
    (¬ BecomesRoot s current process r → (s'.proc process).uid = (s.proc process).uid ∧
      ((s'.proc process).euid = (s.proc process).euid ∨ (s'.proc process).euid = (s.proc process).uid)) ∧
    (BecomesRoot s current process r → (s'.proc process).uid = if r.ecx ≠ -1 then r.ecx else 0) := by
  obtain ⟨hlive, huid, heuid⟩ := setEffective_spec process r hc
  have hsuper := setEffective_superuser_iff process r hc
  have hothers : ∀ q, q ≠ process → ((setEffective s current process r).proc q).euid = (s.proc q).euid := by
    intro q hq
    rw [heuid, if_neg fun h => hq h.1]
  unfold syscallSetUser at h
  rw [ht] at h
  dsimp only at h
  split at h
  · rename_i hn
    cases h
    have hb : ¬ BecomesRoot s current process r := fun hb => by simp [hsuper.2 hb] at hn
    refine ⟨hlive, fun q hq => ⟨huid q, hothers q hq⟩, fun _ => ⟨huid process, ?_⟩, fun h => absurd h hb⟩
    rw [heuid]
    split
    · rename_i he
      exact .inr he.2.2
    · exact .inl rfl
  · rename_i hn
    have hb : BecomesRoot s current process r := hsuper.1 (by simpa using hn)
    have huid0 : (s.proc process).uid = 0 := hb.1 ▸ hb.2.1
    split at h
    · rename_i hecx
      cases h
      refine ⟨hlive, fun q hq => ?_, fun h => absurd hb h, fun _ => ?_⟩
      · simpa [setUid, ProcMem.modProc, hq] using ⟨huid q, hothers q hq⟩
      · rw [if_pos hecx]
        simp [setUid, ProcMem.modProc]
    · rename_i hecx
      rw [if_neg hecx]
      split at h
      · cases h
        refine ⟨hlive, fun q hq => ?_, fun h => absurd hb h, fun _ => ?_⟩
        · obtain ⟨h1, h2⟩ := setPgrp_users (s := setEffective s current process r) process q
          exact ⟨h1.trans (huid q), h2.trans (hothers q hq)⟩
        · exact ((setPgrp_users process process).1.trans (huid process)).trans huid0
      · cases h
        exact ⟨hlive, fun q hq => ⟨huid q, hothers q hq⟩, fun h => absurd hb h, fun _ => (huid process).trans huid0⟩

private theorem syscallSetUser_cases (h : syscallSetUser s fuel current r = some (s', ret)) :
    s' = s ∧ userTarget s fuel current r.ebx = some none ∨
      ∃ process, userTarget s fuel current r.ebx = some (some process) := by
  cases ht : userTarget s fuel current r.ebx with
  | none =>
    simp [syscallSetUser, ht] at h
  | some process =>
    cases process with
    | none =>
      simp only [syscallSetUser, ht] at h
      exact .inl ⟨(Prod.mk.inj (Option.some.inj h)).1.symm, rfl⟩
    | some process => exact .inr ⟨process, rfl⟩

end Steps

section Runs

variable {s s' : CredState ρ} {op : CredOp ρ} {p : ρ}

/-- The real user of a process changes exactly when the process drops it. -/
private theorem credStep_uid (h : CredStep s op s') (hp : p ∈ s.mem.live) :
    (s'.mem.proc p).uid ≠ (s.mem.proc p).uid ↔ DropsRoot s.mem op p := by
  cases op with
  | create op =>
    refine iff_of_false ?_ ?_
    · rcases createStep_cases h.1 with ⟨-, he⟩ | ⟨new, -, hnew, hc⟩
      · rw [he]
        simp
      · rw [hc.proc_of_ne fun he => hnew (he ▸ hp)]
        simp
    · rintro ⟨r, he, -⟩
      cases he
  | setUser current r =>
    obtain ⟨-, hc, ⟨fuel, ret, h⟩, -⟩ := h
    rcases syscallSetUser_cases h with ⟨he, ht⟩ | ⟨process, ht⟩
    · refine iff_of_false (by simp [he]) ?_
      rintro ⟨r', he', ⟨fuel', ht'⟩, -⟩
      cases he'
      cases userTarget_det ht ht'
    · obtain ⟨-, hothers, hkeep, hroot⟩ := syscallSetUser_spec hc ht h
      constructor
      · intro hne
        have hpp : p = process := by
          by_contra hpp
          exact hne (hothers p hpp).1
        subst hpp
        have hb : BecomesRoot s.mem current p r := by
          by_contra hb
          exact hne (hkeep hb).1
        obtain ⟨rfl, h0, hedx⟩ := hb
        rw [hroot ⟨rfl, h0, hedx⟩, h0] at hne
        split at hne
        · rename_i hecx
          exact ⟨r, rfl, ⟨fuel, ht⟩, h0, hedx, hecx, hne⟩
        · exact absurd rfl hne
      · rintro ⟨r', he', ⟨fuel', ht'⟩, h0, hedx, hecx, hecx0⟩
        cases he'
        cases userTarget_det ht ht'
        rw [hroot ⟨rfl, h0, hedx⟩, if_pos hecx, h0]
        exact hecx0

private theorem credStep_euid (h : CredStep s op s') (hp : p ∈ s.mem.live) (hpl : Plain s.mem p) :
    (s'.mem.proc p).euid ≠ 0 := by
  cases op with
  | create op =>
    rcases createStep_cases h.1 with ⟨-, he⟩ | ⟨new, -, hnew, hc⟩
    · rw [he]
      exact hpl.2
    · rw [hc.proc_of_ne fun he => hnew (he ▸ hp)]
      exact hpl.2
  | setUser current r =>
    obtain ⟨-, hc, ⟨fuel, ret, h⟩, -⟩ := h
    rcases syscallSetUser_cases h with ⟨he, -⟩ | ⟨process, ht⟩
    · rw [he]
      exact hpl.2
    · obtain ⟨-, hothers, hkeep, -⟩ := syscallSetUser_spec hc ht h
      by_cases hpp : p = process
      · subst hpp
        rcases (hkeep fun hb => hpl.1 (hb.1 ▸ hb.2.1)).2 with he | he
        · rw [he]
          exact hpl.2
        · rw [he]
          exact hpl.1
      · rw [(hothers p hpp).2]
        exact hpl.2

private theorem credStep_plain (h : CredStep s op s') (hp : p ∈ s.mem.live) (hpl : Plain s.mem p) :
    Plain s'.mem p ∧ (s'.mem.proc p).uid = (s.mem.proc p).uid := by
  have huid : (s'.mem.proc p).uid = (s.mem.proc p).uid := by
    by_contra hne
    obtain ⟨r, -, -, h0, -⟩ := (credStep_uid h hp).1 hne
    exact hpl.1 h0
  refine ⟨⟨?_, credStep_euid h hp hpl⟩, huid⟩
  rw [huid]
  exact hpl.1

/-- A step leaves the processes and what they descend from, but for one new process, which has the users of its parent
and descends from what the parent descends from. -/
private theorem credStep_live (h : CredStep s op s') : (∀ p ∈ s.mem.live, p ∈ s'.mem.live ∧ s'.line p = s.line p) ∧
    ∀ q ∈ s'.mem.live, q ∈ s.mem.live ∨ ∃ parent ∈ s.mem.live, s'.line q = s.line parent ∧
      (s'.mem.proc q).uid = (s.mem.proc parent).uid ∧ (s'.mem.proc q).euid = (s.mem.proc parent).euid := by
  cases op with
  | setUser current r =>
    obtain ⟨-, hc, ⟨fuel, ret, h⟩, hline⟩ := h
    have hlive : s'.mem.live = s.mem.live := by
      rcases syscallSetUser_cases h with ⟨he, -⟩ | ⟨process, ht⟩
      · rw [he]
      · exact (syscallSetUser_spec hc ht h).1
    rw [hlive, hline]
    exact ⟨fun p hp => ⟨hp, rfl⟩, fun q hq => .inl hq⟩
  | create op =>
    obtain ⟨h, hline⟩ := h
    rcases createStep_cases h with ⟨hn, he⟩ | ⟨new, hn, hnew, hc⟩
    · rw [hn] at hline
      rw [he, hline]
      exact ⟨fun p hp => ⟨hp, rfl⟩, fun q hq => .inl hq⟩
    · rw [hn] at hline
      rw [hline]
      constructor
      · intro p hp
        have hne : p ≠ new := fun he => hnew (he ▸ hp)
        refine ⟨?_, update_of_ne hne ..⟩
        rw [hc.live]
        split
        · exact List.mem_cons_of_mem _ hp
        · exact hp
      · intro q hq
        by_cases hqn : q = new
        · subst hqn
          obtain ⟨record, hrec, -, huid, heuid⟩ := hc.proc
          refine .inr ⟨op.parent, h.1, update_self .., ?_, ?_⟩
          · rw [hrec, update_self, huid]
          · rw [hrec, update_self, heuid]
        · rw [hc.live] at hq
          split at hq
          · exact .inl ((List.mem_cons.1 hq).resolve_left hqn)
          · exact .inl hq

/-- What holds of the processes that descend from those of the start. -/
structure LineInv (s₀ : ProcMem ρ) (s : CredState ρ) : Prop where
  start : ∀ p ∈ s₀.live, p ∈ s.mem.live ∧ s.line p = p
  plain : ∀ q ∈ s.mem.live, Plain s₀ (s.line q) →
    Plain s.mem q ∧ (s.mem.proc q).uid = (s₀.proc (s.line q)).uid

theorem LineInv.step {s₀ : ProcMem ρ} (hi : LineInv s₀ s) (h : CredStep s op s') : LineInv s₀ s' := by
  obtain ⟨hold, hnew⟩ := credStep_live h
  constructor
  · intro p hp
    obtain ⟨hl, hline⟩ := hi.start p hp
    exact ⟨(hold p hl).1, (hold p hl).2.trans hline⟩
  · intro q hq hpl
    rcases hnew q hq with hq | ⟨parent, hparent, hline, huid, heuid⟩
    · rw [(hold q hq).2] at hpl ⊢
      obtain ⟨hq', huid'⟩ := hi.plain q hq hpl
      obtain ⟨hpq, hu⟩ := credStep_plain h hq hq'
      exact ⟨hpq, hu.trans huid'⟩
    · rw [hline] at hpl ⊢
      obtain ⟨⟨h1, h2⟩, hu⟩ := hi.plain parent hparent hpl
      refine ⟨⟨?_, ?_⟩, huid.trans hu⟩
      · rw [huid]
        exact h1
      · rw [heuid]
        exact h2

end Runs

/-- A process with users other than 0 and its descendants keep the real user and do not get the effective user 0; a real
user changes only when a process with the real user 0 drops it. -/
theorem no_privilege_gain (s₀ : ProcMem ρ) {tr : List (CredState ρ × CredOp ρ × CredState ρ)} {s : CredState ρ}
    (hr : Run CredStep ⟨s₀, id⟩ tr s) : (∀ p ∈ s₀.live, p ∈ s.mem.live ∧ s.line p = p) ∧
    (∀ p ∈ s₀.live, Plain s₀ p → ∀ q ∈ s.mem.live, s.line q = p →
      Plain s.mem q ∧ (s.mem.proc q).uid = (s₀.proc p).uid) ∧ ∀ x ∈ tr, ∀ p ∈ x.1.mem.live,
      (x.2.2.mem.proc p).uid ≠ (x.1.mem.proc p).uid ↔ DropsRoot x.1.mem x.2.1 p := by
  have hi : LineInv s₀ s := hr.inv (LineInv s₀) ⟨fun p hp => ⟨hp, rfl⟩, fun q _ hpl => ⟨hpl, rfl⟩⟩
    fun s op s' hi h => hi.step h
  refine ⟨hi.start, ?_, ?_⟩
  · rintro p - hpl q hq rfl
    exact hi.plain q hq hpl
  · exact hr.forall_of_guard (fun _ => True) (fun _ => True)
      (fun x => ∀ p ∈ x.1.mem.live, (x.2.2.mem.proc p).uid ≠ (x.1.mem.proc p).uid ↔ DropsRoot x.1.mem x.2.1 p) trivial
      (fun s op s' _ _ h => ⟨trivial, fun p hp => credStep_uid h hp⟩) fun _ _ => trivial

/-- A process with the real user 0 and the effective user 5. -/
def rootReal : ProcMem Unit where
  kernel := ()
  proc := fun _ => ⟨500, 0, 5, 0, 0, 0, (), none, 0, 0, 0, 0, 0, 0⟩
  live := [()]
  links := ⟨.head, .head⟩
  phash := fun _ => none

def rootDropped : ProcMem Unit := ((syscallSetUser rootReal 0 () ⟨0, 7, 0, -1, -1⟩).map (·.1)).getD rootReal

private theorem rootDropped_step : CredStep ⟨rootReal, id⟩ (.setUser () ⟨0, 7, 0, -1, -1⟩) ⟨rootDropped, id⟩ :=
  ⟨by decide, by decide, ⟨0, 0, rfl⟩, rfl⟩

/-- Its `uid` becomes 7. -/
theorem root_real_user_changes :
    Run CredStep ⟨rootReal, id⟩ [(⟨rootReal, id⟩, .setUser () ⟨0, 7, 0, -1, -1⟩, ⟨rootDropped, id⟩)] ⟨rootDropped, id⟩ ∧
    (rootReal.proc ()).euid ≠ 0 ∧ (rootReal.proc ()).uid = 0 ∧ (rootDropped.proc ()).uid = 7 :=
  ⟨.snoc .nil rootDropped_step, by decide, rfl, rfl⟩

theorem no_privilege_gain_root_real : DropsRoot rootReal (.setUser () ⟨0, 7, 0, -1, -1⟩) () :=
  ((no_privilege_gain rootReal (.snoc .nil rootDropped_step)).2.2 _ (List.mem_singleton_self _) () (by decide)).1
    (by decide)

omit [DecidableEq ρ] in
def SameUser (s s' : ProcMem ρ) (q : ρ) : Prop :=
  (s'.proc q).uid = (s.proc q).uid ∧ (s'.proc q).euid = (s.proc q).euid ∧
  (s'.proc q).gid = (s.proc q).gid ∧ (s'.proc q).egid = (s.proc q).egid

omit [DecidableEq ρ] in
/-- The effective user asked for is not the real one, or is the effective one already; without an effective user the
same for the group. -/
def UserKept (s : ProcMem ρ) (process : ρ) (r : UserRegs) : Prop :=
  (r.edx ≠ -1 → r.edx = (s.proc process).uid → (s.proc process).euid = r.edx) ∧
  (r.edx = -1 → r.edi ≠ -1 → r.edi = (s.proc process).gid → (s.proc process).egid = r.edi)

section Refused

variable {s s' : ProcMem ρ} {current process : ρ} {r : UserRegs} {fuel : Nat} {ret : Int}

omit [DecidableEq ρ] in
theorem SameUser.refl (s : ProcMem ρ) (q : ρ) : SameUser s s q := ⟨rfl, rfl, rfl, rfl⟩

private theorem modProc_sameUser {f : Proc ρ → Proc ρ} {q : ρ} (h : q ≠ process) :
    SameUser s (s.modProc process f) q := by
  simp [SameUser, ProcMem.modProc, h]

private theorem setEffective_sameUser_of_ne {q : ρ} (h : q ≠ process) :
    SameUser s (setEffective s current process r) q := by
  unfold setEffective setEuid setEgid
  split
  · split
    · exact modProc_sameUser h
    · exact .refl s q
  · split
    · split
      · exact modProc_sameUser h
      · exact .refl s q
    · exact .refl s q

omit [DecidableEq ρ] in
theorem SameUser.trans {s₁ : ProcMem ρ} {q : ρ} (h : SameUser s s₁ q) (h' : SameUser s₁ s' q) : SameUser s s' q :=
  ⟨h'.1.trans h.1, h'.2.1.trans h.2.1, h'.2.2.1.trans h.2.2.1, h'.2.2.2.trans h.2.2.2⟩

private theorem syscallSetUser_sameUser_of_ne {q : ρ} (ht : userTarget s fuel current r.ebx = some (some process))
    (h : syscallSetUser s fuel current r = some (s', ret)) (hq : q ≠ process) : SameUser s s' q := by
  have heff : SameUser s (setEffective s current process r) q := setEffective_sameUser_of_ne hq
  unfold syscallSetUser at h
  rw [ht] at h
  dsimp only at h
  split at h
  · cases h
    exact heff
  · split at h
    · cases h
      exact heff.trans (modProc_sameUser hq)
    · split at h
      · cases h
        exact heff.trans (modProc_sameUser hq)
      · cases h
        exact heff

private theorem setEffective_sameUser_iff (hc : (s.proc current).euid ≠ 0) :
    SameUser s (setEffective s current process r) process ↔ UserKept s process r := by
  have hsuper : ¬ s.superuser current = true := by simpa [ProcMem.superuser] using hc
  unfold setEffective UserKept
  by_cases hedx : r.edx ≠ -1
  · rw [if_pos hedx, setEuid]
    by_cases he : r.edx = (s.proc process).uid
    · rw [if_pos (.inl he)]
      simp only [SameUser, ProcMem.modProc, update_self, true_and, and_true, hedx, false_implies]
      exact ⟨fun h _ _ => h.symm, fun h => (h hedx he).symm⟩
    · rw [if_neg (not_or.2 ⟨he, hsuper⟩)]
      exact iff_of_true (.refl s process) ⟨fun _ h => absurd h he, fun h => absurd h hedx⟩
  · rw [if_neg hedx]
    by_cases hedi : r.edi ≠ -1
    · rw [if_pos hedi, setEgid]
      by_cases he : r.edi = (s.proc process).gid
      · rw [if_pos (.inl he)]
        simp only [SameUser, ProcMem.modProc, update_self, true_and]
        exact ⟨fun h => ⟨fun h' => absurd h' hedx, fun _ _ _ => h.symm⟩,
          fun h => (h.2 (not_not.1 hedx) hedi he).symm⟩
      · rw [if_neg (not_or.2 ⟨he, hsuper⟩)]
        exact iff_of_true (.refl s process) ⟨fun h => absurd h hedx, fun _ _ h => absurd h he⟩
    · rw [if_neg hedi]
      exact iff_of_true (.refl s process) ⟨fun h => absurd h hedx, fun _ h => absurd h hedi⟩

private theorem syscallSetUser_refused (hc : (s.proc current).euid ≠ 0)
    (ht : userTarget s fuel current r.ebx = some (some process))
    (h : syscallSetUser s fuel current r = some (s', ret)) :
    (¬ BecomesRoot s current process r → s' = setEffective s current process r ∧ ret = -eperm) ∧
    (BecomesRoot s current process r → ret = 0) := by
  have hsuper := setEffective_superuser_iff process r hc
  unfold syscallSetUser at h
  rw [ht] at h
  dsimp only at h
  constructor
  · intro hb
    have hn : (!(setEffective s current process r).superuser current) = true := by
      rw [Bool.not_eq_true', Bool.eq_false_iff]
      exact fun hs => hb (hsuper.1 hs)
    rw [if_pos hn] at h
    cases h
    exact ⟨rfl, rfl⟩
  · intro hb
    rw [if_neg (by rw [hsuper.2 hb]; decide)] at h
    split at h
    · exact (Prod.mk.inj (Option.some.inj h)).2.symm
    · split at h
      · exact (Prod.mk.inj (Option.some.inj h)).2.symm
      · exact (Prod.mk.inj (Option.some.inj h)).2.symm

/-- A call that is refused leaves the users and groups as they were, and a call leaves those of other processes, exactly
if the process the call is about is given nothing that it does not have, or the caller makes itself the superuser. -/
theorem set_user_refused_iff (hc : (s.proc current).euid ≠ 0) (h : syscallSetUser s fuel current r = some (s', ret)) :
    ((ret = -eperm → ∀ q, SameUser s s' q) ∧ ∀ q, q ≠ current → SameUser s s' q) ↔
      ∀ process, userTarget s fuel current r.ebx = some (some process) →
        BecomesRoot s current process r ∨ UserKept s process r := by
  rcases syscallSetUser_cases h with ⟨rfl, ht⟩ | ⟨process, ht⟩
  · refine iff_of_true ⟨fun _ q => .refl s' q, fun q _ => .refl s' q⟩ fun process hp => ?_
    rw [ht] at hp
    cases hp
  · obtain ⟨hrefused, hroot⟩ := syscallSetUser_refused hc ht h
    have htarget : ∀ p, userTarget s fuel current r.ebx = some (some p) → p = process := by
      intro p hp
      rw [ht] at hp
      exact (Option.some.inj (Option.some.inj hp)).symm
    constructor
    · rintro ⟨hsame, -⟩ p hp
      obtain rfl := htarget p hp
      by_cases hb : BecomesRoot s current p r
      · exact .inl hb
      · obtain ⟨rfl, hret⟩ := hrefused hb
        exact .inr ((setEffective_sameUser_iff hc).1 (hsame hret p))
    · intro hok
      by_cases hb : BecomesRoot s current process r
      · -- the call is about the caller itself
        refine ⟨fun hret => absurd (hret.symm.trans (hroot hb)) (by decide), fun q hq => ?_⟩
        exact syscallSetUser_sameUser_of_ne ht h (hb.1 ▸ hq)
      · have hall : ∀ q, SameUser s s' q := by
          intro q
          by_cases hq : q = process
          · rw [hq, (hrefused hb).1]
            exact (setEffective_sameUser_iff hc).2 ((hok process ht).resolve_left hb)
          · exact syscallSetUser_sameUser_of_ne ht h hq
        exact ⟨fun _ => hall, fun q _ => hall q⟩

end Refused

/-- Two processes of the user 7, the one with the pid 501 with the effective user 8. -/
def twoUsers : ProcMem Bool where
  kernel := false
  proc := fun b => ⟨if b then 501 else 500, 7, if b then 8 else 7, 0, 0, 0, false, none, 0, 0, 0, 0, 0, 0⟩
  live := [false, true]
  links := ⟨.head, .head⟩
  phash := fun b => if b = hashFn 501 then some true else if b = hashFn 500 then some false else none

theorem set_user_refused_iff_own : ∃ s', syscallSetUser twoUsers 1 false ⟨0, -1, 9, -1, -1⟩ = some (s', -eperm) ∧
    ∀ q, SameUser twoUsers s' q := by
  have h : syscallSetUser twoUsers 1 false ⟨0, -1, 9, -1, -1⟩ = some (twoUsers, -eperm) := rfl
  refine ⟨_, h, ((set_user_refused_iff (by decide) h).2 fun process hp => .inr ?_).1 rfl⟩
  cases hp
  exact ⟨by decide, by decide⟩

/-- The call of the process `false` is refused, and has set the effective user of the other process. -/
theorem refused_call_sets_euid :
    (syscallSetUser twoUsers 1 false ⟨501, -1, 7, -1, -1⟩).map (fun x => (x.2, (x.1.proc true).euid)) =
      some (-eperm, 7) ∧ (twoUsers.proc false).euid ≠ 0 ∧ (twoUsers.proc true).euid = 8 := by
  decide

end Manrix
