import Mathlib.Data.BitVec
import Manrix.Kernel.Message
import Manrix.Lib.Links

/-!
# Processes and their creation (`kernel/process.c`)

The field `child` of a process is the head of the list of its children, and the macros are also told to link the process
by it into the list of its parent.  An address that a link holds can be that of a process or that of a head. Eight bytes
behind the address of the head `child` is the field `proclist`, so this is the `child` of that address; behind the other
heads there is no list.

What `memcpy` copies of the lists is overwritten.  The results of `kmem_cache_alloc`, `alloc_pid`, `fd_fork` and
`vm_map_fork` are arguments.  Signals, threads, files and maps are not part of the record.
-/

namespace Manrix

open Function

structure Proc (ρ : Type*) where
  pid : BitVec 32
  uid : BitVec 32
  euid : BitVec 32
  gid : BitVec 32
  egid : BitVec 32
  session : BitVec 32
  parent : ρ
  next : Option ρ
  startTime : BitVec 32
  userTime : BitVec 32
  systemTime : BitVec 32
  flag : BitVec 32
  status : BitVec 32
  exitStatus : BitVec 32

/-- The heads of lists: two fields of a process, and the field of `sysinfo`. -/
inductive ProcHead (ρ : Type*) where
  | child (p : ρ)
  | proclist (p : ρ)
  | sysinfo
  deriving DecidableEq

/-- The addresses that links hold. -/
inductive ProcPtr (ρ : Type*) where
  | proc (p : ρ)
  | head (h : ProcHead ρ)
  deriving DecidableEq

structure ProcLinks (ρ : Type*) where
  next : ProcHead ρ → ProcPtr ρ
  prev : ProcHead ρ → ProcPtr ρ

/-- The records, those of them that are allocated, the lists and the hash table. -/
structure ProcMem (ρ : Type*) where
  kernel : ρ
  proc : ρ → Proc ρ
  live : List ρ
  links : ProcLinks ρ
  phash : Nat → Option ρ

def dupShare : BitVec 32 := 2

def processActive : BitVec 32 := 1

def processZombie : BitVec 32 := 2

def statVforked : BitVec 32 := 8

variable {ρ : Type*} [DecidableEq ρ]

omit [DecidableEq ρ] in
/-- The field `child` of a pointer. -/
def ProcPtr.child : ProcPtr ρ → Option (ProcHead ρ)
  | .proc p => some (.child p)
  | .head (.child p) => some (.proclist p)
  | .head _ => none

omit [DecidableEq ρ] in
/-- The field `proclist` of a pointer. -/
def ProcPtr.proclist : ProcPtr ρ → Option (ProcHead ρ)
  | .proc p => some (.proclist p)
  | .head _ => none

def ProcLinks.setNext (l : ProcLinks ρ) (h : ProcHead ρ) (v : ProcPtr ρ) : ProcLinks ρ :=
  { l with next := update l.next h v }

def ProcLinks.setPrev (l : ProcLinks ρ) (h : ProcHead ρ) (v : ProcPtr ρ) : ProcLinks ρ :=
  { l with prev := update l.prev h v }

def ProcLinks.listInit (l : ProcLinks ρ) (h : ProcHead ρ) : ProcLinks ρ := (l.setNext h (.head h)).setPrev h (.head h)

def ProcLinks.listIsempty (l : ProcLinks ρ) (h : ProcHead ρ) : Bool := l.next h = .head h

/-- `list_add`; without a value it writes where there is no list. -/
def ProcLinks.listAdd (l : ProcLinks ρ) (member : ProcPtr ρ → Option (ProcHead ρ)) (head : ProcHead ρ) (pointer : ρ) :
    Option (ProcLinks ρ) :=
  let nxt := l.next head
  let l := l.setNext head (.proc pointer)
  (member (.proc pointer)).bind fun field =>
    let l := l.setPrev field (.head head)
    let l := l.setNext field nxt
    if nxt = .head head then some (l.setPrev head (.proc pointer))
    else (member nxt).map fun field => l.setPrev field (.proc pointer)

/-- `list_del` by the field `child`. -/
def ProcLinks.listDelChild (l : ProcLinks ρ) (head : ProcHead ρ) (item : ρ) : Option (ProcLinks ρ) :=
  let prev := l.prev (.child item)
  let next := l.next (.child item)
  let field (v : ProcPtr ρ) := if v = .head head then some head else v.child
  (field prev).bind fun p => (field next).map fun n => (l.setNext p next).setPrev n prev

def haveChildren (s : ProcMem ρ) (p : ρ) : Bool := !s.links.listIsempty (.child p)

/-- The loop of `get_childs_utime` and `get_childs_stime`; without a value it has left the processes. -/
def sumChilds (s : ProcMem ρ) (p : ρ) (time : Proc ρ → BitVec 32) : Nat → BitVec 32 → ProcPtr ρ → Option (BitVec 32)
  | 0, _, _ => none
  | fuel + 1, total, child =>
    if child = .head (.child p) then some total
    else
      match child with
      | .proc q => sumChilds s p time fuel (total + time (s.proc q)) (s.links.next (.child q))
      | .head _ => none

def getChildsTime (s : ProcMem ρ) (time : Proc ρ → BitVec 32) (fuel : Nat) (p : ρ) : Option (BitVec 32) :=
  if s.links.listIsempty (.child p) then some 0 else sumChilds s p time fuel 0 (s.links.next (.child p))

def getChildsUtime (s : ProcMem ρ) : Nat → ρ → Option (BitVec 32) := getChildsTime s (·.userTime)

def getChildsStime (s : ProcMem ρ) : Nat → ρ → Option (BitVec 32) := getChildsTime s (·.systemTime)

def ProcMem.modProc (s : ProcMem ρ) (p : ρ) (f : Proc ρ → Proc ρ) : ProcMem ρ :=
  { s with proc := update s.proc p (f (s.proc p)) }

def phashInsert (s : ProcMem ρ) (process : ρ) : ProcMem ρ :=
  let bucket := hashFn (s.proc process).pid.toInt
  let s := s.modProc process fun p => { p with next := s.phash bucket }
  { s with phash := update s.phash bucket (some process) }

/-- What `find_by_pid` comes to: a read through a null pointer, or a result. -/
inductive PidLookup (ρ : Type*) where
  | nullRead
  | result (p : Option ρ)
  deriving DecidableEq

omit [DecidableEq ρ] in
/-- The loop of `find_by_pid`. -/
def findPid (s : ProcMem ρ) (pid : BitVec 32) : Nat → Option ρ → Option (PidLookup ρ)
  | 0, _ => none
  | _ + 1, none => some .nullRead
  | fuel + 1, some link =>
    if (s.proc link).pid = pid then some (.result (some link))
    else if (s.proc link).next.isNone then some (.result none)
    else findPid s pid fuel (s.proc link).next

omit [DecidableEq ρ] in
def findByPid (s : ProcMem ρ) (fuel : Nat) (pid : BitVec 32) : Option (PidLookup ρ) :=
  match s.phash (hashFn pid.toInt) with
  | none => some .nullRead
  | some p => if (s.proc p).pid = pid then some (.result (some p)) else findPid s pid fuel (s.proc p).next

/-- `process_init`; `proc` and `links` are the memory before it. -/
def processInit (kernel : ρ) (proc : ρ → Proc ρ) (links : ProcLinks ρ) : ProcMem ρ where
  kernel := kernel
  proc := update proc kernel ⟨0, 0, 0, 0, 0, 0, kernel, none, 0, 0, 0, 0, 0, 0⟩
  live := [kernel]
  links := ((links.listInit (.proclist kernel)).listInit (.child kernel)).listInit .sysinfo
  phash := fun _ => none

/-- The links of a new process: into the list of the parent, and by `sysinfo_add_process` into that of all processes. -/
def ProcLinks.addProcess (l : ProcLinks ρ) (parent new : ρ) : Option (ProcLinks ρ) :=
  ((l.listInit (.child new)).listAdd ProcPtr.child (.child parent) new).bind fun l =>
    l.listAdd ProcPtr.proclist .sysinfo new

/-- The common part of `do_fork` and `do_spawn` for a new record. -/
def ProcMem.addProcess (s : ProcMem ρ) (parent new : ρ) (record : Proc ρ) : Option (ProcMem ρ) :=
  (s.links.addProcess parent new).map fun l =>
    { s with proc := update s.proc new record, live := new :: s.live, links := l }

def processFree (s : ProcMem ρ) (process : ρ) : ProcMem ρ := { s with live := s.live.erase process }

/-- `do_fork`; `fdFork` is the result of `fd_fork`, and `mapFork` says that `vm_map_fork` returns a map. -/
def doFork (s : ProcMem ρ) (parentProcess : ρ) (flag : BitVec 32) (new : Option ρ) (pid : BitVec 32) (fdFork : Int)
    (mapFork : Bool) : Option (ProcMem ρ × Except Int ρ) :=
  match new with
  | none => some (s, .error (-enomem))
  | some new =>
    let record := { s.proc parentProcess with
      parent := parentProcess, pid := pid, startTime := 0, userTime := 0, systemTime := 0 }
    (s.addProcess parentProcess new record).map fun s =>
      if fdFork < 0 then (processFree s new, .error fdFork)
      else
        let s := phashInsert s new
        if flag &&& dupShare ≠ 0 then (s.modProc new ({ · with status := statVforked, flag := flag }), .ok new)
        else if mapFork then (s.modProc new ({ · with flag := flag }), .ok new)
        else (processFree s new, .error (-enomem))

/-- `do_spawn`; without a map it returns an error, and the process stays. -/
def doSpawn (s : ProcMem ρ) (parent : ρ) (new : Option ρ) (pid : BitVec 32) (mapFork : Bool) :
    Option (ProcMem ρ × Except Int ρ) :=
  match new with
  | none => some (s, .error (-enomem))
  | some new =>
    let record := { s.proc parent with
      parent := parent, pid := pid, startTime := 0, userTime := 0, systemTime := 0, status := processActive }
    (s.addProcess parent new record).map fun s =>
      (phashInsert s new, if mapFork then .ok new else .error (-enomem))

/-- A call of one of the two, with the results of the functions it calls. -/
inductive CreateOp (ρ : Type*) where
  | fork (parent : ρ) (flag : BitVec 32) (new : Option ρ) (pid : BitVec 32) (fdFork : Int) (mapFork : Bool)
  | spawn (parent : ρ) (new : Option ρ) (pid : BitVec 32) (mapFork : Bool)

omit [DecidableEq ρ] in
def CreateOp.parent : CreateOp ρ → ρ
  | .fork parent _ _ _ _ _ => parent
  | .spawn parent _ _ _ => parent

omit [DecidableEq ρ] in
/-- The record that `kmem_cache_alloc` returns. -/
def CreateOp.new : CreateOp ρ → Option ρ
  | .fork _ _ new _ _ _ => new
  | .spawn _ new _ _ => new

omit [DecidableEq ρ] in
/-- The record is not given back at the end of the call. -/
def CreateOp.keeps : CreateOp ρ → Bool
  | .fork _ flag _ _ fdFork mapFork => 0 ≤ fdFork && (flag &&& dupShare ≠ 0 || mapFork)
  | .spawn _ _ _ _ => true

def CreateOp.run (s : ProcMem ρ) : CreateOp ρ → Option (ProcMem ρ × Except Int ρ)
  | .fork parent flag new pid fdFork mapFork => doFork s parent flag new pid fdFork mapFork
  | .spawn parent new pid mapFork => doSpawn s parent new pid mapFork

/-- The parent is a process, and a new record is not in use. -/
def CreateStep (s : ProcMem ρ) (op : CreateOp ρ) (s' : ProcMem ρ) : Prop :=
  op.parent ∈ s.live ∧ (∀ new, op.new = some new → new ∉ s.live) ∧ ∃ r, op.run s = some (s', r)

/-- What a call does with a new record. -/
structure Created (s : ProcMem ρ) (op : CreateOp ρ) (new : ρ) (s' : ProcMem ρ) : Prop where
  links : s.links.addProcess op.parent new = some s'.links
  kernel : s'.kernel = s.kernel
  live : s'.live = if op.keeps then new :: s.live else s.live
  proc : ∃ record, s'.proc = update s.proc new record ∧ record.parent = op.parent ∧
    record.uid = (s.proc op.parent).uid ∧ record.euid = (s.proc op.parent).euid

section Cases

variable {s s' : ProcMem ρ} {op : CreateOp ρ} {parent new p : ρ} {record : Proc ρ}

theorem Created.proc_of_ne (h : Created s op new s') (hp : p ≠ new) : s'.proc p = s.proc p := by
  obtain ⟨record, hr, -⟩ := h.proc
  rw [hr, update_of_ne hp]

private theorem addProcess_fields (h : s.addProcess parent new record = some s') :
    s.links.addProcess parent new = some s'.links ∧ s'.kernel = s.kernel ∧ s'.live = new :: s.live ∧
      s'.proc = update s.proc new record := by
  obtain ⟨l, hl, rfl⟩ := Option.map_eq_some_iff.1 h
  exact ⟨hl, rfl, rfl, rfl⟩

theorem modProc_keeps {α : Type*} (f : Proc ρ → α) {g : Proc ρ → Proc ρ} (h : ∀ x, f (g x) = f x) (q : ρ) :
    f ((s.modProc p g).proc q) = f (s.proc q) := by
  by_cases hq : q = p
  · subst hq
    simp [ProcMem.modProc, h]
  · simp [ProcMem.modProc, hq]

private theorem modProc_update {s₁ : ProcMem ρ} (f : Proc ρ → Proc ρ) (h : s₁.proc = update s.proc new record) :
    (s₁.modProc new f).proc = update s.proc new (f record) := by
  simp [ProcMem.modProc, h]

private theorem phashInsert_update {s₁ : ProcMem ρ} (h : s₁.proc = update s.proc new record) :
    ∃ n, (phashInsert s₁ new).proc = update s.proc new { record with next := n } :=
  ⟨_, modProc_update (fun p => { p with next := s₁.phash (hashFn (s₁.proc new).pid.toInt) }) h⟩

private theorem doFork_created {flag pid : BitVec 32} {fdFork : Int} {mapFork : Bool} {r : Except Int ρ}
    (h : doFork s parent flag (some new) pid fdFork mapFork = some (s', r)) :
    Created s (.fork parent flag (some new) pid fdFork mapFork) new s' := by
  obtain ⟨s₁, h₁, h₂⟩ := Option.map_eq_some_iff.1 h
  obtain ⟨hl, hk, hlive, hproc⟩ := addProcess_fields h₁
  obtain ⟨n, hn⟩ := phashInsert_update hproc
  -- the four ends of the call: only two of them keep the record
  split at h₂
  · rename_i hfd
    cases h₂
    refine ⟨hl, hk, ?_, _, hproc, rfl, rfl, rfl⟩
    simp [processFree, CreateOp.keeps, hlive, hfd]
  · rename_i hfd
    rw [not_lt] at hfd
    split at h₂
    · rename_i hshare
      cases h₂
      have hkeeps : (CreateOp.fork parent flag (some new) pid fdFork mapFork).keeps = true := by
        simpa [CreateOp.keeps, hfd] using Or.inl hshare
      refine ⟨hl, hk, ?_, _, modProc_update _ hn, rfl, rfl, rfl⟩
      rwa [if_pos hkeeps]
    · rename_i hshare
      rw [not_not] at hshare
      split at h₂
      · rename_i hmap
        cases h₂
        refine ⟨hl, hk, ?_, _, modProc_update _ hn, rfl, rfl, rfl⟩
        simpa [phashInsert, ProcMem.modProc, CreateOp.keeps, hfd, hmap] using hlive
      · rename_i hmap
        cases h₂
        refine ⟨hl, hk, ?_, _, hn, rfl, rfl, rfl⟩
        simp [phashInsert, ProcMem.modProc, processFree, CreateOp.keeps, hlive, hshare, hmap]

theorem createStep_cases (h : CreateStep s op s') :
    (op.new = none ∧ s' = s) ∨ ∃ new, op.new = some new ∧ new ∉ s.live ∧ Created s op new s' := by
  obtain ⟨-, hnew, r, h⟩ := h
  cases op with
  | fork parent flag new pid fdFork mapFork =>
    cases new with
    | none => exact .inl ⟨rfl, (Prod.mk.inj (Option.some.inj h)).1.symm⟩
    | some new => exact .inr ⟨new, rfl, hnew new rfl, doFork_created h⟩
  | spawn parent new pid mapFork =>
    cases new with
    | none => exact .inl ⟨rfl, (Prod.mk.inj (Option.some.inj h)).1.symm⟩
    | some new =>
      refine .inr ⟨new, rfl, hnew new rfl, ?_⟩
      obtain ⟨s₁, h₁, h₂⟩ := Option.map_eq_some_iff.1 h
      obtain ⟨hl, hk, hlive, hproc⟩ := addProcess_fields h₁
      obtain ⟨n, hn⟩ := phashInsert_update hproc
      cases h₂
      exact ⟨hl, hk, hlive, _, hn, rfl, rfl, rfl⟩

end Cases

end Manrix
