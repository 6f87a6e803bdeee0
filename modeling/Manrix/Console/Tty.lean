import Mathlib.Data.BitVec
import Mathlib.Data.List.Basic
import Manrix.Lib.Runs

/-!
# Canonical input of a terminal (`servers/console/tty.c`)

The keyboard puts characters into the queue of a terminal, and a reader takes the queue when it has as many characters
as the reader wants or a line has ended.  In `process_vkill` and `process_verase` the three tests are joined by `||`, so
nothing is erased (unless VEOL, VEOF and the newline are one character); the queue has no test for its end; and a read
takes the whole queue, also when it is longer than the buffer of the reader.  `Editor` is the line editor that the
terminal should be.
-/

namespace Manrix

open Function List Runs

/-- The flags and the control characters of `struct termios`, with the word behind them, where `VSUSP` is. -/
structure Termios where
  cLflag : BitVec 32
  cCc : Nat → BitVec 32

def icanon : BitVec 32 := 0x010

def isig : BitVec 32 := 0x040

def vEof : Nat := 1
def vEol : Nat := 2
def vErase : Nat := 3
def vIntr : Nat := 4
def vKill : Nat := 5
def vQuit : Nat := 7
def vStart : Nat := 8
def vStop : Nat := 9
def vSusp : Nat := 10

/-- `ch == trm->c_cc[c]` -/
def Termios.is (trm : Termios) (ch : BitVec 8) (c : Nat) : Bool := ch.setWidth 32 = trm.cCc c

def maxInput : Nat := 512

def scodeNl : BitVec 8 := 0xA

def flagBreak : BitVec 32 := 1

/-- The queue, with the memory behind its `maxInput` bytes, the field `end` and the flag. -/
structure TermQueue where
  queue : Nat → BitVec 8
  qend : Nat
  flag : BitVec 32

/-- The test of `process_vkill` and `process_verase`. -/
def Termios.differs (trm : Termios) (ch : BitVec 8) : Bool := !trm.is ch vEol || !trm.is ch vEof || ch ≠ scodeNl

/-- `process_vkill`, which gives the new `end`. -/
def processVkill (trm : Termios) (queue : Nat → BitVec 8) : Nat → Nat
  | 0 => 0
  | n + 1 => if trm.differs (queue (n + 1)) then n + 1 else processVkill trm queue n

def processVerase (trm : Termios) (queue : Nat → BitVec 8) (qend : Nat) : Nat :=
  if trm.differs (queue qend) then qend else 0

/-- The signal that `read_key` sends to the process group. -/
def keySignal (trm : Termios) (ch : BitVec 8) : Option Nat :=
  if trm.cLflag &&& isig = 0 then none
  else if trm.is ch vIntr then some 9
  else if trm.is ch vQuit then some 13
  else if trm.is ch vStart || trm.is ch vStop then none
  else if trm.is ch vSusp then some 19
  else none

/-- What `read_key` leaves in the queue, and the signal it sends.  That it wakes a reader is seen in `TtyStep`, where a
reader looks at the queue at any time. -/
def readKey (trm : Termios) (q : TermQueue) (ch : BitVec 8) : TermQueue × Option Nat :=
  let canon := trm.cLflag &&& icanon ≠ 0
  let q :=
    if canon ∧ trm.is ch vKill then { q with qend := processVkill trm q.queue q.qend }
    else if canon ∧ trm.is ch vErase then { q with qend := processVerase trm q.queue q.qend }
    else if ch = 0 then q
    else if trm.is ch vEol ∨ trm.is ch vEof then { q with flag := flagBreak }
    else { q with queue := update q.queue q.qend ch, qend := q.qend + 1 }
  (q, keySignal trm ch)

/-- What a call of `icanon_read` leaves, the bytes that it puts into the buffer, and the number it returns. -/
structure IcanonRead where
  q : TermQueue
  buf : List (BitVec 8)
  nread : Nat

/-- The end of `icanon_read`, behind the loop. -/
def icanonTake (q : TermQueue) (size : Nat) : IcanonRead :=
  ⟨{ q with qend := 0 }, (List.range size).map q.queue, q.qend⟩

/-- One round of the loop of `icanon_read`: the call ends, or it sleeps. -/
def icanonRead (q : TermQueue) (size : Nat) : Option IcanonRead :=
  if q.qend < size then
    if q.flag = flagBreak then some (icanonTake { q with flag := 0 } size) else none
  else some (icanonTake q size)

/-- The text of the lines that have ended, and the line that has not. -/
structure Editor where
  text : List (BitVec 8)
  line : List (BitVec 8)

def Editor.key (e : Editor) (trm : Termios) (ch : BitVec 8) : Editor :=
  if trm.is ch vKill then { e with line := [] }
  else if trm.is ch vErase then { e with line := e.line.dropLast }
  else if trm.is ch vEol ∨ trm.is ch vEof then ⟨e.text ++ e.line, []⟩
  else { e with line := e.line ++ [ch] }

/-- The terminal with a reader that waits for so many bytes, all bytes that have been returned, and the editor that has
got the same keys. -/
structure TtyState where
  q : TermQueue
  reader : Option Nat
  returned : List (BitVec 8)
  editor : Editor

def TtyState.press (s : TtyState) (trm : Termios) (ch : BitVec 8) : TtyState :=
  { s with q := (readKey trm s.q ch).1, editor := s.editor.key trm ch }

def TtyState.take (s : TtyState) (r : IcanonRead) : TtyState :=
  { s with q := r.q, reader := none, returned := s.returned ++ r.buf.take r.nread }

inductive TtyOp where
  | key (ch : BitVec 8)
  | read (size : Nat)
  | check

inductive TtyStep (trm : Termios) : TtyState → TtyOp → TtyState → Prop
  | key {s : TtyState} {ch : BitVec 8} : ch ≠ 0 → TtyStep trm s (.key ch) (s.press trm ch)
  | read {s : TtyState} {size : Nat} : s.reader = none → 1 ≤ size →
      TtyStep trm s (.read size) { s with reader := some size }
  | sleep {s : TtyState} {size : Nat} : s.reader = some size → icanonRead s.q size = none → TtyStep trm s .check s
  | done {s : TtyState} {size : Nat} {r : IcanonRead} : s.reader = some size → icanonRead s.q size = some r →
      TtyStep trm s .check (s.take r)

/-- The key ends a line, and the queue is not touched. -/
def Termios.endsLine (trm : Termios) (ch : BitVec 8) : Bool :=
  !trm.is ch vKill && !trm.is ch vErase && (trm.is ch vEol || trm.is ch vEof)

def TermQueue.content (q : TermQueue) : List (BitVec 8) := (List.range q.qend).map q.queue

/-- What has been returned and what is in the queue is the text of the editor. -/
def TtyState.Agrees (s : TtyState) : Prop := s.returned ++ s.q.content = s.editor.text ++ s.editor.line

/-- The index of the queue is inside the buffer when a key uses it, a read returns no more than its size, and the text
is that of the editor. -/
def InputRight (trm : Termios) : TtyState × TtyOp × TtyState → Prop
  | (s, op, s') => (∀ ch, op = .key ch → trm.endsLine ch = true ∨ s.q.qend < maxInput) ∧
      (op = .check → ∀ size r, s.reader = some size → icanonRead s.q size = some r → r.nread ≤ size) ∧ s'.Agrees

/-- The place `n` is the last one up to `qend` that passes the test, or 0 if none does. -/
structure Termios.LastDiffers (trm : Termios) (queue : Nat → BitVec 8) (qend n : Nat) : Prop where
  le : n ≤ qend
  differs : n = 0 ∨ trm.differs (queue n) = true
  behind : ∀ i, n < i → i ≤ qend → trm.differs (queue i) = false

/-- At VKILL the unfinished line is what lies behind the last place that passes the test. -/
def KillFits (trm : Termios) (q : TermQueue) (line : List (BitVec 8)) : Prop :=
  ∃ n, trm.LastDiffers q.queue q.qend n ∧ line.length = q.qend - n

/-- At VERASE the place behind the last character passes the test and the unfinished line is empty, or it does not and
the queue has the only character of the line, if any. -/
def EraseFits (trm : Termios) (q : TermQueue) (line : List (BitVec 8)) : Prop :=
  if trm.differs (q.queue q.qend) then line = [] else q.qend = min 1 line.length

/-- There is room for a character, the queue is as VKILL and VERASE need it, and the reader finds no more characters
than it wants. -/
def InputFits (trm : Termios) : TtyState × TtyOp × TtyState → Prop
  | (s, .key ch, _) => trm.endsLine ch = true ∨ (s.q.qend < maxInput ∧
      (trm.is ch vKill = true → KillFits trm s.q s.editor.line) ∧
      (trm.is ch vKill = false → trm.is ch vErase = true → EraseFits trm s.q s.editor.line))
  | (s, .check, _) => ∀ size, s.reader = some size → s.q.qend ≤ size
  | _ => True

variable {trm : Termios} {s s' : TtyState} {op : TtyOp} {ch : BitVec 8} {q : TermQueue}

private theorem processVkill_last (trm : Termios) (queue : Nat → BitVec 8) (n : Nat) :
    trm.LastDiffers queue n (processVkill trm queue n) := by
  induction n with
  | zero => exact ⟨le_rfl, .inl rfl, fun i hi hle => absurd hle (by simp only [processVkill] at hi; omega)⟩
  | succ n ih =>
    rw [processVkill]
    split
    · case isTrue hd => exact ⟨le_rfl, .inr hd, fun i hi hle => absurd hle (by omega)⟩
    · case isFalse hd =>
      refine ⟨ih.le.trans n.le_succ, ih.differs, fun i hi hle => ?_⟩
      obtain rfl | hlt := hle.eq_or_lt
      · exact Bool.eq_false_iff.mpr hd
      · exact ih.behind i hi (by omega)

theorem Termios.LastDiffers.unique {queue : Nat → BitVec 8} {qend n m : Nat} (hn : trm.LastDiffers queue qend n)
    (hm : trm.LastDiffers queue qend m) : n = m := by
  -- the larger of the two would pass the test behind the other
  have hle : ∀ {a b}, trm.LastDiffers queue qend a → trm.LastDiffers queue qend b → a ≤ b := fun ha hb => by
    by_contra hlt
    obtain h0 | hd := ha.differs
    · omega
    · exact absurd (hb.behind _ (by omega) ha.le) (by simp [hd])
  exact (hle hn hm).antisymm (hle hm hn)

private theorem killFits_iff {line : List (BitVec 8)} :
    KillFits trm q line ↔ processVkill trm q.queue q.qend + line.length = q.qend := by
  have hlast := processVkill_last trm q.queue q.qend
  have hle := hlast.le
  constructor
  · rintro ⟨n, hn, hlen⟩
    rw [hn.unique hlast] at hlen
    omega
  · exact fun h => ⟨_, hlast, by omega⟩

private theorem eraseFits_iff {line : List (BitVec 8)} :
    EraseFits trm q line ↔ processVerase trm q.queue q.qend + min 1 line.length = q.qend := by
  rw [EraseFits, processVerase]
  split
  · rw [← length_eq_zero_iff]
    omega
  · omega

private theorem processVerase_le (trm : Termios) (queue : Nat → BitVec 8) (n : Nat) :
    processVerase trm queue n ≤ n := by
  rw [processVerase]
  split
  · exact le_rfl
  · exact Nat.zero_le n

private theorem content_length (q : TermQueue) : q.content.length = q.qend := by
  rw [TermQueue.content, length_map, length_range]

private theorem content_take (q : TermQueue) {n : Nat} (hn : n ≤ q.qend) : ({ q with qend := n } : TermQueue).content =
    q.content.take n := by
  rw [TermQueue.content, TermQueue.content, ← map_take, take_range, Nat.min_eq_left hn]

private theorem content_push (q : TermQueue) (ch : BitVec 8) :
    ({ q with queue := update q.queue q.qend ch, qend := q.qend + 1 } : TermQueue).content =
      q.content ++ [ch] := by
  have hold : (List.range q.qend).map (update q.queue q.qend ch) = q.content :=
    map_congr_left fun i hi => update_of_ne (mem_range.1 hi).ne ..
  rw [TermQueue.content, range_succ, map_append, map_singleton, hold]
  exact congrArg (q.content ++ [·]) (update_self ..)

private theorem agrees_cut_iff {returned content text line : List (BitVec 8)} (h : returned ++ content = text ++ line)
    {n k : Nat} (hn : n ≤ content.length) (hk : k ≤ line.length) :
    returned ++ content.take n = text ++ line.take k ↔ n + (line.length - k) = content.length := by
  have hlen := congrArg List.length h
  rw [length_append, length_append] at hlen
  rw [← take_length_add_append n, ← take_length_add_append k, h]
  constructor
  · intro heq
    have := congrArg List.length heq
    rw [length_take, length_take, length_append] at this
    omega
  · intro heq
    rw [show returned.length + n = text.length + k by omega]

/-- A key keeps the text that of the editor exactly when VKILL and VERASE take the right number of characters. -/
private theorem agrees_key_iff (hcanon : trm.cLflag &&& icanon ≠ 0) (h : s.Agrees) (hch : ch ≠ 0) :
    (s.press trm ch).Agrees ↔ (trm.is ch vKill = true → KillFits trm s.q s.editor.line) ∧
      (trm.is ch vKill = false → trm.is ch vErase = true → EraseFits trm s.q s.editor.line) := by
  have hlen := content_length s.q
  simp only [killFits_iff, eraseFits_iff, TtyState.Agrees, TtyState.press, readKey, Editor.key, hcanon, ne_eq,
    not_false_eq_true, true_and]
  cases hkill : trm.is ch vKill with
  | true =>
    have hle := (processVkill_last trm s.q.queue s.q.qend).le
    simp only [if_true, forall_const, Bool.true_eq_false, false_implies, and_true]
    rw [content_take s.q hle]
    have := agrees_cut_iff h (hle.trans_eq hlen.symm) (Nat.zero_le s.editor.line.length)
    rwa [take_zero, Nat.sub_zero, hlen] at this
  | false =>
    simp only [Bool.false_eq_true, if_false, false_implies, true_and, forall_const]
    cases herase : trm.is ch vErase with
    | true =>
      have hle := processVerase_le trm s.q.queue s.q.qend
      simp only [if_true, forall_const]
      rw [content_take s.q hle, dropLast_eq_take]
      have := agrees_cut_iff h (hle.trans_eq hlen.symm) (Nat.sub_le s.editor.line.length 1)
      rw [this, hlen]
      omega
    | false =>
      simp only [Bool.false_eq_true, if_false, false_implies, iff_true, hch]
      split
      · rw [append_nil]
        exact h
      · rw [content_push, ← append_assoc, ← append_assoc, h]

private theorem icanonRead_some {size : Nat} {r : IcanonRead} (h : icanonRead q size = some r) :
    r.q.qend = 0 ∧ r.buf = (List.range size).map q.queue ∧ r.nread = q.qend := by
  rw [icanonRead] at h
  split at h
  · split at h
    · cases h
      exact ⟨rfl, rfl, rfl⟩
    · cases h
  · cases h
    exact ⟨rfl, rfl, rfl⟩

private theorem agrees_done {size : Nat} {r : IcanonRead} (h : s.Agrees) (hr : icanonRead s.q size = some r)
    (hle : s.q.qend ≤ size) : (s.take r).Agrees := by
  obtain ⟨hend, hbuf, hnread⟩ := icanonRead_some hr
  have hempty : r.q.content = [] := by rw [TermQueue.content, hend]; rfl
  have htake : r.buf.take r.nread = s.q.content := by
    rw [hbuf, hnread, ← map_take, take_range, Nat.min_eq_left hle]
    rfl
  rw [TtyState.Agrees, TtyState.take, hempty, htake, append_nil]
  exact h

theorem TtyStep.right_iff (hcanon : trm.cLflag &&& icanon ≠ 0) (h : s.Agrees) (hs : TtyStep trm s op s') :
    InputRight trm (s, op, s') ↔ InputFits trm (s, op, s') := by
  cases hs with
  | @key ch hch =>
    have hkey := agrees_key_iff hcanon h hch
    simp only [InputRight, InputFits, TtyOp.key.injEq, forall_eq', reduceCtorEq, false_implies, true_and, hkey]
    cases hends : trm.endsLine ch with
    | false => simp
    | true =>
      simp only [Termios.endsLine, Bool.and_eq_true, Bool.not_eq_true'] at hends
      simp [hends.1.1, hends.1.2]
  | read hnone hsize => exact iff_of_true ⟨by simp, by simp, h⟩ trivial
  | @sleep size hreader hsleep =>
    refine iff_of_true ⟨by simp, fun _ size' r hreader' hr => ?_, h⟩ fun size' hreader' => ?_
    all_goals cases hreader.symm.trans hreader'
    · rw [hsleep] at hr
      cases hr
    · rw [icanonRead] at hsleep
      split at hsleep
      · omega
      · cases hsleep
  | @done size r hreader hr =>
    constructor
    · rintro ⟨-, hread, -⟩ size' hreader'
      cases hreader.symm.trans hreader'
      rw [← (icanonRead_some hr).2.2]
      exact hread rfl size r hreader hr
    · intro hfits
      refine ⟨by simp, fun _ size' r' hreader' hr' => ?_, agrees_done h hr (hfits size hreader)⟩
      rw [(icanonRead_some hr').2.2]
      exact hfits size' hreader'

/-- The terminal before the first key. -/
def ttyInit (queue : Nat → BitVec 8) : TtyState := ⟨⟨queue, 0, 0⟩, none, [], ⟨[], []⟩⟩

/-- Keys and reads give the text of the editor exactly when nothing has to be erased, the queue has room and no read
finds more than it wants. -/
theorem canonical_input (trm : Termios) (hcanon : trm.cLflag &&& icanon ≠ 0) (queue : Nat → BitVec 8)
    (tr : List (TtyState × TtyOp × TtyState)) (s : TtyState) (hrun : Run (TtyStep trm) (ttyInit queue) tr s) :
    (∀ x ∈ tr, InputRight trm x) ↔ ∀ x ∈ tr, InputFits trm x :=
  hrun.forall_iff TtyState.Agrees (InputFits trm) (InputRight trm) (show (ttyInit queue).Agrees from rfl)
    (fun _ _ _ h hfits hs => ((hs.right_iff hcanon h).2 hfits).2.2) fun _ _ _ h hs => hs.right_iff hcanon h

/-- A terminal in canonical mode, with the control characters 1 to 10. -/
def ctrlChars : Termios := ⟨icanon, fun c => BitVec.ofNat 32 c⟩

/-- One character has been typed, and one is to be read. -/
def typed : TtyState := { (ttyInit fun _ => 0).press ctrlChars 97 with reader := some 1 }

theorem canonical_input_one : ∃ tr s, Run (TtyStep ctrlChars) (ttyInit fun _ => 0) tr s ∧
    tr.map (·.2.1) = [.key 97, .read 1, .check] ∧ s.returned = [97] ∧ ∀ x ∈ tr, InputRight ctrlChars x := by
  have hkey : TtyStep ctrlChars (ttyInit fun _ => 0) (.key 97) ((ttyInit fun _ => 0).press ctrlChars 97) :=
    .key (by decide)
  have hread : TtyStep ctrlChars ((ttyInit fun _ => 0).press ctrlChars 97) (.read 1) typed := .read rfl le_rfl
  have hdone : TtyStep ctrlChars typed .check (typed.take (icanonTake typed.q 1)) := .done rfl rfl
  have hrun := ((Run.nil.snoc hkey).snoc hread).snoc hdone
  refine ⟨_, _, hrun, rfl, rfl, (canonical_input ctrlChars (by decide) _ _ _ hrun).2 ?_⟩
  simp only [nil_append, cons_append, mem_cons, not_mem_nil, or_false]
  rintro x (rfl | rfl | rfl)
  · exact .inr ⟨by decide, fun h => absurd h (by decide), fun _ h => absurd h (by decide)⟩
  · trivial
  · rintro size ⟨⟩
    decide

/-- The second character is erased and the line is ended, and both are read. -/
theorem erased_is_read : ∃ tr s, Run (TtyStep ctrlChars) (ttyInit fun _ => 0) tr s ∧
    tr.map (·.2.1) = [.key 97, .key 98, .key 3, .key 2, .read 10, .check] ∧ s.returned = [97, 98] ∧
    s.editor = ⟨[97], []⟩ := by
  refine ⟨_, _, .snoc (.snoc (.snoc (.snoc (.snoc (.snoc .nil (.key ?_)) (.key ?_)) (.key ?_)) (.key ?_))
    (.read rfl ?_)) (.done rfl rfl), rfl, rfl, rfl⟩
  all_goals decide

end Manrix
