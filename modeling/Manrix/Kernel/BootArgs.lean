import Mathlib.Tactic.Ring
import Manrix.Lib.CString

/-!
# The arguments of a boot module (`get_argv_string`)

The boot loader gives the command line of a module as one string.  `get_argv_string` counts its words, copies them to a
buffer, each with a zero behind it, and enters for each word the user address at which it will be found.  This address
is computed from the offset of the word in the command line; in the buffer its offset is smaller if words are separated
by more than one space.

`mem` is the memory with the command line.  The buffer `argv` is the list of the bytes written to it, since the pointer
goes on by one with every byte, and `ptr` is the array of the addresses.
-/

namespace Manrix

open CString Function List

def space : BitVec 8 := 0x20

def userStackTop : BitVec 32 := 0xDFEFFFFF

/-- `while(*top == ' ') top++`. -/
def skipSpaces (mem : BitVec 32 → BitVec 8) : Nat → BitVec 32 → Option (BitVec 32)
  | 0, _ => none
  | fuel + 1, top => if mem top = space then skipSpaces mem fuel (top + 1) else some top

/-- The two loops: at the end of a word `gap` is done, with the address of the next one, and for a byte of a word
`char`. -/
def scanArgs {α : Type*} (mem : BitVec 32 → BitVec 8) (gap : α → BitVec 32 → α) (char : α → BitVec 8 → α) :
    Nat → BitVec 32 → α → Option α
  | 0, _, _ => none
  | fuel + 1, top, s =>
    let data := mem top
    if data = 0 then some s
    else if data = space then
      (skipSpaces mem fuel (top + 1)).bind fun top => scanArgs mem gap char fuel top (gap s top)
    else scanArgs mem gap char fuel (top + 1) (char s data)

/-- What the second loop changes. -/
structure ArgvState where
  narg : Nat
  argv : List (BitVec 8)
  ptr : Nat → BitVec 32

def ArgvState.char (s : ArgvState) (data : BitVec 8) : ArgvState := { s with argv := s.argv ++ [data] }

def ArgvState.gap (addr : BitVec 32 → BitVec 32) (s : ArgvState) (top : BitVec 32) : ArgvState :=
  ⟨s.narg + 1, s.argv ++ [0], update s.ptr (s.narg + 1) (addr top)⟩

/-- The address that is entered for the word at `top`. -/
def argAddr (base : BitVec 32) (arg : Nat) (top : BitVec 32) : BitVec 32 :=
  (top - base) + userStackTop + 1024 + BitVec.ofNat 32 (arg * 4)

/-- What `get_argv_string` leaves in `argc`, `argv` and `ptr`, and the offset of the pointer it returns. -/
structure ArgvCall where
  argc : Nat
  argv : List (BitVec 8)
  ptr : Nat → BitVec 32
  ret : Nat

def getArgvString (mem : BitVec 32 → BitVec 8) (fuel : Nat) (uargv : BitVec 32) (ptr : Nat → BitVec 32) :
    Option ArgvCall := do
  let narg ← scanArgs mem (fun narg _ => narg + 1) (fun narg _ => narg) fuel uargv 0
  let argc := narg + 1
  let addr := argAddr uargv (argc + 1)
  let s ← scanArgs mem (ArgvState.gap addr) ArgvState.char fuel uargv ⟨0, [], update ptr 0 (addr uargv)⟩
  some ⟨argc, s.argv ++ [0], update s.ptr (s.narg + 1) 0, s.argv.length⟩

/-- A word of a command line. -/
structure ArgWord where
  bytes : List (BitVec 8)
  ne_nil : bytes ≠ []
  plain : ∀ b ∈ bytes, b ≠ 0 ∧ b ≠ space

/-- A further word, with the number of spaces in front of it. -/
structure Arg where
  spaces : Nat
  word : ArgWord
  spaces_pos : 0 < spaces

structure CmdLine where
  first : ArgWord
  rest : List Arg

def Arg.bytes (a : Arg) : List (BitVec 8) := List.replicate a.spaces space ++ a.word.bytes

namespace CmdLine

def bytes (line : CmdLine) : List (BitVec 8) := line.first.bytes ++ line.rest.flatMap Arg.bytes

def words (line : CmdLine) : List (List (BitVec 8)) := line.first.bytes :: line.rest.map fun a => a.word.bytes

/-- The words one after another, each with a zero behind it. -/
def terminated (words : List (List (BitVec 8))) : List (BitVec 8) := words.flatMap (· ++ [0])

/-- The offset of the word `i` among the terminated words. -/
def offset (line : CmdLine) (i : Nat) : Nat := (terminated (line.words.take i)).length

/-- What `get_argv_string` should leave. -/
structure Parsed (line : CmdLine) (r : ArgvCall) : Prop where
  argc : r.argc = line.words.length
  argv : r.argv = terminated line.words
  ptr : ∀ i < line.words.length,
    r.ptr i = userStackTop + 1024 + BitVec.ofNat 32 (4 * (line.words.length + 1)) + BitVec.ofNat 32 (line.offset i)
  last : r.ptr line.words.length = 0

end CmdLine

section Scan

variable {mem : BitVec 32 → BitVec 8} {p : BitVec 32} {l : List (BitVec 8)} {fuel n : Nat} {α : Type*}
  {gap : α → BitVec 32 → α} {char : α → BitVec 8 → α} {s : α}

private theorem skipSpaces_replicate (h : StringAt mem p (List.replicate n space ++ l))
    (hl : mem (p + BitVec.ofNat 32 n) ≠ space) (hf : n < fuel) :
    skipSpaces mem fuel p = some (p + BitVec.ofNat 32 n) := by
  induction n generalizing p fuel with
  | zero =>
    rcases fuel with _ | fuel
    · omega
    rw [show BitVec.ofNat 32 0 = 0 from rfl, add_zero] at hl ⊢
    rw [skipSpaces, if_neg hl]
  | succ n ih =>
    rcases fuel with _ | fuel
    · omega
    have hstep : p + BitVec.ofNat 32 (n + 1) = p + 1 + BitVec.ofNat 32 n := by
      rw [Nat.add_comm, BitVec.ofNat_add, ← add_assoc]
      rfl
    rw [hstep] at hl ⊢
    rw [skipSpaces, if_pos h.1]
    exact ih h.2 hl (Nat.lt_of_succ_lt_succ hf)

private theorem scanArgs_word {w : List (BitVec 8)} (hw : ∀ b ∈ w, b ≠ 0 ∧ b ≠ space) (h : StringAt mem p (w ++ l)) :
    scanArgs mem gap char (fuel + w.length) p s =
      scanArgs mem gap char fuel (p + BitVec.ofNat 32 w.length) (w.foldl char s) := by
  induction w generalizing p s with
  | nil => simp
  | cons b w ih =>
    obtain ⟨hb, h⟩ := h
    rw [forall_mem_cons] at hw
    rw [length_cons, ← Nat.add_assoc, scanArgs]
    simp only [hb, if_neg hw.1.1, if_neg hw.1.2]
    rw [ih hw.2 h, foldl_cons, Nat.add_comm w.length, BitVec.ofNat_add, ← add_assoc]
    rfl

private theorem scanArgs_gap {a : Arg} (h : StringAt mem p (a.bytes ++ l)) (hf : a.spaces ≤ fuel) :
    scanArgs mem gap char (fuel + 1) p s =
      scanArgs mem gap char fuel (p + BitVec.ofNat 32 a.spaces) (gap s (p + BitVec.ofNat 32 a.spaces)) := by
  obtain ⟨k, hk⟩ := Nat.exists_eq_add_one_of_ne_zero a.spaces_pos.ne'
  rw [Arg.bytes, append_assoc] at h
  have hword := h.append_right
  rw [length_replicate] at hword
  have hne : mem (p + BitVec.ofNat 32 a.spaces) ≠ space := by
    obtain ⟨b, w, hbw⟩ := exists_cons_of_ne_nil a.word.ne_nil
    rw [hbw] at hword
    rw [hword.1]
    exact (a.word.plain b (by simp [hbw])).2
  have hstep : p + BitVec.ofNat 32 a.spaces = p + 1 + BitVec.ofNat 32 k := by
    rw [hk, Nat.add_comm, BitVec.ofNat_add, ← add_assoc]
    rfl
  rw [hk, replicate_succ, cons_append] at h
  have hskip : skipSpaces mem fuel (p + 1) = some (p + BitVec.ofNat 32 a.spaces) := by
    rw [hstep] at hne ⊢
    exact skipSpaces_replicate h.2 hne (by omega)
  have h0 : space ≠ 0 := by decide
  rw [scanArgs]
  simp only [h.1, if_neg h0, if_pos, hskip, Option.bind_some]

/-- What a loop makes of the words of the rest of the line, which begins at `p`. -/
def scanned (gap : α → BitVec 32 → α) (char : α → BitVec 8 → α) : BitVec 32 → List Arg → α → α
  | _, [], s => s
  | p, a :: rest, s =>
    scanned gap char (p + BitVec.ofNat 32 a.bytes.length) rest
      (a.word.bytes.foldl char (gap s (p + BitVec.ofNat 32 a.spaces)))

private theorem scanArgs_rest {rest : List Arg} (h : StringAt mem p (rest.flatMap Arg.bytes))
    (hf : (rest.flatMap Arg.bytes).length < fuel) :
    scanArgs mem gap char fuel p s = some (scanned gap char p rest s) := by
  induction rest generalizing p s fuel with
  | nil =>
    rcases fuel with _ | fuel
    · omega
    have h0 : mem p = 0 := h
    simp only [scanArgs, h0, if_pos, scanned]
  | cons a rest ih =>
    rw [flatMap_cons] at h hf
    have hlen : a.bytes.length = a.spaces + a.word.bytes.length := by simp [Arg.bytes]
    rw [length_append, hlen] at hf
    have hpos := a.spaces_pos
    obtain ⟨f, rfl⟩ : ∃ f, fuel = f + a.word.bytes.length + 1 := ⟨fuel - 1 - a.word.bytes.length, by omega⟩
    have hrest := h.append_right
    have hword : StringAt mem (p + BitVec.ofNat 32 a.spaces) (a.word.bytes ++ rest.flatMap Arg.bytes) := by
      rw [Arg.bytes, append_assoc] at h
      have := h.append_right
      rwa [length_replicate] at this
    have hend : p + BitVec.ofNat 32 a.spaces + BitVec.ofNat 32 a.word.bytes.length =
        p + BitVec.ofNat 32 a.bytes.length := by
      rw [hlen, BitVec.ofNat_add, add_assoc]
    rw [scanArgs_gap h (by omega), scanArgs_word a.word.plain hword, hend, scanned]
    exact ih hrest (by omega)

private theorem scanArgs_line {line : CmdLine} (h : StringAt mem p line.bytes) (hf : line.bytes.length < fuel) :
    scanArgs mem gap char fuel p s = some (scanned gap char (p + BitVec.ofNat 32 line.first.bytes.length) line.rest
      (line.first.bytes.foldl char s)) := by
  rw [CmdLine.bytes, length_append] at hf
  obtain ⟨f, rfl⟩ : ∃ f, fuel = f + line.first.bytes.length := ⟨fuel - line.first.bytes.length, by omega⟩
  rw [scanArgs_word line.first.plain h]
  exact scanArgs_rest h.append_right (by omega)

end Scan

private theorem scanned_count (p : BitVec 32) (rest : List Arg) (n : Nat) :
    scanned (fun narg _ => narg + 1) (fun narg _ => narg) p rest n = n + rest.length := by
  induction rest generalizing p n with
  | nil => rfl
  | cons a rest ih =>
    rw [scanned, ih, foldl_fixed, length_cons]
    omega

namespace ArgvState

variable {s : ArgvState}

private theorem foldl_char (w : List (BitVec 8)) : w.foldl char s = ⟨s.narg, s.argv ++ w, s.ptr⟩ := by
  induction w generalizing s with
  | nil => simp
  | cons b w ih =>
    rw [foldl_cons, ih]
    simp [char]

private theorem scanned_gap (addr : BitVec 32 → BitVec 32) (p : BitVec 32) (rest : List Arg) (s : ArgvState) :
    (scanned (gap addr) char p rest s).narg = s.narg + rest.length ∧
    (scanned (gap addr) char p rest s).argv = s.argv ++ rest.flatMap (fun a => 0 :: a.word.bytes) ∧
    (∀ i ≤ s.narg, (scanned (gap addr) char p rest s).ptr i = s.ptr i) ∧
    ∀ (j : Nat) (hj : j < rest.length), (scanned (gap addr) char p rest s).ptr (s.narg + 1 + j) =
      addr (p + BitVec.ofNat 32 (((rest.take j).flatMap Arg.bytes).length + rest[j].spaces)) := by
  induction rest generalizing p s with
  | nil => simp [scanned]
  | cons a rest ih =>
    rw [scanned, foldl_char]
    obtain ⟨hn, hargv, hold, hnew⟩ := ih (p + BitVec.ofNat 32 a.bytes.length) ⟨s.narg + 1,
      s.argv ++ [0] ++ a.word.bytes, update s.ptr (s.narg + 1) (addr (p + BitVec.ofNat 32 a.spaces))⟩
    refine ⟨?_, ?_, fun i hi => ?_, fun j hj => ?_⟩
    · rw [gap, hn, length_cons]
      exact Nat.add_right_comm s.narg 1 rest.length
    · rw [gap, hargv]
      simp
    · rw [gap, hold i (Nat.le_succ_of_le hi)]
      exact update_of_ne (by omega) ..
    · cases j with
      | zero =>
        rw [gap, hold _ (le_refl _)]
        simp
      | succ j =>
        rw [gap, ← Nat.add_assoc, Nat.add_right_comm _ j 1, hnew j (Nat.lt_of_succ_lt_succ hj)]
        simp only [take_succ_cons, flatMap_cons, length_append, getElem_cons_succ,
          BitVec.ofNat_add, add_assoc]

end ArgvState

namespace CmdLine

variable {line : CmdLine} {mem : BitVec 32 → BitVec 8} {uargv : BitVec 32} {ptr : Nat → BitVec 32} {fuel : Nat}

/-- The spaces in front of the word `i`, without one for each word before it. -/
def spare (line : CmdLine) (i : Nat) : Nat := ((line.rest.take i).map fun a => a.spaces - 1).sum

private theorem words_length : line.words.length = line.rest.length + 1 := by simp [words]

private theorem terminated_cons (w : List (BitVec 8)) (ws : List (List (BitVec 8))) :
    terminated (w :: ws) = w ++ 0 :: terminated ws := by
  simp [terminated]

private theorem length_flatMap_bytes (rest : List Arg) : (rest.flatMap Arg.bytes).length =
    (terminated (rest.map fun a => a.word.bytes)).length + (rest.map fun a => a.spaces - 1).sum := by
  induction rest with
  | nil => rfl
  | cons a rest ih =>
    have hpos := a.spaces_pos
    simp only [flatMap_cons, map_cons, terminated_cons, length_append, length_cons, List.sum_cons,
      ih, Arg.bytes, length_replicate]
    omega

theorem start_eq {j : Nat} (hj : j < line.rest.length) :
    line.first.bytes.length + (((line.rest.take j).flatMap Arg.bytes).length + line.rest[j].spaces) =
      line.offset (j + 1) + line.spare (j + 1) := by
  have hpos := line.rest[j].spaces_pos
  have htake : line.rest.take (j + 1) = line.rest.take j ++ [line.rest[j]] := (take_append_getElem hj).symm
  simp only [offset, spare, words, htake, length_flatMap_bytes, take_succ_cons, terminated_cons, map_append,
    List.sum_append, length_append, length_cons, ← map_take, map_cons, map_nil, List.sum_cons,
    List.sum_nil]
  omega

theorem start_le {j : Nat} (hj : j < line.rest.length) :
    line.offset (j + 1) + line.spare (j + 1) ≤ line.bytes.length := by
  have hsplit : line.rest = line.rest.take j ++ line.rest[j] :: line.rest.drop (j + 1) := by
    rw [← drop_eq_getElem_cons hj, take_append_drop]
  have hlen := congrArg (fun l => (l.flatMap Arg.bytes).length) hsplit
  simp only [flatMap_append, flatMap_cons, length_append] at hlen
  have hbytes : line.rest[j].bytes.length = line.rest[j].spaces + line.rest[j].word.bytes.length := by
    simp [Arg.bytes]
  rw [← start_eq hj, bytes, length_append]
  omega

private theorem bytes_ne_zero : ∀ b ∈ line.bytes, b ≠ 0 := by
  intro b hb
  rw [bytes, mem_append, mem_flatMap] at hb
  rcases hb with hb | ⟨a, -, hb⟩
  · exact (line.first.plain b hb).1
  · rw [Arg.bytes, mem_append, mem_replicate] at hb
    rcases hb with ⟨-, rfl⟩ | hb
    · decide
    · exact (a.word.plain b hb).1

/-- What the second loop leaves. -/
def copied (line : CmdLine) (uargv : BitVec 32) (ptr : Nat → BitVec 32) : ArgvState :=
  scanned (.gap (argAddr uargv (line.words.length + 1))) .char (uargv + BitVec.ofNat 32 line.first.bytes.length)
    line.rest ⟨0, line.first.bytes, update ptr 0 (argAddr uargv (line.words.length + 1) uargv)⟩

private theorem getArgvString_line (h : StringAt mem uargv line.bytes) (hf : line.bytes.length < fuel) :
    getArgvString mem fuel uargv ptr = some ⟨line.words.length, (line.copied uargv ptr).argv ++ [0],
      update (line.copied uargv ptr).ptr ((line.copied uargv ptr).narg + 1) 0,
      (line.copied uargv ptr).argv.length⟩ := by
  simp only [getArgvString, scanArgs_line h hf, foldl_fixed, scanned_count, ArgvState.foldl_char, Nat.zero_add,
    ← words_length, Option.bind_eq_bind, Option.bind_some, nil_append]
  rfl

private theorem copied_argv : (line.copied uargv ptr).argv ++ [0] = terminated line.words := by
  have hrest : ∀ (w : List (BitVec 8)) (l : List Arg), w ++ l.flatMap (fun a => 0 :: a.word.bytes) ++ [0] =
      terminated (w :: l.map fun a => a.word.bytes) := by
    intro w l
    induction l generalizing w with
    | nil => simp [terminated]
    | cons a l ih =>
      rw [map_cons, terminated_cons, ← ih]
      simp
  rw [copied, (ArgvState.scanned_gap ..).2.1]
  exact hrest _ _

private theorem copied_narg : (line.copied uargv ptr).narg + 1 = line.words.length := by
  rw [copied, (ArgvState.scanned_gap ..).1, words_length, Nat.zero_add]

private theorem copied_ptr {i : Nat} (hi : i < line.words.length) :
    (line.copied uargv ptr).ptr i = userStackTop + 1024 + BitVec.ofNat 32 (4 * (line.words.length + 1)) +
      BitVec.ofNat 32 (line.offset i + line.spare i) := by
  have haddr : ∀ n : Nat, argAddr uargv (line.words.length + 1) (uargv + BitVec.ofNat 32 n) = userStackTop + 1024 +
      BitVec.ofNat 32 (4 * (line.words.length + 1)) + BitVec.ofNat 32 n := by
    intro n
    rw [argAddr, Nat.mul_comm]
    ring
  obtain ⟨-, -, hold, hnew⟩ := ArgvState.scanned_gap (argAddr uargv (line.words.length + 1))
    (uargv + BitVec.ofNat 32 line.first.bytes.length) line.rest
    ⟨0, line.first.bytes, update ptr 0 (argAddr uargv (line.words.length + 1) uargv)⟩
  cases i with
  | zero =>
    rw [copied, hold 0 (le_refl 0)]
    simpa [offset, spare, terminated] using haddr 0
  | succ j =>
    rw [words_length] at hi
    have hj : j < line.rest.length := by omega
    have := hnew j hj
    rw [Nat.zero_add, Nat.add_comm 1 j] at this
    rw [copied, this, add_assoc, ← BitVec.ofNat_add, start_eq hj, haddr]

private theorem spare_eq_zero_iff : (∀ i < line.words.length, line.spare i = 0) ↔ ∀ a ∈ line.rest, a.spaces = 1 := by
  have hall : ∀ l : List Arg, (l.map fun a => a.spaces - 1).sum = 0 ↔ ∀ a ∈ l, a.spaces = 1 := by
    intro l
    rw [List.sum_eq_zero_iff_forall_eq_nat, forall_mem_map]
    refine forall₂_congr fun a _ => ?_
    have := a.spaces_pos
    omega
  constructor
  · intro h
    have := h line.rest.length (by rw [words_length]; omega)
    rwa [spare, take_length, hall] at this
  · intro h i _
    exact (hall _).mpr fun a ha => h a (mem_of_mem_take ha)

private theorem ptr_eq_iff (h : StringAt mem uargv line.bytes) {i : Nat} (hi : i < line.words.length) (c : BitVec 32) :
    c + BitVec.ofNat 32 (line.offset i + line.spare i) = c + BitVec.ofNat 32 (line.offset i) ↔ line.spare i = 0 := by
  have hlen := h.length_lt bytes_ne_zero
  have hlt : line.offset i + line.spare i < 2 ^ 32 := by
    cases i with
    | zero => simp [offset, spare, terminated]
    | succ j =>
      rw [words_length] at hi
      have hj : j < line.rest.length := by omega
      exact (start_le hj).trans_lt hlen
  rw [add_right_inj, ← BitVec.toNat_inj, BitVec.toNat_ofNat, BitVec.toNat_ofNat, Nat.mod_eq_of_lt hlt,
    Nat.mod_eq_of_lt (by omega)]
  omega

end CmdLine

open CmdLine in
/-- For every command line `get_argv_string` returns, and everything it leaves is right exactly if the words are
separated by single spaces. -/
theorem get_argv_string_parses_iff (line : CmdLine) {mem : BitVec 32 → BitVec 8} {uargv : BitVec 32}
    (h : StringAt mem uargv line.bytes) (ptr : Nat → BitVec 32) :
    ∃ r, (∀ fuel, line.bytes.length < fuel → getArgvString mem fuel uargv ptr = some r) ∧
      (line.Parsed r ↔ ∀ a ∈ line.rest, a.spaces = 1) := by
  refine ⟨_, fun fuel hf => getArgvString_line h hf, ?_⟩
  rw [← spare_eq_zero_iff, copied_narg]
  have hptr : ∀ i < line.words.length, update (line.copied uargv ptr).ptr line.words.length 0 i =
      userStackTop + 1024 + BitVec.ofNat 32 (4 * (line.words.length + 1)) +
        BitVec.ofNat 32 (line.offset i + line.spare i) :=
    fun i hi => (update_of_ne hi.ne ..).trans (copied_ptr hi)
  constructor
  · intro hp i hi
    exact (ptr_eq_iff h hi _).mp ((hptr i hi).symm.trans (hp.ptr i hi))
  · intro hs
    refine ⟨rfl, copied_argv, fun i hi => ?_, update_self ..⟩
    exact (hptr i hi).trans ((ptr_eq_iff h hi _).mpr (hs i hi))

/-- The bytes of a memory from address 0 on. -/
def memOf (l : List (BitVec 8)) (p : BitVec 32) : BitVec 8 := l.getD p.toNat 0

def letter (b : BitVec 8) (h : b ≠ 0 ∧ b ≠ space) : ArgWord := ⟨[b], by simp, by simpa using h⟩

/-- The command line `a b`, with `spaces` spaces. -/
def twoLetters (spaces : Nat) (h : 0 < spaces) : CmdLine :=
  ⟨letter 0x61 (by decide), [⟨spaces, letter 0x62 (by decide), h⟩]⟩

theorem get_argv_string_parses_iff_single :
    ∃ r, getArgvString (memOf [0x61, 0x20, 0x62]) 4 0 (fun _ => 0) = some r ∧ r.argv = [0x61, 0, 0x62, 0] ∧
      r.ptr 1 = userStackTop + 1024 + 12 + 2 := by
  have h : StringAt (memOf [0x61, 0x20, 0x62]) 0 (twoLetters 1 (by decide)).bytes :=
    ⟨by decide, by decide, by decide, rfl⟩
  obtain ⟨r, hr, hiff⟩ := get_argv_string_parses_iff _ h fun _ => 0
  have hp := hiff.mpr (by simp [twoLetters])
  exact ⟨r, hr 4 (by decide), hp.argv, hp.ptr 1 (by decide)⟩

/-- With two spaces the second word is at the offset 2 of the buffer, but its address is that of the offset 3, where
there is the zero behind it. -/
theorem get_argv_string_two_spaces :
    StringAt (memOf [0x61, 0x20, 0x20, 0x62]) 0 (twoLetters 2 (by decide)).bytes ∧
    ∃ r, getArgvString (memOf [0x61, 0x20, 0x20, 0x62]) 5 0 (fun _ => 0) = some r ∧
      r.argc = 2 ∧ r.argv = [0x61, 0, 0x62, 0] ∧ (twoLetters 2 (by decide)).offset 1 = 2 ∧
      r.ptr 1 = userStackTop + 1024 + 12 + 3 ∧ ¬ (twoLetters 2 (by decide)).Parsed r := by
  refine ⟨⟨by decide, by decide, by decide, by decide, rfl⟩, _, rfl, by decide, by decide, by decide, by decide, ?_⟩
  intro hp
  exact absurd (hp.ptr 1 (by decide)) (by decide)

end Manrix
