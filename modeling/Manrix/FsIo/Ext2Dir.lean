import Mathlib.Data.BitVec
import Manrix.Lib.Wildcard

/-!
# Names in a directory (`servers/fs-io/fs/ext2fs/ext2dir.c`)

`check_name` compares the name of an entry with a pattern.  A `*` makes it go to the next `.` in the pattern and to the
next `.` in the name, and it takes the name for a match when the pattern has none, or when the name has none up to the
length of the pattern; the pattern before the `*` is compared without regard to the length of the name.  So it knows
what a pattern without a `*` matches, and of the others only those that say no more than what the first letter is.
-/

namespace Manrix

open Wildcard

def question : BitVec 8 := 0x3F

def asterisk : BitVec 8 := 0x2A

def dot : BitVec 8 := 0x2E

/-- How `check_name` ends: with a result, or with a read of `src` behind its terminator. -/
inductive NameEnd where
  | overread
  | ret (r : Int)
  deriving DecidableEq

/-- The first loop behind a `*`, over the bytes of `src` from `i` on. -/
def skipSrc : List (BitVec 8) → Nat → Except NameEnd Nat
  | [], _ => .error .overread
  | c :: rest, i =>
    if c = dot then .ok i
    else if c = 0 then .error (.ret 0)
    else skipSrc rest (i + 1)

/-- The second loop, over the bytes of `src` and `dest` from `j` on; the end of `dest` is sought in `src`. -/
def skipDest (dest : Nat → BitVec 8) : List (BitVec 8) → Nat → Except NameEnd Nat
  | [], j => if dest j = dot then .ok j else .error .overread
  | c :: rest, j =>
    if dest j = dot then .ok j
    else if c = 0 then .error (.ret 0)
    else skipDest dest rest (j + 1)

/-- Both loops. -/
def skipStar (dest : Nat → BitVec 8) (src : List (BitVec 8)) (i j : Nat) : Except NameEnd (Nat × Nat) := do
  let i ← skipSrc ((src ++ [0]).drop i) i
  let j ← skipDest dest ((src ++ [0]).drop j) j
  return (i, j)

/-- The loop of `check_name`, which has the result `i`, with the rounds that are left until `i` is `srclen`. -/
def nameLoop (dest : Nat → BitVec 8) (src : List (BitVec 8)) : Nat → Nat → Nat → Except NameEnd Nat
  | 0, i, _ => .ok i
  | n + 1, i, j =>
    match src[i]? with
    | none => .ok i
    | some c =>
      if c = question then nameLoop dest src n (i + 1) (j + 1)
      else do
        let (i, j) ← if c = asterisk then skipStar dest src i j else .ok (i, j)
        if (src ++ [0])[i]? ≠ some (dest j) then .error (.ret 1)
        else nameLoop dest src n (i + 1) (j + 1)

/-- `check_name`; `src` is the pattern without its terminator, `dest` has the bytes of the name and those behind it. -/
def checkName (dest : Nat → BitVec 8) (nlen : Nat) (src : List (BitVec 8)) : NameEnd :=
  match nameLoop dest src src.length 0 0 with
  | .error e => e
  | .ok i => if i ≠ nlen then .ret 1 else .ret 0

def pieceOf (c : BitVec 8) : Piece (BitVec 8) :=
  if c = question then .one else if c = asterisk then .many else .lit c

/-- The bytes of `dest` from `j` on. -/
def bytesFrom (dest : Nat → BitVec 8) (j n : Nat) : List (BitVec 8) := (List.range' j n).map dest

/-- A name of an entry. -/
structure IsName (dest : Nat → BitVec 8) (nlen : Nat) : Prop where
  pos : 1 ≤ nlen
  le : nlen ≤ 255
  nonzero : ∀ k < nlen, dest k ≠ 0

/-- The result is 0 for a match and for nothing else, and nothing behind the pattern is read. -/
def ChecksName (dest : Nat → BitVec 8) (nlen : Nat) (src : List (BitVec 8)) : Prop :=
  ∃ r, checkName dest nlen src = .ret r ∧ (r = 0 ↔ bytesFrom dest 0 nlen ∈ language (src.map pieceOf))

def unstarred (src : List (BitVec 8)) : List (BitVec 8) := src.filter (· ≠ asterisk)

/-- There is no `*`; or there is at most one other letter, which is a `?` or the first one. -/
def Checkable (src : List (BitVec 8)) : Prop :=
  asterisk ∉ src ∨ unstarred src = [] ∨ ∃ c, unstarred src = [c] ∧ (c = question ∨ src.head? = some c)

section

variable {dest : Nat → BitVec 8} {src pre post : List (BitVec 8)} {c : BitVec 8} {i j n : Nat}

@[simp] theorem pieceOf_question : pieceOf question = .one := rfl

@[simp] theorem pieceOf_star : pieceOf asterisk = .many := rfl

private theorem pieceOf_lit (hq : c ≠ question) (hs : c ≠ asterisk) : pieceOf c = .lit c := by
  rw [pieceOf, if_neg hq, if_neg hs]

private theorem pieceOf_eq_many : pieceOf c = .many ↔ c = asterisk := by
  constructor
  · intro h
    by_contra hs
    by_cases hq : c = question
    · rw [hq] at h
      cases h
    · rw [pieceOf_lit hq hs] at h
      cases h
  · rintro rfl
    rfl

private theorem mem_unstarred : c ∈ unstarred src ↔ c ∈ src ∧ c ≠ asterisk := by
  rw [unstarred, List.mem_filter, decide_eq_true_iff]

private theorem unstarred_cons (hs : c ≠ asterisk) : unstarred (c :: src) = c :: unstarred src :=
  List.filter_cons_of_pos (decide_eq_true hs)

private theorem unstarred_eq_nil (h : unstarred src = []) (hc : c ∈ src) : c = asterisk := by
  by_contra hs
  have hmem := mem_unstarred.2 ⟨hc, hs⟩
  rw [h] at hmem
  cases hmem

private theorem unstarred_append (hsrc : src = pre ++ asterisk :: post) (hs : asterisk ∉ pre) :
    unstarred src = pre ++ unstarred post := by
  have hpre : unstarred pre = pre :=
    List.filter_eq_self.2 fun c hc => decide_eq_true (ne_of_mem_of_not_mem hc hs)
  have hpost : unstarred (asterisk :: post) = unstarred post := List.filter_cons_of_neg (by simp)
  rw [hsrc, unstarred, List.filter_append]
  exact congrArg₂ _ hpre hpost

private theorem singles_map (src : List (BitVec 8)) : singles (src.map pieceOf) = (unstarred src).length := by
  rw [singles, List.countP_map, unstarred, ← List.countP_eq_length_filter]
  refine List.countP_congr fun c _ => ?_
  simp [pieceOf_eq_many]

/-- The pattern agrees with the bytes of `dest` from `j` on. -/
def Agrees (dest : Nat → BitVec 8) : Nat → List (BitVec 8) → Prop
  | _, [] => True
  | j, c :: rest => (c = question ∨ c = dest j) ∧ Agrees dest (j + 1) rest

instance decidableAgrees (dest : Nat → BitVec 8) : ∀ j src, Decidable (Agrees dest j src)
  | _, [] => inferInstanceAs (Decidable True)
  | j, _ :: rest =>
    have := decidableAgrees dest (j + 1) rest
    inferInstanceAs (Decidable (_ ∧ _))

private theorem bytesFrom_mem_iff (dest : Nat → BitVec 8) (j n : Nat) (hs : asterisk ∉ src) :
    bytesFrom dest j n ∈ language (src.map pieceOf) ↔ src.length = n ∧ Agrees dest j src := by
  induction src generalizing j n with
  | nil =>
    cases n with
    | zero => exact iff_of_true (mem_nil.2 rfl) ⟨rfl, trivial⟩
    | succ n => exact iff_of_false (fun h => by cases mem_nil.1 h) (fun h => by cases h.1)
  | cons c src ih =>
    rw [List.mem_cons, not_or] at hs
    rw [List.map_cons]
    cases n with
    | zero =>
      refine iff_of_false (fun h => ?_) (fun h => by cases h.1)
      have hlen := singles_le_length h
      rw [← List.map_cons, singles_map, unstarred_cons (Ne.symm hs.1)] at hlen
      cases hlen
    | succ n =>
      have hw : bytesFrom dest j (n + 1) = dest j :: bytesFrom dest (j + 1) n := rfl
      rw [hw, List.length_cons, Nat.add_right_cancel_iff, Agrees, and_left_comm, ← ih (j + 1) n hs.2]
      by_cases hq : c = question
      · rw [hq, pieceOf_question, mem_one_cons]
        simp
      · rw [pieceOf_lit hq (Ne.symm hs.1), mem_lit_cons]
        simp [hq, eq_comm]

private theorem nameLoop_succ (hc : src[i]? = some c) (hs : c ≠ asterisk) : nameLoop dest src (n + 1) i j =
    if c = question ∨ c = dest j then nameLoop dest src n (i + 1) (j + 1) else .error (.ret 1) := by
  have hi : i < src.length := (List.getElem?_eq_some_iff.1 hc).1
  simp only [nameLoop, hc, if_neg hs]
  by_cases hq : c = question
  · rw [if_pos hq, if_pos (.inl hq)]
  · have hc' : (src ++ [0])[i]? = some c := by rw [List.getElem?_append_left hi, hc]
    rw [if_neg hq]
    change (if (src ++ [0])[i]? ≠ some (dest j) then _ else _) = _
    rw [hc']
    by_cases hd : c = dest j
    · rw [if_neg (by simp [hd]), if_pos (.inr hd)]
    · rw [if_pos (by simpa using hd), if_neg (by simp [hq, hd])]

private theorem nameLoop_append (dest : Nat → BitVec 8) (n : Nat) (done : List (BitVec 8))
    (hsrc : src = done ++ pre ++ post)
    (hs : asterisk ∉ pre) : nameLoop dest src (pre.length + n) done.length done.length =
      if Agrees dest done.length pre then nameLoop dest src n (done ++ pre).length (done ++ pre).length
      else .error (.ret 1) := by
  induction pre generalizing done with
  | nil => rw [List.append_nil, List.length_nil, Nat.zero_add, if_pos (show Agrees dest _ [] from trivial)]
  | cons c pre ih =>
    rw [List.mem_cons, not_or] at hs
    have hc : src[done.length]? = some c := by simp [hsrc]
    have hnext := ih (done ++ [c]) (by simp [hsrc]) hs.2
    rw [List.append_assoc, List.length_append, List.length_singleton] at hnext
    rw [List.length_cons, Nat.add_right_comm, nameLoop_succ hc (Ne.symm hs.1), hnext, ← ite_and]
    rfl

private theorem skipSrc_of_notMem (h0 : (0 : BitVec 8) ∉ src) (hd : dot ∉ src) (i : Nat) :
    skipSrc (src ++ [0]) i = .error (.ret 0) := by
  induction src generalizing i with
  | nil => rfl
  | cons c src ih =>
    rw [List.mem_cons, not_or] at h0 hd
    rw [List.cons_append, skipSrc, if_neg (Ne.symm hd.1), if_neg (Ne.symm h0.1)]
    exact ih h0.2 hd.2 (i + 1)

private theorem skipSrc_of_mem (h0 : (0 : BitVec 8) ∉ src) (hd : dot ∈ src) (i : Nat) :
    ∃ k, skipSrc (src ++ [0]) i = .ok k := by
  induction src generalizing i with
  | nil => cases hd
  | cons c src ih =>
    rw [List.mem_cons, not_or] at h0
    rw [List.cons_append, skipSrc]
    by_cases hc : c = dot
    · exact ⟨i, if_pos hc⟩
    · rw [if_neg hc, if_neg (Ne.symm h0.1)]
      exact ih h0.2 ((List.mem_cons.1 hd).resolve_left (Ne.symm hc)) (i + 1)

private theorem skipDest_of_ne (h0 : (0 : BitVec 8) ∉ src) (hd : ∀ k, j ≤ k → dest k ≠ dot) :
    skipDest dest (src ++ [0]) j = .error (.ret 0) := by
  induction src generalizing j with
  | nil => exact if_neg (hd j (Nat.le_refl j))
  | cons c src ih =>
    rw [List.mem_cons, not_or] at h0
    rw [List.cons_append, skipDest, if_neg (hd j (Nat.le_refl j)), if_neg (Ne.symm h0.1)]
    exact ih h0.2 fun k hk => hd k (Nat.le_of_succ_le hk)

private theorem nameLoop_star (hsrc : src = pre ++ asterisk :: post) (h0 : (0 : BitVec 8) ∉ src)
    (hd : dot ∉ post ∨ ∀ k, pre.length ≤ k → dest k ≠ dot) :
    nameLoop dest src (n + 1) pre.length pre.length = .error (.ret 0) := by
  have hc : src[pre.length]? = some asterisk := by simp [hsrc]
  have hdrop : (src ++ [0]).drop pre.length = (asterisk :: post) ++ [0] := by
    rw [hsrc, List.append_assoc, List.drop_left]
  have h0' : (0 : BitVec 8) ∉ asterisk :: post := fun h => h0 (hsrc ▸ List.mem_append_right pre h)
  have hskip : skipStar dest src pre.length pre.length = .error (.ret 0) := by
    rw [skipStar, hdrop]
    by_cases hp : dot ∈ post
    · obtain ⟨k, hk⟩ := skipSrc_of_mem h0' (List.mem_cons_of_mem asterisk hp) pre.length
      rw [hk, skipDest_of_ne h0' (hd.resolve_left (not_not.2 hp))]
      rfl
    · rw [skipSrc_of_notMem h0' (by simpa using ⟨by decide, hp⟩)]
      rfl
  rw [nameLoop, hc]
  change (do let (i, j) ← (skipStar dest src pre.length pre.length); _) = _
  rw [hskip]
  rfl

variable {nlen : Nat} {d : BitVec 8}

theorem checkName_of_notMem (dest : Nat → BitVec 8) (nlen : Nat) (hs : asterisk ∉ src) :
    checkName dest nlen src = if src.length = nlen ∧ Agrees dest 0 src then .ret 0 else .ret 1 := by
  have hloop := nameLoop_append dest 0 [] (List.append_nil src).symm hs
  rw [List.length_nil, Nat.add_zero] at hloop
  rw [checkName, hloop, List.nil_append]
  by_cases ha : Agrees dest 0 src
  · simp only [if_pos ha, nameLoop]
    by_cases hl : src.length = nlen
    · rw [if_neg (not_not.2 hl), if_pos ⟨hl, ha⟩]
    · rw [if_pos hl, if_neg (fun h => hl h.1)]
  · rw [if_neg ha, if_neg (fun h => ha h.2)]

private theorem checkName_of_star (nlen : Nat) (hsrc : src = pre ++ asterisk :: post) (h0 : (0 : BitVec 8) ∉ src)
    (hs : asterisk ∉ pre) (hd : dot ∉ post ∨ ∀ k, pre.length ≤ k → dest k ≠ dot) :
    checkName dest nlen src = if Agrees dest 0 pre then .ret 0 else .ret 1 := by
  have hlen : src.length = pre.length + (post.length + 1) := by simp [hsrc]
  have hloop := nameLoop_append dest (post.length + 1) [] hsrc hs
  rw [← hlen, List.length_nil, List.nil_append, nameLoop_star hsrc h0 hd] at hloop
  rw [checkName, hloop]
  by_cases ha : Agrees dest 0 pre
  · rw [if_pos ha, if_pos ha]
  · rw [if_neg ha, if_neg ha]

private theorem lit_notMem (hq : ∀ c ∈ src, c = asterisk ∨ c = question) (b : BitVec 8) : .lit b ∉ src.map pieceOf := by
  intro hb
  obtain ⟨c, hc, he⟩ := List.mem_map.1 hb
  rcases hq c hc with rfl | rfl <;> cases he

private theorem checksName_of_star (hname : IsName dest nlen) (h0 : (0 : BitVec 8) ∉ src)
    (hsrc : src = asterisk :: post)
    (hq : ∀ c ∈ post, c = asterisk ∨ c = question) (hlen : (unstarred post).length ≤ 1) : ChecksName dest nlen src := by
  have hdot : dot ∉ post := fun h => by rcases hq dot h with h | h <;> exact absurd h (by decide)
  refine ⟨0, ?_, iff_of_true rfl ?_⟩
  · rw [checkName_of_star nlen (show src = [] ++ asterisk :: post from hsrc) h0 List.not_mem_nil (.inl hdot)]
    exact if_pos trivial
  · rw [hsrc, List.map_cons, pieceOf_star]
    refine mem_many_cons_of_length (lit_notMem hq) ?_
    rw [singles_map, bytesFrom, List.length_map, List.length_range']
    exact Nat.le_trans hlen hname.pos

private theorem checksName_of_letter (hname : IsName dest nlen) (h0 : (0 : BitVec 8) ∉ src) (hc : c ≠ asterisk)
    (hsrc : src = c :: asterisk :: post) (hpost : unstarred post = []) : ChecksName dest nlen src := by
  have hdot : dot ∉ post := fun h => absurd (unstarred_eq_nil hpost h) (by decide)
  have hall : ∀ w, w ∈ language (.many :: post.map pieceOf) := by
    refine fun w => mem_many_cons_of_length (lit_notMem fun c hc => .inl (unstarred_eq_nil hpost hc)) ?_
    rw [singles_map, hpost]
    exact Nat.zero_le _
  obtain ⟨m, rfl⟩ := Nat.exists_eq_add_of_le' hname.pos
  have hw : bytesFrom dest 0 (m + 1) = dest 0 :: bytesFrom dest 1 m := rfl
  have hmem : bytesFrom dest 0 (m + 1) ∈ language (src.map pieceOf) ↔ c = question ∨ c = dest 0 := by
    rw [hsrc, List.map_cons, List.map_cons, pieceOf_star, hw]
    by_cases hq : c = question
    · rw [hq, pieceOf_question, mem_one_cons]
      simpa using hall _
    · rw [pieceOf_lit hq hc, mem_lit_cons]
      simp [hq, hall, eq_comm]
  have hag : Agrees dest 0 [c] ↔ c = question ∨ c = dest 0 := and_iff_left trivial
  have hcheck : checkName dest (m + 1) src = if Agrees dest 0 [c] then .ret 0 else .ret 1 :=
    checkName_of_star (m + 1) hsrc h0 (by simpa using hc.symm) (.inl hdot)
  by_cases ha : Agrees dest 0 [c]
  · rw [if_pos ha] at hcheck
    exact ⟨0, hcheck, iff_of_true rfl (hmem.2 (hag.1 ha))⟩
  · rw [if_neg ha] at hcheck
    exact ⟨1, hcheck, iff_of_false (by decide) fun h => ha (hag.2 (hmem.1 h))⟩

theorem Checkable.checksName (h : Checkable src) (h0 : (0 : BitVec 8) ∉ src) (hname : IsName dest nlen) :
    ChecksName dest nlen src := by
  by_cases hs : asterisk ∈ src
  · obtain ⟨pre, post, hsrc, hpre⟩ := List.eq_append_cons_of_mem hs
    have hletters := unstarred_append hsrc hpre
    rcases h.resolve_left (not_not.2 hs) with h | ⟨c, h, hc⟩
    · rw [hletters, List.append_eq_nil_iff] at h
      obtain ⟨rfl, hpost⟩ := h
      refine checksName_of_star hname h0 hsrc (fun c hc => .inl (unstarred_eq_nil hpost hc)) ?_
      rw [hpost]
      exact Nat.zero_le 1
    · have hcs : c ≠ asterisk := (mem_unstarred.1 (h ▸ List.mem_singleton.2 rfl)).2
      rw [hletters] at h
      cases pre with
      | nil =>
        rw [List.nil_append] at h
        have hcq : c = question := hc.resolve_right (by simpa [hsrc] using hcs.symm)
        refine checksName_of_star hname h0 hsrc (fun b hb => ?_) (by rw [h, List.length_singleton])
        by_cases hbs : b = asterisk
        · exact .inl hbs
        · have hmem := mem_unstarred.2 ⟨hb, hbs⟩
          rw [h, List.mem_singleton] at hmem
          exact .inr (hmem.trans hcq)
      | cons b pre =>
        rw [List.cons_append, List.cons.injEq, List.append_eq_nil_iff] at h
        obtain ⟨rfl, rfl, hpost⟩ := h
        exact checksName_of_letter hname h0 hcs hsrc hpost
  · have hmem := bytesFrom_mem_iff dest 0 nlen hs
    have hcheck := checkName_of_notMem dest nlen hs
    by_cases hm : src.length = nlen ∧ Agrees dest 0 src
    · rw [if_pos hm] at hcheck
      exact ⟨0, hcheck, iff_of_true rfl (hmem.2 hm)⟩
    · rw [if_neg hm] at hcheck
      exact ⟨1, hcheck, iff_of_false (by decide) fun h => hm (hmem.1 h)⟩

/-- A name that begins like the pattern, with `d` everywhere else. -/
def nameLike (pre : List (BitVec 8)) (d : BitVec 8) (k : Nat) : BitVec 8 :=
  match pre[k]? with
  | none => d
  | some c => if c = question then d else c

private theorem agrees_of_get (h : ∀ k c, pre[k]? = some c → c = question ∨ c = dest (j + k)) : Agrees dest j pre := by
  induction pre generalizing j with
  | nil => trivial
  | cons c pre ih =>
    refine ⟨h 0 c rfl, ih fun k b hk => ?_⟩
    rw [Nat.add_assoc, Nat.add_comm 1 k]
    exact h (k + 1) b hk

private theorem nameLike_agrees (pre : List (BitVec 8)) (d : BitVec 8) : Agrees (nameLike pre d) 0 pre := by
  refine agrees_of_get fun k c hk => ?_
  rw [Nat.zero_add, nameLike, hk]
  by_cases hq : c = question
  · exact .inl hq
  · exact .inr (if_neg hq).symm

private theorem nameLike_ne_zero (hd : d ≠ 0) (h0 : (0 : BitVec 8) ∉ pre) (k : Nat) : nameLike pre d k ≠ 0 := by
  unfold nameLike
  split
  · exact hd
  · rename_i c hk
    split
    · exact hd
    · exact ne_of_mem_of_not_mem (List.mem_of_getElem? hk) h0

private theorem nameLike_of_le {k : Nat} (hk : pre.length ≤ k) : nameLike pre d k = d := by
  rw [nameLike, List.getElem?_eq_none hk]

private theorem mem_of_checksName (hsrc : src = pre ++ asterisk :: post) (h0 : (0 : BitVec 8) ∉ src)
    (hs : asterisk ∉ pre) (hd : d ≠ dot) (hd0 : d ≠ 0) (h : ∀ dest nlen, IsName dest nlen → ChecksName dest nlen src) :
    [nameLike pre d 0] ∈ language (src.map pieceOf) := by
  have h0' : (0 : BitVec 8) ∉ pre := fun hm => h0 (hsrc ▸ List.mem_append_left _ hm)
  obtain ⟨r, hr, hmem⟩ := h (nameLike pre d) 1 ⟨Nat.le_refl 1, by decide, fun k _ => nameLike_ne_zero hd0 h0' k⟩
  rw [checkName_of_star 1 hsrc h0 hs (.inr fun k hk => (nameLike_of_le hk).symm ▸ hd), if_pos (nameLike_agrees pre d),
    NameEnd.ret.injEq] at hr
  exact hmem.1 hr.symm

private theorem checkable_of_checksName (h0 : (0 : BitVec 8) ∉ src)
    (h : ∀ dest nlen, IsName dest nlen → ChecksName dest nlen src) : Checkable src := by
  by_cases hs : asterisk ∈ src
  · obtain ⟨pre, post, hsrc, hpre⟩ := List.eq_append_cons_of_mem hs
    have hmem := fun d => @mem_of_checksName src pre post d hsrc h0 hpre
    have hlen : (unstarred src).length ≤ 1 := by
      rw [← singles_map]
      exact singles_le_length (hmem 0x61 (by decide) (by decide) h)
    rcases hl : unstarred src with _ | ⟨c, rest⟩
    · exact .inr (.inl hl)
    · rw [hl, List.length_cons] at hlen
      obtain rfl : rest = [] := List.length_eq_zero_iff.1 (by omega)
      refine .inr (.inr ⟨c, hl, ?_⟩)
      rw [unstarred_append hsrc hpre] at hl
      cases pre with
      | nil =>
        -- a letter behind the star has to be that of every name of one letter
        by_contra hc
        rw [not_or] at hc
        rw [List.nil_append] at hl
        obtain ⟨hcp, hcs⟩ := mem_unstarred.1 (hl ▸ List.mem_singleton.2 rfl : c ∈ unstarred post)
        have hlit : .lit c ∈ src.map pieceOf := by
          rw [← pieceOf_lit hc.1 hcs, hsrc]
          exact List.mem_map_of_mem (List.mem_cons_of_mem asterisk hcp)
        have ha := List.mem_singleton.1 (mem_of_lit (hmem 0x61 (by decide) (by decide) h) hlit)
        have hb := List.mem_singleton.1 (mem_of_lit (hmem 0x62 (by decide) (by decide) h) hlit)
        exact absurd (ha.symm.trans hb) (by decide)
      | cons b pre =>
        rw [List.cons_append, List.cons.injEq] at hl
        rw [hsrc, ← hl.1]
        exact .inr rfl
  · exact .inl hs

/-- `check_name` is right about all names exactly for the patterns that have no `*`, or apart from stars at most one
letter, which is a `?` or the first one. -/
theorem check_name_iff (h0 : (0 : BitVec 8) ∉ src) :
    (∀ dest nlen, IsName dest nlen → ChecksName dest nlen src) ↔ Checkable src :=
  ⟨checkable_of_checksName h0, fun h _ _ hname => h.checksName h0 hname⟩

/-- The pattern `a*`. -/
theorem check_name_a_star : Checkable [0x61, asterisk] ∧
    ∀ dest nlen, IsName dest nlen → ChecksName dest nlen [0x61, asterisk] := by
  have hc : Checkable [0x61, asterisk] := .inr (.inr ⟨0x61, rfl, .inr rfl⟩)
  exact ⟨hc, (check_name_iff (by decide)).2 hc⟩

/-- The pattern `*a` is taken to match the name `b`; and with the pattern `*.*.` and the name `aaaa.b` the byte behind
the terminator of the pattern is read. -/
theorem check_name_star_a : checkName (fun _ => 0x62) 1 [asterisk, 0x61] = .ret 0 ∧
    bytesFrom (fun _ => 0x62) 0 1 ∉ language ([asterisk, 0x61].map pieceOf) ∧
    checkName (fun k => if k = 4 then dot else if k = 5 then 0x62 else 0x61) 6 [asterisk, dot, asterisk, dot] =
      .overread := by
  refine ⟨by decide, fun h => ?_, by decide⟩
  have hmem : (0x61 : BitVec 8) ∈ bytesFrom (fun _ => 0x62) 0 1 := mem_of_lit h (by decide)
  exact absurd hmem (by decide)

end

end Manrix
