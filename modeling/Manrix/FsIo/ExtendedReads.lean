import Manrix.FsIo.Partition

/-!
# `read_extended` on any disk

The loop of `read_extended` does not look at what `readsect` returns and goes on as long as the boot record in its
buffer names a next one.  Here a read may fail at any time and leave anything in the buffer, and the sectors read and
the places of the array written are recorded; the test of `index` behind each read ends the loop in all cases.
-/

namespace Manrix

open List

/-- `readsect` with its outcomes: the number of the call, the sector and what is in the buffer before it give what is
returned and what is in the buffer then. -/
abbrev SectReads := Nat → BitVec 32 → Mbr → Int × Mbr

/-- The variables of `read_extended`, the sectors that were read and the places of `pinfo` that were written. -/
structure ExtTrace extends ExtState where
  reads : List (BitVec 32)
  writes : List Nat

/-- The body of the loop. -/
def ExtTrace.next (readsect : SectReads) (ebrBase : BitVec 32) (t : ExtTrace) : ExtTrace :=
  let p1 := t.ebr.part 1
  let nextPart := p1.relativeSectors + ebrBase
  { pinfo := t.store ebrBase
    index := t.index + 1
    ebr := (readsect t.reads.length nextPart t.ebr).2
    ebr2 := p1.relativeSectors
    reads := t.reads ++ [nextPart]
    writes := t.writes ++ [t.index] }

/-- The loop, with no result when it takes more than `fuel` rounds. -/
def extendedRounds (readsect : SectReads) (ebrBase : BitVec 32) : Nat → ExtTrace → Option ExtTrace
  | 0, _ => none
  | fuel + 1, t =>
    let t := t.next readsect ebrBase
    if t.index ≥ 255 then some t
    else if (t.ebr.part 1).systemId ≠ 0 then extendedRounds readsect ebrBase fuel t
    else some t

/-- The last place is written behind the loop. -/
def ExtTrace.close (ebrBase : BitVec 32) (t : ExtTrace) : ExtTrace :=
  { t with pinfo := t.store ebrBase, writes := t.writes ++ [t.index] }

/-- `read_extended`, with what is in the buffer before the first read. -/
def readExtendedFrom (readsect : SectReads) (fuel : Nat) (p : Partition) (ebr : Mbr) (pinfo : Nat → PartitionInfo) :
    Option (ExtTrace × Int) :=
  let ebrBase := p.relativeSectors
  let (ret, ebr) := readsect 0 ebrBase ebr
  let t := { pinfo, index := 5, ebr, ebr2 := 0, reads := [ebrBase], writes := [] }
  if ret < 0 then some (t, ret)
  else (extendedRounds readsect ebrBase fuel t).map fun t => (t.close ebrBase, t.index + 1)

def steadyReads (readsect : ReadSect) : SectReads := fun _ lba ebr =>
  match readsect lba with
  | .error ret => (ret, ebr)
  | .ok ebr => (0, ebr)

section

variable {rs : ReadSect} {readsect : SectReads} {ebrBase : BitVec 32} {pinfo : Nat → PartitionInfo} {t : ExtTrace}
  {fuel : Nat}

private theorem steadyReads_snd (rs : ReadSect) (k : Nat) (lba : BitVec 32) (ebr : Mbr) :
    (steadyReads rs k lba ebr).2 = (rs lba).toOption.getD ebr := by
  unfold steadyReads
  cases rs lba <;> rfl

private theorem next_steady (rs : ReadSect) (ebrBase : BitVec 32) (t : ExtTrace) :
    (t.next (steadyReads rs) ebrBase).toExtState = t.toExtState.round rs ebrBase := by
  simp only [ExtTrace.next, ExtState.round, steadyReads_snd]

private theorem extendedRounds_steady (hn : t.index + fuel = 255) (hpos : 0 < fuel) :
    ∃ t', extendedRounds (steadyReads rs) ebrBase fuel t = some t' ∧
      t'.toExtState = extendedLoop rs ebrBase fuel t.toExtState := by
  induction fuel generalizing t with
  | zero => exact absurd hpos (Nat.lt_irrefl 0)
  | succ fuel ih =>
    have hround := next_steady rs ebrBase t
    have hindex : (t.next (steadyReads rs) ebrBase).index = t.index + 1 := rfl
    unfold extendedRounds extendedLoop
    dsimp only
    rw [← hround]
    split
    · exact ⟨_, rfl, rfl⟩
    · split
      · exact ih (by omega) (by omega)
      · exact ⟨_, rfl, rfl⟩

theorem readExtendedFrom_steady {p : Partition} (he : ∀ ret, rs p.relativeSectors = .error ret → ret < 0) (ebr : Mbr)
    (pinfo : Nat → PartitionInfo) : ∃ t r, readExtendedFrom (steadyReads rs) 250 p ebr pinfo = some (t, r) ∧
      (t.pinfo, r) = readExtended rs p pinfo := by
  unfold readExtendedFrom readExtended steadyReads
  dsimp only
  cases hrs : rs p.relativeSectors with
  | error ret =>
    dsimp only
    rw [if_pos (he ret hrs)]
    exact ⟨_, _, rfl, rfl⟩
  | ok ebr =>
    obtain ⟨t', ht', hloop⟩ := @extendedRounds_steady rs p.relativeSectors
      ⟨⟨pinfo, 5, ebr, 0⟩, [p.relativeSectors], []⟩ 250 rfl (by decide)
    dsimp only
    rw [if_neg (by decide)]
    refine ⟨t'.close p.relativeSectors, t'.index + 1, ?_, ?_⟩
    · exact congrArg (Option.map _) ht'
    · rw [← hloop]
      rfl

/-- One sector has been read for each place of `pinfo` from 5 up to `index`, and another one in front; those before
`index` are written, the others are as they were. -/
structure ExtTrace.Counted (pinfo : Nat → PartitionInfo) (t : ExtTrace) : Prop where
  ge : 5 ≤ t.index
  reads : t.reads.length = t.index - 4
  writes : t.writes = List.range' 5 (t.index - 5)
  kept : ∀ i ∉ t.writes, t.pinfo i = pinfo i

theorem ExtTrace.Counted.writes_concat (h : t.Counted pinfo) : t.writes ++ [t.index] = List.range' 5 (t.index - 4) := by
  obtain ⟨k, hk⟩ := Nat.exists_eq_add_of_le h.ge
  rw [h.writes, hk, Nat.add_sub_cancel_left, show 5 + k - 4 = k + 1 by omega, List.range'_1_concat]

theorem ExtTrace.Counted.store_kept (h : t.Counted pinfo) (ebrBase : BitVec 32) {i : Nat}
    (hi : i ∉ t.writes ++ [t.index]) : t.store ebrBase i = pinfo i := by
  rw [mem_append, mem_singleton, not_or] at hi
  exact (Function.update_of_ne hi.2 _ _).trans (h.kept i hi.1)

theorem ExtTrace.Counted.next (h : t.Counted pinfo) (readsect : SectReads) (ebrBase : BitVec 32) :
    (t.next readsect ebrBase).Counted pinfo where
  ge := Nat.le_succ_of_le h.ge
  reads := by
    have hge := h.ge
    have hreads := h.reads
    change (t.reads ++ [_]).length = t.index + 1 - 4
    rw [length_append, length_singleton]
    omega
  writes := by
    have hge := h.ge
    change t.writes ++ [t.index] = List.range' 5 (t.index + 1 - 5)
    rw [h.writes_concat]
    congr 1
  kept _ hi := h.store_kept ebrBase hi

private theorem extendedRounds_counted (readsect : SectReads) (ebrBase : BitVec 32) (h : t.Counted pinfo) {n : Nat}
    (hn : t.index + n = 255) (hpos : 0 < n) : ∃ t', t'.Counted pinfo ∧ t.index < t'.index ∧ t'.index ≤ 255 ∧
      ∀ fuel, n ≤ fuel → extendedRounds readsect ebrBase fuel t = some t' := by
  induction n generalizing t with
  | zero => exact absurd hpos (Nat.lt_irrefl 0)
  | succ n ih =>
    have hnext := h.next readsect ebrBase
    have hindex : (t.next readsect ebrBase).index = t.index + 1 := rfl
    by_cases hfull : (t.next readsect ebrBase).index ≥ 255
    · refine ⟨t.next readsect ebrBase, hnext, by omega, by omega, fun fuel hf => ?_⟩
      obtain ⟨fuel, rfl⟩ := Nat.exists_eq_add_of_le' (Nat.le_trans (Nat.succ_pos n) hf)
      exact if_pos hfull
    · by_cases hs : ((t.next readsect ebrBase).ebr.part 1).systemId ≠ 0
      · obtain ⟨t', hc, hgt, hle, hrounds⟩ := ih hnext (by omega) (by omega)
        refine ⟨t', hc, by omega, hle, fun fuel hf => ?_⟩
        obtain ⟨fuel, rfl⟩ := Nat.exists_eq_add_of_le' (Nat.le_trans (Nat.succ_pos n) hf)
        exact (if_neg hfull).trans ((if_pos hs).trans (hrounds fuel (Nat.le_of_succ_le_succ hf)))
      · refine ⟨t.next readsect ebrBase, hnext, by omega, by omega, fun fuel hf => ?_⟩
        obtain ⟨fuel, rfl⟩ := Nat.exists_eq_add_of_le' (Nat.le_trans (Nat.succ_pos n) hf)
        exact (if_neg hfull).trans (if_neg hs)

/-- On every disk and whatever becomes of its reads, `read_extended` ends after at most 251 of them.  It writes places
from 5 to 255 only, and returns the error of the first read, or one more than the last place that it has written, which
is at least 7 and at most 256. -/
theorem read_extended_any_disk (readsect : SectReads) (p : Partition) (ebr : Mbr) (pinfo : Nat → PartitionInfo) :
    ∃ t r, (∀ fuel, 250 ≤ fuel → readExtendedFrom readsect fuel p ebr pinfo = some (t, r)) ∧ t.reads.length ≤ 251 ∧
      (∀ i ∈ t.writes, 5 ≤ i ∧ i ≤ 255) ∧ (∀ i ∉ t.writes, t.pinfo i = pinfo i) ∧
      (r = (readsect 0 p.relativeSectors ebr).1 ∧ r < 0 ∨
        7 ≤ r ∧ r ≤ 256 ∧ ∃ last, t.writes.getLast? = some last ∧ r = last + 1) := by
  unfold readExtendedFrom
  dsimp only
  by_cases hneg : (readsect 0 p.relativeSectors ebr).1 < 0
  · exact ⟨_, _, fun fuel _ => if_pos hneg, by simp, by simp, by simp, .inl ⟨rfl, hneg⟩⟩
  · have hstart : ExtTrace.Counted pinfo
        ⟨⟨pinfo, 5, (readsect 0 p.relativeSectors ebr).2, 0⟩, [p.relativeSectors], []⟩ :=
      ⟨Nat.le_refl 5, rfl, rfl, fun _ _ => rfl⟩
    obtain ⟨t, hc, hgt, hle, hrounds⟩ := extendedRounds_counted readsect p.relativeSectors hstart
      (show 5 + 250 = 255 from rfl) (by decide)
    have hgt' : 5 < t.index := hgt
    have hreads := hc.reads
    refine ⟨t.close p.relativeSectors, t.index + 1, fun fuel hf => ?_, ?_, fun i hi => ?_,
      fun i hi => hc.store_kept _ hi, .inr ⟨by omega, by omega, t.index, getLast?_concat .., rfl⟩⟩
    · rw [if_neg hneg, hrounds fuel hf]
      rfl
    · change t.reads.length ≤ 251
      omega
    · change i ∈ t.writes ++ [t.index] at hi
      rw [hc.writes_concat, mem_range'_1] at hi
      omega

end

end Manrix
