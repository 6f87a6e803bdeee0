import Mathlib.Data.BitVec
import Mathlib.Data.List.Basic
import Mathlib.Logic.Function.Basic

/-!
# Partitions (`servers/fs-io/io/block/storage/partitions/partition.c`)

`read_primary` goes over the entries 1 to 4 of the partition table, the last of which is behind its end, and writes all
of them to the first place of the array.  `read_extended` goes along the chain of the extended boot records (EBR),
reading the next one before it asks whether there is one, so that it takes every chain to have two at least.
-/

namespace Manrix

open Function List

/-- `PARTITION`, without the cylinders, heads and sectors. -/
structure Partition where
  bootIndicator : BitVec 8
  systemId : BitVec 8
  relativeSectors : BitVec 32
  totalSectors : BitVec 32
  deriving DecidableEq

/-- `MBR`; the entry 4 is what is in the memory behind the table. -/
structure Mbr where
  part : Nat → Partition
  signature : BitVec 16

structure PartitionInfo where
  start : BitVec 32
  size : BitVec 32
  ptype : BitVec 16
  flag : BitVec 16
  deriving DecidableEq

def partitionExtended : BitVec 16 := 0x05

def partitionExtended1 : BitVec 16 := 0x0F

/-- `readsect`, which gives the sector or a negative number. -/
abbrev ReadSect := BitVec 32 → Except Int Mbr

def readMbr (readsect : ReadSect) : Option Mbr :=
  match readsect 0 with
  | .error _ => none
  | .ok mbr => if mbr.signature ≠ 0xAA55 then none else some mbr

/-- The loop of `read_primary`, with the rounds that are left. -/
def primaryLoop (mbr : Mbr) : Nat → Nat → (Nat → PartitionInfo) → Option Nat → (Nat → PartitionInfo) × Option Nat
  | 0, _, pinfo, ebr => (pinfo, ebr)
  | n + 1, index, pinfo, ebr =>
    let part := mbr.part index
    let pinfo := update pinfo 0
      ⟨part.relativeSectors, part.totalSectors, part.systemId.setWidth 16, part.bootIndicator.setWidth 16⟩
    let extended := (pinfo 0).ptype = partitionExtended ∨ (pinfo 0).ptype = partitionExtended1
    primaryLoop mbr n (index + 1) pinfo (if extended then some index else ebr)

/-- `read_primary`; `none` is -1. -/
def readPrimary (mbr : Mbr) (pinfo : Nat → PartitionInfo) : (Nat → PartitionInfo) × Option Nat :=
  primaryLoop mbr 4 1 pinfo none

/-- The variables of `read_extended`; `p0` and `p1` point into `ebr`. -/
structure ExtState where
  pinfo : Nat → PartitionInfo
  index : Nat
  ebr : Mbr
  ebr2 : BitVec 32

/-- Writes `pinfo[index]`. -/
def ExtState.store (ebrBase : BitVec 32) (st : ExtState) : Nat → PartitionInfo :=
  let p0 := st.ebr.part 0
  update st.pinfo st.index
    ⟨p0.relativeSectors + ebrBase + st.ebr2, p0.totalSectors, p0.systemId.setWidth 16, p0.bootIndicator.setWidth 16⟩

/-- The body of the loop; a sector that cannot be read leaves `ebr` as it is. -/
def ExtState.round (readsect : ReadSect) (ebrBase : BitVec 32) (st : ExtState) : ExtState :=
  let p1 := st.ebr.part 1
  let nextPart := p1.relativeSectors + ebrBase
  { pinfo := st.store ebrBase
    index := st.index + 1
    ebr := (readsect nextPart).toOption.getD st.ebr
    ebr2 := p1.relativeSectors }

/-- The loop of `read_extended`, with the rounds that are left until `index` is 255. -/
def extendedLoop (readsect : ReadSect) (ebrBase : BitVec 32) : Nat → ExtState → ExtState
  | 0, st => st
  | n + 1, st =>
    let st := st.round readsect ebrBase
    if st.index ≥ 255 then st
    else if (st.ebr.part 1).systemId ≠ 0 then extendedLoop readsect ebrBase n st
    else st

/-- What follows the loop. -/
def ExtState.finish (ebrBase : BitVec 32) (st : ExtState) : (Nat → PartitionInfo) × Int :=
  (st.store ebrBase, st.index + 1)

def readExtended (readsect : ReadSect) (p : Partition) (pinfo : Nat → PartitionInfo) : (Nat → PartitionInfo) × Int :=
  let ebrBase := p.relativeSectors
  match readsect ebrBase with
  | .error ret => (pinfo, ret)
  | .ok ebr => (extendedLoop readsect ebrBase 250 ⟨pinfo, 5, ebr, 0⟩).finish ebrBase

def readPartitions (readsect : ReadSect) (mbr : Mbr) (pinfo : Nat → PartitionInfo) : (Nat → PartitionInfo) × Int :=
  match readPrimary mbr pinfo with
  | (pinfo, none) => (pinfo, 0)
  | (pinfo, some index) => readExtended readsect (mbr.part index) pinfo

/-- `initialize_partitions` up to `realloc`, which keeps as many places as the second component says. -/
def initializePartitions (readsect : ReadSect) : Option ((Nat → PartitionInfo) × Int) :=
  match readMbr readsect with
  | none => none
  | some mbr =>
    let r := readPartitions readsect mbr fun _ => ⟨0, 0, 0, 0⟩
    if r.2 < 0 then none else some r

def Partition.IsExtended (p : Partition) : Prop := p.systemId = 0x05 ∨ p.systemId = 0x0F

instance (p : Partition) : Decidable p.IsExtended := inferInstanceAs (Decidable (_ ∨ _))

/-- The boot records of an extended partition from `ebrBase` on, from the sector `lba` to the one without a next one. -/
inductive IsEbrChain (readsect : ReadSect) (ebrBase : BitVec 32) : BitVec 32 → List (BitVec 32 × Mbr) → Prop
  | last {lba : BitVec 32} {ebr : Mbr} : readsect lba = .ok ebr → (ebr.part 1).systemId = 0 →
      IsEbrChain readsect ebrBase lba [(lba, ebr)]
  | cons {lba : BitVec 32} {ebr : Mbr} {rest : List (BitVec 32 × Mbr)} : readsect lba = .ok ebr →
      (ebr.part 1).systemId ≠ 0 → IsEbrChain readsect ebrBase ((ebr.part 1).relativeSectors + ebrBase) rest →
      IsEbrChain readsect ebrBase lba ((lba, ebr) :: rest)

/-- The disks of which the table has at most one extended partition, `ext`, with the boot records `chain`. -/
structure PartitionedDisk (readsect : ReadSect) (mbr : Mbr) (ext : Option Nat) (chain : List (BitVec 32 × Mbr)) :
    Prop where
  reads : ∀ lba, ∃ ebr, readsect lba = .ok ebr
  valid : readMbr readsect = some mbr
  extended : ∀ i < 4, (mbr.part i).IsExtended ↔ ext = some i
  lt : ∀ e, ext = some e → e < 4
  ebrs : ∀ e, ext = some e →
    IsEbrChain readsect (mbr.part e).relativeSectors (mbr.part e).relativeSectors chain
  length : chain.length ≤ 250

def Partition.info (p : Partition) : PartitionInfo :=
  ⟨p.relativeSectors, p.totalSectors, p.systemId.setWidth 16, p.bootIndicator.setWidth 16⟩

/-- Start, size and type. -/
def PartitionInfo.logical (p : PartitionInfo) : BitVec 32 × BitVec 32 × BitVec 16 := (p.start, p.size, p.ptype)

/-- Start, size and type of the logical partition of the boot record in the sector `e.1`. -/
def logicalOf (e : BitVec 32 × Mbr) : BitVec 32 × BitVec 32 × BitVec 16 :=
  ((e.2.part 0).relativeSectors + e.1, (e.2.part 0).totalSectors, (e.2.part 0).systemId.setWidth 16)

/-- The array has the partitions of the disk. -/
structure Discovered (mbr : Mbr) (ext : Option Nat) (chain : List (BitVec 32 × Mbr))
    (r : (Nat → PartitionInfo) × Int) : Prop where
  primary : ∀ i < 4, r.1 (i + 1) = (mbr.part i).info
  logical : ext.isSome → ∀ k e, chain[k]? = some e → (r.1 (5 + k)).logical = logicalOf e
  result : ext.isSome → r.2 = 5 + chain.length

/-- The entry that `read_primary` returns. -/
def lastExtended (mbr : Mbr) : Option Nat := [4, 3, 2, 1].find? fun i => (mbr.part i).IsExtended

/-- `read_extended` reads a second boot record behind the first one, and then those of its chain. -/
def Follows (readsect : ReadSect) (ebrBase : BitVec 32) (chain : List (BitVec 32 × Mbr)) : Prop :=
  ∃ ebr rest, readsect ebrBase = .ok ebr ∧
    IsEbrChain readsect ebrBase ((ebr.part 1).relativeSectors + ebrBase) rest ∧
    ((ebrBase, ebr) :: rest).map logicalOf = chain.map logicalOf

/-- The entries of the table are in the array before the call, and the entry that `read_primary` returns leads to the
boot records of the disk. -/
structure Discoverable (readsect : ReadSect) (mbr : Mbr) (pinfo : Nat → PartitionInfo) (ext : Option Nat)
    (chain : List (BitVec 32 × Mbr)) : Prop where
  primary : ∀ i < 4, pinfo (i + 1) = (mbr.part i).info
  logical : ext.isSome → ∃ index, lastExtended mbr = some index ∧
    Follows readsect (mbr.part index).relativeSectors chain

section

variable {readsect : ReadSect} {ebrBase lba : BitVec 32} {mbr : Mbr} {pinfo : Nat → PartitionInfo} {ext : Option Nat}
  {chain rest : List (BitVec 32 × Mbr)} {st : ExtState} {n : Nat} {r : (Nat → PartitionInfo) × Int}

private theorem setWidth_extended (p : Partition) : (p.systemId.setWidth 16 = partitionExtended ∨
    p.systemId.setWidth 16 = partitionExtended1) ↔ p.IsExtended := by
  unfold Partition.IsExtended partitionExtended partitionExtended1
  bv_omega

private theorem readPrimary_eq (mbr : Mbr) (pinfo : Nat → PartitionInfo) :
    readPrimary mbr pinfo = (update pinfo 0 (mbr.part 4).info, lastExtended mbr) := by
  simp only [readPrimary, primaryLoop, update_self, update_idem, setWidth_extended]
  refine Prod.ext rfl ?_
  unfold lastExtended
  by_cases h₄ : (mbr.part 4).IsExtended
  · simp [h₄]
  · by_cases h₃ : (mbr.part 3).IsExtended
    · simp [h₃, h₄]
    · by_cases h₂ : (mbr.part 2).IsExtended
      · simp [h₂, h₃, h₄]
      · by_cases h₁ : (mbr.part 1).IsExtended <;> simp [h₁, h₂, h₃, h₄]

/-- The boot record in `ebr`, with its sector. -/
def ExtState.current (ebrBase : BitVec 32) (st : ExtState) : BitVec 32 × Mbr := (st.ebr2 + ebrBase, st.ebr)

theorem ExtState.store_logical (ebrBase : BitVec 32) (st : ExtState) :
    (st.store ebrBase st.index).logical = logicalOf (st.current ebrBase) := by
  unfold ExtState.store logicalOf ExtState.current PartitionInfo.logical
  rw [update_self]
  dsimp only
  rw [BitVec.add_assoc, BitVec.add_comm ebrBase]

theorem ExtState.store_of_lt {i : Nat} (h : i < st.index) : st.store ebrBase i = st.pinfo i :=
  update_of_ne (Nat.ne_of_lt h) _ _

/-- The array has the boot records `es` from the place `index` on, and is unchanged below. -/
structure Stored (st : ExtState) (es : List (BitVec 32 × Mbr)) (r : (Nat → PartitionInfo) × Int) : Prop where
  logical : ∀ k e, es[k]? = some e → (r.1 (st.index + k)).logical = logicalOf e
  below : ∀ i < st.index, r.1 i = st.pinfo i
  result : r.2 = st.index + es.length

theorem ExtState.stored_finish (ebrBase : BitVec 32) (st : ExtState) :
    Stored st [st.current ebrBase] (st.finish ebrBase) where
  logical := by
    intro k e he
    cases k with
    | zero =>
      cases he
      exact st.store_logical ebrBase
    | succ k => cases he
  below _ h := store_of_lt h
  result := rfl

theorem Stored.round (h : Stored (st.round readsect ebrBase) rest r) : Stored st (st.current ebrBase :: rest) r where
  logical := by
    intro k e he
    cases k with
    | zero =>
      cases he
      rw [Nat.add_zero, h.below st.index (Nat.lt_succ_self _)]
      exact st.store_logical ebrBase
    | succ k =>
      have hk := h.logical k e he
      rwa [show (st.round readsect ebrBase).index + k = st.index + (k + 1) from Nat.add_right_comm ..] at hk
  below i hi := (h.below i (Nat.lt_succ_of_lt hi)).trans (ExtState.store_of_lt hi)
  result := by
    rw [h.result, length_cons]
    show ((st.index + 1 : Nat) : Int) + rest.length = st.index + ((rest.length + 1 : Nat) : Int)
    omega

theorem ExtState.round_current {ebr : Mbr} (h : readsect ((st.ebr.part 1).relativeSectors + ebrBase) = .ok ebr) :
    (st.round readsect ebrBase).ebr = ebr ∧
      (st.round readsect ebrBase).current ebrBase = ((st.ebr.part 1).relativeSectors + ebrBase, ebr) := by
  have he : (st.round readsect ebrBase).ebr = ebr := by
    unfold ExtState.round
    dsimp only
    rw [h]
    rfl
  exact ⟨he, Prod.ext rfl he⟩

private theorem extendedLoop_stored (h : IsEbrChain readsect ebrBase lba rest)
    (hl : lba = (st.ebr.part 1).relativeSectors + ebrBase) (hlt : st.index + rest.length < 255) (hn : rest.length ≤ n) :
    Stored st (st.current ebrBase :: rest) ((extendedLoop readsect ebrBase n st).finish ebrBase) := by
  induction h generalizing st n with
  | @last lba ebr hr hs =>
    subst hl
    obtain ⟨n, rfl⟩ := Nat.exists_eq_succ_of_ne_zero (Nat.ne_of_gt hn)
    obtain ⟨he, hc⟩ := ExtState.round_current hr
    rw [length_singleton] at hlt
    have hrest := (st.round readsect ebrBase).stored_finish ebrBase
    have hidx : (st.round readsect ebrBase).index = st.index + 1 := rfl
    rw [hc] at hrest
    rw [extendedLoop, he, if_neg (by omega), if_neg (not_not.2 hs)]
    exact hrest.round
  | @cons lba ebr rest hr hs _ ih =>
    subst hl
    obtain ⟨n, rfl⟩ := Nat.exists_eq_succ_of_ne_zero (Nat.ne_of_gt (Nat.lt_of_lt_of_le (Nat.succ_pos _) hn))
    obtain ⟨he, hc⟩ := ExtState.round_current hr
    rw [length_cons] at hlt hn
    have hidx : (st.round readsect ebrBase).index = st.index + 1 := rfl
    have hrest := @ih (st.round readsect ebrBase) n (by rw [he]) (by omega) (by omega)
    rw [hc] at hrest
    rw [extendedLoop, he, if_neg (by omega), if_pos hs]
    exact hrest.round

/-- The loop ends at the last boot record of a chain or at the place 255. -/
private theorem extendedLoop_ends (ebrBase : BitVec 32) (st : ExtState) (hr : ∀ lba, ∃ ebr, readsect lba = .ok ebr)
    (hn : st.index + n = 255) (hpos : 0 < n) :
    ∃ rest, Stored st (st.current ebrBase :: rest) ((extendedLoop readsect ebrBase n st).finish ebrBase) ∧
      (IsEbrChain readsect ebrBase ((st.ebr.part 1).relativeSectors + ebrBase) rest ∨
        st.index + rest.length = 255) := by
  induction n generalizing st with
  | zero => exact absurd hpos (Nat.lt_irrefl 0)
  | succ n ih =>
    obtain ⟨ebr, hebr⟩ := hr ((st.ebr.part 1).relativeSectors + ebrBase)
    obtain ⟨he, hc⟩ := ExtState.round_current hebr
    have hidx : (st.round readsect ebrBase).index = st.index + 1 := rfl
    have hend := (st.round readsect ebrBase).stored_finish ebrBase
    rw [hc] at hend
    rw [extendedLoop, he]
    by_cases hfull : (st.round readsect ebrBase).index ≥ 255
    · rw [if_pos hfull]
      refine ⟨_, hend.round, .inr ?_⟩
      rw [length_singleton]
      omega
    · rw [if_neg hfull]
      by_cases hs : (ebr.part 1).systemId ≠ 0
      · obtain ⟨rest, hrest, h⟩ := ih (st.round readsect ebrBase) (by omega) (by omega)
        rw [hc] at hrest
        rw [he] at h
        rw [if_pos hs]
        refine ⟨_, hrest.round, h.imp (.cons hebr hs) fun h => ?_⟩
        rw [length_cons]
        omega
      · rw [if_neg hs]
        exact ⟨_, hend.round, .inl (.last hebr (not_not.1 hs))⟩

private theorem readExtended_ok {p : Partition} {ebr : Mbr} (h : readsect p.relativeSectors = .ok ebr) :
    readExtended readsect p pinfo =
      (extendedLoop readsect p.relativeSectors 250 ⟨pinfo, 5, ebr, 0⟩).finish p.relativeSectors := by
  unfold readExtended
  dsimp only
  rw [h]

theorem ExtState.current_zero {ebr : Mbr} : (ExtState.mk pinfo 5 ebr 0).current ebrBase = (ebrBase, ebr) :=
  Prod.ext (BitVec.zero_add ebrBase) rfl

private theorem readExtended_ends (hr : ∀ lba, ∃ ebr, readsect lba = .ok ebr) (p : Partition)
    (pinfo : Nat → PartitionInfo) : ∃ ebr rest, readsect p.relativeSectors = .ok ebr ∧
      Stored ⟨pinfo, 5, ebr, 0⟩ ((p.relativeSectors, ebr) :: rest) (readExtended readsect p pinfo) ∧
      (IsEbrChain readsect p.relativeSectors ((ebr.part 1).relativeSectors + p.relativeSectors) rest ∨
        5 + rest.length = 255) := by
  obtain ⟨ebr, hebr⟩ := hr p.relativeSectors
  obtain ⟨rest, hst, hend⟩ := extendedLoop_ends p.relativeSectors ⟨pinfo, 5, ebr, 0⟩ hr rfl (by decide : 0 < 250)
  rw [ExtState.current_zero] at hst
  rw [readExtended_ok hebr]
  exact ⟨ebr, rest, hebr, hst, hend⟩

theorem Stored.map_eq {es : List (BitVec 32 × Mbr)} (h : Stored st es r) (hlen : es.length = chain.length)
    (hc : ∀ k e, chain[k]? = some e → (r.1 (st.index + k)).logical = logicalOf e) :
    es.map logicalOf = chain.map logicalOf := by
  refine ext_getElem (by simpa using hlen) fun k hk hk' => ?_
  rw [length_map] at hk hk'
  rw [getElem_map, getElem_map, ← hc k _ (getElem?_eq_getElem hk'),
    ← h.logical k _ (getElem?_eq_getElem hk)]

private theorem readExtended_iff (hr : ∀ lba, ∃ ebr, readsect lba = .ok ebr) (hlen : chain.length ≤ 250) (p : Partition)
    (pinfo : Nat → PartitionInfo) :
    ((∀ k e, chain[k]? = some e → ((readExtended readsect p pinfo).1 (5 + k)).logical = logicalOf e) ∧
      (readExtended readsect p pinfo).2 = 5 + chain.length) ↔ Follows readsect p.relativeSectors chain := by
  constructor
  · rintro ⟨hlog, hres⟩
    obtain ⟨ebr, rest, hebr, hst, hend⟩ := readExtended_ends hr p pinfo
    have hl : (rest.length + 1 : Nat) = chain.length := by
      have h := hst.result.symm.trans hres
      rw [length_cons] at h
      dsimp only at h
      omega
    exact ⟨ebr, rest, hebr, hend.resolve_right (by omega), hst.map_eq hl hlog⟩
  · rintro ⟨ebr, rest, hebr, hchain, hmap⟩
    have hl : rest.length + 1 = chain.length := by simpa using congrArg List.length hmap
    have hst : Stored ⟨pinfo, 5, ebr, 0⟩ ((p.relativeSectors, ebr) :: rest) (readExtended readsect p pinfo) := by
      rw [readExtended_ok hebr, ← ExtState.current_zero]
      exact extendedLoop_stored hchain rfl (by dsimp only; omega) (by omega)
    refine ⟨fun k e he => ?_, ?_⟩
    · -- the place of the list of boot records that is stored
      have hk : (((p.relativeSectors, ebr) :: rest).map logicalOf)[k]? = some (logicalOf e) := by
        rw [hmap, getElem?_map, he]
        rfl
      rw [getElem?_map] at hk
      obtain ⟨e', he', hl'⟩ := Option.map_eq_some_iff.1 hk
      exact (hst.logical k e' he').trans hl'
    · rw [hst.result, length_cons, hl]
      rfl

private theorem readPartitions_primary (hr : ∀ lba, ∃ ebr, readsect lba = .ok ebr) (mbr : Mbr)
    (pinfo : Nat → PartitionInfo)
    {i : Nat} (hi : i < 4) : (readPartitions readsect mbr pinfo).1 (i + 1) = pinfo (i + 1) := by
  have hkept : update pinfo 0 (mbr.part 4).info (i + 1) = pinfo (i + 1) :=
    update_of_ne (Nat.succ_ne_zero i) _ _
  unfold readPartitions
  rw [readPrimary_eq]
  cases lastExtended mbr with
  | none => exact hkept
  | some index =>
    obtain ⟨ebr, rest, -, hst, -⟩ :=
      readExtended_ends hr (mbr.part index) (update pinfo 0 (mbr.part 4).info)
    exact (hst.below (i + 1) (Nat.succ_lt_succ hi)).trans hkept

private theorem readPartitions_logical_iff (hr : ∀ lba, ∃ ebr, readsect lba = .ok ebr) (hlen : chain.length ≤ 250)
    (mbr : Mbr) (pinfo : Nat → PartitionInfo) :
    ((∀ k e, chain[k]? = some e → ((readPartitions readsect mbr pinfo).1 (5 + k)).logical = logicalOf e) ∧
      (readPartitions readsect mbr pinfo).2 = 5 + chain.length) ↔
    ∃ index, lastExtended mbr = some index ∧ Follows readsect (mbr.part index).relativeSectors chain := by
  unfold readPartitions
  rw [readPrimary_eq]
  cases lastExtended mbr with
  | none =>
    refine iff_of_false (fun h => ?_) (by simp)
    have h₀ : (0 : Int) = 5 + chain.length := h.2
    omega
  | some index => simpa using readExtended_iff hr hlen (mbr.part index) _

/-- `read_partitions` finds the partitions of a disk exactly if those of the table are in the array already and the last
extended entry that it sees leads to the boot records. -/
theorem partition_discovery (hd : PartitionedDisk readsect mbr ext chain) :
    Discovered mbr ext chain (readPartitions readsect mbr pinfo) ↔ Discoverable readsect mbr pinfo ext chain := by
  have hlog := readPartitions_logical_iff hd.reads hd.length mbr pinfo
  constructor
  · intro h
    refine ⟨fun i hi => ?_, fun he => hlog.1 ⟨h.logical he, h.result he⟩⟩
    rw [← readPartitions_primary hd.reads mbr pinfo hi]
    exact h.primary i hi
  · intro h
    refine ⟨fun i hi => ?_, fun he => (hlog.2 (h.logical he)).1, fun he => (hlog.2 (h.logical he)).2⟩
    rw [readPartitions_primary hd.reads mbr pinfo hi]
    exact h.primary i hi

private theorem follows_iff (h : IsEbrChain readsect ebrBase ebrBase chain) :
    Follows readsect ebrBase chain ↔ 2 ≤ chain.length := by
  constructor
  · rintro ⟨ebr, rest, -, hrest, hmap⟩
    have hl : rest.length + 1 = chain.length := by simpa using congrArg List.length hmap
    cases hrest <;> simp at hl <;> omega
  · intro hlen
    cases h with
    | last => exact absurd hlen (by simp)
    | cons hr _ h => exact ⟨_, _, hr, h, rfl⟩

private theorem lastExtended_of_behind {e : Nat} (hd : PartitionedDisk readsect mbr (some e) chain)
    (h₄ : ¬ (mbr.part 4).IsExtended) : lastExtended mbr = if e = 0 then none else some e := by
  have h₁ := hd.extended 1 (by decide)
  have h₂ := hd.extended 2 (by decide)
  have h₃ := hd.extended 3 (by decide)
  have he := hd.lt e rfl
  unfold lastExtended
  obtain rfl | rfl | rfl | rfl : e = 0 ∨ e = 1 ∨ e = 2 ∨ e = 3 := by omega
  all_goals simp [h₁, h₂, h₃, h₄]

theorem Discoverable.iff_of_behind (hd : PartitionedDisk readsect mbr ext chain) (h₄ : ¬ (mbr.part 4).IsExtended) :
    Discoverable readsect mbr pinfo ext chain ↔
      (∀ i < 4, pinfo (i + 1) = (mbr.part i).info) ∧ ∀ e, ext = some e → e ≠ 0 ∧ 2 ≤ chain.length := by
  have hlog : (ext.isSome → ∃ index, lastExtended mbr = some index ∧
      Follows readsect (mbr.part index).relativeSectors chain) ↔ ∀ e, ext = some e → e ≠ 0 ∧ 2 ≤ chain.length := by
    cases ext with
    | none => simp
    | some e =>
      rw [lastExtended_of_behind hd h₄]
      by_cases h₀ : e = 0
      · simp [h₀]
      · simp [h₀, follows_iff (hd.ebrs e rfl)]
  exact ⟨fun h => ⟨h.primary, hlog.1 h.logical⟩, fun h => ⟨h.1, hlog.2 h.2⟩⟩

theorem initializePartitions_primary
    (hd : PartitionedDisk readsect mbr ext chain) (h : initializePartitions readsect = some r)
    (hr : Discovered mbr ext chain r) : ∀ i < 4, (mbr.part i).info = ⟨0, 0, 0, 0⟩ := by
  unfold initializePartitions at h
  rw [hd.valid] at h
  dsimp only at h
  split at h
  · cases h
  · cases h
    intro i hi
    rw [← hr.primary i hi, readPartitions_primary hd.reads mbr _ hi]

end

def emptyEntry : Partition := ⟨0, 0, 0, 0⟩

/-- The signature begins where the entry behind the table would have its boot indicator; zeros follow the sector. -/
def sectorOf (part : List Partition) : Mbr :=
  ⟨fun i => if i < 4 then part.getD i emptyEntry else ⟨0x55, 0, 0, 0⟩, 0xAA55⟩

/-- A primary partition and an extended one with logical partitions at 101 and 121. -/
def smallDisk : ReadSect := fun lba => .ok <|
  if lba = 0 then sectorOf [⟨0x80, 0x83, 1, 50⟩, ⟨0, 0x05, 100, 50⟩]
  else if lba = 100 then sectorOf [⟨0, 0x83, 1, 10⟩, ⟨0, 0x05, 20, 10⟩]
  else sectorOf [⟨0, 0x83, 1, 9⟩]

def smallMbr : Mbr := sectorOf [⟨0x80, 0x83, 1, 50⟩, ⟨0, 0x05, 100, 50⟩]

def smallChain : List (BitVec 32 × Mbr) :=
  [(100, sectorOf [⟨0, 0x83, 1, 10⟩, ⟨0, 0x05, 20, 10⟩]), (120, sectorOf [⟨0, 0x83, 1, 9⟩])]

private theorem smallDisk_partitioned : PartitionedDisk smallDisk smallMbr (some 1) smallChain where
  reads lba := ⟨_, rfl⟩
  valid := rfl
  extended := by decide
  lt := by simp
  ebrs := by
    intro e he
    cases he
    exact .cons rfl (by decide) (.last rfl rfl)
  length := by decide

/-- The array with the entries of the table in it. -/
def smallInfo : Nat → PartitionInfo := fun i => (smallMbr.part (i - 1)).info

theorem partition_discovery_small :
    Discovered smallMbr (some 1) smallChain (readPartitions smallDisk smallMbr smallInfo) :=
  (partition_discovery smallDisk_partitioned).2
    ((Discoverable.iff_of_behind smallDisk_partitioned (by decide)).2 ⟨fun _ _ => rfl, by simp [smallChain]⟩)

/-- On a cleared array the primary partition is not found. -/
theorem primary_partition_is_lost : PartitionedDisk smallDisk smallMbr (some 1) smallChain ∧
    ((readPartitions smallDisk smallMbr fun _ => ⟨0, 0, 0, 0⟩).1 1 = ⟨0, 0, 0, 0⟩ ∧
      (smallMbr.part 0).info = ⟨1, 50, 0x83, 0x80⟩) ∧
    ¬ Discovered smallMbr (some 1) smallChain (readPartitions smallDisk smallMbr fun _ => ⟨0, 0, 0, 0⟩) := by
  have hkept : (readPartitions smallDisk smallMbr fun _ => ⟨0, 0, 0, 0⟩).1 1 = ⟨0, 0, 0, 0⟩ :=
    readPartitions_primary smallDisk_partitioned.reads smallMbr _ (by decide : 0 < 4)
  refine ⟨smallDisk_partitioned, ⟨hkept, rfl⟩, fun h => ?_⟩
  have hfound := hkept.symm.trans (h.primary 0 (by decide))
  exact absurd hfound (by decide)

end Manrix
