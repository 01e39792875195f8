import FeralKernel.Mm.BootLayout

/-!
# Memory maps with entries of any size

A memory-map tag says how many bytes its entries take, so that later versions of
the format can add fields to them.  `HandleMemory` divides by that number to count
the entries but then indexes an array of 24-byte structures.
-/

namespace FeralKernel

open Verif.Program Verif.Bytes

variable {σ : Type}

/-! ## Tags -/

namespace MultibootTagMmap

/-- What entry `i` describes when the entries lie `entrySize` bytes apart. -/
def entryAt (m : Mem) (memoryMap : Ptr) (entrySize i : Nat) : RangeRecord :=
  let e := memoryMap.toNat + 16 + entrySize * i
  { usage := usageOfType (read32 m (e + 16))
    start := read64 m e
    endAddr := read64 m e + read64 m (e + 8) }

theorem entryAt_24 (m : Mem) (memoryMap : Ptr) (i : Nat) :
    entryAt m memoryMap 24 i = entryRecord m memoryMap i := rfl

/-- The first entry lies behind the header, whatever the size. -/
theorem entryAt_zero (m : Mem) (memoryMap : Ptr) (entrySize : Nat) :
    entryAt m memoryMap entrySize 0 = entryRecord m memoryMap 0 := rfl

end MultibootTagMmap

/-- A tag with `n` entries of `entrySize` bytes. -/
structure StridedTag (m : Mem) (memoryMap : Ptr) (entrySize n : Nat) : Prop where
  low : memoryMap.toNat ≤ 2 ^ 52
  room : 24 ≤ entrySize ∧ entrySize < 2 ^ 32
  aligned : 8 ∣ entrySize
  fits : 16 + n * entrySize < 2 ^ 32
  size : read32 m (memoryMap.toNat + 4) = BitVec.ofNat 32 (16 + n * entrySize)
  entrySize : read32 m (memoryMap.toNat + 8) = BitVec.ofNat 32 entrySize

/-- The tag does not lie where the count and the boot ranges go. -/
structure StridedApart (kernelEnd memoryMap : Ptr) (entrySize n : Nat) : Prop where
  low : kernelEnd.toNat + 8 ≤ 2 ^ 32
  apart : kernelEnd.toNat + 8 + 24 * n ≤ memoryMap.toNat ∨
    memoryMap.toNat + 16 + n * entrySize ≤ kernelEnd.toNat

section Tag

variable {m : Mem} {memoryMap kernelEnd : Ptr} {entrySize n : Nat}

/-- The header is shorter than an entry, so the quotient is the number of entries. -/
theorem StridedTag.entryCount (h : StridedTag m memoryMap entrySize n) :
    MultibootTagMmap.entryCount m memoryMap = n := by
  have hroom := h.room
  rw [MultibootTagMmap.entryCount, h.size, h.entrySize, BitVec.toNat_ofNat, BitVec.toNat_ofNat,
    Nat.mod_eq_of_lt h.fits, Nat.mod_eq_of_lt hroom.2, Nat.add_mul_div_right _ _ (by omega),
    Nat.div_eq_of_lt (by omega), Nat.zero_add]

theorem StridedTag.entrySize_ne_zero (h : StridedTag m memoryMap entrySize n) :
    read32 m (memoryMap.toNat + 8) ≠ 0 := by
  have hroom := h.room
  intro hz
  have hnat := congrArg BitVec.toNat hz
  rw [h.entrySize, BitVec.toNat_ofNat, Nat.mod_eq_of_lt hroom.2,
    show (0 : BitVec 32).toNat = 0 from rfl] at hnat
  omega

theorem StridedTag.apart (h : StridedTag m memoryMap entrySize n)
    (hapart : StridedApart kernelEnd memoryMap entrySize n) : TagApart kernelEnd memoryMap n := by
  have hle : 24 * n ≤ n * entrySize := by
    rw [Nat.mul_comm]
    exact Nat.mul_le_mul_left n h.room.1
  refine ⟨hapart.low, ?_⟩
  have hside := hapart.apart
  omega

end Tag

/-! ## What is recorded -/

/-- Range `i` of the boot information, read through its pointer. -/
def bootRange (m : Mem) (bootInfo : SystemBootInfo) (i : Nat) : RangeRecord :=
  let range := BootMemoryRange.item bootInfo.memoryRanges i
  { usage := read32 m (phys (BootMemoryRange.usage range))
    start := read64 m (phys (BootMemoryRange.start range))
    endAddr := read64 m (phys (BootMemoryRange.endAddr range)) }

/-- The array that the boot information points at after `HandleMemory`. -/
theorem bootRange_eq {kernelEnd : Ptr} (hend : kernelEnd.toNat + 8 ≤ 2 ^ 32) (m : Mem)
    (count : BitVec 64) {i : Nat} (hi : i < 2 ^ 32) :
    bootRange m { numMemoryRanges := count, memoryRanges := kernelEnd + 8 } i =
      rangeRecord m (kernelEnd.toNat + 8) i := by
  have hrange : (kernelEnd + 8).toNat = kernelEnd.toNat + 8 := toNat_add_ofNat (k := 8) (by omega)
  have hlow : (kernelEnd + 8).toNat ≤ 2 ^ 32 := by omega
  obtain ⟨husage, hstart, hend'⟩ := BootMemoryRange.phys_fields hlow hi
  rw [bootRange, husage, hstart, hend', hrange]
  rfl

/-- In `m'` exactly `n` ranges are recorded, and range `i` is `entry i`. -/
structure RecordsRanges (m' : Mem) (kernelEnd : Ptr) (n : Nat) (entry : Nat → RangeRecord)
    (boot : EntryStatics) : Prop where
  count : boot.memoryRangeCount.toNat = n
  reported : boot.bootInfo.numMemoryRanges.toNat = n
  header : (read64 m' (phys kernelEnd)).toNat = n
  ranges : ∀ i, i < n → bootRange m' boot.bootInfo i = entry i

section Recorded

variable {m' : Mem} {memoryMap kernelEnd : Ptr} {entrySize n : Nat} {boot : EntryStatics}
  {entry entry' : Nat → RangeRecord}

/-- What is recorded is recorded once. -/
theorem RecordsRanges.iff_agree (h : RecordsRanges m' kernelEnd n entry boot) :
    RecordsRanges m' kernelEnd n entry' boot ↔ ∀ i, i < n → entry i = entry' i := by
  constructor
  · intro h' i hi
    rw [← h.ranges i hi, h'.ranges i hi]
  · intro hagree
    refine ⟨h.count, h.reported, h.header, fun i hi => ?_⟩
    rw [h.ranges i hi, hagree i hi]

/-- `HandleMemory` records what lies at multiples of 24 bytes. -/
theorem handleMemory_records {s : Machine σ} (htag : StridedTag s.mem memoryMap entrySize n)
    (hapart : StridedApart kernelEnd memoryMap entrySize n) (statics : EntryStatics) :
    Returns (handleMemory kernelEnd memoryMap statics) s fun boot t =>
      RecordsRanges t.mem kernelEnd n (MultibootTagMmap.entryRecord s.mem memoryMap) boot := by
  have hlow := htag.low
  have hend := hapart.low
  have hcap := MultibootTagMmap.entryCount_lt s.mem memoryMap
  rw [htag.entryCount] at hcap
  have hnat : (BitVec.ofNat 64 n).toNat = n := by
    rw [BitVec.toNat_ofNat]
    omega
  have hphys : phys kernelEnd = kernelEnd.toNat := by
    rw [phys, if_neg (by omega)]
  apply (handleMemory_written hend (by omega) htag.entrySize_ne_zero htag.entryCount statics).mono
  intro boot t ht
  obtain ⟨hcount, hboot, -, hmem, -⟩ := ht
  refine ⟨?_, ?_, ?_, fun i hi => ?_⟩
  · rw [hcount, hnat]
  · rw [hboot, hnat]
  · rw [hphys, hmem, mapWritten_count, hnat]
  · rw [hboot, bootRange_eq hend _ _ (by omega), hmem]
    exact (htag.apart hapart).rangeRecord hi

end Recorded

/-! ## Which tags are recorded right -/

/-- Every entry `i` of the tag is also what lies at byte `16 + 24 * i`. -/
def EntriesAgree (m : Mem) (memoryMap : Ptr) (entrySize n : Nat) : Prop :=
  entrySize = 24 ∨ n ≤ 1 ∨ ∀ i, 0 < i → i < n →
    MultibootTagMmap.entryRecord m memoryMap i = MultibootTagMmap.entryAt m memoryMap entrySize i

theorem entriesAgree_iff {m : Mem} {memoryMap : Ptr} {entrySize n : Nat} :
    EntriesAgree m memoryMap entrySize n ↔ ∀ i, i < n →
      MultibootTagMmap.entryRecord m memoryMap i =
        MultibootTagMmap.entryAt m memoryMap entrySize i := by
  constructor
  · intro h i hi
    by_cases hz : i = 0
    · rw [hz, MultibootTagMmap.entryAt_zero]
    · rcases h with rfl | hn | hall
      · rw [MultibootTagMmap.entryAt_24]
      · omega
      · exact hall i (by omega) hi
  · intro h
    exact Or.inr (Or.inr fun i _ hi => h i hi)

/-- All entries are recorded as they are just when the tag's entries take 24 bytes,
there is at most one, or those behind the first look the same at either distance. -/
theorem handleMemory_records_iff {s : Machine σ} {memoryMap kernelEnd : Ptr} {entrySize n : Nat}
    (htag : StridedTag s.mem memoryMap entrySize n)
    (hapart : StridedApart kernelEnd memoryMap entrySize n) (statics : EntryStatics) :
    Returns (handleMemory kernelEnd memoryMap statics) s (fun boot t =>
        RecordsRanges t.mem kernelEnd n (MultibootTagMmap.entryAt s.mem memoryMap entrySize) boot) ↔
      EntriesAgree s.mem memoryMap entrySize n := by
  obtain ⟨boot, t, hrun, hrec⟩ := handleMemory_records htag hapart statics
  rw [entriesAgree_iff, ← hrec.iff_agree]
  constructor
  · intro h
    exact h.of_eq hrun
  · intro h
    exact returns_of_eq hrun h

/-- A tag with two entries of 32 bytes, where the field behind the first repeats the start of
the second, which is also its length. -/
def evenMap : Machine MmStatics :=
  { coldMachine with
    mem := write64 (write64 (write64 (write64 (write32 (write32 coldMachine.mem 0x50004 80)
      0x50008 32) 0x50018 0x8000000) 0x50028 0x8000000) 0x50030 0x8000000) 0x50038 0x8000000 }

theorem evenMap_strided : StridedTag evenMap.mem 0x50000 32 2 :=
  ⟨by decide, by decide, by decide, by decide, by decide, by decide⟩

theorem evenMap_agrees : EntriesAgree evenMap.mem 0x50000 32 2 := by
  refine Or.inr (Or.inr fun i hpos hi => ?_)
  rw [show i = 1 by omega]
  decide

theorem handleMemory_records_iff_small :
    Returns (handleMemory 0x180000 0x50000 ⟨0, 0, 0, 0⟩) evenMap fun boot t =>
      RecordsRanges t.mem 0x180000 2 (MultibootTagMmap.entryAt evenMap.mem 0x50000 32) boot :=
  (handleMemory_records_iff evenMap_strided ⟨by decide, by decide⟩ ⟨0, 0, 0, 0⟩).mpr
    evenMap_agrees

/-- A tag with two entries of 32 bytes: the second starts at 256 MiB. -/
def wideMap : Machine MmStatics :=
  { coldMachine with
    mem := write64 (write64 (write32 (write32 coldMachine.mem 0x50004 80) 0x50008 32)
      0x50018 0x8000000) 0x50030 0x10000000 }

theorem wideMap_strided : StridedTag wideMap.mem 0x50000 32 2 :=
  ⟨by decide, by decide, by decide, by decide, by decide, by decide⟩

/-- The second range starts at zero. -/
theorem wideMap_not_recorded :
    ¬ Returns (handleMemory 0x180000 0x50000 ⟨0, 0, 0, 0⟩) wideMap fun boot t =>
      RecordsRanges t.mem 0x180000 2 (MultibootTagMmap.entryAt wideMap.mem 0x50000 32) boot := by
  intro h
  have hapart : StridedApart 0x180000 0x50000 32 2 := ⟨by decide, by decide⟩
  obtain ⟨boot, t, hrun, hrec⟩ := handleMemory_records wideMap_strided hapart ⟨0, 0, 0, 0⟩
  have hagree := hrec.iff_agree.mp (h.of_eq hrun) 1 (by omega)
  exact absurd (congrArg RangeRecord.start hagree) (by decide)

end FeralKernel
