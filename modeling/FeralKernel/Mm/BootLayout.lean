import FeralKernel.Mm.Startup
import Mathlib.Data.Finset.Lattice.Fold
import Mathlib.Order.Lattice.Nat

/-!
# Where boot puts its tables

Five regions follow the kernel image: a count, the ranges as `HandleMemory` writes
them, the ranges as `KiStartupSystem` copies them, the bitmap of frames and the
heap.  Each is placed by pointer arithmetic on the one before it, in elements of
8, 24 and 40 bytes and then in bytes, and no code looks at the sizes.  This module
follows the bytes through both loops and through `KiInitializeMemMgr`.
-/

namespace FeralKernel

open Verif.Program Verif.Bytes

variable {σ : Type}

/-! ## Addresses of fields -/

/-- A field of an array element, when the array lies in the low half. -/
theorem phys_field {base size field : Ptr} {n : Nat} (hn : n < 2 ^ 64)
    (h : base.toNat + size.toNat * n + field.toNat < 0xFFFFFF8000000000) :
    phys (base + size * BitVec.ofNat 64 n + field) =
      base.toNat + size.toNat * n + field.toNat := by
  have hmul : (size * BitVec.ofNat 64 n).toNat = size.toNat * n := by
    rw [BitVec.toNat_mul, BitVec.toNat_ofNat, Nat.mod_eq_of_lt hn, Nat.mod_eq_of_lt (by omega)]
  have hadd : (base + size * BitVec.ofNat 64 n + field).toNat =
      base.toNat + size.toNat * n + field.toNat := by
    rw [BitVec.toNat_add, BitVec.toNat_add, hmul]
    omega
  rw [phys, hadd, if_neg (by omega)]

/-- Keeping the larger of two numbers. -/
theorem toNat_larger (a b : BitVec 64) :
    (if a < b then b else a).toNat = max a.toNat b.toNat := by
  split
  · rename_i h
    rw [BitVec.lt_def] at h
    omega
  · rename_i h
    rw [BitVec.lt_def] at h
    omega

/-! ## The memory map that the loader passes -/

/-- A range of memory as boot describes it. -/
structure RangeRecord where
  usage : BitVec 32
  start : BitVec 64
  endAddr : BitVec 64
deriving DecidableEq

namespace MultibootTagMmap

variable (m : Mem) (memoryMap : Ptr)

def entryStart (i : Nat) : BitVec 64 := read64 m (memoryMap.toNat + 16 + 24 * i)

def entryEnd (i : Nat) : BitVec 64 :=
  entryStart m memoryMap i + read64 m (memoryMap.toNat + 16 + 24 * i + 8)

def entryUsage (i : Nat) : BitVec 32 :=
  usageOfType (read32 m (memoryMap.toNat + 16 + 24 * i + 16))

/-- What the loop of `HandleMemory` makes of entry `i`. -/
def entryRecord (i : Nat) : RangeRecord where
  usage := entryUsage m memoryMap i
  start := entryStart m memoryMap i
  endAddr := entryEnd m memoryMap i

/-- The highest end of the first `n` entries. -/
def maxEnd (n : Nat) : Nat := (Finset.range n).sup fun i => (entryEnd m memoryMap i).toNat

/-- How many entries `HandleMemory` takes the tag to have. -/
def entryCount : Nat :=
  (read32 m (memoryMap.toNat + 4)).toNat / (read32 m (memoryMap.toNat + 8)).toNat

theorem entryRecord_start (i : Nat) : (entryRecord m memoryMap i).start = entryStart m memoryMap i :=
  rfl

theorem entryRecord_endAddr (i : Nat) :
    (entryRecord m memoryMap i).endAddr = entryEnd m memoryMap i := rfl

theorem entryCount_lt : entryCount m memoryMap < 2 ^ 32 :=
  Nat.lt_of_le_of_lt (Nat.div_le_self _ _) (read32 m (memoryMap.toNat + 4)).isLt

variable {m memoryMap}

theorem entryRecord_congr {m' : Mem} {i : Nat}
    (h : ∀ x, memoryMap.toNat + 16 + 24 * i ≤ x → x < memoryMap.toNat + 16 + 24 * i + 24 →
      m' x = m x) : entryRecord m' memoryMap i = entryRecord m memoryMap i := by
  have hstart : entryStart m' memoryMap i = entryStart m memoryMap i :=
    read64_congr fun x h1 h2 => h x h1 (by omega)
  have hlen : read64 m' (memoryMap.toNat + 16 + 24 * i + 8) =
      read64 m (memoryMap.toNat + 16 + 24 * i + 8) :=
    read64_congr fun x h1 h2 => h x (by omega) (by omega)
  have htype : read32 m' (memoryMap.toNat + 16 + 24 * i + 16) =
      read32 m (memoryMap.toNat + 16 + 24 * i + 16) :=
    read32_congr fun x h1 h2 => h x (by omega) (by omega)
  rw [entryRecord, entryRecord, entryUsage, entryUsage, entryEnd, entryEnd, hstart, hlen, htype]

end MultibootTagMmap

/-- A tag with `n` entries of 24 bytes.  The loader passes a 32-bit address. -/
structure MemoryMapTag (m : Mem) (memoryMap : Ptr) (n : Nat) : Prop where
  low : memoryMap.toNat ≤ 2 ^ 32
  fits : 16 + 24 * n < 2 ^ 32
  size : read32 m (memoryMap.toNat + 4) = BitVec.ofNat 32 (16 + 24 * n)
  entrySize : read32 m (memoryMap.toNat + 8) = 24

/-- The kernel image ends below 4 GiB, and the tag does not lie where the count and
the boot ranges go. -/
structure TagApart (kernelEnd memoryMap : Ptr) (n : Nat) : Prop where
  low : kernelEnd.toNat + 8 ≤ 2 ^ 32
  apart : kernelEnd.toNat + 8 + 24 * n ≤ memoryMap.toNat ∨
    memoryMap.toNat + 16 + 24 * n ≤ kernelEnd.toNat

/-! ## The ranges as `HandleMemory` writes them -/

/-- The range in slot `i` of the array at `base`. -/
def rangeRecord (m : Mem) (base i : Nat) : RangeRecord where
  usage := read32 m (base + 24 * i)
  start := read64 m (base + 24 * i + 8)
  endAddr := read64 m (base + 24 * i + 16)

theorem rangeRecord_start (m : Mem) (base i : Nat) :
    (rangeRecord m base i).start = read64 m (base + 24 * i + 8) := rfl

theorem rangeRecord_endAddr (m : Mem) (base i : Nat) :
    (rangeRecord m base i).endAddr = read64 m (base + 24 * i + 16) := rfl

/-- The memory with `r` in slot `i`. -/
def rangeWritten (m : Mem) (base i : Nat) (r : RangeRecord) : Mem :=
  write64 (write64 (write32 m (base + 24 * i) r.usage) (base + 24 * i + 8) r.start)
    (base + 24 * i + 16) r.endAddr

/-- The memory after `n` rounds: an entry may have been overwritten before it is read. -/
def rangesWritten (m : Mem) (base : Nat) (memoryMap : Ptr) : Nat → Mem
  | 0 => m
  | n + 1 =>
    let m' := rangesWritten m base memoryMap n
    rangeWritten m' base n (MultibootTagMmap.entryRecord m' memoryMap n)

/-- The memory as `HandleMemory` leaves it: the count, and the ranges behind it. -/
def mapWritten (m : Mem) (kernelEnd memoryMap : Ptr) (n : Nat) : Mem :=
  rangesWritten (write64 m kernelEnd.toNat (BitVec.ofNat 64 n)) (kernelEnd.toNat + 8) memoryMap n

section Written

variable {m : Mem} {base i j n x : Nat} {memoryMap kernelEnd : Ptr} {r : RangeRecord}

theorem rangeWritten_outside (h : x < base + 24 * i ∨ base + 24 * i + 24 ≤ x) :
    rangeWritten m base i r x = m x := by
  rw [rangeWritten, write64_outside (by omega), write64_outside (by omega),
    write32_outside (by omega)]

@[simp] theorem rangeRecord_rangeWritten_same (m : Mem) (base i : Nat) (r : RangeRecord) :
    rangeRecord (rangeWritten m base i r) base i = r := by
  simp (disch := omega) only [rangeRecord, rangeWritten, read64_write64_same,
    read64_write64_outside, read32_write64_outside, read32_write32_same]

theorem rangeRecord_congr {m' : Mem}
    (h : ∀ x, base + 24 * i ≤ x → x < base + 24 * i + 24 → m' x = m x) :
    rangeRecord m' base i = rangeRecord m base i := by
  have husage : read32 m' (base + 24 * i) = read32 m (base + 24 * i) :=
    read32_congr fun x h1 h2 => h x h1 (by omega)
  have hstart : read64 m' (base + 24 * i + 8) = read64 m (base + 24 * i + 8) :=
    read64_congr fun x h1 h2 => h x (by omega) (by omega)
  have hend : read64 m' (base + 24 * i + 16) = read64 m (base + 24 * i + 16) :=
    read64_congr fun x h1 h2 => h x (by omega) (by omega)
  rw [rangeRecord, rangeRecord, husage, hstart, hend]

theorem rangesWritten_outside (h : x < base ∨ base + 24 * n ≤ x) :
    rangesWritten m base memoryMap n x = m x := by
  induction n with
  | zero => rfl
  | succ n ih => rw [rangesWritten, rangeWritten_outside (by omega), ih (by omega)]

theorem mapWritten_outside (h : x < kernelEnd.toNat ∨ kernelEnd.toNat + 8 + 24 * n ≤ x) :
    mapWritten m kernelEnd memoryMap n x = m x := by
  rw [mapWritten, rangesWritten_outside (by omega), write64_outside (by omega)]

/-- The count stands in front of the ranges, so the loop leaves it alone. -/
theorem mapWritten_count (m : Mem) (kernelEnd memoryMap : Ptr) (n : Nat) :
    read64 (mapWritten m kernelEnd memoryMap n) kernelEnd.toNat = BitVec.ofNat 64 n := by
  rw [mapWritten, read64_congr (fun x h1 h2 => rangesWritten_outside (by omega)),
    read64_write64_same]

/-- A tag that lies elsewhere still holds its entries after `i` rounds. -/
theorem TagApart.entryRecord (h : TagApart kernelEnd memoryMap n) (hi : i ≤ n) (hj : j < n) :
    MultibootTagMmap.entryRecord
        (rangesWritten (write64 m kernelEnd.toNat (BitVec.ofNat 64 n)) (kernelEnd.toNat + 8)
          memoryMap i) memoryMap j =
      MultibootTagMmap.entryRecord m memoryMap j := by
  have hapart := h.apart
  apply MultibootTagMmap.entryRecord_congr
  intro x h1 h2
  rw [rangesWritten_outside (by omega), write64_outside (by omega)]

/-- So each slot holds the entry of its number. -/
theorem TagApart.rangeRecord (h : TagApart kernelEnd memoryMap n) (hj : j < n) :
    rangeRecord (mapWritten m kernelEnd memoryMap n) (kernelEnd.toNat + 8) j =
      MultibootTagMmap.entryRecord m memoryMap j := by
  have hall : ∀ i, j < i → i ≤ n →
      FeralKernel.rangeRecord (rangesWritten (write64 m kernelEnd.toNat (BitVec.ofNat 64 n))
        (kernelEnd.toNat + 8) memoryMap i) (kernelEnd.toNat + 8) j =
      MultibootTagMmap.entryRecord m memoryMap j := by
    intro i
    induction i with
    | zero => intro hlt; omega
    | succ i ih =>
      intro hlt hi
      rw [rangesWritten]
      by_cases he : j = i
      · rw [he, rangeRecord_rangeWritten_same, h.entryRecord (by omega) (by omega)]
      · rw [rangeRecord_congr (fun x h1 h2 => rangeWritten_outside (by omega)),
          ih (by omega) (by omega)]
  exact hall n hj (Nat.le_refl n)

end Written

section Record

variable {memRange memoryMap kernelEnd : Ptr} {n i : Nat} {m m' : Mem}

theorem BootMemoryRange.phys_fields (hr : memRange.toNat ≤ 2 ^ 32) (hi : i < 2 ^ 32) :
    phys (usage (item memRange i)) = memRange.toNat + 24 * i ∧
    phys (start (item memRange i)) = memRange.toNat + 24 * i + 8 ∧
    phys (endAddr (item memRange i)) = memRange.toNat + 24 * i + 16 := by
  have hsize : byteSize.toNat = 24 := rfl
  refine ⟨?_, ?_, ?_⟩
  · rw [usage, item, phys_field (by omega) (by rw [hsize]; show _ + 0 < _; omega), hsize]
    rfl
  · rw [start, item, phys_field (by omega) (by rw [hsize]; show _ + 8 < _; omega), hsize]
    rfl
  · rw [endAddr, item, phys_field (by omega) (by rw [hsize]; show _ + 16 < _; omega), hsize]
    rfl

theorem MultibootTagMmap.phys_fields (ht : memoryMap.toNat ≤ 2 ^ 60) (hi : i < 2 ^ 32) :
    phys (addr (entry memoryMap i)) = memoryMap.toNat + 16 + 24 * i ∧
    phys (len (entry memoryMap i)) = memoryMap.toNat + 16 + 24 * i + 8 ∧
    phys (type (entry memoryMap i)) = memoryMap.toNat + 16 + 24 * i + 16 := by
  have hbase : (memoryMap + 16#64).toNat = memoryMap.toNat + 16 := toNat_add_ofNat (by omega)
  have hsize : (24#64).toNat = 24 := rfl
  refine ⟨?_, ?_, ?_⟩
  · rw [addr, entry, phys_field (by omega) (by rw [hbase, hsize]; show _ + 0 < _; omega), hbase]
    rfl
  · rw [len, entry, phys_field (by omega) (by rw [hbase, hsize]; show _ + 8 < _; omega), hbase]
    rfl
  · rw [type, entry, phys_field (by omega) (by rw [hbase, hsize]; show _ + 16 < _; omega), hbase]
    rfl

/-- One round: the entry is read whole before its range is written. -/
theorem recordRange_spec {s : Machine σ} (hr : memRange.toNat ≤ 2 ^ 32)
    (ht : memoryMap.toNat ≤ 2 ^ 60) (hi : i < 2 ^ 32) (maxAddress : Ptr) :
    Returns (recordRange memRange memoryMap i maxAddress) s fun r t =>
      r.toNat = max maxAddress.toNat (MultibootTagMmap.entryEnd s.mem memoryMap i).toNat ∧
      t.mem = rangeWritten s.mem memRange.toNat i
        (MultibootTagMmap.entryRecord s.mem memoryMap i) ∧ t.statics = s.statics := by
  obtain ⟨husage, hstart, hend⟩ := BootMemoryRange.phys_fields hr hi
  obtain ⟨haddr, hlen, htype⟩ := MultibootTagMmap.phys_fields ht hi
  simp only [recordRange, returns_bind, returns_load64, returns_load32, returns_store32,
    returns_store64, returns_pure, Machine.note_mem, Machine.setMem_mem, husage, hstart, hend,
    haddr, hlen, htype, read64_write64_same]
  exact ⟨toNat_larger _ _, rfl, rfl⟩

/-- The maximum that `HandleMemory` is left with, when it starts from zero. -/
def maxRecorded (m : Mem) (kernelEnd memoryMap : Ptr) (n : Nat) : Nat :=
  (Finset.range n).sup fun i => (MultibootTagMmap.entryEnd
    (rangesWritten (write64 m kernelEnd.toNat (BitVec.ofNat 64 n)) (kernelEnd.toNat + 8) memoryMap i)
    memoryMap i).toNat

theorem TagApart.maxRecorded (h : TagApart kernelEnd memoryMap n) :
    maxRecorded m kernelEnd memoryMap n = MultibootTagMmap.maxEnd m memoryMap n := by
  rw [FeralKernel.maxRecorded, MultibootTagMmap.maxEnd]
  apply Finset.sup_congr rfl
  intro i hi
  have hlt := Finset.mem_range.mp hi
  have hentry := congrArg RangeRecord.endAddr (h.entryRecord (m := m) (Nat.le_of_lt hlt) hlt)
  rw [MultibootTagMmap.entryRecord_endAddr, MultibootTagMmap.entryRecord_endAddr] at hentry
  rw [hentry]

/-- The two fields that `HandleMemory` divides. -/
theorem MultibootTagMmap.phys_header (ht : memoryMap.toNat ≤ 2 ^ 60) :
    phys (size memoryMap) = memoryMap.toNat + 4 ∧
    phys (entrySize memoryMap) = memoryMap.toNat + 8 :=
  ⟨phys_low ht (by omega), phys_low ht (by omega)⟩

/-- `HandleMemory` on any tag, wherever it lies. -/
theorem handleMemory_written {s : Machine σ} (hlow : kernelEnd.toNat + 8 ≤ 2 ^ 32)
    (ht : memoryMap.toNat ≤ 2 ^ 60) (hentry : read32 s.mem (memoryMap.toNat + 8) ≠ 0)
    (hn : MultibootTagMmap.entryCount s.mem memoryMap = n) (statics : EntryStatics) :
    Returns (handleMemory kernelEnd memoryMap statics) s fun boot t =>
      boot.memoryRangeCount = BitVec.ofNat 64 n ∧
      boot.bootInfo = { numMemoryRanges := BitVec.ofNat 64 n, memoryRanges := kernelEnd + 8 } ∧
      boot.maxAddress.toNat =
        max statics.maxAddress.toNat (maxRecorded s.mem kernelEnd memoryMap n) ∧
      t.mem = mapWritten s.mem kernelEnd memoryMap n ∧ t.statics = s.statics := by
  have hcap := MultibootTagMmap.entryCount_lt s.mem memoryMap
  obtain ⟨hsize, hesize⟩ := MultibootTagMmap.phys_header ht
  have hend : phys kernelEnd = kernelEnd.toNat := by
    rw [phys, if_neg (by omega)]
  have hrange : (kernelEnd + 8).toNat = kernelEnd.toNat + 8 := toNat_add_ofNat (k := 8) (by omega)
  have hnat : (BitVec.ofNat 64 n).toNat = n := by
    rw [BitVec.toNat_ofNat]
    omega
  have hcount : (read32 s.mem (memoryMap.toNat + 4) / read32 s.mem (memoryMap.toNat + 8)).setWidth 64 =
      BitVec.ofNat 64 n := by
    apply BitVec.eq_of_toNat_eq
    rw [hnat, BitVec.toNat_setWidth, BitVec.toNat_udiv, ← hn]
    exact Nat.mod_eq_of_lt (Nat.lt_trans hcap (by decide))
  simp only [handleMemory, returns_bind, returns_load32, Machine.note_mem, hsize, hesize,
    returns_divide, returns_store64, hcount, hnat, hend]
  refine ⟨hentry, Returns.mono (P := fun (maxAddress : Ptr) (t : Machine σ) =>
    maxAddress.toNat = max statics.maxAddress.toNat (maxRecorded s.mem kernelEnd memoryMap n) ∧
    t.mem = mapWritten s.mem kernelEnd memoryMap n ∧ t.statics = s.statics) ?_ ?_⟩
  · apply returns_forRange (fun i (maxAddress : Ptr) (t : Machine σ) =>
      maxAddress.toNat = max statics.maxAddress.toNat
        ((Finset.range i).sup fun j => (MultibootTagMmap.entryEnd
          (rangesWritten (write64 s.mem kernelEnd.toNat (BitVec.ofNat 64 n)) (kernelEnd.toNat + 8)
            memoryMap j) memoryMap j).toNat) ∧
      t.mem = rangesWritten (write64 s.mem kernelEnd.toNat (BitVec.ofNat 64 n))
        (kernelEnd.toNat + 8) memoryMap i ∧ t.statics = s.statics) n
    · intro i maxAddress t hi hI
      obtain ⟨hmax, hm, hstat⟩ := hI
      apply (recordRange_spec (by omega) ht (by omega) maxAddress).mono
      intro r u hu
      obtain ⟨hr, hmem, hside⟩ := hu
      refine ⟨?_, ?_, hside.trans hstat⟩
      · rw [hr, hmax, hm, Finset.range_add_one, Finset.sup_insert, max_assoc]
        exact congrArg _ (max_comm _ _)
      · rw [hmem, hm, hrange]
        rfl
    · omega
    · exact ⟨(Nat.max_eq_left (Nat.zero_le _)).symm, rfl, rfl⟩
  · intro maxAddress t ht
    rw [returns_pure]
    exact ⟨rfl, rfl, ht⟩

/-- `m'` holds the first `i` entries of `m` as boot ranges behind the count. -/
structure Recorded (m m' : Mem) (kernelEnd memoryMap : Ptr) (i : Nat) : Prop where
  start : ∀ j, j < i → read64 m' (kernelEnd.toNat + 8 + 24 * j + 8) =
    MultibootTagMmap.entryStart m memoryMap j
  endAddr : ∀ j, j < i → read64 m' (kernelEnd.toNat + 8 + 24 * j + 16) =
    MultibootTagMmap.entryEnd m memoryMap j
  frame : ∀ x, x < kernelEnd.toNat ∨ kernelEnd.toNat + 8 + 24 * i ≤ x → m' x = m x

theorem TagApart.recorded (h : TagApart kernelEnd memoryMap n) :
    Recorded m (mapWritten m kernelEnd memoryMap n) kernelEnd memoryMap n := by
  refine ⟨fun j hj => ?_, fun j hj => ?_, fun _ hx => mapWritten_outside hx⟩
  · have hstart := congrArg RangeRecord.start (h.rangeRecord (m := m) hj)
    rwa [rangeRecord_start, MultibootTagMmap.entryRecord_start] at hstart
  · have hend := congrArg RangeRecord.endAddr (h.rangeRecord (m := m) hj)
    rwa [rangeRecord_endAddr, MultibootTagMmap.entryRecord_endAddr] at hend

theorem MemoryMapTag.entryCount (h : MemoryMapTag m memoryMap n) :
    MultibootTagMmap.entryCount m memoryMap = n := by
  have hfits := h.fits
  rw [MultibootTagMmap.entryCount, h.size, h.entrySize, BitVec.toNat_ofNat,
    show (24 : BitVec 32).toNat = 24 from rfl]
  omega

theorem handleMemory_spec {s : Machine σ} (htag : MemoryMapTag s.mem memoryMap n)
    (hapart : TagApart kernelEnd memoryMap n) (statics : EntryStatics) :
    Returns (handleMemory kernelEnd memoryMap statics) s fun boot t =>
      boot.bootInfo = { numMemoryRanges := BitVec.ofNat 64 n, memoryRanges := kernelEnd + 8 } ∧
      boot.maxAddress.toNat =
        max statics.maxAddress.toNat (MultibootTagMmap.maxEnd s.mem memoryMap n) ∧
      Recorded s.mem t.mem kernelEnd memoryMap n := by
  have hmap := htag.low
  have hentry : read32 s.mem (memoryMap.toNat + 8) ≠ 0 := by
    rw [htag.entrySize]
    decide
  apply (handleMemory_written hapart.low (by omega) hentry htag.entryCount statics).mono
  intro boot t ht
  obtain ⟨-, hboot, hmax, hmem, -⟩ := ht
  rw [hapart.maxRecorded] at hmax
  rw [hmem]
  exact ⟨hboot, hmax, hapart.recorded⟩

end Record

/-! ## The ranges as `KiStartupSystem` copies them -/

section Copy

variable {bootRange ranges : Ptr} {i : Nat} {m m' : Mem}

theorem MmMemoryRange.phys_fields {ranges : Ptr} (hr : ranges.toNat ≤ 2 ^ 38) {i : Nat}
    (hi : i < 2 ^ 32) :
    phys (sType (item ranges i)) = ranges.toNat + 40 * i ∧
    phys (pNext (item ranges i)) = ranges.toNat + 40 * i + 8 ∧
    phys (start (item ranges i)) = ranges.toNat + 40 * i + 16 ∧
    phys (endAddr (item ranges i)) = ranges.toNat + 40 * i + 24 ∧
    phys (size (item ranges i)) = ranges.toNat + 40 * i + 32 := by
  have hsize : byteSize.toNat = 40 := rfl
  refine ⟨?_, ?_, ?_, ?_, ?_⟩
  · rw [sType, item, phys_field (by omega) (by rw [hsize]; show _ + 0 < _; omega), hsize]
    rfl
  · rw [pNext, item, phys_field (by omega) (by rw [hsize]; show _ + 8 < _; omega), hsize]
    rfl
  · rw [start, item, phys_field (by omega) (by rw [hsize]; show _ + 16 < _; omega), hsize]
    rfl
  · rw [endAddr, item, phys_field (by omega) (by rw [hsize]; show _ + 24 < _; omega), hsize]
    rfl
  · rw [size, item, phys_field (by omega) (by rw [hsize]; show _ + 32 < _; omega), hsize]
    rfl

/-- One round: the copy lies behind the range it is made from. -/
theorem copyRange_spec {s : Machine σ} (hb : bootRange.toNat ≤ 2 ^ 32)
    (hr : ranges.toNat ≤ 2 ^ 38) (hi : i < 2 ^ 32)
    (hbehind : bootRange.toNat + 24 * (i + 1) ≤ ranges.toNat) :
    Returns (copyRange bootRange ranges i) s fun _ t =>
      read64 t.mem (ranges.toNat + 40 * i + 16) = read64 s.mem (bootRange.toNat + 24 * i + 8) ∧
      read64 t.mem (ranges.toNat + 40 * i + 24) = read64 s.mem (bootRange.toNat + 24 * i + 16) ∧
      read64 t.mem (ranges.toNat + 40 * i + 32) =
        read64 s.mem (bootRange.toNat + 24 * i + 16) -
          read64 s.mem (bootRange.toNat + 24 * i + 8) ∧
      ∀ x, x < ranges.toNat + 40 * i ∨ ranges.toNat + 40 * i + 40 ≤ x → t.mem x = s.mem x := by
  obtain ⟨husage, hstart, hend⟩ := BootMemoryRange.phys_fields hb hi
  obtain ⟨hsType, hpNext, hstart', hend', hsize'⟩ := MmMemoryRange.phys_fields hr hi
  obtain ⟨w, hw⟩ : ∃ w, w = write64 (write64 (write64 (write64
      (write32 s.mem (ranges.toNat + 40 * i) (read32 s.mem (bootRange.toNat + 24 * i)))
      (ranges.toNat + 40 * i + 8) 0)
      (ranges.toNat + 40 * i + 16) (read64 s.mem (bootRange.toNat + 24 * i + 8)))
      (ranges.toNat + 40 * i + 24) (read64 s.mem (bootRange.toNat + 24 * i + 16)))
      (ranges.toNat + 40 * i + 32) (read64 s.mem (bootRange.toNat + 24 * i + 16) -
        read64 s.mem (bootRange.toNat + 24 * i + 8)) := ⟨_, rfl⟩
  -- whether the type is changed at the end makes no difference to the other fields
  have hpost : ∀ m : Mem,
      (∀ x, x < ranges.toNat + 40 * i ∨ ranges.toNat + 40 * i + 4 ≤ x → m x = w x) →
      read64 m (ranges.toNat + 40 * i + 16) = read64 s.mem (bootRange.toNat + 24 * i + 8) ∧
      read64 m (ranges.toNat + 40 * i + 24) = read64 s.mem (bootRange.toNat + 24 * i + 16) ∧
      read64 m (ranges.toNat + 40 * i + 32) =
        read64 s.mem (bootRange.toNat + 24 * i + 16) -
          read64 s.mem (bootRange.toNat + 24 * i + 8) ∧
      ∀ x, x < ranges.toNat + 40 * i ∨ ranges.toNat + 40 * i + 40 ≤ x → m x = s.mem x := by
    intro m hm
    have hread : ∀ k, 4 ≤ k → read64 m (ranges.toNat + 40 * i + k) =
        read64 w (ranges.toNat + 40 * i + k) :=
      fun k hk => read64_congr fun x h1 h2 => hm x (by omega)
    refine ⟨?_, ?_, ?_, fun x hx => ?_⟩
    · rw [hread 16 (by omega), hw, read64_write64_outside (by omega),
        read64_write64_outside (by omega), read64_write64_same]
    · rw [hread 24 (by omega), hw, read64_write64_outside (by omega), read64_write64_same]
    · rw [hread 32 (by omega), hw, read64_write64_same]
    · rw [hm x (by omega), hw, write64_outside (by omega), write64_outside (by omega),
        write64_outside (by omega), write64_outside (by omega), write32_outside (by omega)]
  simp (disch := omega) only [copyRange, returns_bind, returns_load32, returns_load64,
    returns_store32, returns_store64, Machine.note_mem, Machine.setMem_mem, husage, hstart, hend,
    hsType, hpNext, hstart', hend', hsize', read64_write64_same, read64_write64_outside,
    read64_write32_outside, ← hw]
  by_cases hlow : read64 s.mem (bootRange.toNat + 24 * i + 8) < 1024 * 1024
  · simp only [hlow, if_true, returns_store32]
    apply hpost
    intro x hx
    simp only [Machine.note_mem, Machine.setMem_mem, hsType]
    exact write32_outside hx
  · simp only [hlow, if_false, returns_pure]
    apply hpost
    intro x _
    rfl

/-- `m'` holds copies of the first `i` boot ranges of `m`. -/
structure Copied (m m' : Mem) (bootRange ranges : Ptr) (i : Nat) : Prop where
  start : ∀ j, j < i → read64 m' (ranges.toNat + 40 * j + 16) =
    read64 m (bootRange.toNat + 24 * j + 8)
  endAddr : ∀ j, j < i → read64 m' (ranges.toNat + 40 * j + 24) =
    read64 m (bootRange.toNat + 24 * j + 16)
  size : ∀ j, j < i → read64 m' (ranges.toNat + 40 * j + 32) =
    read64 m (bootRange.toNat + 24 * j + 16) - read64 m (bootRange.toNat + 24 * j + 8)
  frame : ∀ x, x < ranges.toNat ∨ ranges.toNat + 40 * i ≤ x → m' x = m x

theorem copyRanges_spec {s : Machine σ} {n : Nat} (hb : bootRange.toNat ≤ 2 ^ 32)
    (hr : ranges.toNat ≤ 2 ^ 38) (hn : n < 2 ^ 32)
    (hbehind : bootRange.toNat + 24 * n ≤ ranges.toNat) :
    Returns (forRange (fun index _ => copyRange bootRange ranges index) n 0 ()) s fun _ t =>
      Copied s.mem t.mem bootRange ranges n := by
  apply returns_forRange (fun i _ (t : Machine σ) => Copied s.mem t.mem bootRange ranges i) n
  · intro i _ t hi hI
    -- the range of this round has not been overwritten by the copies before it
    have hkeep : ∀ k, k + 8 ≤ 24 → read64 t.mem (bootRange.toNat + 24 * i + k) =
        read64 s.mem (bootRange.toNat + 24 * i + k) :=
      fun k hk => read64_congr fun x h1 h2 => hI.frame x (by omega)
    apply (copyRange_spec hb hr (by omega) (by omega)).mono
    intro _ u hu
    obtain ⟨hstart, hend, hsize, hframe⟩ := hu
    rw [hkeep 8 (by omega)] at hstart hsize
    rw [hkeep 16 (by omega)] at hend hsize
    have hold : ∀ j k, j < i → k + 8 ≤ 40 → read64 u.mem (ranges.toNat + 40 * j + k) =
        read64 t.mem (ranges.toNat + 40 * j + k) :=
      fun j k hj hk => read64_congr fun x h1 h2 => hframe x (by omega)
    refine ⟨fun j hj => ?_, fun j hj => ?_, fun j hj => ?_, fun x hx => ?_⟩
    · by_cases he : j = i
      · rw [he, hstart]
      · rw [hold j 16 (by omega) (by omega), hI.start j (by omega)]
    · by_cases he : j = i
      · rw [he, hend]
      · rw [hold j 24 (by omega) (by omega), hI.endAddr j (by omega)]
    · by_cases he : j = i
      · rw [he, hsize]
      · rw [hold j 32 (by omega) (by omega), hI.size j (by omega)]
    · rw [hframe x (by omega), hI.frame x (by omega)]
  · omega
  · exact ⟨fun j hj => absurd hj (by omega), fun j hj => absurd hj (by omega),
      fun j hj => absurd hj (by omega), fun x _ => rfl⟩

end Copy

theorem toNat_highestEnd (m : Mem) (ranges : Ptr) (n : Nat) :
    (highestEnd m ranges n).toNat = (Finset.range n).sup fun i =>
      (read64 m (phys (MmMemoryRange.endAddr (MmMemoryRange.item ranges i)))).toNat := by
  induction n with
  | zero => rfl
  | succ n ih =>
    rw [highestEnd, toNat_larger, ih, Finset.range_add_one, Finset.sup_insert, max_comm]

/-! ## The layout -/

/-- A run of bytes that boot sets aside. -/
structure Region where
  base : Ptr
  size : Nat

namespace Region

def Holds (r : Region) (x : Nat) : Prop := r.base.toNat ≤ x ∧ x < r.base.toNat + r.size

def Apart (r q : Region) : Prop := ∀ x, ¬ (r.Holds x ∧ q.Holds x)

theorem apart_of_le {r q : Region} (h : r.base.toNat + r.size ≤ q.base.toNat) : r.Apart q := by
  intro x hx
  obtain ⟨hr, hq⟩ := hx
  unfold Holds at hr hq
  omega

end Region

/-- The regions behind the kernel, as the boot information and the static variables
of the memory manager give them. -/
def bootRegions (kernelEnd : Ptr) (bootInfo : SystemBootInfo) (statics : MmStatics) :
    List Region :=
  let mmState := statics.mmState
  [⟨kernelEnd, 8⟩,
    ⟨bootInfo.memoryRanges, 24 * bootInfo.numMemoryRanges.toNat⟩,
    ⟨mmState.pAllocInfo.ranges, 40 * mmState.pAllocInfo.memoryAreaRangeCount.toNat⟩,
    ⟨kernVirtToPhys mmState.bitmaskUsedFrames,
      (mmState.maxPAddr / (8 * mmState.pAllocInfo.frameSize)).toNat⟩,
    ⟨kernVirtToPhys statics.currentState.arenas, heapSize.toNat⟩]

/-- Where the heap ends, for `n` ranges of which the highest ends at `maxEnd`. -/
def heapEnd (kernelEnd : Ptr) (n maxEnd : Nat) : Nat :=
  kernelEnd.toNat + 8 + 24 * (n + 1) + 40 * (n + 4096) + 4096 + maxEnd / 32768 + heapSize.toNat

/-- What startup leaves of a memory map with `n` entries that `m` held.  The bitmap
and the heap are used through `KERN_PHYS_TO_VIRT`, so the ranges are only safe from
them when those addresses do not wrap. -/
structure BootLaidOut (m : Mem) (kernelEnd memoryMap : Ptr) (n : Nat) (boot : EntryStatics)
    (t : Machine MmStatics) : Prop where
  inside : ∀ r ∈ bootRegions kernelEnd boot.bootInfo t.statics, r.base.toNat + r.size ≤ 2 ^ 64
  apart : (bootRegions kernelEnd boot.bootInfo t.statics).Pairwise Region.Apart
  reported : t.statics.mmState.maxPAddr = internalGetMaxPhysicalAddressFunc boot
  highest : t.statics.mmState.maxPAddr.toNat = MultibootTagMmap.maxEnd m memoryMap n
  copied : kernVirtOffset.toNat + heapEnd kernelEnd n (MultibootTagMmap.maxEnd m memoryMap n) ≤
      2 ^ 64 →
    t.statics.mmState.pAllocInfo.memoryAreaRangeCount.toNat = n ∧ ∀ i, i < n →
      let range := MmMemoryRange.item t.statics.mmState.pAllocInfo.ranges i
      let start := MultibootTagMmap.entryStart m memoryMap i
      let endAddr := MultibootTagMmap.entryEnd m memoryMap i
      read64 t.mem (phys (MmMemoryRange.start range)) = start ∧
      read64 t.mem (phys (MmMemoryRange.endAddr range)) = endAddr ∧
      read64 t.mem (phys (MmMemoryRange.size range)) = endAddr - start

section Layout

variable {kernelStart kernelEnd memoryMap : Ptr} {n : Nat} {boot : EntryStatics}

/-- The five regions follow one another, whatever the highest address is. -/
theorem bootRegions_ordered {bootInfo : SystemBootInfo} (h : HandedOver kernelStart bootInfo)
    (hend : bootInfo.memoryRanges.toNat = kernelEnd.toNat + 8) (m : Mem) :
    (∀ r ∈ bootRegions kernelEnd bootInfo (bootInfo.createInfo.statics m),
      r.base.toNat + r.size ≤ 2 ^ 64) ∧
    (bootRegions kernelEnd bootInfo (bootInfo.createInfo.statics m)).Pairwise Region.Apart := by
  have hlow := h.low
  have hcount := h.count
  have hranges := h.toNat_ranges
  have hpmm := h.toNat_safePMMArea
  have hmax := (bootInfo.createInfo.maxPAddr m).isLt
  have hback : ∀ x, kernVirtToPhys (kernPhysToVirt x) = x := by
    intro x
    rw [kernVirtToPhys, kernPhysToVirt, BitVec.add_sub_cancel]
  have hbuffer : (bootInfo.createInfo.bufferSize m).toNat =
      (bootInfo.createInfo.maxPAddr m).toNat / 32768 := by
    rw [MmCreateInfo.bufferSize, BitVec.toNat_udiv]
    rfl
  have hbitmap : (bootInfo.createInfo.safePMMArea + 4096).toNat =
      bootInfo.createInfo.safePMMArea.toNat + 4096 := toNat_add_ofNat (k := 4096) (by omega)
  have hheap : (bootInfo.createInfo.safePMMArea + bootInfo.createInfo.bufferSize m + 4096).toNat =
      bootInfo.createInfo.safePMMArea.toNat + (bootInfo.createInfo.maxPAddr m).toNat / 32768 +
        4096 := by
    rw [BitVec.toNat_add, BitVec.toNat_add, hbuffer, show (4096 : BitVec 64).toNat = 4096 from rfl]
    omega
  have hlist : bootRegions kernelEnd bootInfo (bootInfo.createInfo.statics m) =
      [⟨kernelEnd, 8⟩,
        ⟨bootInfo.memoryRanges, 24 * bootInfo.numMemoryRanges.toNat⟩,
        ⟨bootInfo.ranges, 40 * bootInfo.numMemoryRanges.toNat⟩,
        ⟨bootInfo.createInfo.safePMMArea + 4096, (bootInfo.createInfo.bufferSize m).toNat⟩,
        ⟨bootInfo.createInfo.safePMMArea + bootInfo.createInfo.bufferSize m + 4096, 0x800000⟩] := by
    show [_, _, _, (⟨kernVirtToPhys (kernPhysToVirt _), _⟩ : Region),
      ⟨kernVirtToPhys (kernPhysToVirt _), _⟩] = _
    rw [hback, hback]
    rfl
  rw [hlist]
  constructor
  · simp only [List.forall_mem_cons, List.not_mem_nil, false_implies, implies_true, and_true]
    omega
  · simp only [List.pairwise_cons, List.forall_mem_cons, List.not_mem_nil, false_implies,
      implies_true, and_true, List.Pairwise.nil]
    refine ⟨⟨?_, ?_, ?_, ?_⟩, ⟨?_, ?_, ?_⟩, ⟨?_, ?_⟩, ?_⟩ <;> apply Region.apart_of_le <;>
      dsimp only <;> omega

/-- The copies hold the entries, so the memory manager's maximum is theirs. -/
theorem Copied.maxPAddr_eq {m m1 m2 : Mem} {bootInfo : SystemBootInfo}
    (h : HandedOver kernelStart bootInfo) (hn : bootInfo.numMemoryRanges.toNat = n)
    (hend : bootInfo.memoryRanges.toNat = kernelEnd.toNat + 8)
    (hrec : Recorded m m1 kernelEnd memoryMap n)
    (hcopy : Copied m1 m2 bootInfo.memoryRanges bootInfo.ranges n) :
    (bootInfo.createInfo.maxPAddr m2).toNat = MultibootTagMmap.maxEnd m memoryMap n := by
  have hlow := h.low
  have hcount := h.count
  have hranges := h.toNat_ranges
  show (highestEnd m2 bootInfo.ranges bootInfo.numMemoryRanges.toNat).toNat = _
  rw [toNat_highestEnd, hn, MultibootTagMmap.maxEnd]
  apply Finset.sup_congr rfl
  intro i hi
  have hi' := Finset.mem_range.mp hi
  have hr : bootInfo.ranges.toNat ≤ 2 ^ 38 := by omega
  obtain ⟨-, -, -, haddr, -⟩ := MmMemoryRange.phys_fields hr (i := i) (by omega)
  rw [haddr, hcopy.endAddr i hi', hend, hrec.endAddr i hi']

/-- The heap lies behind the bitmap. -/
theorem heapEnd_eq {bootInfo : SystemBootInfo} (h : HandedOver kernelStart bootInfo)
    (hn : bootInfo.numMemoryRanges.toNat = n)
    (hend : bootInfo.memoryRanges.toNat = kernelEnd.toNat + 8) (maxEnd : Nat) :
    heapEnd kernelEnd n maxEnd =
      bootInfo.createInfo.safePMMArea.toNat + maxEnd / 32768 + 4096 + 0x800000 := by
  rw [heapEnd, h.toNat_safePMMArea, hend, hn, show heapSize.toNat = 0x800000 from rfl]
  omega

/-- What the copies hold, in a memory that has kept them. -/
theorem Copied.carries {m m1 m2 m3 : Mem} {bootRange ranges : Ptr} (hr : ranges.toNat ≤ 2 ^ 38)
    (hcount : n < 2 ^ 32) (hend : bootRange.toNat = kernelEnd.toNat + 8)
    (hrec : Recorded m m1 kernelEnd memoryMap n) (hcopy : Copied m1 m2 bootRange ranges n)
    (hkeep : ∀ x, x < ranges.toNat + 40 * n → m3 x = m2 x) {i : Nat} (hi : i < n) :
    read64 m3 (phys (MmMemoryRange.start (MmMemoryRange.item ranges i))) =
      MultibootTagMmap.entryStart m memoryMap i ∧
    read64 m3 (phys (MmMemoryRange.endAddr (MmMemoryRange.item ranges i))) =
      MultibootTagMmap.entryEnd m memoryMap i ∧
    read64 m3 (phys (MmMemoryRange.size (MmMemoryRange.item ranges i))) =
      MultibootTagMmap.entryEnd m memoryMap i - MultibootTagMmap.entryStart m memoryMap i := by
  obtain ⟨-, -, hstart, hend', hsize⟩ := MmMemoryRange.phys_fields hr (i := i) (by omega)
  have hread : ∀ k, k + 8 ≤ 40 → read64 m3 (ranges.toNat + 40 * i + k) =
      read64 m2 (ranges.toNat + 40 * i + k) :=
    fun k hk => read64_congr fun x h1 h2 => hkeep x (by omega)
  rw [hstart, hend', hsize, hread 16 (by omega), hread 24 (by omega), hread 32 (by omega),
    hcopy.start i hi, hcopy.endAddr i hi, hcopy.size i hi, hend, hrec.start i hi,
    hrec.endAddr i hi]
  exact ⟨rfl, rfl, rfl⟩

section Startup

variable {m : Mem} {t : Machine MmStatics}

/-- From the ranges that `HandleMemory` has written, a startup that returns lays
everything out. -/
theorem kiStartupSystem_lays_out (h : HandedOver kernelStart boot.bootInfo)
    (hn : boot.bootInfo.numMemoryRanges.toNat = n)
    (hend : boot.bootInfo.memoryRanges.toNat = kernelEnd.toNat + 8)
    (hmax : boot.maxAddress.toNat = MultibootTagMmap.maxEnd m memoryMap n)
    (hrec : Recorded m t.mem kernelEnd memoryMap n) (startArch : Kern MmStatics Unit) :
    Ensures (kiStartupSystem kernelStart .memoryManagement boot.bootInfo startArch) t
      fun status u => status = .success ∧ BootLaidOut m kernelEnd memoryMap n boot u := by
  have hlow := h.low
  have hcount := h.count
  have hbehind := h.behind
  have hranges := h.toNat_ranges
  have hpmm := h.toNat_safePMMArea
  have hoffset := toNat_kernVirtOffset
  have hheap := heapEnd_eq h hn hend (MultibootTagMmap.maxEnd m memoryMap n)
  have hr : boot.bootInfo.ranges.toNat ≤ 2 ^ 38 := by omega
  rw [kiStartupSystem, hn]
  refine (copyRanges_spec (s := t) (n := n) hlow hr (by omega) (by omega)).ensures.bind ?_
  intro _ v hcopy
  have hmaxP := hcopy.maxPAddr_eq h hn hend hrec
  rw [ensures_bind]
  intro status u hrun
  obtain ⟨rfl, hstat⟩ := kiInitializeMemMgr_statics kernelStart boot.bootInfo.createInfo v status u
    hrun
  rw [if_neg (by decide), ensures_pure]
  obtain ⟨hinside, hapart⟩ := bootRegions_ordered h hend v.mem
  rw [← hstat] at hinside hapart
  have hmaxAddr : u.statics.mmState.maxPAddr = boot.bootInfo.createInfo.maxPAddr v.mem := by
    rw [hstat]
    rfl
  refine ⟨rfl, hinside, hapart, ?_, ?_, fun hwrap => ?_⟩
  · apply BitVec.eq_of_toNat_eq
    rw [hmaxAddr, hmaxP]
    exact hmax.symm
  · rw [hmaxAddr, hmaxP]
  · have hfits : SetupFits boot.bootInfo.createInfo v.mem := by
      refine ⟨rfl, ?_⟩
      rw [InWindow, hmaxP]
      omega
    obtain ⟨-, -, hkeep⟩ := kiInitializeMemMgr_ensures hfits (by omega) _ u hrun
    have halloc : u.statics.mmState.pAllocInfo =
        boot.bootInfo.createInfo.pPhysicalAllocationInfo := by
      rw [hstat]
      rfl
    rw [halloc]
    exact ⟨hn, fun i hi => hcopy.carries hr (by omega) hend hrec
      (fun x hx => hkeep x (by omega)) hi⟩

/-- A startup with room for the heap returns. -/
theorem kiStartupSystem_returns (h : HandedOver kernelStart boot.bootInfo)
    (hn : boot.bootInfo.numMemoryRanges.toNat = n)
    (hend : boot.bootInfo.memoryRanges.toNat = kernelEnd.toNat + 8)
    (hrec : Recorded m t.mem kernelEnd memoryMap n) (startArch : Kern MmStatics Unit)
    (hroom : heapEnd kernelEnd n (MultibootTagMmap.maxEnd m memoryMap n) ≤
      MultibootTagMmap.maxEnd m memoryMap n)
    (hwrap : kernVirtOffset.toNat + heapEnd kernelEnd n (MultibootTagMmap.maxEnd m memoryMap n) ≤
      2 ^ 64) :
    Returns (kiStartupSystem kernelStart .memoryManagement boot.bootInfo startArch) t
      fun status _ => status = .success := by
  have hlow := h.low
  have hcount := h.count
  have hbehind := h.behind
  have hranges := h.toNat_ranges
  have hpmm := h.toNat_safePMMArea
  have hoffset := toNat_kernVirtOffset
  have hheap := heapEnd_eq h hn hend (MultibootTagMmap.maxEnd m memoryMap n)
  have hr : boot.bootInfo.ranges.toNat ≤ 2 ^ 38 := by omega
  rw [kiStartupSystem, hn]
  apply (copyRanges_spec (s := t) (n := n) hlow hr (by omega) (by omega)).bind
  intro _ v hcopy
  have hmaxP := hcopy.maxPAddr_eq h hn hend hrec
  have hsetup : SetupRoom kernelStart boot.bootInfo.createInfo v.mem := by
    refine ⟨⟨rfl, ?_⟩, h.start, ?_, ?_⟩
    · rw [InWindow, hmaxP]
      omega
    · omega
    · rw [hmaxP]
      omega
  apply (kiInitializeMemMgr_succeeds hsetup).bind
  intro status u hu
  obtain ⟨rfl, -⟩ := hu
  rw [if_neg (by decide), returns_pure]

end Startup

/-- For every memory map, the regions that boot places behind the kernel are
disjoint, the copies carry the entries, and both maxima are the highest end.  The
startup returns when the memory that the map describes has room for the heap. -/
theorem bootLaidOut_of_handleMemory {s : Machine MmStatics}
    (htag : MemoryMapTag s.mem memoryMap n) (hapart : TagApart kernelEnd memoryMap n)
    (hstart : 0x8000 ≤ kernelStart.toNat ∧ kernelStart.toNat ≤ kernelEnd.toNat)
    {statics : EntryStatics} (hzero : statics.maxAddress = 0) (startArch : Kern MmStatics Unit) :
    Returns (handleMemory kernelEnd memoryMap statics) s fun boot t =>
      Ensures (kiStartupSystem kernelStart .memoryManagement boot.bootInfo startArch) t
        (fun status u => status = .success ∧ BootLaidOut s.mem kernelEnd memoryMap n boot u) ∧
      (heapEnd kernelEnd n (MultibootTagMmap.maxEnd s.mem memoryMap n) ≤
          MultibootTagMmap.maxEnd s.mem memoryMap n →
        kernVirtOffset.toNat +
          heapEnd kernelEnd n (MultibootTagMmap.maxEnd s.mem memoryMap n) ≤ 2 ^ 64 →
        Returns (kiStartupSystem kernelStart .memoryManagement boot.bootInfo startArch) t
          fun status _ => status = .success) := by
  have hfits := htag.fits
  have hlow := hapart.low
  have hrange : (kernelEnd + 8).toNat = kernelEnd.toNat + 8 := toNat_add_ofNat (k := 8) (by omega)
  have hnat : (BitVec.ofNat 64 n).toNat = n := by
    rw [BitVec.toNat_ofNat]
    omega
  obtain ⟨boot, t, hrun, hboot, hmax, hrec⟩ := handleMemory_spec htag hapart statics
  have hover := handleMemory_handedOver hstart.1 hstart.2 hlow statics s boot t hrun
  have hmax' : boot.maxAddress.toNat = MultibootTagMmap.maxEnd s.mem memoryMap n := by
    rw [hmax, hzero]
    exact Nat.zero_max _
  have hn : boot.bootInfo.numMemoryRanges.toNat = n := by
    rw [hboot]
    exact hnat
  have hend : boot.bootInfo.memoryRanges.toNat = kernelEnd.toNat + 8 := by
    rw [hboot]
    exact hrange
  exact returns_of_eq hrun ⟨kiStartupSystem_lays_out hover hn hend hmax' hrec startArch,
    kiStartupSystem_returns hover hn hend hrec startArch⟩

/-- A tag at 320 KiB with two entries, the first 636 KiB and what lies between 1 MiB and
128 MiB. -/
def smallMap : Machine MmStatics :=
  { coldMachine with
    mem := write64 (write64 (write64 (write32 (write32 coldMachine.mem 0x50004 64) 0x50008 24)
      0x50018 0x9F000) 0x50028 0x100000) 0x50030 0x7F00000 }

theorem smallMap_tag : MemoryMapTag smallMap.mem 0x50000 2 :=
  ⟨by decide, by decide, by decide, by decide⟩

theorem smallMap_maxEnd : MultibootTagMmap.maxEnd smallMap.mem 0x50000 2 = 0x8000000 := by
  decide

theorem smallMap_laidOut :
    Returns (handleMemory 0x180000 0x50000 ⟨0, 0, 0, 0⟩) smallMap fun boot t =>
      Returns (kiStartupSystem 0x100000 .memoryManagement boot.bootInfo (pure ())) t fun status u =>
        status = .success ∧ BootLaidOut smallMap.mem 0x180000 0x50000 2 boot u := by
  have hstart : 0x8000 ≤ (0x100000 : Ptr).toNat ∧
      (0x100000 : Ptr).toNat ≤ (0x180000 : Ptr).toNat := ⟨by decide, by decide⟩
  apply (bootLaidOut_of_handleMemory smallMap_tag ⟨by decide, by decide⟩ hstart rfl (pure ())).mono
  intro boot t ht
  obtain ⟨hensures, hreturns⟩ := ht
  rw [smallMap_maxEnd] at hreturns
  obtain ⟨status, u, hrun, -⟩ := hreturns (by decide) (by decide)
  exact returns_of_eq hrun (hensures status u hrun)

end Layout

end FeralKernel
