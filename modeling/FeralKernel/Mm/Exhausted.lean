import FeralKernel.Mm.FreeFrame

/-!
# Looking for a frame when there is none

The outer loop of `MmLookupFreePhysFrame` counts bytes of the bitmap and runs up to
`MaxPAddr`, which counts bytes of memory.  The bitmap that `KiInitializeMemMgr` clears
has `MaxPAddr / (8 * FrameSize)` bytes.  While one of them has a clear bit the scan ends
inside; when none has, it goes on over whatever lies behind.
-/

namespace FeralKernel

open Verif.Program Verif.Bytes

namespace MemoryManagementState

variable (mm : MemoryManagementState)

/-- The bytes of the bitmap. -/
def bitmapBytes : Nat := mm.maxPAddr.toNat / (8 * mm.pAllocInfo.frameSize.toNat)

/-- Every frame of the bitmap is in use. -/
def Exhausted (m : Mem) : Prop := ∀ n, n < 8 * mm.bitmapBytes → mm.bit m n = true

variable {mm}

theorem bitmapBytes_lt (hmax : mm.maxPAddr ≠ 0) : mm.bitmapBytes < mm.maxPAddr.toNat := by
  have hpos : 0 < mm.maxPAddr.toNat := by
    rw [Nat.pos_iff_ne_zero]
    intro hz
    exact hmax (BitVec.eq_of_toNat_eq hz)
  rw [bitmapBytes]
  rcases Nat.eq_zero_or_pos mm.pAllocInfo.frameSize.toNat with hz | hsize
  · rw [hz, Nat.mul_zero, Nat.div_zero]
    exact hpos
  · exact Nat.div_lt_self hpos (by omega)

/-- The address of a frame of the bitmap is put together without overflow. -/
theorem bitLocation_lt {n : Nat} (hn : n < 8 * mm.bitmapBytes) :
    (mm.bitLocation n).toNat < mm.maxPAddr.toNat := by
  have hmax := mm.maxPAddr.isLt
  have hfit : mm.bitmapBytes * (8 * mm.pAllocInfo.frameSize.toNat) ≤ mm.maxPAddr.toNat :=
    Nat.div_mul_le_self _ _
  have hsize : 0 < mm.pAllocInfo.frameSize.toNat := by
    rw [Nat.pos_iff_ne_zero]
    intro hz
    rw [bitmapBytes, hz, Nat.mul_zero, Nat.div_zero] at hn
    exact Nat.not_lt_zero n hn
  have hlt : mm.pAllocInfo.frameSize.toNat * n < mm.maxPAddr.toNat := by
    calc mm.pAllocInfo.frameSize.toNat * n
        < mm.pAllocInfo.frameSize.toNat * (8 * mm.bitmapBytes) :=
          Nat.mul_lt_mul_of_pos_left hn hsize
      _ = mm.bitmapBytes * (8 * mm.pAllocInfo.frameSize.toNat) := by ac_rfl
      _ ≤ mm.maxPAddr.toNat := hfit
  have hsplit : mm.pAllocInfo.frameSize.toNat * n =
      mm.pAllocInfo.frameSize.toNat * (n / 8) * 8 + n % 8 * mm.pAllocInfo.frameSize.toNat := by
    calc mm.pAllocInfo.frameSize.toNat * n
        = mm.pAllocInfo.frameSize.toNat * (8 * (n / 8) + n % 8) := by rw [Nat.div_add_mod]
      _ = mm.pAllocInfo.frameSize.toNat * (8 * (n / 8)) +
          mm.pAllocInfo.frameSize.toNat * (n % 8) := Nat.mul_add _ _ _
      _ = _ := by ac_rfl
  have hlocation : mm.bitLocation n = BitVec.ofNat 64 (mm.pAllocInfo.frameSize.toNat * n) := by
    rw [hsplit, bitLocation, BitVec.ofNat_add, BitVec.ofNat_mul, BitVec.ofNat_mul,
      BitVec.ofNat_mul, BitVec.ofNat_toNat, BitVec.setWidth_eq]
    rfl
  rw [hlocation, BitVec.toNat_ofNat, Nat.mod_eq_of_lt (Nat.lt_trans hlt hmax)]
  exact hlt

end MemoryManagementState

/-- A scan that has read `n` bytes has read inside a bitmap of `size` bytes only if it
read no more than these. -/
theorem Scanned.inside_iff {mm : MemoryManagementState} {s t : Machine MmStatics} {n size : Nat}
    (h : Scanned mm s n t) (hn : n ≤ 2 ^ 64) :
    Records (fun e => ∃ k, k < size ∧ e = .read (mm.bitmaskUsedFrames + BitVec.ofNat 64 k) 1)
      s t ↔ n ≤ size := by
  obtain ⟨new, hnew, hall⟩ := h.reads
  constructor
  · intro hrec
    obtain ⟨new', hnew', hin⟩ := hrec
    obtain rfl : new = new' := List.append_cancel_right (hnew.symm.trans hnew')
    by_contra hlt
    obtain ⟨k, hk, he⟩ := hin _ ((hall _).mpr ⟨size, by omega, rfl⟩)
    injection he with haddr
    have hval := congrArg BitVec.toNat (BitVec.add_right_inj _ |>.mp haddr)
    rw [BitVec.toNat_ofNat, BitVec.toNat_ofNat] at hval
    omega
  · intro hle
    refine ⟨new, hnew, fun e he => ?_⟩
    obtain ⟨k, hk, rfl⟩ := (hall e).mp he
    exact ⟨k, by omega, rfl⟩

/-- What a caller may expect of the lookup: with every frame in use it says so, and it
neither looks behind the bitmap nor finds a frame there. -/
def LooksInBitmap (s : Machine MmStatics) : Prop :=
  Returns mmLookupFreePhysFrame s fun r t =>
    (s.statics.mmState.Exhausted s.mem → r = (.memoryPageFailure, 0)) ∧
    Records (fun e => ∃ k, k < s.statics.mmState.bitmapBytes ∧
      e = .read (s.statics.mmState.bitmaskUsedFrames + BitVec.ofNat 64 k) 1) s t ∧
    (r.1 = .success → r.2 < s.statics.mmState.maxPAddr)

/-- With every frame in use the scan reads the byte behind the bitmap. -/
theorem not_looksInBitmap {s : Machine MmStatics} (hmax : s.statics.mmState.maxPAddr ≠ 0)
    (hfull : s.statics.mmState.Exhausted s.mem) : ¬ LooksInBitmap s := by
  intro hlooks
  obtain ⟨r, t, -, hscan, -, hinside, -⟩ := (mmLookupFreePhysFrame_scan s).and hlooks
  have hbytes := MemoryManagementState.bitmapBytes_lt hmax
  have hlt := s.statics.mmState.maxPAddr.isLt
  rcases hscan with ⟨n, hn, hclear, -, -, hscanned⟩ | ⟨-, -, hscanned⟩
  · -- the clear bit that ends the scan is none of the bitmap's
    have hle := (hscanned.inside_iff (by omega)).mp hinside
    rw [hfull n (by omega)] at hclear
    cases hclear
  · have hle := (hscanned.inside_iff (by omega)).mp hinside
    omega

/-- The lookup keeps to the bitmap exactly when a frame of it is free.  With no memory
at all there is nothing to scan. -/
theorem looksInBitmap_iff (s : Machine MmStatics) :
    LooksInBitmap s ↔ s.statics.mmState.maxPAddr = 0 ∨
      ∃ n, n < 8 * s.statics.mmState.bitmapBytes ∧ s.statics.mmState.bit s.mem n = false := by
  constructor
  · intro hlooks
    by_contra hnot
    obtain ⟨hmax, hnone⟩ := not_or.mp hnot
    refine not_looksInBitmap hmax (fun n hn => ?_) hlooks
    cases hbit : s.statics.mmState.bit s.mem n with
    | true => rfl
    | false => exact absurd ⟨n, hn, hbit⟩ hnone
  · intro hcase
    have hlt := s.statics.mmState.maxPAddr.isLt
    apply (mmLookupFreePhysFrame_scan s).mono
    intro r t ht
    rcases ht with ⟨n, hn, hclear, hbefore, rfl, hscanned⟩ | ⟨hfull, rfl, hscanned⟩
    · have hin : n < 8 * s.statics.mmState.bitmapBytes := by
        rcases hcase with hmax | ⟨k, hk, hfree⟩
        · rw [hmax] at hn
          exact absurd hn (Nat.not_lt_zero n)
        · by_contra hout
          rw [hbefore k (by omega)] at hfree
          cases hfree
      refine ⟨fun hfull => ?_, (hscanned.inside_iff (by omega)).mpr (by omega), fun _ => ?_⟩
      · rw [hfull n hin] at hclear
        cases hclear
      · exact BitVec.lt_def.mpr (MemoryManagementState.bitLocation_lt hin)
    · refine ⟨fun _ => rfl, (hscanned.inside_iff (by omega)).mpr ?_, fun h => nomatch h⟩
      rcases hcase with hmax | ⟨k, hk, hfree⟩
      · rw [hmax]
        exact Nat.zero_le _
      · have hle : s.statics.mmState.bitmapBytes ≤ s.statics.mmState.maxPAddr.toNat :=
          Nat.div_le_self _ _
        rw [hfull k (by omega)] at hfree
        cases hfree

/-- Eight frames, all in use, with a cleared byte behind the one of the bitmap. -/
def fullFrames : Machine MmStatics :=
  { smallFrames with
    mem := fun x => if x = phys smallFrames.statics.mmState.bitmaskUsedFrames then 0xFF else 0
    statics := { smallFrames.statics with mmState :=
      { smallFrames.statics.mmState with maxPAddr := 0x8000 } } }

/-- It is told of a frame at the end of memory. -/
theorem fullFrames_beyond_memory :
    fullFrames.statics.mmState.Exhausted fullFrames.mem ∧
    (Returns mmLookupFreePhysFrame fullFrames fun r _ => r = (.success, 0x8000)) ∧
    ¬ LooksInBitmap fullFrames := by
  have hfull : fullFrames.statics.mmState.Exhausted fullFrames.mem := by
    have hbytes : fullFrames.statics.mmState.bitmapBytes = 1 := by decide
    rw [MemoryManagementState.Exhausted, hbytes]
    decide
  exact ⟨hfull, returns_of_eq rfl rfl, not_looksInBitmap (by decide) hfull⟩

end FeralKernel
