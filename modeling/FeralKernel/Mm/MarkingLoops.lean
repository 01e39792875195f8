import FeralKernel.Mm.FreeFrame

/-!
# The marking loops of setup

`KiInitializeMemMgr` marks the frames from `kern_start` to the end of the bitmap, sets the
heap up, and marks the frames from the heap on, if the heap starts below 8 MiB.  Each call
goes through `VALIDATE_SUCCESS`, which stops the kernel when a frame is out of range or
marked already.  The bitmap is cleared at its physical address and used through
`KERN_PHYS_TO_VIRT`, so all depends on the two being the same memory.  The loops use
little of a large bitmap: what they use has to lie below 512 GiB, the rest of it not.
-/

namespace FeralKernel

open Verif.Program Verif.Bytes

/-! ## One loop -/

section Bits

variable {mm : MemoryManagementState}

theorem frameBit_eq_bit (hsize : mm.pAllocInfo.frameSize = 4096) (m : Mem) (location : Ptr) :
    mm.frameBit m location = mm.bit m (frameNumber location) := by
  have hbyte : location.toNat / 32768 = location.toNat / 4096 / 8 := by omega
  rw [MemoryManagementState.frameBit, MemoryManagementState.bit, byteAddr_eq hsize,
    bitNum_eq hsize, frameNumber, hbyte]

/-- Marking a frame leaves the bits of the others alone, as far as the bitmap has each
byte once. -/
theorem bit_setFrameBit (hsize : mm.pAllocInfo.frameSize = 4096) {bytes : Nat}
    (hspan : Spans mm.bitmaskUsedFrames bytes) (m : Mem) {location : Ptr} {n : Nat}
    (hlocation : frameNumber location < 8 * bytes) (hn : n < 8 * bytes)
    (hne : n ≠ frameNumber location) :
    mm.bit (mm.setFrameBit m location true) n = mm.bit m n := by
  have hbyte : location.toNat / 32768 = frameNumber location / 8 := by
    rw [frameNumber]
    omega
  rw [MemoryManagementState.bit, MemoryManagementState.bit, MemoryManagementState.setFrameBit,
    byteAddr_eq hsize, bitNum_eq hsize, if_pos rfl, hbyte]
  by_cases hsame : n / 8 = frameNumber location / 8
  · have hbit : ¬ n % 8 = frameNumber location % 8 := by omega
    rw [hsame, write8_same, bit_set _ (by omega), decide_eq_false hbit, Bool.or_false]
  · rw [write8_outside]
    intro he
    rw [phys_add hspan (by omega), phys_add hspan (by omega)] at he
    omega

end Bits

/-- A marking loop that finds its frames free marks them, and leaves the bits of the
frames behind its end as they are. -/
theorem markFrames_fresh {s : Machine MmStatics} {start stopAt : BitVec 64} {bytes : Nat}
    (hsize : s.statics.mmState.pAllocInfo.frameSize = 4096)
    (hspan : Spans s.statics.mmState.bitmaskUsedFrames bytes)
    (hstop : stopAt.toNat ≤ 2 ^ 63) (hbytes : stopAt.toNat ≤ 32768 * bytes)
    (hmax : stopAt.toNat ≤ s.statics.mmState.maxPAddr.toNat)
    (hfree : ∀ n, start.toNat / 4096 ≤ n → 4096 * n < stopAt.toNat →
      s.statics.mmState.bit s.mem n = false) :
    Returns (markFrames start stopAt 4096) s fun _ t =>
      (∀ n, stopAt.toNat ≤ 4096 * n → n < 8 * bytes →
        s.statics.mmState.bit t.mem n = s.statics.mmState.bit s.mem n) ∧ SameSide s t := by
  -- the frames of the rounds to come and those behind the end are as they were
  have hloop : Returns (markFrames start stopAt 4096) s fun _ t =>
      (∀ n, start.toNat / 4096 + markCount start stopAt ≤ n ∨ stopAt.toNat ≤ 4096 * n →
        n < 8 * bytes → s.statics.mmState.bit t.mem n = s.statics.mmState.bit s.mem n) ∧
      SameSide s t := by
    apply markFrames_rule (fun i t =>
      (∀ n, start.toNat / 4096 + i ≤ n ∨ stopAt.toNat ≤ 4096 * n → n < 8 * bytes →
        s.statics.mmState.bit t.mem n = s.statics.mmState.bit s.mem n) ∧ SameSide s t) hstop
    · intro i t hlt hidx hnum hI
      obtain ⟨hkept, hside⟩ := hI
      have hstat := hside.1
      have hl : ¬ t.statics.mmState.maxPAddr < markIndex start i := by
        rw [hstat, BitVec.lt_def, hidx]
        omega
      have hdiv : t.statics.mmState.pAllocInfo.Divides := by
        rw [hstat]
        exact divides_of_frameSize hsize
      have hbit : ¬ t.statics.mmState.frameBit t.mem (markIndex start i) = true := by
        rw [hstat, frameBit_eq_bit hsize, hnum, hkept _ (Or.inl (Nat.le_refl _)) (by omega),
          hfree _ (by omega) (by omega)]
        decide
      rw [validateSuccess, returns_bind, returns_mmAllocatePhysFrame hdiv, if_neg hl, if_neg hbit,
        if_neg (by simp), returns_pure]
      refine ⟨fun n hn hn' => ?_, hside.trans ⟨rfl, rfl⟩⟩
      show s.statics.mmState.bit (t.statics.mmState.setFrameBit t.mem _ true) n = _
      rw [hstat, bit_setFrameBit hsize hspan _ (by omega) hn' (by omega), hkept n (by omega) hn']
    · exact ⟨fun _ _ _ => rfl, SameSide.refl s⟩
  apply hloop.mono
  intro _ t ht
  exact ⟨fun n hn hn' => ht.1 n (Or.inr hn) hn', ht.2⟩

/-! ## The heap between the loops -/

theorem kiSetMemoryBytes_returns {σ : Type} (dest : Ptr) (val : BitVec 8) {amt : BitVec 64}
    (hamt : amt.toNat ≤ 2 ^ 64 - 4) (s : Machine σ) :
    Returns (kiSetMemoryBytes dest val amt) s fun _ _ => True := by
  apply (kiSetMemoryBytes_rule (fun _ _ => True) hamt (fun _ _ _ _ => trivial) trivial).mono
  intro _ _ _
  trivial

/-- Wherever the heap is put, its setup returns. -/
theorem mmCreateAllocatorState_returns (heapArea : Ptr) (s : Machine MmStatics) :
    Returns (mmCreateAllocatorState 1 heapArea heapSize) s fun _ t =>
      t.statics.mmState = s.statics.mmState := by
  have hreturns : Returns (mmCreateAllocatorState 1 heapArea heapSize) s fun _ _ => True := by
    rw [mmCreateAllocatorState]
    apply (kiSetMemoryBytes_returns _ _ (by decide) s).bind
    intro _ t _
    rw [returns_bind, returns_divide]
    refine ⟨by decide, ?_⟩
    rw [returns_bind, returns_divide]
    refine ⟨by decide, ?_⟩
    simp only [show (1 : BitVec 64).toNat = 1 from rfl, forRange, initializeArena,
      internalInitializeNode, returns_bind, returns_pure, returns_store32, returns_store64,
      returns_getStatics, returns_setStatics, ne_eq, not_true_eq_false, if_false]
    apply (kiSetMemoryBytes_returns _ _ (by decide) _).mono
    intro _ _ _
    trivial
  apply ((mmCreateAllocatorState_statics heapArea heapSize s).returns hreturns).mono
  intro _ t ht
  rw [ht]

/-! ## The two loops together -/

/-- The bytes of the bitmap have a bit for every frame that the loops mark. -/
structure RoomToMark (kernelStart : Ptr) (info : MmCreateInfo) (m : Mem) : Prop where
  frameSize : info.pPhysicalAllocationInfo.frameSize = 4096
  aligned : kernelStart.toNat % 4096 = 0
  above : kernelStart.toNat ≤ info.safePMMArea.toNat
  bitmap : info.safePMMArea.toNat + (info.bufferSize m).toNat ≤
    8 * 4096 * (info.bufferSize m).toNat
  heap : 0x800000 ≤ 8 * 4096 * (info.bufferSize m).toNat

/-- The first `bytes` bytes of the bitmap have an image behind `KERN_PHYS_TO_VIRT`. -/
def BitmapInWindow (info : MmCreateInfo) (bytes : Nat) : Prop :=
  info.safePMMArea.toNat + 4096 + bytes ≤ 0x8000000000

namespace RoomToMark

variable {kernelStart : Ptr} {info : MmCreateInfo} {s t : Machine MmStatics} {bytes : Nat}

theorem toNat_bufferSize {m : Mem} (h : RoomToMark kernelStart info m) :
    (info.bufferSize m).toNat = (info.maxPAddr m).toNat / 32768 :=
  MmCreateInfo.toNat_bufferSize h.frameSize m

theorem toNat_bitmap {m : Mem} (h : RoomToMark kernelStart info m)
    (hwin : BitmapInWindow info bytes) :
    (info.safePMMArea + info.pPhysicalAllocationInfo.frameSize).toNat =
      info.safePMMArea.toNat + 4096 := by
  rw [BitmapInWindow] at hwin
  rw [h.frameSize, BitVec.toNat_add, show (4096 : BitVec 64).toNat = 4096 from rfl]
  omega

theorem toNat_bitmapEnd {m : Mem} (h : RoomToMark kernelStart info m) :
    (info.safePMMArea + info.bufferSize m).toNat =
      info.safePMMArea.toNat + (info.bufferSize m).toNat := by
  have hmax := (info.maxPAddr m).isLt
  have hbuf := h.toNat_bufferSize
  have hroom := h.bitmap
  rw [BitVec.toNat_add]
  omega

theorem spans {m : Mem} (h : RoomToMark kernelStart info m) (hwin : BitmapInWindow info bytes)
    (hpos : 0 < bytes) : Spans (info.mmState m).bitmaskUsedFrames bytes := by
  apply spans_kernPhysToVirt _ hpos
  rw [InWindow, h.toNat_bitmap hwin]
  exact hwin

theorem bit_eq {m : Mem} (h : RoomToMark kernelStart info m) (hwin : BitmapInWindow info bytes)
    (m' : Mem) {n : Nat} (hn : n < 8 * bytes) :
    (info.mmState m).bit m' n =
      (m' (info.safePMMArea.toNat + 4096 + n / 8)).getLsbD (n % 8) := by
  have hphys : phys (info.mmState m).bitmaskUsedFrames = info.safePMMArea.toNat + 4096 := by
    have hw : InWindow (info.safePMMArea + info.pPhysicalAllocationInfo.frameSize) bytes := by
      rw [InWindow, h.toNat_bitmap hwin]
      exact hwin
    rw [MmCreateInfo.mmState, phys_kernPhysToVirt hw (by omega), h.toNat_bitmap hwin]
  rw [MemoryManagementState.bit, phys_add (h.spans hwin (by omega)) (by omega), hphys]

/-- The bitmap is cleared, also where the loops do not come. -/
theorem placeBitmap_clears (h : RoomToMark kernelStart info s.mem)
    (hwin : BitmapInWindow info bytes) :
    Returns (placeBitmap info) s fun bufferSize t =>
      bufferSize = info.bufferSize s.mem ∧ t.statics.mmState = info.mmState s.mem ∧
      ∀ n, n < 8 * bytes → n < 8 * (info.bufferSize s.mem).toNat →
        (info.mmState s.mem).bit t.mem n = false := by
  have hmax := (info.maxPAddr s.mem).isLt
  have hbuf := h.toNat_bufferSize
  have hbitmap := h.toNat_bitmap hwin
  have hset : setBytes (info.bufferSize s.mem) =
      ((info.bufferSize s.mem).toNat + 3) / 4 * 4 := rfl
  have hsafe := hwin
  rw [BitmapInWindow] at hsafe
  have hspan : Spans (info.safePMMArea + info.pPhysicalAllocationInfo.frameSize)
      (setBytes (info.bufferSize s.mem)) := by
    rw [Spans, hbitmap]
    omega
  have hphys : phys (info.safePMMArea + info.pPhysicalAllocationInfo.frameSize) =
      info.safePMMArea.toNat + 4096 := by
    rw [phys, hbitmap, if_neg (by omega)]
  apply (placeBitmap_returns (divides_of_frameSize h.frameSize) hspan (by omega)).mono
  intro bufferSize t ht
  obtain ⟨hsize, hmm, hm⟩ := ht
  refine ⟨hsize, hmm, fun n hn hn' => ?_⟩
  rw [h.bit_eq hwin _ hn, hm, hphys, fill_inside (by omega)]
  simp

/-- The first loop finds its frames free and leaves the frames behind the bitmap free. -/
theorem markFrames_kernel (h : RoomToMark kernelStart info s.mem)
    (hwin : BitmapInWindow info bytes)
    (hbytes : info.safePMMArea.toNat + (info.bufferSize s.mem).toNat ≤ 32768 * bytes)
    (hmm : t.statics.mmState = info.mmState s.mem)
    (hclear : ∀ n, n < 8 * bytes → n < 8 * (info.bufferSize s.mem).toNat →
      (info.mmState s.mem).bit t.mem n = false) :
    Returns (markFrames kernelStart (info.safePMMArea + info.bufferSize s.mem) 4096) t fun _ u =>
      u.statics.mmState = info.mmState s.mem ∧
      ∀ n, info.safePMMArea.toNat + (info.bufferSize s.mem).toNat ≤ 4096 * n → n < 8 * bytes →
        n < 8 * (info.bufferSize s.mem).toNat → (info.mmState s.mem).bit u.mem n = false := by
  have hmax := (info.maxPAddr s.mem).isLt
  have hbuf := h.toNat_bufferSize
  have hroom := h.bitmap
  have hheap := h.heap
  have hend := h.toNat_bitmapEnd
  have hsafe := hwin
  rw [BitmapInWindow] at hsafe
  have hmaxNat : (info.mmState s.mem).maxPAddr.toNat = (info.maxPAddr s.mem).toNat := rfl
  refine (markFrames_fresh (by rw [hmm]; exact h.frameSize)
    (by rw [hmm]; exact h.spans hwin (by omega)) (by omega) (by omega)
    (by rw [hmm, hmaxNat]; omega) ?_).mono ?_
  · intro n _ hn
    rw [hmm]
    exact hclear n (by omega) (by omega)
  intro _ u hu
  obtain ⟨hkept, hside⟩ := hu
  rw [hmm, hend] at hkept
  refine ⟨by rw [hside.1, hmm], fun n hn hn' hn'' => ?_⟩
  rw [hkept n hn hn', hclear n hn' hn'']

/-- A heap that starts below 8 MiB, so that the second loop has frames to mark, goes with
a small bitmap, and everything is in the window. -/
theorem setupFits {m : Mem} (h : RoomToMark kernelStart info m)
    (hlow : info.safePMMArea.toNat + (info.bufferSize m).toNat + 4096 < 0x800000) :
    SetupFits info m := by
  have hbuf := h.toNat_bufferSize
  refine ⟨h.frameSize, ?_⟩
  rw [InWindow]
  omega

theorem toNat_heapAddr {m : Mem} (h : RoomToMark kernelStart info m)
    (hwin : BitmapInWindow info bytes) :
    (info.heapAddr m).toNat =
      info.safePMMArea.toNat + (info.bufferSize m).toNat + 4096 := by
  have hmax := (info.maxPAddr m).isLt
  have hbuf := h.toNat_bufferSize
  have hend := h.toNat_bitmapEnd
  rw [BitmapInWindow] at hwin
  rw [MmCreateInfo.heapAddr, BitVec.toNat_add, hend, h.frameSize,
    show (4096 : BitVec 64).toNat = 4096 from rfl]
  omega

/-- The second loop, when it has frames to mark: they lie behind the frames of the first
one, and the heap behind the bitmap. -/
theorem markFrames_heap (h : RoomToMark kernelStart info s.mem)
    (hlow : info.safePMMArea.toNat + (info.bufferSize s.mem).toNat + 4096 < 0x800000)
    (hmm : t.statics.mmState = info.mmState s.mem)
    (hclear : ∀ n, info.safePMMArea.toNat + (info.bufferSize s.mem).toNat ≤ 4096 * n →
      n < 8 * (info.bufferSize s.mem).toNat → (info.mmState s.mem).bit t.mem n = false) :
    Returns (mmCreateAllocatorState 1 (info.heapAddr s.mem) heapSize) t fun _ u =>
      Returns (markFrames (info.heapAddr s.mem) heapSize 4096) u fun _ _ => True := by
  have hbuf := h.toNat_bufferSize
  have hroom := h.heap
  have hwin : BitmapInWindow info (info.bufferSize s.mem).toNat := by
    rw [BitmapInWindow]
    omega
  have haddr := h.toNat_heapAddr hwin
  have hsize : heapSize.toNat = 0x800000 := rfl
  have hmaxNat : (info.mmState s.mem).maxPAddr.toNat = (info.maxPAddr s.mem).toNat := rfl
  apply (heap_keeps_below (h.setupFits hlow) hmm).mono
  intro _ u hu
  obtain ⟨hmm', -, hbelow⟩ := hu
  refine (markFrames_fresh (by rw [hmm']; exact h.frameSize)
    (by rw [hmm']; exact h.spans hwin (by omega)) (by omega) (by omega)
    (by rw [hmm', hmaxNat]; omega) ?_).mono ?_
  · intro n hn hn'
    have hkept := hclear n (by omega) (by omega)
    rw [h.bit_eq hwin _ (by omega)] at hkept
    rw [hmm', h.bit_eq hwin _ (by omega), hbelow _ (by omega), hkept]
  · intro _ _ _
    trivial

end RoomToMark

theorem markFrames_none {start stopAt frameSize : BitVec 64} {s : Machine MmStatics}
    {Q : Unit → Machine MmStatics → Prop} (h : ¬ start < stopAt) (hQ : Q () s) :
    Returns (markFrames start stopAt frameSize) s Q := by
  rw [markFrames, loopBound_eq]
  refine returns_iterate_done () ?_ _ hQ
  exact if_neg h

/-- When the bits that the loops use are in the window, every frame is found in range and
free, and setup succeeds. -/
theorem kiInitializeMemMgr_marks {kernelStart : Ptr} {info : MmCreateInfo}
    {s : Machine MmStatics} (h : RoomToMark kernelStart info s.mem)
    (hwin : info.safePMMArea.toNat + 4096 +
      (info.safePMMArea.toNat + (info.bufferSize s.mem).toNat) / 32768 < 0x8000000000) :
    Returns (kiInitializeMemMgr kernelStart info) s fun status _ => status = .success := by
  have haddr : info.safePMMArea + info.bufferSize s.mem + 4096 = info.heapAddr s.mem := by
    rw [MmCreateInfo.heapAddr, h.frameSize]
  rw [kiInitializeMemMgr, returns_bind]
  simp only [reserveFrames, h.frameSize, returns_bind, returns_pure]
  by_cases hlow : info.safePMMArea.toNat + (info.bufferSize s.mem).toNat + 4096 < 0x800000
  · -- the whole bitmap is in the window
    have hall : BitmapInWindow info (info.bufferSize s.mem).toNat := by
      rw [BitmapInWindow]
      omega
    apply (h.placeBitmap_clears hall).mono
    intro bufferSize t ht
    obtain ⟨rfl, hmm, hclear⟩ := ht
    apply (h.markFrames_kernel hall h.bitmap hmm hclear).mono
    intro _ u hu
    obtain ⟨hmm', hclear'⟩ := hu
    rw [haddr]
    apply (h.markFrames_heap hlow hmm' fun n hn hn' => hclear' n hn hn' hn').mono
    intro _ v hv
    apply hv.mono
    intro _ _ _
    trivial
  · -- the second loop has nothing to do
    have hused : BitmapInWindow info
        ((info.safePMMArea.toNat + (info.bufferSize s.mem).toNat) / 32768 + 1) := hwin
    apply (h.placeBitmap_clears hused).mono
    intro bufferSize t ht
    obtain ⟨rfl, hmm, hclear⟩ := ht
    apply (h.markFrames_kernel hused (by omega) hmm hclear).mono
    intro _ u _
    rw [haddr]
    apply (mmCreateAllocatorState_returns _ u).mono
    intro _ v _
    refine markFrames_none ?_ trivial
    rw [BitVec.lt_def, h.toNat_heapAddr hused]
    exact hlow

theorem smallInfo_marks :
    Returns (kiInitializeMemMgr 0x100000 smallInfo) smallMachine fun status _ =>
      status = .success := by
  have hbuf : (smallInfo.bufferSize smallMachine.mem).toNat = 0x1000 := by
    rw [MmCreateInfo.bufferSize, smallInfo_maxPAddr]
    rfl
  apply kiInitializeMemMgr_marks ⟨rfl, by decide, by decide, ?_, ?_⟩
  · rw [hbuf]
    decide
  · rw [hbuf]
    decide
  · rw [hbuf]
    decide

/-! ## A bitmap at 512 GiB -/

/-- A frame that is marked already stops the loop. -/
theorem not_returns_markFrames {start stopAt frameSize : BitVec 64} {s : Machine MmStatics}
    {Q : Unit → Machine MmStatics → Prop} (hgo : start < stopAt)
    (hdiv : s.statics.mmState.pAllocInfo.Divides)
    (hmax : ¬ s.statics.mmState.maxPAddr < start)
    (hused : s.statics.mmState.frameBit s.mem start = true) :
    ¬ Returns (markFrames start stopAt frameSize) s Q := by
  intro h
  rw [markFrames, loopBound_eq, iterate, if_pos hgo, returns_bind, returns_bind, validateSuccess,
    returns_bind, returns_mmAllocatePhysFrame hdiv, if_neg hmax, if_pos hused, if_pos (by decide),
    returns_bind] at h
  obtain ⟨_, _, -, hstop⟩ := h
  exact not_returns_stop hstop

/-- 1 TiB of memory with the safe area in the middle. -/
def farInfo : MmCreateInfo where
  pPhysicalAllocationInfo := { frameSize := 4096, memoryAreaRangeCount := 1, ranges := 0x180000 }
  safePMMArea := 0x8000000000

/-- `KERN_PHYS_TO_VIRT` takes the bitmap to 0x1000, where the bit of the kernel's first
frame is set. -/
def farMachine : Machine MmStatics :=
  { coldMachine with
    mem := write8 (write64 coldMachine.mem 0x180018 0x10000000000) 0x1020 1 }

theorem farInfo_maxPAddr : farInfo.maxPAddr farMachine.mem = 0x10000000000 := by
  show highestEnd farMachine.mem 0x180000 1 = 0x10000000000
  have haddr : phys (MmMemoryRange.endAddr (MmMemoryRange.item 0x180000 0)) = 0x180018 := by
    decide
  simp only [highestEnd, haddr]
  decide

/-- There is room, and the first call of the first loop fails. -/
theorem farInfo_stops :
    RoomToMark 0x100000 farInfo farMachine.mem ∧
    ¬ Returns (kiInitializeMemMgr 0x100000 farInfo) farMachine fun status _ =>
      status = .success := by
  have hbuf : farInfo.bufferSize farMachine.mem = 0x2000000 := by
    rw [MmCreateInfo.bufferSize, farInfo_maxPAddr]
    rfl
  have hplaced := placeBitmap_returns (s := farMachine) (divides_of_frameSize rfl)
    (by rw [hbuf]; unfold Spans; decide) (by rw [hbuf]; decide)
  refine ⟨⟨rfl, by decide, by decide, by rw [hbuf]; decide, by rw [hbuf]; decide⟩, fun h => ?_⟩
  rw [kiInitializeMemMgr, returns_bind] at h
  obtain ⟨bufferSize, t, -, hrest, rfl, hmm, hm⟩ := h.and hplaced
  rw [returns_bind, reserveFrames, returns_bind, hbuf] at hrest
  refine not_returns_markFrames (by decide) ?_ ?_ ?_ hrest
  · rw [hmm]
    exact divides_of_frameSize rfl
  · rw [hmm, MmCreateInfo.mmState, farInfo_maxPAddr]
    decide
  · have hbyte : phys ((farInfo.mmState farMachine.mem).byteAddr 0x100000) = 0x1020 := by decide
    have hbit : (farInfo.mmState farMachine.mem).bitNum 0x100000 = 0 := by decide
    rw [hmm, MemoryManagementState.frameBit, hm, hbyte, hbit, fill_outside (by decide)]
    decide

end FeralKernel
