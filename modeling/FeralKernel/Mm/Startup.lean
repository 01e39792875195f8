import FeralKernel.Mm.FreeFrame

/-!
# Starting the memory manager at boot

`HandleMemory` of `kern/entry/mb2entry.c` writes the memory map behind the kernel
image, and `KiStartupSystem` of `kern/kernel_main.c` copies it, turns the ranges
below 1 MiB into reserved ones and calls `KiInitializeMemMgr`.  Nothing after
that reads the type of a range.
-/

namespace FeralKernel

open Verif.Program Verif.Bytes

variable {σ : Type}

/-! ## The code -/

namespace MmStructureType

def freeAreaRange : BitVec 32 := 9
def reservedAreaRange : BitVec 32 := 11
def otherAreaRange : BitVec 32 := 12

end MmStructureType

namespace BootMemoryRange

def byteSize : BitVec 64 := 24

def usage (r : Ptr) : Ptr := r + 0#64
def start (r : Ptr) : Ptr := r + 8#64
def endAddr (r : Ptr) : Ptr := r + 16#64

def item (ranges : Ptr) (n : Nat) : Ptr := ranges + byteSize * BitVec.ofNat 64 n

end BootMemoryRange

/-- The fields of `SystemBootInfo` that memory management reads. -/
structure SystemBootInfo where
  numMemoryRanges : BitVec 64
  memoryRanges : Ptr
deriving DecidableEq

namespace MultibootTagMmap

def size (tag : Ptr) : Ptr := tag + 4#64
def entrySize (tag : Ptr) : Ptr := tag + 8#64
def entry (tag : Ptr) (n : Nat) : Ptr := tag + 16#64 + 24#64 * BitVec.ofNat 64 n

def addr (e : Ptr) : Ptr := e + 0#64
def len (e : Ptr) : Ptr := e + 8#64
def type (e : Ptr) : Ptr := e + 16#64

end MultibootTagMmap

/-- The usage recorded for an `E820_MEMORY_TYPE`: 1 is free, 2 to 4 are reserved,
ACPI and NVS. -/
def usageOfType (type : BitVec 32) : BitVec 32 :=
  if type = 1 then MmStructureType.freeAreaRange
  else if type = 2 ∨ type = 3 ∨ type = 4 then MmStructureType.reservedAreaRange
  else MmStructureType.otherAreaRange

/-- The static variables of `mb2entry.c` that describe memory. -/
structure EntryStatics where
  memoryRangeCount : BitVec 64
  maxAddress : Ptr
  bootInfo : SystemBootInfo
deriving DecidableEq

def internalGetMaxPhysicalAddressFunc (statics : EntryStatics) : Ptr := statics.maxAddress

/-- The body of the loop in `HandleMemory`, which carries `MaxAddress`. -/
def recordRange (memRange memoryMap : Ptr) (index : Nat) (maxAddress : Ptr) : Kern σ Ptr := do
  let entry := MultibootTagMmap.entry memoryMap index
  let range := BootMemoryRange.item memRange index
  let addr ← load64 (MultibootTagMmap.addr entry)
  let len ← load64 (MultibootTagMmap.len entry)
  let type ← load32 (MultibootTagMmap.type entry)
  store32 (BootMemoryRange.usage range) (usageOfType type)
  store64 (BootMemoryRange.start range) addr
  let start ← load64 (BootMemoryRange.start range)
  store64 (BootMemoryRange.endAddr range) (start + len)
  let endAddr ← load64 (BootMemoryRange.endAddr range)
  pure (if maxAddress < endAddr then endAddr else maxAddress)

/-- `kernelEnd` is the page behind the linker symbol `kern_end`. -/
def handleMemory (kernelEnd memoryMap : Ptr) (statics : EntryStatics) : Kern σ EntryStatics := do
  let memRange := kernelEnd + 8
  let size ← load32 (MultibootTagMmap.size memoryMap)
  let entrySize ← load32 (MultibootTagMmap.entrySize memoryMap)
  let entries ← divide size entrySize
  let maxIndex := entries.setWidth 64
  store64 kernelEnd maxIndex
  let maxAddress ← forRange (recordRange memRange memoryMap) maxIndex.toNat 0 statics.maxAddress
  pure
    { memoryRangeCount := maxIndex
      maxAddress := maxAddress
      bootInfo := { numMemoryRanges := maxIndex, memoryRanges := memRange } }

/-- `KiSubsystemIdentifier`, whose other members are all treated alike. -/
inductive KiSubsystemIdentifier where
  | memoryManagement
  | archSpecific
  | other
deriving DecidableEq

/-- The body of the loop in `KiStartupSystem`. -/
def copyRange (bootRange ranges : Ptr) (index : Nat) : Kern σ Unit := do
  let boot := BootMemoryRange.item bootRange index
  let range := MmMemoryRange.item ranges index
  let usage ← load32 (BootMemoryRange.usage boot)
  store32 (MmMemoryRange.sType range) usage
  store64 (MmMemoryRange.pNext range) 0
  let start ← load64 (BootMemoryRange.start boot)
  store64 (MmMemoryRange.start range) start
  let endAddr ← load64 (BootMemoryRange.endAddr boot)
  store64 (MmMemoryRange.endAddr range) endAddr
  let endAddr ← load64 (MmMemoryRange.endAddr range)
  let start ← load64 (MmMemoryRange.start range)
  store64 (MmMemoryRange.size range) (endAddr - start)
  let start ← load64 (MmMemoryRange.start range)
  if start < 1024 * 1024 then
    store32 (MmMemoryRange.sType range) MmStructureType.reservedAreaRange

namespace SystemBootInfo

variable (bootInfo : SystemBootInfo)

/-- Where the copies go: one element behind the boot ranges. -/
def ranges : Ptr :=
  bootInfo.memoryRanges + BootMemoryRange.byteSize * (bootInfo.numMemoryRanges + 1)

/-- What `KiStartupSystem` passes to `KiInitializeMemMgr`. -/
def createInfo : MmCreateInfo where
  pPhysicalAllocationInfo :=
    { frameSize := 4096
      memoryAreaRangeCount := bootInfo.numMemoryRanges
      ranges := bootInfo.ranges }
  safePMMArea := bootInfo.ranges + MmMemoryRange.byteSize * (bootInfo.numMemoryRanges + 4096)

end SystemBootInfo

/-- `startArch` is the machine-dependent and serial setup of the other branch. -/
def kiStartupSystem (kernelStart : Ptr) (subsystem : KiSubsystemIdentifier)
    (bootInfo : SystemBootInfo) (startArch : Kern MmStatics Unit) :
    Kern MmStatics FeralStatus := do
  match subsystem with
  | .memoryManagement =>
    forRange (fun index _ => copyRange bootInfo.memoryRanges bootInfo.ranges index)
      bootInfo.numMemoryRanges.toNat 0 ()
    let status ← kiInitializeMemMgr kernelStart bootInfo.createInfo
    if status ≠ .success then pure status
    else pure .success
  | .archSpecific =>
    startArch
    pure .success
  | .other => pure .success

/-! ## What boot hands over -/

/-- The boot information as `HandleMemory` leaves it: the ranges lie behind the
kernel image, which is loaded below 4 GiB and not in the first 32 KiB (the linker
scripts start it at 1 MiB), and their number is a quotient of two 32-bit
numbers. -/
structure HandedOver (kernelStart : Ptr) (bootInfo : SystemBootInfo) : Prop where
  start : 0x8000 ≤ kernelStart.toNat
  behind : kernelStart.toNat ≤ bootInfo.memoryRanges.toNat
  low : bootInfo.memoryRanges.toNat ≤ 2 ^ 32
  count : bootInfo.numMemoryRanges.toNat < 2 ^ 32

theorem handleMemory_handedOver {kernelStart kernelEnd memoryMap : Ptr}
    (hstart : 0x8000 ≤ kernelStart.toNat) (hbehind : kernelStart.toNat ≤ kernelEnd.toNat)
    (hlow : kernelEnd.toNat + 8 ≤ 2 ^ 32) (statics : EntryStatics) (s : Machine σ) :
    Ensures (handleMemory kernelEnd memoryMap statics) s fun boot _ =>
      HandedOver kernelStart boot.bootInfo := by
  rw [handleMemory]
  simp only [ensures_bind]
  apply Returns.ensures
  rw [returns_load32]
  apply Returns.ensures
  rw [returns_load32, ensures_divide]
  intro _
  apply Returns.ensures
  rw [returns_store64]
  intro _ t _
  rw [ensures_pure]
  have hadd : (kernelEnd + 8).toNat = kernelEnd.toNat + 8 := toNat_add_ofNat (k := 8) (by omega)
  constructor
  · exact hstart
  · rw [hadd]
    omega
  · rw [hadd]
    exact hlow
  · rw [BitVec.toNat_setWidth]
    have hlt := (read32 s.mem (phys (MultibootTagMmap.size memoryMap)) /
      read32 (s.note (.read (MultibootTagMmap.size memoryMap) 4)).mem
        (phys (MultibootTagMmap.entrySize memoryMap))).isLt
    omega

theorem HandedOver.toNat_ranges {kernelStart : Ptr} {bootInfo : SystemBootInfo}
    (h : HandedOver kernelStart bootInfo) : bootInfo.ranges.toNat =
      bootInfo.memoryRanges.toNat + 24 * (bootInfo.numMemoryRanges.toNat + 1) := by
  have hlow := h.low
  have hcount := h.count
  rw [SystemBootInfo.ranges, BitVec.toNat_add, BitVec.toNat_mul, BitVec.toNat_add,
    show BootMemoryRange.byteSize.toNat = 24 from rfl, show (1 : BitVec 64).toNat = 1 from rfl]
  omega

theorem HandedOver.toNat_safePMMArea {kernelStart : Ptr} {bootInfo : SystemBootInfo}
    (h : HandedOver kernelStart bootInfo) :
    bootInfo.createInfo.safePMMArea.toNat =
      bootInfo.memoryRanges.toNat + 64 * bootInfo.numMemoryRanges.toNat + 163864 := by
  have hlow := h.low
  have hcount := h.count
  rw [SystemBootInfo.createInfo, BitVec.toNat_add, h.toNat_ranges, BitVec.toNat_mul,
    BitVec.toNat_add, show MmMemoryRange.byteSize.toNat = 40 from rfl,
    show (4096 : BitVec 64).toNat = 4096 from rfl]
  omega

/-- Physical addresses have at most 52 bits, so the bitmap and the heap of every
memory map fit below 512 GiB. -/
theorem HandedOver.setupFits {kernelStart : Ptr} {bootInfo : SystemBootInfo}
    (h : HandedOver kernelStart bootInfo) {m : Mem}
    (hphys : (bootInfo.createInfo.maxPAddr m).toNat ≤ 2 ^ 52) :
    SetupFits bootInfo.createInfo m := by
  have hlow := h.low
  have hcount := h.count
  refine ⟨rfl, ?_⟩
  rw [InWindow, h.toNat_safePMMArea]
  omega

/-! ## Frame zero stays free -/

/-- A setup that returns has found the kernel's first frame in range, has marked
two runs of frames, and has left what lies below the bitmap alone. -/
theorem kiInitializeMemMgr_ensures {kernelStart : Ptr} {info : MmCreateInfo}
    {s : Machine MmStatics} (h : SetupFits info s.mem) (hstart : kernelStart.toNat ≤ 2 ^ 63) :
    Ensures (kiInitializeMemMgr kernelStart info) s fun _ t =>
      (kernelStart.toNat < info.safePMMArea.toNat →
        kernelStart.toNat ≤ (info.maxPAddr s.mem).toNat) ∧
      (∃ k1 k2, ∀ n, n < 8 * ((info.maxPAddr s.mem).toNat / 32768) →
        (info.mmState s.mem).frames t.mem n =
          (decide (kernelStart.toNat / 4096 ≤ n ∧ n < kernelStart.toNat / 4096 + k1) ||
            decide ((info.heapAddr s.mem).toNat / 4096 ≤ n ∧
              n < (info.heapAddr s.mem).toNat / 4096 + k2))) ∧
      ∀ x, x < info.safePMMArea.toNat + 4096 → t.mem x = s.mem x := by
  have hw := h.window
  rw [InWindow] at hw
  have hend := h.toNat_bitmapEnd
  have hheap := h.toNat_heapAddr
  have hsize : heapSize.toNat = 0x800000 := rfl
  have hmarked : ∀ {m m' : Mem} {a k : Nat}, Marked (info.mmState s.mem) m m' a k →
      ∀ x, x < info.safePMMArea.toNat + 4096 → m' x = m x := by
    intro m m' a k hmark x hx
    apply hmark.frame
    intro i hi
    rw [h.phys_byte hi]
    omega
  rw [kiInitializeMemMgr]
  refine (placeBitmap_spec h).ensures.bind ?_
  intro bufferSize t ht
  obtain ⟨rfl, hmm, hm⟩ := ht
  simp only [reserveFrames, h.frameSize, ensures_bind, ensures_pure]
  refine (markFrames_ensures (by rw [hmm]; exact h.bitmapValid) (by omega) (by omega)).mono ?_
  intro _ t1 h1
  obtain ⟨⟨k1, hmark1⟩, hfirst, hside1⟩ := h1
  rw [hmm] at hmark1 hfirst
  have hmm1 : t1.statics.mmState = info.mmState s.mem := by rw [hside1.1, hmm]
  have haddr : info.safePMMArea + info.bufferSize s.mem + 4096 = info.heapAddr s.mem := by
    rw [MmCreateInfo.heapAddr, h.frameSize]
  rw [haddr]
  refine (heap_keeps_below h hmm1).ensures.mono ?_
  intro _ t2 h2
  obtain ⟨hmm2, -, hkeep⟩ := h2
  refine (markFrames_ensures (by rw [hmm2]; exact h.bitmapValid) (by omega) (by omega)).mono ?_
  intro _ t3 h3
  obtain ⟨⟨k2, hmark2⟩, -, -⟩ := h3
  rw [hmm2] at hmark2
  refine ⟨?_, ⟨k1, k2, fun n hn => ?_⟩, fun x hx => ?_⟩
  · -- the loop starts below its end, so it has looked up the kernel's first frame
    intro habove
    have hin := hfirst (by rw [BitVec.lt_def, hend]; omega)
    rw [BitVec.lt_def] at hin
    exact Nat.not_lt.mp hin
  · rw [hmark2.frames n (by show 4096 * n ≤ (info.maxPAddr s.mem).toNat; omega),
      h.frames_congr hkeep hn,
      hmark1.frames n (by show 4096 * n ≤ (info.maxPAddr s.mem).toNat; omega), hm,
      h.frames_cleared s.mem hn, Bool.false_or]
  · rw [hmarked hmark2 x hx, hkeep x (by omega), hmarked hmark1 x hx, hm, fill_outside (by omega)]

theorem kiInitializeMemMgr_frame_zero {kernelStart : Ptr} {info : MmCreateInfo}
    {s : Machine MmStatics} (h : SetupFits info s.mem) (hstart : 0x8000 ≤ kernelStart.toNat)
    (habove : kernelStart.toNat < info.safePMMArea.toNat) :
    Ensures (kiInitializeMemMgr kernelStart info) s fun _ t =>
      0x8000 ≤ (info.maxPAddr s.mem).toNat ∧ (info.mmState s.mem).frames t.mem 0 = false := by
  have hw := h.window
  rw [InWindow] at hw
  have hheap := h.toNat_heapAddr
  refine (kiInitializeMemMgr_ensures h (by omega)).mono ?_
  intro _ t ht
  obtain ⟨hfirst, ⟨k1, k2, hframes⟩, -⟩ := ht
  have hmax := hfirst habove
  refine ⟨Nat.le_trans hstart hmax, ?_⟩
  have hn1 : ¬ (kernelStart.toNat / 4096 ≤ 0 ∧ 0 < kernelStart.toNat / 4096 + k1) := by omega
  have hn2 : ¬ ((info.heapAddr s.mem).toNat / 4096 ≤ 0 ∧
      0 < (info.heapAddr s.mem).toNat / 4096 + k2) := by omega
  rw [hframes 0 (by omega), decide_eq_false hn1, decide_eq_false hn2]
  rfl

/-- The search finds frame zero when it is free. -/
theorem mmLookupFreePhysFrame_zero {t : Machine MmStatics}
    (hsize : t.statics.mmState.pAllocInfo.frameSize = 4096)
    (hmax : 0 < t.statics.mmState.maxPAddr.toNat)
    (hfree : t.statics.mmState.frames t.mem 0 = false) :
    Returns mmLookupFreePhysFrame t fun r u =>
      r = (.success, 0) ∧ u.statics = t.statics ∧ u.mem = t.mem := by
  obtain ⟨n, hn⟩ : ∃ n, t.statics.mmState.maxPAddr.toNat = n + 1 := ⟨_, (Nat.sub_add_cancel hmax).symm⟩
  have hbit : internalGetValueOfBit
      (t.mem (phys (t.statics.mmState.bitmaskUsedFrames + BitVec.ofNat 64 0))) 0 = false := by
    rw [internalGetValueOfBit_eq _ (by omega)]
    rw [MemoryManagementState.frames, MemoryManagementState.frameBit, byteAddr_eq hsize,
      bitNum_eq hsize] at hfree
    exact hfree
  simp only [mmLookupFreePhysFrame, returns_bind, returns_getStatics, hn, forCount, returns_load8,
    hbit, if_true, returns_pure]
  refine ⟨?_, rfl, rfl⟩
  rw [hsize]
  rfl

/-! ## Taking and giving back frames -/

/-- `acquire` looks a free frame up and allocates it.  `release i` frees the frame
at position `i` of those held. -/
inductive FrameOp where
  | acquire
  | release (i : Nat)
deriving DecidableEq

/-- The frames that `MmLookupFreePhysFrame` returns over a run. -/
def frameOps : List FrameOp → List Ptr → Kern MmStatics (List Ptr)
  | [], _ => pure []
  | .acquire :: rest, held => do
    let (status, location) ← mmLookupFreePhysFrame
    if status = .success then
      let _ ← mmAllocatePhysFrame location true
      let found ← frameOps rest (held ++ [location])
      pure (location :: found)
    else frameOps rest held
  | .release i :: rest, held =>
    match held[i]? with
    | some location => do
      let _ ← mmAllocatePhysFrame location false
      frameOps rest (held.eraseIdx i)
    | none => frameOps rest held

/-- A frame at or above 1 MiB that meets no recorded range other than a free one. -/
def FrameUsable (t : Machine MmStatics) (location : Ptr) : Prop :=
  0x100000 ≤ location.toNat ∧
  ∀ i, i < t.statics.mmState.pAllocInfo.memoryAreaRangeCount.toNat →
    let range := MmMemoryRange.item t.statics.mmState.pAllocInfo.ranges i
    read32 t.mem (phys (MmMemoryRange.sType range)) ≠ MmStructureType.freeAreaRange →
      ¬ ((read64 t.mem (phys (MmMemoryRange.start range))).toNat < location.toNat + 4096 ∧
        location.toNat < (read64 t.mem (phys (MmMemoryRange.endAddr range))).toNat)

/-- No run from `t` is ever offered a frame that is not usable. -/
def OffersUsable (t : Machine MmStatics) : Prop :=
  ∀ ops, Ensures (frameOps ops []) t fun found _ => ∀ location ∈ found, FrameUsable t location

theorem not_offersUsable {t : Machine MmStatics}
    (hsize : t.statics.mmState.pAllocInfo.frameSize = 4096)
    (hmax : 0 < t.statics.mmState.maxPAddr.toNat)
    (hfree : t.statics.mmState.frames t.mem 0 = false) : ¬ OffersUsable t := by
  intro hall
  have hrun : Returns (frameOps [.acquire] []) t fun found _ => found = [0] := by
    rw [frameOps]
    apply (mmLookupFreePhysFrame_zero hsize hmax hfree).bind
    intro r u hr
    obtain ⟨rfl, hstat, -⟩ := hr
    simp only [if_true, returns_bind, frameOps, returns_pure]
    have hdiv : u.statics.mmState.pAllocInfo.Divides := by
      rw [hstat]
      exact divides_of_frameSize hsize
    rw [returns_mmAllocatePhysFrame hdiv]
    split
    · trivial
    · split <;> trivial
  obtain ⟨found, u, he, rfl⟩ := hrun
  have husable := hall [.acquire] [0] u he 0 (List.mem_singleton.mpr rfl)
  exact absurd husable.1 (by decide)

/-- What startup leaves: frames of 4 KiB, some memory, and frame zero free. -/
theorem kiStartupSystem_frame_zero {kernelStart : Ptr} {bootInfo : SystemBootInfo}
    (h : HandedOver kernelStart bootInfo) (startArch : Kern MmStatics Unit) (s : Machine MmStatics) :
    Ensures (kiStartupSystem kernelStart .memoryManagement bootInfo startArch) s fun _ t =>
      t.statics.mmState.maxPAddr.toNat ≤ 2 ^ 52 →
        t.statics.mmState.pAllocInfo.frameSize = 4096 ∧
        0 < t.statics.mmState.maxPAddr.toNat ∧ t.statics.mmState.frames t.mem 0 = false := by
  have hpmm := h.toNat_safePMMArea
  have hbehind := h.behind
  rw [kiStartupSystem]
  refine Ensures.bind (P := fun _ _ => True) (fun _ _ _ => trivial) ?_
  intro _ u _
  rw [ensures_bind]
  intro status t hrun
  obtain ⟨rfl, hstat⟩ := kiInitializeMemMgr_statics kernelStart bootInfo.createInfo u status t hrun
  have hmm : t.statics.mmState = bootInfo.createInfo.mmState u.mem := by
    rw [hstat]
    rfl
  rw [if_neg (by decide), ensures_pure, hmm]
  intro hphys
  obtain ⟨hmax, hfree⟩ := kiInitializeMemMgr_frame_zero (h.setupFits hphys) h.start
    (by omega) _ t hrun
  refine ⟨rfl, ?_, hfree⟩
  show 0 < (bootInfo.createInfo.maxPAddr u.mem).toNat
  omega

/-- However the memory map looks, a run after startup is offered frame zero. -/
theorem kiStartupSystem_not_offersUsable {kernelStart : Ptr} {bootInfo : SystemBootInfo}
    (h : HandedOver kernelStart bootInfo) {startArch : Kern MmStatics Unit} {s t : Machine MmStatics}
    (hrun : kiStartupSystem kernelStart .memoryManagement bootInfo startArch s = .ok (.success, t))
    (hphys : t.statics.mmState.maxPAddr.toNat ≤ 2 ^ 52) : ¬ OffersUsable t := by
  obtain ⟨hsize, hmax, hfree⟩ := kiStartupSystem_frame_zero h startArch s .success t hrun hphys
  exact not_offersUsable hsize hmax hfree

/-! ## A boot with 128 MiB -/

/-- One free range, the first 128 MiB, recorded behind the kernel image. -/
def smallBootInfo : SystemBootInfo where
  numMemoryRanges := 1
  memoryRanges := 0x180008

def smallBoot : Machine MmStatics :=
  { coldMachine with mem := write64 (write32 coldMachine.mem 0x180008 9) 0x180018 0x8000000 }

theorem smallBootInfo_handedOver : HandedOver 0x100000 smallBootInfo :=
  ⟨by decide, by decide, by decide, by decide⟩

/-- The copy of the one range ends where the range does. -/
theorem smallBoot_copyRange :
    Returns (copyRange smallBootInfo.memoryRanges smallBootInfo.ranges 0) smallBoot fun _ t =>
      smallBootInfo.createInfo.maxPAddr t.mem = 0x8000000 := by
  have husage : phys (BootMemoryRange.usage (BootMemoryRange.item smallBootInfo.memoryRanges 0)) =
      0x180008 := by decide
  have hstart : phys (BootMemoryRange.start (BootMemoryRange.item smallBootInfo.memoryRanges 0)) =
      0x180010 := by decide
  have hend : phys (BootMemoryRange.endAddr (BootMemoryRange.item smallBootInfo.memoryRanges 0)) =
      0x180018 := by decide
  have hsType : phys (MmMemoryRange.sType (MmMemoryRange.item smallBootInfo.ranges 0)) =
      0x180038 := by decide
  have hpNext : phys (MmMemoryRange.pNext (MmMemoryRange.item smallBootInfo.ranges 0)) =
      0x180040 := by decide
  have hstart' : phys (MmMemoryRange.start (MmMemoryRange.item smallBootInfo.ranges 0)) =
      0x180048 := by decide
  have hend' : phys (MmMemoryRange.endAddr (MmMemoryRange.item smallBootInfo.ranges 0)) =
      0x180050 := by decide
  have hsize' : phys (MmMemoryRange.size (MmMemoryRange.item smallBootInfo.ranges 0)) =
      0x180058 := by decide
  have hmax : ∀ m : Mem, read64 m 0x180050 = 0x8000000 →
      smallBootInfo.createInfo.maxPAddr m = 0x8000000 := by
    intro m hm
    show highestEnd m smallBootInfo.ranges 1 = 0x8000000
    simp only [highestEnd, hend', hm]
    decide
  simp only [copyRange, returns_bind, returns_load32, returns_load64, returns_store32,
    returns_store64, Machine.note_mem, Machine.setMem_mem, husage, hstart, hend, hsType, hpNext,
    hstart', hend', hsize', smallBoot]
  split
  · rw [returns_store32]
    apply hmax
    simp (disch := decide) only [Machine.note_mem, Machine.setMem_mem, hsType,
      read64_write32_outside, read64_write64_outside, read64_write64_same]
  · rw [returns_pure]
    apply hmax
    simp (disch := decide) only [Machine.note_mem, Machine.setMem_mem, read64_write32_outside,
      read64_write64_outside, read64_write64_same]

theorem smallBootInfo_room {m : Mem} (h : smallBootInfo.createInfo.maxPAddr m = 0x8000000) :
    SetupRoom 0x100000 smallBootInfo.createInfo m := by
  refine ⟨⟨rfl, ?_⟩, by decide, by decide, ?_⟩
  · rw [h]
    unfold InWindow
    decide
  · rw [h]
    decide

theorem smallBoot_starts :
    Returns (kiStartupSystem 0x100000 .memoryManagement smallBootInfo (pure ())) smallBoot fun status t =>
      status = .success ∧ t.statics.mmState.maxPAddr.toNat ≤ 2 ^ 52 := by
  rw [kiStartupSystem]
  refine Returns.bind (P := fun _ t => smallBootInfo.createInfo.maxPAddr t.mem = 0x8000000) ?_ ?_
  · show Returns (forRange _ 1 0 ()) _ _
    simp only [forRange, returns_bind, returns_pure]
    exact smallBoot_copyRange
  · intro _ t ht
    have hinit := kiInitializeMemMgr_succeeds (smallBootInfo_room ht)
    apply hinit.bind
    intro status u hu
    obtain ⟨rfl, hstat⟩ := hu
    rw [if_neg (by decide), returns_pure, hstat]
    rw [MmCreateInfo.statics_maxPAddr, ht]
    exact ⟨rfl, by decide⟩

theorem kiStartupSystem_not_offersUsable_small :
    ∃ t, kiStartupSystem 0x100000 .memoryManagement smallBootInfo (pure ()) smallBoot =
        .ok (.success, t) ∧ ¬ OffersUsable t := by
  obtain ⟨status, t, hrun, rfl, hphys⟩ := smallBoot_starts
  exact ⟨t, hrun, kiStartupSystem_not_offersUsable smallBootInfo_handedOver hrun hphys⟩

/-- After a boot with 128 MiB the first search returns frame zero. -/
theorem smallBoot_offers_frame_zero :
    Returns (kiStartupSystem 0x100000 .memoryManagement smallBootInfo (pure ())) smallBoot fun status t =>
      status = .success ∧ ¬ OffersUsable t := by
  obtain ⟨status, t, hrun, rfl, hphys⟩ := smallBoot_starts
  obtain ⟨hsize, hmax, hfree⟩ := kiStartupSystem_frame_zero smallBootInfo_handedOver (pure ())
    smallBoot .success t hrun hphys
  exact returns_of_eq hrun ⟨rfl, not_offersUsable hsize hmax hfree⟩

end FeralKernel
