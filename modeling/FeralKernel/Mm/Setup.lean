import FeralKernel.Mm.HeapRun
import FeralKernel.Mm.PhysFrame

/-!
# Setting the memory manager up

`KiInitializeMemMgr` and `MmLookupFreePhysFrame` of `kern/mm/mmsetup.c`.  The
bitmap goes one frame behind `SafePMMArea` and the heap right behind the bitmap.
Its size is `MaxPAddr` divided by eight frames and rounded down, while a lookup
accepts every location up to `MaxPAddr`.
-/

namespace FeralKernel

open Verif.Program Verif.Bytes

variable {σ : Type}

/-! ## The code -/

namespace MmMemoryRange

def byteSize : BitVec 64 := 40

def sType (r : Ptr) : Ptr := r + 0#64
def pNext (r : Ptr) : Ptr := r + 8#64
def start (r : Ptr) : Ptr := r + 16#64
def endAddr (r : Ptr) : Ptr := r + 24#64
def size (r : Ptr) : Ptr := r + 32#64

/-- The element of an array of ranges. -/
def item (ranges : Ptr) (n : Nat) : Ptr := ranges + byteSize * BitVec.ofNat 64 n

end MmMemoryRange

structure MmCreateInfo where
  pPhysicalAllocationInfo : MmPhysicalAllocationInfo
  safePMMArea : Ptr
deriving DecidableEq

/-- The first loop: `TotalSystemMemory` and `MaximumPAddr`. -/
def scanRanges (ranges : Ptr) (count : BitVec 64) : Kern σ (BitVec 64 × BitVec 64) :=
  forRange (fun n (total, maximum) => do
    let size ← load64 (MmMemoryRange.size (MmMemoryRange.item ranges n))
    let endAddr ← load64 (MmMemoryRange.endAddr (MmMemoryRange.item ranges n))
    pure (total + size, if maximum < endAddr then endAddr else maximum))
    count.toNat 0 (0#64, 0#64)

/-- `VALIDATE_SUCCESS`.  The macro names its argument twice, so a call that fails
is made again for the value that `KiStopError` gets. -/
def validateSuccess (x : Kern σ FeralStatus) : Kern σ Unit := do
  let status ← x
  if status ≠ .success then
    let again ← x
    stop (.stopError again)

/-- The two marking loops. -/
def markFrames (start stopAt frameSize : BitVec 64) : Kern MmStatics Unit :=
  iterate .hang (fun index => do
    if index < stopAt then
      validateSuccess (mmAllocatePhysFrame index true)
      pure (.inr (index + frameSize))
    else pure (.inl ())) loopBound start

def heapSize : BitVec 64 := 1024 * 1024 * 8

/-- The first half of `KiInitializeMemMgr`: the statics are set and the bitmap is
cleared.  It gives `BufferSize`. -/
def placeBitmap (info : MmCreateInfo) : Kern MmStatics (BitVec 64) := do
  let statics ← getStatics
  setStatics { statics with mmState :=
    { statics.mmState with pAllocInfo := info.pPhysicalAllocationInfo } }
  let (_, maximumPAddr) ← scanRanges info.pPhysicalAllocationInfo.ranges
    info.pPhysicalAllocationInfo.memoryAreaRangeCount
  let statics ← getStatics
  setStatics { statics with mmState := { statics.mmState with maxPAddr := maximumPAddr } }
  let frameSize := info.pPhysicalAllocationInfo.frameSize
  let bufferSize ← divide maximumPAddr (8 * frameSize)
  let pmmBitmap := info.safePMMArea + frameSize
  let _ ← kiSetMemoryBytes pmmBitmap 0 bufferSize
  let statics ← getStatics
  setStatics { statics with mmState :=
    { statics.mmState with bitmaskUsedFrames := kernPhysToVirt pmmBitmap } }
  pure bufferSize

/-- The second half: the frames in use are marked and the heap is set up. -/
def reserveFrames (kernelStart : Ptr) (info : MmCreateInfo) (bufferSize : BitVec 64) :
    Kern MmStatics Unit := do
  let pmmLocation := info.safePMMArea
  let frameSize := info.pPhysicalAllocationInfo.frameSize
  markFrames kernelStart (pmmLocation + bufferSize) frameSize
  let heapAddr := pmmLocation + bufferSize + frameSize
  let _ ← mmCreateAllocatorState 1 heapAddr heapSize
  markFrames heapAddr heapSize frameSize

/-- `kernelStart` is the address of the linker symbol `kern_start`. -/
def kiInitializeMemMgr (kernelStart : Ptr) (info : MmCreateInfo) :
    Kern MmStatics FeralStatus := do
  let bufferSize ← placeBitmap info
  reserveFrames kernelStart info bufferSize
  pure .success

def internalGetValueOfBit (val : BitVec 8) (bitNum : Nat) : Bool :=
  (val &&& (1#8 <<< bitNum)) != 0#8

/-- The status and what is written to `*Location`.  The outer loop counts bytes of
the bitmap up to `MaxPAddr`, which is not the number of them. -/
def mmLookupFreePhysFrame : Kern MmStatics (FeralStatus × Ptr) := do
  let mmState := (← getStatics).mmState
  let frameSize := mmState.pAllocInfo.frameSize
  let bitmap := mmState.bitmaskUsedFrames
  let found ← forCount (fun pageBlock (_ : Unit) =>
    forCount (fun bit (_ : Unit) => do
      let byte ← load8 (bitmap + BitVec.ofNat 64 pageBlock)
      if internalGetValueOfBit byte bit = false then
        let base := frameSize * BitVec.ofNat 64 pageBlock * 8
        let offset := BitVec.ofNat 64 bit * frameSize
        pure (.inl (base + offset))
      else pure (.inr ())) 8 0 ()) mmState.maxPAddr.toNat 0 ()
  match found with
  | .inl location => pure (.success, location)
  | .inr _ => pure (.memoryPageFailure, 0)

/-! ## The static state that setup leaves -/

/-- The highest end among the first `n` ranges. -/
def highestEnd (m : Mem) (ranges : Ptr) : Nat → BitVec 64
  | 0 => 0
  | n + 1 =>
    let endAddr := read64 m (phys (MmMemoryRange.endAddr (MmMemoryRange.item ranges n)))
    if highestEnd m ranges n < endAddr then endAddr else highestEnd m ranges n

namespace MmCreateInfo

variable (info : MmCreateInfo)

/-- `MaxPAddr` for the ranges that `m` holds. -/
def maxPAddr (m : Mem) : BitVec 64 :=
  highestEnd m info.pPhysicalAllocationInfo.ranges
    info.pPhysicalAllocationInfo.memoryAreaRangeCount.toNat

def bufferSize (m : Mem) : BitVec 64 :=
  info.maxPAddr m / (8 * info.pPhysicalAllocationInfo.frameSize)

def heapAddr (m : Mem) : Ptr :=
  info.safePMMArea + info.bufferSize m + info.pPhysicalAllocationInfo.frameSize

/-- `MmState` after setup. -/
def mmState (m : Mem) : MemoryManagementState where
  pAllocInfo := info.pPhysicalAllocationInfo
  bitmaskUsedFrames :=
    kernPhysToVirt (info.safePMMArea + info.pPhysicalAllocationInfo.frameSize)
  maxPAddr := info.maxPAddr m

/-- The static variables after setup. -/
def statics (m : Mem) : MmStatics where
  currentState := { arenas := kernPhysToVirt (info.heapAddr m) }
  mmState := info.mmState m

theorem statics_maxPAddr (m : Mem) : (info.statics m).mmState.maxPAddr = info.maxPAddr m := rfl

end MmCreateInfo

theorem scanRanges_spec (ranges : Ptr) (count : BitVec 64) (s : Machine σ) :
    Returns (scanRanges ranges count) s fun r t =>
      r.2 = highestEnd s.mem ranges count.toNat ∧ t.mem = s.mem ∧ SameSide s t := by
  apply returns_forRange
    (fun i (b : BitVec 64 × BitVec 64) (t : Machine σ) =>
      b.2 = highestEnd s.mem ranges i ∧ t.mem = s.mem ∧ SameSide s t) count.toNat
  · intro i b t _ hI
    obtain ⟨hb, hm, hside⟩ := hI
    simp only [returns_bind, returns_load64, returns_pure, Machine.note_mem, hm, hb]
    exact ⟨rfl, trivial, hside⟩
  · omega
  · exact ⟨rfl, rfl, SameSide.refl s⟩

section Keeps

theorem internalInitializeNode_keeps (current previous next : Ptr) (index : BitVec 64) :
    KeepsStatics (internalInitializeNode current previous next index : Kern σ _) := by
  have htail : KeepsStatics (do
      store64 (Node.next current) next
      if next ≠ 0 then
        store64 (Node.previous next) current
      store64 (Node.nodeIndex current) index : Kern σ _) := by
    refine .bind (.store64 _ _) fun _ => ?_
    dsimp only
    split
    · exact .bind (.store64 _ _) fun _ => .store64 _ _
    · exact .store64 _ _
  rw [internalInitializeNode]
  refine .bind (.store32 _ _) fun _ => .bind (.store64 _ _) fun _ => ?_
  dsimp only
  split
  · exact .bind (.store64 _ _) fun _ => .bind (.load64 _) fun _ =>
      .bind (.store64 _ _) fun _ => htail
  · exact htail

theorem mmCreateAllocatorState_statics (heapArea : Ptr) (heapSize : BitVec 64)
    (s : Machine MmStatics) :
    Ensures (mmCreateAllocatorState 1 heapArea heapSize) s fun _ t =>
      t.statics = { s.statics with currentState := { arenas := kernPhysToVirt heapArea } } := by
  have harena : ∀ a b c d e : BitVec 64,
      KeepsStatics (initializeArena a b c d e : Kern MmStatics _) := by
    intro a b c d e
    rw [initializeArena]
    exact .bind (internalInitializeNode_keeps _ _ _ _) fun _ => .bind (.store64 _ _) fun _ =>
      .bind (kiSetMemoryBytes_keeps _ _ _) fun _ => .bind (.store64 _ _) fun _ =>
      .bind (.store64 _ _) fun _ => .bind (.store64 _ _) fun _ =>
      .bind (.store64 _ _) fun _ => .store64 _ _
  rw [mmCreateAllocatorState]
  refine (kiSetMemoryBytes_keeps _ _ _ s).bind ?_
  intro _ t ht
  refine (KeepsStatics.divide _ _ t).bind ?_
  intro _ t1 h1
  refine (KeepsStatics.divide _ _ t1).bind ?_
  intro _ t2 h2
  refine (KeepsStatics.forRange (fun i _ => harena _ _ _ _ _) _ _ _ t2).bind ?_
  intro _ u hu
  apply Returns.ensures
  simp only [returns_bind, returns_getStatics, returns_setStatics, returns_pure]
  rw [hu, h2, h1, ht]

theorem mmAllocatePhysFrame_keeps (location : Ptr) (status : Bool) :
    KeepsStatics (mmAllocatePhysFrame location status) := by
  intro s
  rw [mmAllocatePhysFrame, ensures_bind]
  refine (returns_getStatics.mpr ?_).ensures
  dsimp only
  split
  · exact ensures_pure.mpr rfl
  · refine (KeepsStatics.bind (.divide _ _) fun _ => .bind (.load8 _) fun _ =>
      .bind (.divide _ _) fun _ => ?_) s
    split
    · exact .bind (.store8 _ _) fun _ => .pure _
    · split
      · exact .bind (.store8 _ _) fun _ => .pure _
      · exact .pure _

theorem markFrames_keeps (start stopAt frameSize : BitVec 64) :
    KeepsStatics (markFrames start stopAt frameSize) := by
  apply KeepsStatics.iterate
  intro index
  split
  · refine .bind ?_ fun _ => .pure _
    rw [validateSuccess]
    refine .bind (mmAllocatePhysFrame_keeps index true) fun status => ?_
    split
    · exact .bind (mmAllocatePhysFrame_keeps index true) fun _ _ => ensures_stop
    · exact .pure _
  · exact .pure _

end Keeps

/-- Whatever the ranges are and however memory is laid out, a setup that returns
leaves the statics that the ranges determine. -/
theorem kiInitializeMemMgr_statics (kernelStart : Ptr) (info : MmCreateInfo)
    (s : Machine MmStatics) :
    Ensures (kiInitializeMemMgr kernelStart info) s fun status t =>
      status = .success ∧ t.statics = info.statics s.mem := by
  simp only [kiInitializeMemMgr, placeBitmap, reserveFrames, ensures_bind]
  refine (returns_getStatics.mpr ?_).ensures
  refine (returns_setStatics.mpr ?_).ensures
  refine (scanRanges_spec _ _ _).ensures.mono ?_
  intro r t ht
  obtain ⟨hmax, hm, hside⟩ := ht
  have hstat := hside.1
  refine (returns_getStatics.mpr ?_).ensures
  refine (returns_setStatics.mpr ?_).ensures
  refine ensures_divide.mpr fun _ => ?_
  refine (kiSetMemoryBytes_keeps _ _ _ _).mono ?_
  intro _ t1 h1
  refine (returns_getStatics.mpr ?_).ensures
  refine (returns_setStatics.mpr ?_).ensures
  refine ensures_pure.mpr ?_
  refine (markFrames_keeps _ _ _ _).mono ?_
  intro _ t2 h2
  refine (mmCreateAllocatorState_statics _ _ _).mono ?_
  intro _ t3 h3
  refine (markFrames_keeps _ _ _ _).mono ?_
  intro _ t4 h4
  rw [ensures_pure, h4, h3, h2, h1, hstat]
  refine ⟨rfl, ?_⟩
  have hmax' : r.2 = info.maxPAddr s.mem := hmax
  rw [hmax']
  rfl

/-- A setup that returns has divided by the size of eight frames. -/
theorem kiInitializeMemMgr_divides (kernelStart : Ptr) (info : MmCreateInfo)
    (s : Machine MmStatics) :
    Ensures (kiInitializeMemMgr kernelStart info) s fun _ _ =>
      info.pPhysicalAllocationInfo.Divides := by
  have hplaced : Ensures (placeBitmap info) s fun _ _ => info.pPhysicalAllocationInfo.Divides := by
    simp only [placeBitmap, ensures_bind]
    refine (returns_getStatics.mpr ?_).ensures
    refine (returns_setStatics.mpr ?_).ensures
    refine (scanRanges_spec _ _ _).ensures.mono fun _ _ _ => ?_
    refine (returns_getStatics.mpr ?_).ensures
    refine (returns_setStatics.mpr ?_).ensures
    refine ensures_divide.mpr fun hdiv => ?_
    intro _ _ _ _ _ _ _ _ _ _ _ _
    exact hdiv
  rw [kiInitializeMemMgr, ensures_bind]
  refine hplaced.mono fun _ _ hdiv => ?_
  intro _ _ _
  exact hdiv

/-! ## Which bytes of the bitmap the calls touch -/

/-- Every access recorded lies in the `size` bytes from `base` on. -/
def TouchesOnly (base : Ptr) (size : BitVec 64) (log : List Event) : Prop :=
  ∀ e ∈ log, match e with
    | .read a n => (a - base).toNat + n ≤ size.toNat
    | .write a n => (a - base).toNat + n ≤ size.toNat
    | .link _ _ => True

theorem touchesOnly_nil (base : Ptr) (size : BitVec 64) : TouchesOnly base size [] := by
  intro e he
  cases he

theorem touchesOnly_read {base a : Ptr} {size : BitVec 64} {log : List Event} :
    TouchesOnly base size (.read a 1 :: log) ↔
      (a - base).toNat < size.toNat ∧ TouchesOnly base size log := by
  simp only [TouchesOnly, List.forall_mem_cons, Nat.add_one_le_iff]

theorem touchesOnly_write {base a : Ptr} {size : BitVec 64} {log : List Event} :
    TouchesOnly base size (.write a 1 :: log) ↔
      (a - base).toNat < size.toNat ∧ TouchesOnly base size log := by
  simp only [TouchesOnly, List.forall_mem_cons, Nat.add_one_le_iff]

/-- A call in range touches the byte of its location, and a call out of range
touches nothing. -/
theorem FrameCall.run_touches (call : FrameCall) (base : Ptr) (size : BitVec 64)
    {s : Machine MmStatics} (hdiv : s.statics.mmState.pAllocInfo.Divides) :
    Returns call.run s fun _ t => t.statics = s.statics ∧
      (TouchesOnly base size t.log ↔ TouchesOnly base size s.log ∧
        (s.statics.mmState.maxPAddr < call.location ∨
          (s.statics.mmState.byteAddr call.location - base).toNat < size.toNat)) := by
  cases call with
  | lookup location =>
    rw [run, returns_mmLookupPhysFrame hdiv]
    by_cases hl : s.statics.mmState.maxPAddr < location
    · rw [if_pos hl]
      exact ⟨rfl, by simp [FrameCall.location, hl]⟩
    · rw [if_neg hl]
      refine ⟨rfl, ?_⟩
      rw [Machine.note_log, touchesOnly_read, FrameCall.location, and_comm]
      simp only [hl, false_or]
  | allocate location status =>
    rw [run, returns_bind, returns_mmAllocatePhysFrame hdiv]
    by_cases hl : s.statics.mmState.maxPAddr < location
    · rw [if_pos hl, returns_pure]
      exact ⟨rfl, by simp [FrameCall.location, hl]⟩
    · rw [if_neg hl]
      split
      · rw [returns_pure]
        refine ⟨rfl, ?_⟩
        rw [Machine.note_log, touchesOnly_read, FrameCall.location, and_comm]
        simp only [hl, false_or]
      · rw [returns_pure]
        refine ⟨rfl, ?_⟩
        rw [Machine.note_log, Machine.setMem_log, Machine.note_log, touchesOnly_write,
          touchesOnly_read, FrameCall.location, ← and_assoc, and_self, and_comm]
        simp only [hl, false_or]

theorem frameRun_touches (base : Ptr) (size : BitVec 64) (calls : List FrameCall) :
    ∀ s : Machine MmStatics, s.statics.mmState.pAllocInfo.Divides →
      Returns (frameRun calls) s fun _ t =>
      (TouchesOnly base size t.log ↔ TouchesOnly base size s.log ∧ ∀ call ∈ calls,
        s.statics.mmState.maxPAddr < call.location ∨
          (s.statics.mmState.byteAddr call.location - base).toNat < size.toNat) := by
  induction calls with
  | nil =>
    intro s _
    rw [frameRun, returns_pure]
    simp
  | cons call rest ih =>
    intro s hdiv
    rw [frameRun]
    apply (call.run_touches base size hdiv).bind
    intro _ t ht
    obtain ⟨hstat, hlog⟩ := ht
    apply (ih t (by rw [hstat]; exact hdiv)).bind
    intro _ u hu
    rw [returns_pure, hu, hlog, hstat, List.forall_mem_cons, and_assoc]

theorem frameRun_inside_iff {info : MmCreateInfo} {m : Mem} {t : Machine MmStatics}
    (hmm : t.statics.mmState = info.mmState m)
    (hdiv : info.pPhysicalAllocationInfo.Divides) (calls : List FrameCall) :
    Returns (frameRun calls) { t with log := [] } fun _ u =>
      (TouchesOnly (info.mmState m).bitmaskUsedFrames (info.bufferSize m) u.log ↔
        ∀ call ∈ calls, info.maxPAddr m < call.location ∨
          call.location.toNat < (info.bufferSize m).toNat *
            (8 * info.pPhysicalAllocationInfo.frameSize).toNat) := by
  have hpos : 0 < (8 * info.pPhysicalAllocationInfo.frameSize).toNat := by
    rw [Nat.pos_iff_ne_zero]
    intro hz
    exact hdiv (BitVec.eq_of_toNat_eq hz)
  have hcall : ∀ call : FrameCall, ((info.mmState m).byteAddr call.location -
        (info.mmState m).bitmaskUsedFrames).toNat < (info.bufferSize m).toNat ↔
      call.location.toNat < (info.bufferSize m).toNat *
        (8 * info.pPhysicalAllocationInfo.frameSize).toNat := by
    intro call
    rw [MemoryManagementState.byteAddr, BitVec.add_comm, BitVec.add_sub_cancel, BitVec.toNat_udiv]
    exact Nat.div_lt_iff_lt_mul hpos
  apply (frameRun_touches (info.mmState m).bitmaskUsedFrames (info.bufferSize m) calls
    { t with log := [] } (by rw [hmm]; exact hdiv)).mono
  intro _ u hu
  rw [hu]
  simp only [touchesOnly_nil, true_and, hmm, hcall]
  rfl

/-- After setup, a run of calls stays inside the bytes set aside for the bitmap
exactly when none of its locations lies in the last, partial group of eight
frames up to `MaxPAddr`.  The heap begins where those bytes end. -/
theorem frameRun_touchesOnly_iff {kernelStart : Ptr} {info : MmCreateInfo}
    {s t : Machine MmStatics} {status : FeralStatus}
    (hrun : kiInitializeMemMgr kernelStart info s = .ok (status, t)) (calls : List FrameCall) :
    t.statics.currentState.arenas =
        t.statics.mmState.bitmaskUsedFrames + info.bufferSize s.mem ∧
    Returns (frameRun calls) { t with log := [] } fun _ u =>
      (TouchesOnly t.statics.mmState.bitmaskUsedFrames (info.bufferSize s.mem) u.log ↔
        ∀ call ∈ calls, info.maxPAddr s.mem < call.location ∨
          call.location.toNat < (info.bufferSize s.mem).toNat *
            (8 * info.pPhysicalAllocationInfo.frameSize).toNat) := by
  obtain ⟨-, hstat⟩ := kiInitializeMemMgr_statics kernelStart info s status t hrun
  have hmm : t.statics.mmState = info.mmState s.mem := by
    rw [hstat]
    rfl
  constructor
  · rw [hstat]
    show info.safePMMArea + info.bufferSize s.mem + _ + kernVirtOffset =
      info.safePMMArea + _ + kernVirtOffset + info.bufferSize s.mem
    ac_rfl
  · rw [hmm]
    exact frameRun_inside_iff hmm (kiInitializeMemMgr_divides kernelStart info s status t hrun) calls

/-! ## Marking frames -/

/-- `m'` is `m` with the `k` frames from `a` on marked as used. -/
structure Marked (mm : MemoryManagementState) (m m' : Mem) (a k : Nat) : Prop where
  frames : ∀ n, 4096 * n ≤ mm.maxPAddr.toNat →
    mm.frames m' n = (mm.frames m n || decide (a ≤ n ∧ n < a + k))
  frame : ∀ x, (∀ i, i ≤ mm.maxPAddr.toNat / 32768 →
    x ≠ phys (mm.bitmaskUsedFrames + BitVec.ofNat 64 i)) → m' x = m x

section Marking

variable {mm : MemoryManagementState}

theorem Marked.refl (mm : MemoryManagementState) (m : Mem) (a : Nat) : Marked mm m m a 0 := by
  constructor
  · intro n _
    have hn : ¬ (a ≤ n ∧ n < a + 0) := by omega
    rw [decide_eq_false hn, Bool.or_false]
  · intro x _
    rfl

theorem Marked.snoc {m m' m'' : Mem} {a k : Nat} (h : Marked mm m m' a k)
    (h' : Marked mm m' m'' (a + k) 1) : Marked mm m m'' a (k + 1) := by
  constructor
  · intro n hn
    rw [h'.frames n hn, h.frames n hn, Bool.or_assoc, ← Bool.decide_or]
    congr 1
    rw [decide_eq_decide]
    omega
  · intro x hx
    rw [h'.frame x hx, h.frame x hx]

theorem toNat_frameBase {n : Nat} {maxPAddr : BitVec 64} (hn : 4096 * n ≤ maxPAddr.toNat) :
    (BitVec.ofNat 64 (4096 * n)).toNat = 4096 * n := by
  have hlt := maxPAddr.isLt
  rw [BitVec.toNat_ofNat]
  omega

theorem frameBase_le {n : Nat} {maxPAddr : BitVec 64} (hn : 4096 * n ≤ maxPAddr.toNat) :
    ¬ maxPAddr < BitVec.ofNat 64 (4096 * n) := by
  rw [BitVec.lt_def, toNat_frameBase hn]
  omega

theorem frameNumber_frameBase {n : Nat} {maxPAddr : BitVec 64}
    (hn : 4096 * n ≤ maxPAddr.toNat) : frameNumber (BitVec.ofNat 64 (4096 * n)) = n := by
  rw [frameNumber, toNat_frameBase hn]
  omega

theorem BitmapValid.marked (h : BitmapValid mm) (m : Mem) {location : Ptr}
    (hl : ¬ mm.maxPAddr < location) :
    Marked mm m (mm.setFrameBit m location true) (frameNumber location) 1 := by
  constructor
  · intro n hn
    rw [MemoryManagementState.frames, h.frameBit_setFrameBit m hl (frameBase_le hn),
      frameNumber_frameBase hn]
    by_cases heq : n = frameNumber location
    · simp [heq]
    · have hnot : ¬ (frameNumber location ≤ n ∧ n < frameNumber location + 1) := by omega
      rw [if_neg heq, MemoryManagementState.frames, decide_eq_false hnot, Bool.or_false]
  · intro x hx
    apply write8_outside
    rw [byteAddr_eq h.frameSize]
    apply hx
    rw [BitVec.lt_def] at hl
    omega

theorem BitmapValid.frameBit_eq_frames (h : BitmapValid mm) (m : Mem) {location : Ptr}
    (hl : ¬ mm.maxPAddr < location) : mm.frameBit m location = mm.frames m (frameNumber location) :=
  h.shows_frames m location hl

variable {s : Machine MmStatics} {location : Ptr}

theorem validate_returns (h : BitmapValid s.statics.mmState)
    (hl : ¬ s.statics.mmState.maxPAddr < location)
    (hfree : s.statics.mmState.frames s.mem (frameNumber location) = false) :
    Returns (validateSuccess (mmAllocatePhysFrame location true)) s fun _ t =>
      Marked s.statics.mmState s.mem t.mem (frameNumber location) 1 ∧ SameSide s t := by
  have hbit : ¬ s.statics.mmState.frameBit s.mem location = true := by
    rw [h.frameBit_eq_frames s.mem hl, hfree]
    decide
  rw [validateSuccess, returns_bind,
    returns_mmAllocatePhysFrame (divides_of_frameSize h.frameSize), if_neg hl, if_neg hbit]
  rw [if_neg (by simp), returns_pure]
  exact ⟨h.marked s.mem hl, rfl, rfl⟩

/-- A marking step that returns has found its frame in range and free. -/
theorem validate_ensures (h : BitmapValid s.statics.mmState) :
    Ensures (validateSuccess (mmAllocatePhysFrame location true)) s fun _ t =>
      ¬ s.statics.mmState.maxPAddr < location ∧
      Marked s.statics.mmState s.mem t.mem (frameNumber location) 1 ∧ SameSide s t := by
  by_cases hl : s.statics.mmState.maxPAddr < location
  · rw [validateSuccess, ensures_bind]
    apply Returns.ensures
    rw [returns_mmAllocatePhysFrame (divides_of_frameSize h.frameSize), if_pos hl,
      if_pos (by decide), ensures_bind]
    intro _ _ _
    exact ensures_stop
  · cases hfree : s.statics.mmState.frames s.mem (frameNumber location) with
    | false =>
      refine (validate_returns h hl hfree).ensures.mono ?_
      intro _ t ht
      exact ⟨hl, ht⟩
    | true =>
      have hbit : s.statics.mmState.frameBit s.mem location = true := by
        rw [h.frameBit_eq_frames s.mem hl, hfree]
      rw [validateSuccess, ensures_bind]
      apply Returns.ensures
      rw [returns_mmAllocatePhysFrame (divides_of_frameSize h.frameSize), if_neg hl, if_pos hbit,
        if_pos (by decide), ensures_bind]
      intro _ _ _
      exact ensures_stop

/-- The frames that a marking loop marks. -/
def markCount (start stopAt : BitVec 64) : Nat := (stopAt.toNat - start.toNat + 4095) / 4096

/-- The index of a round of a marking loop. -/
def markIndex (start : BitVec 64) (i : Nat) : BitVec 64 := BitVec.ofNat 64 (start.toNat + 4096 * i)

theorem markIndex_succ (start : BitVec 64) (i : Nat) :
    markIndex start i + 4096 = markIndex start (i + 1) := by
  have hsucc : start.toNat + 4096 * (i + 1) = start.toNat + 4096 * i + 4096 := by omega
  have hframe : (4096 : BitVec 64) = BitVec.ofNat 64 4096 := rfl
  rw [markIndex, markIndex, hsucc, BitVec.ofNat_add (start.toNat + 4096 * i), hframe]

theorem toNat_markIndex {start : BitVec 64} {i : Nat} (h : start.toNat + 4096 * i < 2 ^ 64) :
    (markIndex start i).toNat = start.toNat + 4096 * i := by
  rw [markIndex, BitVec.toNat_ofNat, Nat.mod_eq_of_lt h]

theorem frameNumber_markIndex {start : BitVec 64} {i : Nat}
    (h : start.toNat + 4096 * i < 2 ^ 64) :
    frameNumber (markIndex start i) = start.toNat / 4096 + i := by
  rw [frameNumber, toNat_markIndex h]
  omega

/-- What every marking step keeps, a marking loop keeps. -/
theorem markFrames_rule {start stopAt : BitVec 64} (I : Nat → Machine MmStatics → Prop)
    (hstop : stopAt.toNat ≤ 2 ^ 63)
    (hstep : ∀ i t, start.toNat + 4096 * i < stopAt.toNat →
      (markIndex start i).toNat = start.toNat + 4096 * i →
      frameNumber (markIndex start i) = start.toNat / 4096 + i → I i t →
      Returns (validateSuccess (mmAllocatePhysFrame (markIndex start i) true)) t fun _ u =>
        I (i + 1) u) (hs : I 0 s) :
    Returns (markFrames start stopAt 4096) s fun _ t => I (markCount start stopAt) t := by
  have hstart := start.isLt
  have hcount : markCount start stopAt = (stopAt.toNat - start.toNat + 4095) / 4096 := rfl
  have hbound : markCount start stopAt < loopBound := by
    rw [loopBound]
    omega
  rw [markFrames]
  refine returns_iterate (fun k index t => ∃ i, index = markIndex start i ∧
    i + k = markCount start stopAt ∧ I i t) ?_ loopBound (markCount start stopAt) start s hbound
    ⟨0, by simp [markIndex], by omega, hs⟩
  intro k index t hI
  obtain ⟨i, rfl, hk, ht⟩ := hI
  have hidx : (markIndex start i).toNat = start.toNat + 4096 * i := toNat_markIndex (by omega)
  by_cases hlt : markIndex start i < stopAt
  · rw [if_pos hlt, returns_bind]
    rw [BitVec.lt_def, hidx] at hlt
    apply (hstep i t hlt hidx (frameNumber_markIndex (by omega)) ht).mono
    intro _ u hu
    rw [returns_pure]
    exact ⟨k - 1, by omega, i + 1, markIndex_succ start i, by omega, hu⟩
  · rw [if_neg hlt, returns_pure]
    rw [BitVec.lt_def, hidx] at hlt
    have hi : i = markCount start stopAt := by omega
    rw [← hi]
    exact ht

theorem markFrames_returns {start stopAt : BitVec 64} (h : BitmapValid s.statics.mmState)
    (hstop : stopAt.toNat ≤ 2 ^ 63) (hmax : stopAt.toNat ≤ s.statics.mmState.maxPAddr.toNat)
    (hfree : ∀ n, start.toNat / 4096 ≤ n → n < start.toNat / 4096 + markCount start stopAt →
      s.statics.mmState.frames s.mem n = false) :
    Returns (markFrames start stopAt 4096) s fun _ t =>
      Marked s.statics.mmState s.mem t.mem (start.toNat / 4096) (markCount start stopAt) ∧
      SameSide s t := by
  have hcount : markCount start stopAt = (stopAt.toNat - start.toNat + 4095) / 4096 := rfl
  -- after `i` rounds the first `i` frames are marked
  apply markFrames_rule (fun i t =>
    Marked s.statics.mmState s.mem t.mem (start.toNat / 4096) i ∧ SameSide s t) hstop
  · intro i t hlt hidx hnum hI
    obtain ⟨hmark, hside⟩ := hI
    have hstat := hside.1
    have hl : ¬ t.statics.mmState.maxPAddr < markIndex start i := by
      rw [hstat, BitVec.lt_def, hidx]
      omega
    have hfree' : t.statics.mmState.frames t.mem (frameNumber (markIndex start i)) = false := by
      have hnot : ¬ (start.toNat / 4096 ≤ start.toNat / 4096 + i ∧
          start.toNat / 4096 + i < start.toNat / 4096 + i) := by omega
      rw [hstat, hnum, hmark.frames _ (by omega), hfree _ (by omega) (by omega),
        decide_eq_false hnot]
      rfl
    apply (validate_returns (by rw [hstat]; exact h) hl hfree').mono
    intro _ u hu
    rw [hstat, hnum] at hu
    exact ⟨hmark.snoc hu.1, hside.trans hu.2⟩
  · exact ⟨Marked.refl _ _ _, SameSide.refl s⟩

/-- A marking loop that returns has marked a run of frames, and if it made a round
at all its first frame was in range. -/
theorem markFrames_ensures {start stopAt : BitVec 64} (h : BitmapValid s.statics.mmState)
    (hstart : start.toNat ≤ 2 ^ 63) (hstop : stopAt.toNat ≤ 2 ^ 63) :
    Ensures (markFrames start stopAt 4096) s fun _ t =>
      (∃ k, Marked s.statics.mmState s.mem t.mem (start.toNat / 4096) k) ∧
      (start < stopAt → ¬ s.statics.mmState.maxPAddr < start) ∧ SameSide s t := by
  rw [markFrames]
  refine ensures_iterate (fun index t => ∃ i, index = markIndex start i ∧
    start.toNat + 4096 * i < 2 ^ 64 ∧
    Marked s.statics.mmState s.mem t.mem (start.toNat / 4096) i ∧
    (0 < i → ¬ s.statics.mmState.maxPAddr < start) ∧ SameSide s t)
    ?_ loopBound start s
    ⟨0, by simp [markIndex], by omega, Marked.refl _ _ _, by omega, SameSide.refl s⟩
  intro index t hI
  obtain ⟨i, rfl, hi, hmark, hfirst, hside⟩ := hI
  have hidx := toNat_markIndex hi
  have hnum := frameNumber_markIndex hi
  by_cases hlt : markIndex start i < stopAt
  · rw [if_pos hlt, ensures_bind]
    rw [BitVec.lt_def, hidx] at hlt
    have hstat := hside.1
    refine (validate_ensures (by rw [hstat]; exact h)).mono ?_
    intro _ u hu
    rw [hstat, hnum] at hu
    rw [ensures_pure]
    refine ⟨i + 1, markIndex_succ start i, by omega, hmark.snoc hu.2.1, fun _ => ?_,
      hside.trans hu.2.2⟩
    cases i with
    | zero => simpa [markIndex] using hu.1
    | succ i => exact hfirst (by omega)
  · rw [if_neg hlt, ensures_pure]
    refine ⟨⟨i, hmark⟩, fun hgo => hfirst ?_, hside⟩
    rw [BitVec.lt_def, hidx] at hlt
    rw [BitVec.lt_def] at hgo
    omega

end Marking

/-! ## What setup leaves in the bitmap -/

/-- Frames of 4 KiB, and the bitmap and the heap lie where `KERN_PHYS_TO_VIRT`
has an image for them. -/
structure SetupFits (info : MmCreateInfo) (m : Mem) : Prop where
  frameSize : info.pPhysicalAllocationInfo.frameSize = 4096
  window : InWindow info.safePMMArea ((info.maxPAddr m).toNat / 32768 + 4096 + 0x800000)

theorem MmCreateInfo.toNat_bufferSize {info : MmCreateInfo}
    (hsize : info.pPhysicalAllocationInfo.frameSize = 4096) (m : Mem) :
    (info.bufferSize m).toNat = (info.maxPAddr m).toNat / 32768 := by
  rw [bufferSize, hsize, BitVec.toNat_udiv]
  rfl

namespace SetupFits

variable {info : MmCreateInfo} {m : Mem}

theorem toNat_bufferSize (h : SetupFits info m) :
    (info.bufferSize m).toNat = (info.maxPAddr m).toNat / 32768 :=
  MmCreateInfo.toNat_bufferSize h.frameSize m

theorem toNat_bitmap (h : SetupFits info m) :
    (info.safePMMArea + info.pPhysicalAllocationInfo.frameSize).toNat =
      info.safePMMArea.toNat + 4096 := by
  have hw := h.window
  rw [InWindow] at hw
  rw [h.frameSize, BitVec.toNat_add, show (4096 : BitVec 64).toNat = 4096 from rfl]
  omega

theorem toNat_bitmapEnd (h : SetupFits info m) :
    (info.safePMMArea + info.bufferSize m).toNat =
      info.safePMMArea.toNat + (info.maxPAddr m).toNat / 32768 := by
  have hw := h.window
  rw [InWindow] at hw
  rw [BitVec.toNat_add, h.toNat_bufferSize]
  omega

theorem toNat_heapAddr (h : SetupFits info m) :
    (info.heapAddr m).toNat =
      info.safePMMArea.toNat + (info.maxPAddr m).toNat / 32768 + 4096 := by
  have hw := h.window
  rw [InWindow] at hw
  rw [MmCreateInfo.heapAddr, BitVec.toNat_add, h.toNat_bitmapEnd, h.frameSize,
    show (4096 : BitVec 64).toNat = 4096 from rfl]
  omega

theorem heapFits (h : SetupFits info m) : HeapFits (info.heapAddr m) heapSize := by
  have hw := h.window
  rw [InWindow] at hw
  constructor
  · rw [InWindow, h.toNat_heapAddr, show heapSize.toNat = 0x800000 from rfl]
    rw [← Nat.add_assoc, ← Nat.add_assoc] at hw
    exact hw
  · decide

theorem bitmapWindow (h : SetupFits info m) :
    InWindow (info.safePMMArea + info.pPhysicalAllocationInfo.frameSize)
      ((info.maxPAddr m).toNat / 32768 + 0x800000) := by
  have hw := h.window
  rw [InWindow] at hw ⊢
  rw [h.toNat_bitmap]
  calc info.safePMMArea.toNat + 4096 + ((info.maxPAddr m).toNat / 32768 + 0x800000)
      = info.safePMMArea.toNat + ((info.maxPAddr m).toNat / 32768 + 4096 + 0x800000) := by omega
    _ ≤ 0x8000000000 := hw

theorem phys_byte (h : SetupFits info m) {i : Nat} (hi : i ≤ (info.maxPAddr m).toNat / 32768) :
    phys ((info.mmState m).bitmaskUsedFrames + BitVec.ofNat 64 i) =
      info.safePMMArea.toNat + 4096 + i := by
  have hspan := spans_kernPhysToVirt h.bitmapWindow (by omega)
  rw [MmCreateInfo.mmState, phys_add hspan (by omega),
    phys_kernPhysToVirt h.bitmapWindow (by omega), h.toNat_bitmap]

theorem bitmapValid (h : SetupFits info m) : BitmapValid (info.mmState m) := by
  apply bitmapValid_of_spans h.frameSize
  apply (spans_kernPhysToVirt h.bitmapWindow (by omega)).mono
  show (info.maxPAddr m).toNat / 32768 + 1 ≤ _
  omega

/-- A frame below the end of the bitmap reads its bit from one byte of it. -/
theorem frames_eq (h : SetupFits info m) (m' : Mem) {n : Nat}
    (hn : n < 8 * ((info.maxPAddr m).toNat / 32768)) :
    (info.mmState m).frames m' n = (m' (info.safePMMArea.toNat + 4096 + n / 8)).getLsbD (n % 8) := by
  have hmax : 4096 * n ≤ (info.maxPAddr m).toNat := by omega
  have hbase := toNat_frameBase hmax
  rw [MemoryManagementState.frames, MemoryManagementState.frameBit,
    byteAddr_eq h.bitmapValid.frameSize, bitNum_eq h.bitmapValid.frameSize, frameNumber, hbase,
    h.phys_byte (by omega)]
  rw [show 4096 * n / 32768 = n / 8 by omega, show 4096 * n / 4096 = n by omega]

/-- The cleared bitmap has every frame free. -/
theorem frames_cleared (h : SetupFits info m) (m' : Mem) {n : Nat}
    (hn : n < 8 * ((info.maxPAddr m).toNat / 32768)) :
    (info.mmState m).frames (fill m' (info.safePMMArea.toNat + 4096)
      (setBytes (info.bufferSize m)) 0) n = false := by
  have hset : setBytes (info.bufferSize m) = ((info.maxPAddr m).toNat / 32768 + 3) / 4 * 4 := by
    rw [setBytes, h.toNat_bufferSize]
  rw [h.frames_eq _ hn, fill_inside (by omega)]
  simp

/-- What happens from the heap on leaves the bits of those frames alone. -/
theorem frames_congr (h : SetupFits info m) {m1 m2 : Mem}
    (hm : ∀ x, x < (info.heapAddr m).toNat → m2 x = m1 x) {n : Nat}
    (hn : n < 8 * ((info.maxPAddr m).toNat / 32768)) :
    (info.mmState m).frames m2 n = (info.mmState m).frames m1 n := by
  rw [h.frames_eq _ hn, h.frames_eq _ hn, hm]
  rw [h.toNat_heapAddr]
  omega

end SetupFits

/-- The memory that the ranges describe holds the bitmap and the heap, and the
kernel starts below both.  The linker scripts put `kern_start` at 1 MiB; all that
is used of it is that it is not in the first 32 KiB. -/
structure SetupRoom (kernelStart : Ptr) (info : MmCreateInfo) (m : Mem) : Prop
    extends SetupFits info m where
  start : 0x8000 ≤ kernelStart.toNat
  above : kernelStart.toNat ≤ info.safePMMArea.toNat
  room : info.safePMMArea.toNat + (info.maxPAddr m).toNat / 32768 + 4096 + 0x800000 ≤
    (info.maxPAddr m).toNat

section Setup

variable {kernelStart : Ptr} {info : MmCreateInfo} {s : Machine MmStatics}

theorem placeBitmap_returns (hdiv : info.pPhysicalAllocationInfo.Divides)
    (hspan : Spans (info.safePMMArea + info.pPhysicalAllocationInfo.frameSize)
      (setBytes (info.bufferSize s.mem)))
    (hamt : (info.bufferSize s.mem).toNat ≤ 2 ^ 64 - 4) :
    Returns (placeBitmap info) s fun bufferSize t =>
      bufferSize = info.bufferSize s.mem ∧ t.statics.mmState = info.mmState s.mem ∧
      t.mem = fill s.mem (phys (info.safePMMArea + info.pPhysicalAllocationInfo.frameSize))
        (setBytes (info.bufferSize s.mem)) 0 := by
  rw [placeBitmap]
  simp only [returns_bind, returns_getStatics, returns_setStatics, returns_pure, returns_divide]
  apply (scanRanges_spec _ _ _).mono
  intro r t ht
  obtain ⟨hmax, hm, hside⟩ := ht
  have hmax' : r.2 = info.maxPAddr s.mem := hmax
  have hm' : t.mem = s.mem := hm
  have hbuf' : r.2 / (8 * info.pPhysicalAllocationInfo.frameSize) = info.bufferSize s.mem := by
    rw [hmax']
    rfl
  rw [hbuf', hmax', hside.1]
  refine ⟨hdiv, ?_⟩
  apply (kiSetMemoryBytes_spec hspan hamt).mono
  intro _ u hu
  obtain ⟨-, hmu, hside'⟩ := hu
  refine ⟨rfl, ?_, ?_⟩
  · rw [hside'.1]
    rfl
  · show u.mem = _
    rw [hmu]
    show fill t.mem _ _ _ = _
    rw [hm']

theorem placeBitmap_spec (h : SetupFits info s.mem) :
    Returns (placeBitmap info) s fun bufferSize t =>
      bufferSize = info.bufferSize s.mem ∧ t.statics.mmState = info.mmState s.mem ∧
      t.mem = fill s.mem (info.safePMMArea.toNat + 4096) (setBytes (info.bufferSize s.mem)) 0 := by
  have hw := h.bitmapWindow
  have hbuf := h.toNat_bufferSize
  have hmaxlt := (info.maxPAddr s.mem).isLt
  have hset := setBytes_le (info.bufferSize s.mem)
  have hplaced := placeBitmap_returns (s := s) (divides_of_frameSize h.frameSize)
    (hw.spans.mono (by omega)) (by omega)
  rw [hw.phys_eq, h.toNat_bitmap] at hplaced
  exact hplaced

/-- The heap is set up behind the bitmap and leaves what lies below it alone. -/
theorem heap_keeps_below (h : SetupFits info s.mem) {t : Machine MmStatics}
    (hmm : t.statics.mmState = info.mmState s.mem) :
    Returns (mmCreateAllocatorState 1 (info.heapAddr s.mem) heapSize) t fun _ u =>
      u.statics.mmState = info.mmState s.mem ∧
      u.statics.currentState = (info.statics s.mem).currentState ∧
      ∀ x, x < (info.heapAddr s.mem).toNat → u.mem x = t.mem x := by
  apply (mmCreateAllocatorState_spec h.heapFits).mono
  intro _ u hu
  obtain ⟨-, hframe, hstat, -⟩ := hu
  refine ⟨?_, ?_, fun x hx => hframe x (Or.inl hx)⟩
  · rw [hstat]
    exact hmm
  · rw [hstat]
    rfl

/-- Setup succeeds when there is room, and what is in use afterwards is what the
two marking loops have marked. -/
theorem kiInitializeMemMgr_returns (h : SetupRoom kernelStart info s.mem) :
    Returns (kiInitializeMemMgr kernelStart info) s fun status t =>
      status = .success ∧ t.statics = info.statics s.mem ∧
      ∀ n, n < 8 * ((info.maxPAddr s.mem).toNat / 32768) →
        (info.mmState s.mem).frames t.mem n =
          (decide (kernelStart.toNat / 4096 ≤ n ∧ n < kernelStart.toNat / 4096 +
              markCount kernelStart (info.safePMMArea + info.bufferSize s.mem)) ||
            decide ((info.heapAddr s.mem).toNat / 4096 ≤ n ∧
              n < (info.heapAddr s.mem).toNat / 4096 +
                markCount (info.heapAddr s.mem) heapSize)) := by
  have hfits := h.toSetupFits
  have hw := hfits.window
  have habove := h.above
  have hroom := h.room
  rw [InWindow] at hw
  have hend := hfits.toNat_bitmapEnd
  have hheap := hfits.toNat_heapAddr
  have hsize : heapSize.toNat = 0x800000 := rfl
  have hstart := h.start
  have hmaxNat : (info.mmState s.mem).maxPAddr.toNat = (info.maxPAddr s.mem).toNat := rfl
  have hcount1 : markCount kernelStart (info.safePMMArea + info.bufferSize s.mem) =
      (info.safePMMArea.toNat + (info.maxPAddr s.mem).toNat / 32768 - kernelStart.toNat + 4095) /
        4096 := by
    rw [markCount, hend]
  have hcount2 : markCount (info.heapAddr s.mem) heapSize =
      (0x800000 - (info.heapAddr s.mem).toNat + 4095) / 4096 := rfl
  rw [kiInitializeMemMgr]
  apply (placeBitmap_spec hfits).bind
  intro bufferSize t ht
  obtain ⟨rfl, hmm, hm⟩ := ht
  have hclear : ∀ n, n < 8 * ((info.maxPAddr s.mem).toNat / 32768) →
      (info.mmState s.mem).frames t.mem n = false := by
    intro n hn
    rw [hm]
    exact hfits.frames_cleared s.mem hn
  simp only [reserveFrames, hfits.frameSize, returns_bind, returns_pure]
  refine (markFrames_returns (by rw [hmm]; exact hfits.bitmapValid) (by omega)
    (by rw [hmm, hmaxNat, hend]; omega) ?_).mono ?_
  · intro n _ hn
    rw [hmm]
    exact hclear n (by omega)
  intro _ t1 h1
  obtain ⟨hmark1, hside1⟩ := h1
  rw [hmm] at hmark1
  have hmm1 : t1.statics.mmState = info.mmState s.mem := by rw [hside1.1, hmm]
  have haddr : info.safePMMArea + info.bufferSize s.mem + 4096 = info.heapAddr s.mem := by
    rw [MmCreateInfo.heapAddr, hfits.frameSize]
  rw [haddr]
  apply (heap_keeps_below hfits hmm1).mono
  intro _ t2 h2
  obtain ⟨hmm2, hcur2, hkeep⟩ := h2
  have hframes2 : ∀ n, n < 8 * ((info.maxPAddr s.mem).toNat / 32768) →
      (info.mmState s.mem).frames t2.mem n = decide (kernelStart.toNat / 4096 ≤ n ∧
        n < kernelStart.toNat / 4096 +
          markCount kernelStart (info.safePMMArea + info.bufferSize s.mem)) := by
    intro n hn
    rw [hfits.frames_congr hkeep hn, hmark1.frames n (by omega), hclear n hn, Bool.false_or]
  refine (markFrames_returns (by rw [hmm2]; exact hfits.bitmapValid) (by omega)
    (by rw [hmm2, hmaxNat]; omega) ?_).mono ?_
  · intro n hn1 hn2
    have hnot : ¬ (kernelStart.toNat / 4096 ≤ n ∧ n < kernelStart.toNat / 4096 +
        markCount kernelStart (info.safePMMArea + info.bufferSize s.mem)) := by omega
    rw [hmm2, hframes2 n (by omega), decide_eq_false hnot]
  intro _ t3 h3
  obtain ⟨hmark3, hside3⟩ := h3
  rw [hmm2] at hmark3
  refine ⟨trivial, ?_, fun n hn => ?_⟩
  · rw [hside3.1]
    show MmStatics.mk t2.statics.currentState t2.statics.mmState = _
    rw [hmm2, hcur2]
    rfl
  · rw [hmark3.frames n (by omega), hframes2 n hn]

theorem kiInitializeMemMgr_succeeds (h : SetupRoom kernelStart info s.mem) :
    Returns (kiInitializeMemMgr kernelStart info) s fun status t =>
      status = .success ∧ t.statics = info.statics s.mem := by
  apply (kiInitializeMemMgr_returns h).mono
  intro status t ht
  exact ⟨ht.1, ht.2.1⟩

/-- Frame `n` has a byte in the `size` bytes from `start` on. -/
def FrameMeets (n start size : Nat) : Prop := start < 4096 * n + 4096 ∧ 4096 * n < start + size

/-- Every frame of the kernel image, of the bitmap and of the heap is reported as
in use. -/
def ReservedInUse (kernelStart kernelEnd : Ptr) (info : MmCreateInfo) (m : Mem)
    (t : Machine MmStatics) : Prop :=
  ∀ location,
    (FrameMeets (frameNumber location) kernelStart.toNat (kernelEnd.toNat - kernelStart.toNat) ∨
      FrameMeets (frameNumber location) (info.safePMMArea.toNat + 4096)
        (info.bufferSize m).toNat ∨
      FrameMeets (frameNumber location) (info.heapAddr m).toNat heapSize.toNat) →
    Returns (mmLookupPhysFrame location) t fun r _ => r = (.success, some true)

/-- The second marking loop stops at `HeapSize` and not at the end of the heap, so
setup always leaves a frame of the heap free: the first one at or above 8 MiB
that is not the heap's first. -/
theorem kiInitializeMemMgr_free_frame (h : SetupRoom kernelStart info s.mem) :
    Returns (kiInitializeMemMgr kernelStart info) s fun status t =>
      status = .success ∧ ∃ location,
        FrameMeets (frameNumber location) (info.heapAddr s.mem).toNat heapSize.toNat ∧
        Returns (mmLookupPhysFrame location) t fun r _ => r = (.success, some false) := by
  have hfits := h.toSetupFits
  have habove := h.above
  have hroom := h.room
  have hend := hfits.toNat_bitmapEnd
  have hheap := hfits.toNat_heapAddr
  have hsize : heapSize.toNat = 0x800000 := rfl
  have hstart := h.start
  apply (kiInitializeMemMgr_returns h).mono
  intro status t ht
  obtain ⟨hst, hstat, hframes⟩ := ht
  obtain ⟨n, hn⟩ : ∃ n, n = max 2048 ((info.heapAddr s.mem).toNat / 4096 + 1) := ⟨_, rfl⟩
  have hlimit : n < 8 * ((info.maxPAddr s.mem).toNat / 32768) := by omega
  have hmax : 4096 * n ≤ (info.maxPAddr s.mem).toNat := by omega
  have hnum := frameNumber_frameBase hmax
  have hfree : (info.mmState s.mem).frameBit t.mem (BitVec.ofNat 64 (4096 * n)) = false := by
    have h1 : ¬ (kernelStart.toNat / 4096 ≤ n ∧ n < kernelStart.toNat / 4096 +
        markCount kernelStart (info.safePMMArea + info.bufferSize s.mem)) := by
      rw [markCount, hend]
      omega
    have h2 : ¬ ((info.heapAddr s.mem).toNat / 4096 ≤ n ∧
        n < (info.heapAddr s.mem).toNat / 4096 + markCount (info.heapAddr s.mem) heapSize) := by
      rw [markCount, hsize]
      omega
    show (info.mmState s.mem).frames t.mem n = false
    rw [hframes n hlimit, decide_eq_false h1, decide_eq_false h2]
    rfl
  have hl : ¬ (info.mmState s.mem).maxPAddr < BitVec.ofNat 64 (4096 * n) := frameBase_le hmax
  refine ⟨hst, BitVec.ofNat 64 (4096 * n), ?_, ?_⟩
  · rw [hnum, FrameMeets, hsize]
    omega
  · have hdiv : t.statics.mmState.pAllocInfo.Divides := by
      rw [hstat]
      exact divides_of_frameSize hfits.frameSize
    rw [returns_mmLookupPhysFrame hdiv, hstat, MemoryManagementState.lookupFrame]
    show (if (info.mmState s.mem).maxPAddr < _ then _ else _) = _
    rw [if_neg hl]
    show (FeralStatus.success, some ((info.mmState s.mem).frameBit t.mem _)) = _
    rw [hfree]

theorem not_reservedInUse {kernelEnd location : Ptr} {m : Mem} {t : Machine MmStatics}
    (hmeets : FrameMeets (frameNumber location) (info.heapAddr m).toNat heapSize.toNat)
    (hfree : Returns (mmLookupPhysFrame location) t fun r _ => r = (.success, some false)) :
    ¬ ReservedInUse kernelStart kernelEnd info m t := by
  intro hall
  have hused := hall location (Or.inr (Or.inr hmeets))
  obtain ⟨r, u, he, rfl⟩ := hfree
  have hsame := hused.of_eq he
  cases hsame

/-- No setup reports every frame of the kernel, the bitmap and the heap as in use. -/
theorem kiInitializeMemMgr_not_reservedInUse (h : SetupRoom kernelStart info s.mem) (kernelEnd : Ptr) :
    Returns (kiInitializeMemMgr kernelStart info) s fun status t =>
      status = .success ∧ ¬ ReservedInUse kernelStart kernelEnd info s.mem t := by
  apply (kiInitializeMemMgr_free_frame h).mono
  intro status t ht
  obtain ⟨hst, location, hmeets, hfree⟩ := ht
  exact ⟨hst, not_reservedInUse hmeets hfree⟩

end Setup

/-! ## A machine with 128 MiB -/

/-- One range of 128 MiB, recorded at 1.5 MiB, and the frame manager at 2 MiB. -/
def smallInfo : MmCreateInfo where
  pPhysicalAllocationInfo := { frameSize := 4096, memoryAreaRangeCount := 1, ranges := 0x180000 }
  safePMMArea := 0x200000

def smallMachine : Machine MmStatics :=
  { coldMachine with mem := write64 coldMachine.mem 0x180018 0x8000000 }

theorem smallInfo_divides : smallInfo.pPhysicalAllocationInfo.Divides := divides_of_frameSize rfl

theorem smallInfo_maxPAddr : smallInfo.maxPAddr smallMachine.mem = 0x8000000 := by
  show highestEnd smallMachine.mem 0x180000 1 = 0x8000000
  have haddr : phys (MmMemoryRange.endAddr (MmMemoryRange.item 0x180000 0)) = 0x180018 := by
    decide
  simp only [highestEnd, haddr, smallMachine, read64_write64_same]
  decide

theorem smallInfo_room : SetupRoom 0x100000 smallInfo smallMachine.mem := by
  refine ⟨⟨rfl, ?_⟩, by decide, by decide, ?_⟩
  · rw [smallInfo_maxPAddr]
    unfold InWindow
    decide
  · rw [smallInfo_maxPAddr]
    decide

theorem frameRun_touchesOnly_iff_small :
    ∃ t, kiInitializeMemMgr 0x100000 smallInfo smallMachine = .ok (.success, t) ∧
      t.statics.currentState.arenas =
          t.statics.mmState.bitmaskUsedFrames + smallInfo.bufferSize smallMachine.mem ∧
      Returns (frameRun [.lookup 0x7FFFFFF]) { t with log := [] } fun _ u =>
        (TouchesOnly t.statics.mmState.bitmaskUsedFrames
            (smallInfo.bufferSize smallMachine.mem) u.log ↔
          ∀ call ∈ [FrameCall.lookup 0x7FFFFFF],
            smallInfo.maxPAddr smallMachine.mem < call.location ∨
              call.location.toNat < (smallInfo.bufferSize smallMachine.mem).toNat *
                (8 * smallInfo.pPhysicalAllocationInfo.frameSize).toNat) := by
  obtain ⟨status, t, hrun, rfl, -⟩ := kiInitializeMemMgr_succeeds smallInfo_room
  exact ⟨t, hrun, frameRun_touchesOnly_iff hrun [.lookup 0x7FFFFFF]⟩

/-- A lookup of `MaxPAddr` itself reads the byte behind the bitmap. -/
theorem lookup_maxPAddr_leaves_bitmap :
    Returns (kiInitializeMemMgr 0x100000 smallInfo) smallMachine fun _ t =>
      Returns (frameRun [.lookup 0x8000000]) { t with log := [] } fun _ u =>
        ¬ TouchesOnly t.statics.mmState.bitmaskUsedFrames
          (smallInfo.bufferSize smallMachine.mem) u.log := by
  apply (kiInitializeMemMgr_succeeds smallInfo_room).mono
  intro _ t ht
  obtain ⟨-, hstat⟩ := ht
  have hmm : t.statics.mmState = smallInfo.mmState smallMachine.mem := by
    rw [hstat]
    rfl
  rw [hmm]
  apply (frameRun_inside_iff hmm smallInfo_divides [.lookup 0x8000000]).mono
  intro _ u hu
  rw [hu, MmCreateInfo.bufferSize, smallInfo_maxPAddr]
  intro hcond
  have hlast := hcond _ (List.mem_singleton.mpr rfl)
  revert hlast
  decide

theorem kiInitializeMemMgr_not_reservedInUse_small :
    SetupRoom 0x100000 smallInfo smallMachine.mem ∧
    Returns (kiInitializeMemMgr 0x100000 smallInfo) smallMachine fun status t =>
      status = .success ∧ ¬ ReservedInUse 0x100000 0x180000 smallInfo smallMachine.mem t :=
  ⟨smallInfo_room, kiInitializeMemMgr_not_reservedInUse smallInfo_room 0x180000⟩

/-- With 128 MiB a frame of the heap is reported as free. -/
theorem small_heap_frame_free :
    Returns (kiInitializeMemMgr 0x100000 smallInfo) smallMachine fun status t =>
      status = .success ∧ ¬ ReservedInUse 0x100000 0x180000 smallInfo smallMachine.mem t := by
  apply (kiInitializeMemMgr_free_frame smallInfo_room).mono
  intro status t ht
  obtain ⟨hst, location, hmeets, hfree⟩ := ht
  exact ⟨hst, not_reservedInUse hmeets hfree⟩

end FeralKernel
