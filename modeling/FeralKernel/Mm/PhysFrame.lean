import FeralKernel.Lib.MemFuncs
import FeralKernel.Mm.State

/-!
# Physical frames

`MmLookupPhysFrame` and `MmAllocatePhysFrame` of `kern/mm/mmsetup.c`.  The frame
manager is a bitmap with one bit for each frame.  The byte and the bit of a
location come from two divisions, and what makes the bitmap a map from frames to
bits is that together they name the frame and nothing else.
-/

namespace FeralKernel

open Verif.Program Verif.Bytes

/-! ## The calls -/

/-- The second component is what is written to `*Status`, if anything is. -/
def mmLookupPhysFrame (location : Ptr) : Kern MmStatics (FeralStatus × Option Bool) := do
  let mmState := (← getStatics).mmState
  if mmState.maxPAddr < location then pure (.invalidMemoryLocation, none)
  else
    let frameSize := mmState.pAllocInfo.frameSize
    let baseAddr ← divide location (8 * frameSize)
    let containingByte ← load8 (mmState.bitmaskUsedFrames + baseAddr)
    let frame ← divide location frameSize
    let bitNum := (frame % 8).toNat
    pure (.success, some ((containingByte >>> bitNum &&& 1#8) != 0#8))

def mmAllocatePhysFrame (location : Ptr) (status : Bool) : Kern MmStatics FeralStatus := do
  let mmState := (← getStatics).mmState
  if mmState.maxPAddr < location then pure .invalidMemoryLocation
  else
    let frameSize := mmState.pAllocInfo.frameSize
    let baseAddr ← divide location (8 * frameSize)
    let containingByte ← load8 (mmState.bitmaskUsedFrames + baseAddr)
    let frame ← divide location frameSize
    let bitNum := (frame % 8).toNat
    let inUse := (containingByte >>> bitNum &&& 1#8) != 0#8
    if inUse && !status then
      store8 (mmState.bitmaskUsedFrames + baseAddr)
        (containingByte &&& (255#8 ^^^ (1#8 <<< bitNum)))
      pure .success
    else if !inUse && status then
      store8 (mmState.bitmaskUsedFrames + baseAddr) (containingByte ||| (1#8 <<< bitNum))
      pure .success
    else pure .memoryAccessViolation

/-- Eight frames have a size that can be divided by. -/
def MmPhysicalAllocationInfo.Divides (info : MmPhysicalAllocationInfo) : Prop :=
  8 * info.frameSize ≠ 0

theorem MmPhysicalAllocationInfo.Divides.frameSize {info : MmPhysicalAllocationInfo}
    (h : info.Divides) : info.frameSize ≠ 0 := by
  intro hz
  apply h
  rw [hz]
  rfl

theorem divides_of_frameSize {info : MmPhysicalAllocationInfo} (h : info.frameSize = 4096) :
    info.Divides := by
  rw [MmPhysicalAllocationInfo.Divides, h]
  decide

/-! ## What a call does to the memory it is given -/

namespace MemoryManagementState

variable (mm : MemoryManagementState)

/-- The byte of the bitmap that holds the bit of a location. -/
def byteAddr (location : Ptr) : Ptr :=
  mm.bitmaskUsedFrames + location / (8 * mm.pAllocInfo.frameSize)

def bitNum (location : Ptr) : Nat := (location / mm.pAllocInfo.frameSize % 8).toNat

/-- The bit of a location. -/
def frameBit (m : Mem) (location : Ptr) : Bool :=
  (m (phys (mm.byteAddr location))).getLsbD (mm.bitNum location)

/-- The memory after the bit of a location has been given the value `status`. -/
def setFrameBit (m : Mem) (location : Ptr) (status : Bool) : Mem :=
  write8 m (phys (mm.byteAddr location))
    (if status then m (phys (mm.byteAddr location)) ||| (1#8 <<< mm.bitNum location)
     else m (phys (mm.byteAddr location)) &&& (255#8 ^^^ (1#8 <<< mm.bitNum location)))

/-- What `MmLookupPhysFrame` reports. -/
def lookupFrame (m : Mem) (location : Ptr) : FeralStatus × Option Bool :=
  if mm.maxPAddr < location then (.invalidMemoryLocation, none)
  else (.success, some (mm.frameBit m location))

end MemoryManagementState

theorem bit_read (v : BitVec 8) (n : Nat) : ((v >>> n &&& 1#8) != 0#8) = v.getLsbD n := by
  cases hb : v.getLsbD n with
  | false =>
    have h : v >>> n &&& 1#8 = 0#8 := by
      apply BitVec.eq_of_getLsbD_eq
      intro i hi
      cases i with
      | zero => simpa using hb
      | succ i => simp
    rw [h]
    rfl
  | true =>
    have h : v >>> n &&& 1#8 ≠ 0#8 := by
      intro h
      have hbit := congrArg (fun x => BitVec.getLsbD x 0) h
      simp [hb] at hbit
    simpa using h

theorem bit_shifted {n j : Nat} (hj : j < 8) : (1#8 <<< n).getLsbD j = decide (j = n) := by
  simp only [BitVec.getLsbD_shiftLeft, BitVec.getLsbD_one]
  by_cases h : j = n
  · subst h
    simp [hj]
  · have hne : j < n ∨ j - n ≠ 0 := by omega
    rcases hne with hne | hne
    · simp [h, hne]
    · simp [h, hne]

theorem bit_set (v : BitVec 8) {n j : Nat} (hj : j < 8) :
    (v ||| (1#8 <<< n)).getLsbD j = (v.getLsbD j || decide (j = n)) := by
  rw [BitVec.getLsbD_or, bit_shifted hj]

theorem bit_clear (v : BitVec 8) {n j : Nat} (hj : j < 8) :
    (v &&& (255#8 ^^^ (1#8 <<< n))).getLsbD j = (v.getLsbD j && !decide (j = n)) := by
  have h255 : 255#8 = BitVec.allOnes 8 := rfl
  rw [BitVec.getLsbD_and, BitVec.getLsbD_xor, bit_shifted hj, h255, BitVec.getLsbD_allOnes]
  simp [hj]

theorem returns_mmLookupPhysFrame {location : Ptr} {s : Machine MmStatics}
    (hdiv : s.statics.mmState.pAllocInfo.Divides) {Q : FeralStatus × Option Bool → Machine MmStatics → Prop} :
    Returns (mmLookupPhysFrame location) s Q ↔
      Q (s.statics.mmState.lookupFrame s.mem location)
        (if s.statics.mmState.maxPAddr < location then s
         else s.note (.read (s.statics.mmState.byteAddr location) 1)) := by
  rw [mmLookupPhysFrame, returns_bind, returns_getStatics]
  by_cases h : s.statics.mmState.maxPAddr < location
  · simp only [h, if_true, returns_pure, MemoryManagementState.lookupFrame]
  · have hsize := hdiv.frameSize
    rw [MmPhysicalAllocationInfo.Divides] at hdiv
    simp only [h, if_false, returns_bind, returns_divide, ne_eq, hdiv, hsize, not_false_eq_true,
      true_and, returns_load8, returns_pure, bit_read,
      MemoryManagementState.lookupFrame, MemoryManagementState.frameBit,
      MemoryManagementState.byteAddr, MemoryManagementState.bitNum]

/-- `MmAllocatePhysFrame` succeeds exactly when the bit is not yet what it is asked
to become. -/
theorem returns_mmAllocatePhysFrame {location : Ptr} {status : Bool} {s : Machine MmStatics}
    (hdiv : s.statics.mmState.pAllocInfo.Divides) {Q : FeralStatus → Machine MmStatics → Prop} :
    Returns (mmAllocatePhysFrame location status) s Q ↔
      if s.statics.mmState.maxPAddr < location then Q .invalidMemoryLocation s
      else if s.statics.mmState.frameBit s.mem location = status then
        Q .memoryAccessViolation (s.note (.read (s.statics.mmState.byteAddr location) 1))
      else
        Q .success (((s.note (.read (s.statics.mmState.byteAddr location) 1)).setMem
          (s.statics.mmState.setFrameBit s.mem location status)).note
          (.write (s.statics.mmState.byteAddr location) 1)) := by
  rw [mmAllocatePhysFrame, returns_bind, returns_getStatics]
  by_cases h : s.statics.mmState.maxPAddr < location
  · simp only [h, if_true, returns_pure]
  · have hsize := hdiv.frameSize
    rw [MmPhysicalAllocationInfo.Divides] at hdiv
    simp only [h, if_false, returns_bind, returns_divide, ne_eq, hdiv, hsize, not_false_eq_true,
      true_and, returns_load8, bit_read]
    have hbit : s.statics.mmState.frameBit s.mem location =
        (s.mem (phys (s.statics.mmState.bitmaskUsedFrames +
          location / (8 * s.statics.mmState.pAllocInfo.frameSize)))).getLsbD
          (location / s.statics.mmState.pAllocInfo.frameSize % 8).toNat := rfl
    rw [← hbit]
    cases hb : s.statics.mmState.frameBit s.mem location with
    | false =>
      cases status with
      | false =>
        simp only [Bool.false_and, Bool.and_false, Bool.not_false, Bool.false_eq_true,
          if_false, if_true, returns_pure]
        rfl
      | true =>
        simp only [Bool.false_and, Bool.and_self, Bool.not_false, Bool.false_eq_true, if_false,
          if_true, returns_bind, returns_store8, returns_pure]
        rfl
    | true =>
      cases status with
      | false =>
        simp only [Bool.and_self, Bool.not_false, Bool.true_eq_false, if_false, if_true,
          returns_bind, returns_store8, returns_pure]
        rfl
      | true =>
        simp only [Bool.not_true, Bool.and_false, Bool.false_and, Bool.false_eq_true,
          if_false, if_true, returns_pure]
        rfl

/-! ## The bitmap as a map from frames -/

def frameNumber (location : Ptr) : Nat := location.toNat / 4096

/-- The bitmap has a byte of its own for every location up to `MaxPAddr`. -/
structure BitmapValid (mm : MemoryManagementState) : Prop where
  frameSize : mm.pAllocInfo.frameSize = 4096
  own : ∀ i j, i ≤ mm.maxPAddr.toNat / 32768 → j ≤ mm.maxPAddr.toNat / 32768 →
    phys (mm.bitmaskUsedFrames + BitVec.ofNat 64 i) =
      phys (mm.bitmaskUsedFrames + BitVec.ofNat 64 j) → i = j

section Valid

variable {mm : MemoryManagementState}

theorem byteAddr_eq (hsize : mm.pAllocInfo.frameSize = 4096) (location : Ptr) :
    mm.byteAddr location = mm.bitmaskUsedFrames + BitVec.ofNat 64 (location.toNat / 32768) := by
  have hlt := location.isLt
  have hdiv : location / (8 * mm.pAllocInfo.frameSize) =
      BitVec.ofNat 64 (location.toNat / 32768) := by
    apply BitVec.eq_of_toNat_eq
    rw [hsize, show (8 * 4096 : BitVec 64) = 32768#64 from rfl, BitVec.toNat_udiv,
      BitVec.toNat_ofNat, BitVec.toNat_ofNat, Nat.mod_eq_of_lt (show 32768 < 2 ^ 64 by decide)]
    omega
  rw [MemoryManagementState.byteAddr, hdiv]

theorem bitNum_eq (hsize : mm.pAllocInfo.frameSize = 4096) (location : Ptr) :
    mm.bitNum location = frameNumber location % 8 := by
  rw [MemoryManagementState.bitNum, hsize, BitVec.toNat_umod, BitVec.toNat_udiv]
  rfl

theorem bitNum_lt (hsize : mm.pAllocInfo.frameSize = 4096) (location : Ptr) :
    mm.bitNum location < 8 := by
  rw [bitNum_eq hsize]
  omega

/-- The byte and the bit together name the frame. -/
theorem BitmapValid.byte_bit_iff (h : BitmapValid mm) {location other : Ptr}
    (hl : ¬ mm.maxPAddr < location) (ho : ¬ mm.maxPAddr < other) :
    phys (mm.byteAddr other) = phys (mm.byteAddr location) ∧
        mm.bitNum other = mm.bitNum location ↔
      frameNumber other = frameNumber location := by
  rw [BitVec.not_lt, BitVec.le_def] at hl ho
  have hl' : location.toNat / 32768 ≤ mm.maxPAddr.toNat / 32768 := by omega
  have ho' : other.toNat / 32768 ≤ mm.maxPAddr.toNat / 32768 := by omega
  rw [byteAddr_eq h.frameSize, byteAddr_eq h.frameSize, bitNum_eq h.frameSize,
    bitNum_eq h.frameSize, frameNumber, frameNumber]
  constructor
  · intro hsame
    have hbyte := h.own _ _ ho' hl' hsame.1
    omega
  · intro hsame
    have hbyte : other.toNat / 32768 = location.toNat / 32768 := by omega
    exact ⟨by rw [hbyte], by omega⟩

/-- Giving one location's bit a value gives it to that frame and to no other. -/
theorem BitmapValid.frameBit_setFrameBit (h : BitmapValid mm) (m : Mem) {location other : Ptr}
    (hl : ¬ mm.maxPAddr < location) (ho : ¬ mm.maxPAddr < other) (status : Bool) :
    mm.frameBit (mm.setFrameBit m location status) other =
      if frameNumber other = frameNumber location then status else mm.frameBit m other := by
  have hiff := h.byte_bit_iff hl ho
  have hlt := bitNum_lt h.frameSize other
  rw [MemoryManagementState.frameBit, MemoryManagementState.frameBit,
    MemoryManagementState.setFrameBit]
  by_cases hbyte : phys (mm.byteAddr other) = phys (mm.byteAddr location)
  · rw [hbyte, write8_same]
    have hbit : mm.bitNum other = mm.bitNum location ↔
        frameNumber other = frameNumber location := by
      rw [← hiff]
      exact ⟨fun hb => ⟨hbyte, hb⟩, fun hb => hb.2⟩
    cases status with
    | true =>
      rw [if_pos rfl, bit_set _ hlt]
      by_cases hsame : frameNumber other = frameNumber location
      · simp [hsame, hbit]
      · simp [hsame, hbit]
    | false =>
      rw [if_neg (by decide), bit_clear _ hlt]
      by_cases hsame : frameNumber other = frameNumber location
      · simp [hsame, hbit]
      · simp [hsame, hbit]
  · have hne : ¬ frameNumber other = frameNumber location := by
      intro hsame
      exact hbyte (hiff.mpr hsame).1
    rw [write8_outside hbyte, if_neg hne]

end Valid

/-! ## Runs of calls

The abstract manager is a map from frame numbers to used or free.  The bitmap
refines it call by call, and so over whole runs. -/

inductive FrameCall where
  | allocate (location : Ptr) (status : Bool)
  | lookup (location : Ptr)
deriving DecidableEq

/-- The status a call returns, and what a lookup writes to `*Status`. -/
abbrev Outcome : Type := FeralStatus × Option Bool

namespace FrameCall

def location : FrameCall → Ptr
  | .allocate location _ => location
  | .lookup location => location

def run : FrameCall → Kern MmStatics Outcome
  | .allocate location status => do
    let r ← mmAllocatePhysFrame location status
    pure (r, none)
  | .lookup location => mmLookupPhysFrame location

end FrameCall

def frameRun : List FrameCall → Kern MmStatics (List Outcome)
  | [] => pure []
  | call :: rest => do
    let r ← call.run
    let rs ← frameRun rest
    pure (r :: rs)

abbrev FrameMap : Type := Nat → Bool

namespace FrameMap

/-- One call on the abstract manager. -/
def step (maxPAddr : Ptr) (f : FrameMap) : FrameCall → Outcome × FrameMap
  | .allocate location status =>
    if maxPAddr < location then ((.invalidMemoryLocation, none), f)
    else if f (frameNumber location) = status then ((.memoryAccessViolation, none), f)
    else ((.success, none), Function.update f (frameNumber location) status)
  | .lookup location =>
    if maxPAddr < location then ((.invalidMemoryLocation, none), f)
    else ((.success, some (f (frameNumber location))), f)

def run (maxPAddr : Ptr) (f : FrameMap) : List FrameCall → List Outcome × FrameMap
  | [] => ([], f)
  | call :: rest =>
    let next := step maxPAddr f call
    let tail := run maxPAddr next.2 rest
    (next.1 :: tail.1, tail.2)

end FrameMap

/-- What a call that came back with `outcome` gave to a frame. -/
def givenStatus (frame : Nat) : FrameCall × Outcome → Option Bool
  | (.allocate location status, outcome) =>
    if outcome.1 = .success ∧ frameNumber location = frame then some status else none
  | (.lookup _, _) => none

/-- The status of the last successful `MmAllocatePhysFrame` on a frame. -/
def lastStatus (history : List (FrameCall × Outcome)) (frame : Nat) : Option Bool :=
  history.reverse.findSome? (givenStatus frame)

theorem FrameMap.step_eq_givenStatus (maxPAddr : Ptr) (f : FrameMap) (call : FrameCall)
    (frame : Nat) : (step maxPAddr f call).2 frame =
      (givenStatus frame (call, (step maxPAddr f call).1)).getD (f frame) := by
  cases call with
  | lookup location =>
    simp only [step]
    split <;> rfl
  | allocate location status =>
    simp only [step]
    split
    · rfl
    · split
      · rfl
      · simp only [givenStatus, true_and]
        by_cases hframe : frameNumber location = frame
        · rw [if_pos hframe, hframe, Function.update_self]
          rfl
        · rw [if_neg hframe, Function.update_of_ne (Ne.symm hframe)]
          rfl

/-- After a run the map holds, for every frame, what the last successful call on
it gave, and what it held at first where there was none. -/
theorem FrameMap.run_eq_lastStatus (maxPAddr : Ptr) (calls : List FrameCall) :
    ∀ (f : FrameMap) (frame : Nat), (run maxPAddr f calls).2 frame =
      (lastStatus (calls.zip (run maxPAddr f calls).1) frame).getD (f frame) := by
  induction calls with
  | nil => intro f frame; rfl
  | cons call rest ih =>
    intro f frame
    simp only [run]
    rw [ih, step_eq_givenStatus, List.zip_cons_cons, lastStatus, lastStatus, List.reverse_cons,
      List.findSome?_append, List.findSome?_singleton]
    cases List.findSome? (givenStatus frame) _ with
    | none => rfl
    | some v => rfl

/-- The bitmap in `m` holds the map `f`. -/
def Shows (mm : MemoryManagementState) (m : Mem) (f : FrameMap) : Prop :=
  ∀ location, ¬ mm.maxPAddr < location → mm.frameBit m location = f (frameNumber location)

/-- The map a bitmap holds. -/
def MemoryManagementState.frames (mm : MemoryManagementState) (m : Mem) : FrameMap := fun n =>
  mm.frameBit m (BitVec.ofNat 64 (4096 * n))

theorem BitmapValid.shows_frames {mm : MemoryManagementState} (h : BitmapValid mm) (m : Mem) :
    Shows mm m (mm.frames m) := by
  intro location hl
  have hlt := location.isLt
  have hbase : (BitVec.ofNat 64 (4096 * frameNumber location)).toNat =
      4096 * (location.toNat / 4096) := by
    rw [BitVec.toNat_ofNat, frameNumber]
    omega
  have hframe : frameNumber (BitVec.ofNat 64 (4096 * frameNumber location)) =
      frameNumber location := by
    rw [frameNumber, hbase, frameNumber]
    omega
  have hb : ¬ mm.maxPAddr < BitVec.ofNat 64 (4096 * frameNumber location) := by
    rw [BitVec.not_lt, BitVec.le_def] at hl ⊢
    rw [hbase]
    omega
  obtain ⟨hbyte, hbit⟩ := (h.byte_bit_iff hb hl).mpr hframe.symm
  rw [MemoryManagementState.frames, MemoryManagementState.frameBit,
    MemoryManagementState.frameBit, hbyte, hbit]

/-- One call does to the bitmap what it does to the map. -/
theorem FrameCall.run_refines {s : Machine MmStatics} {f : FrameMap}
    (h : BitmapValid s.statics.mmState) (hf : Shows s.statics.mmState s.mem f)
    (call : FrameCall) :
    Returns call.run s fun r t =>
      r = (FrameMap.step s.statics.mmState.maxPAddr f call).1 ∧
      Shows s.statics.mmState t.mem (FrameMap.step s.statics.mmState.maxPAddr f call).2 ∧
      (r.1 ≠ .success → t.mem = s.mem) ∧
      (∀ x, x ≠ phys (s.statics.mmState.byteAddr call.location) → t.mem x = s.mem x) ∧
      SameSide s t := by
  cases call with
  | lookup location =>
    rw [run, returns_mmLookupPhysFrame (divides_of_frameSize h.frameSize),
      MemoryManagementState.lookupFrame, FrameMap.step]
    by_cases hl : s.statics.mmState.maxPAddr < location
    · rw [if_pos hl, if_pos hl, if_pos hl]
      exact ⟨rfl, hf, fun _ => rfl, fun _ _ => rfl, SameSide.refl s⟩
    · rw [if_neg hl, if_neg hl, if_neg hl]
      exact ⟨by rw [hf location hl], hf, fun _ => rfl, fun _ _ => rfl, rfl, rfl⟩
  | allocate location status =>
    rw [run, returns_bind, returns_mmAllocatePhysFrame (divides_of_frameSize h.frameSize),
      FrameMap.step]
    by_cases hl : s.statics.mmState.maxPAddr < location
    · rw [if_pos hl, if_pos hl, returns_pure]
      exact ⟨rfl, hf, fun _ => rfl, fun _ _ => rfl, SameSide.refl s⟩
    · rw [hf location hl]
      by_cases hsame : f (frameNumber location) = status
      · rw [if_neg hl, if_neg hl, if_pos hsame, if_pos hsame, returns_pure]
        exact ⟨rfl, hf, fun _ => rfl, fun _ _ => rfl, rfl, rfl⟩
      · rw [if_neg hl, if_neg hl, if_neg hsame, if_neg hsame, returns_pure]
        refine ⟨rfl, ?_, fun hne => absurd rfl hne, ?_, rfl, rfl⟩
        · intro other ho
          show s.statics.mmState.frameBit (s.statics.mmState.setFrameBit s.mem location status)
            other = Function.update f (frameNumber location) status (frameNumber other)
          rw [h.frameBit_setFrameBit s.mem hl ho status, hf other ho, Function.update_apply]
        · intro x hx
          exact write8_outside hx

/-- A run of calls does to the bitmap what it does to the map. -/
theorem frameRun_shows (calls : List FrameCall) : ∀ (s : Machine MmStatics) (f : FrameMap),
    BitmapValid s.statics.mmState → Shows s.statics.mmState s.mem f →
      Returns (frameRun calls) s fun rs t =>
        rs = (FrameMap.run s.statics.mmState.maxPAddr f calls).1 ∧
        Shows s.statics.mmState t.mem (FrameMap.run s.statics.mmState.maxPAddr f calls).2 ∧
        SameSide s t := by
  induction calls with
  | nil =>
    intro s f _ hf
    rw [frameRun, returns_pure]
    exact ⟨rfl, hf, SameSide.refl s⟩
  | cons call rest ih =>
    intro s f h hf
    rw [frameRun]
    apply (call.run_refines h hf).bind
    intro r t ht
    obtain ⟨rfl, hf', -, -, hside⟩ := ht
    have hstat := hside.1
    apply (ih t _ (by rw [hstat]; exact h) (by rw [hstat]; exact hf')).bind
    intro rs u hu
    rw [hstat] at hu
    obtain ⟨rfl, hf'', hside'⟩ := hu
    rw [returns_pure]
    exact ⟨rfl, hf'', hside.trans hside'⟩

/-- What every call has to do in a state `t` that the calls of `history` led to,
from a bitmap that held `initial`. -/
structure NextCallSound (initial : FrameMap) (history : List (FrameCall × Outcome))
    (t : Machine MmStatics) : Prop where
  outOfRange : ∀ call : FrameCall, t.statics.mmState.maxPAddr < call.location →
    Returns call.run t fun r u => r = (.invalidMemoryLocation, none) ∧ u.mem = t.mem
  allocate : ∀ location status, ¬ t.statics.mmState.maxPAddr < location →
    Returns (mmAllocatePhysFrame location status) t fun r u =>
      (r = .success ↔ (lastStatus history (frameNumber location)).getD
        (initial (frameNumber location)) ≠ status) ∧
      (r = .success → (∀ other, ¬ t.statics.mmState.maxPAddr < other →
          t.statics.mmState.frameBit u.mem other =
            if frameNumber other = frameNumber location then status
            else t.statics.mmState.frameBit t.mem other) ∧
        ∀ x, x ≠ phys (t.statics.mmState.byteAddr location) → u.mem x = t.mem x) ∧
      (r ≠ .success → r = .memoryAccessViolation ∧ u.mem = t.mem)
  lookup : ∀ location, ¬ t.statics.mmState.maxPAddr < location →
    Returns (mmLookupPhysFrame location) t fun r u =>
      r = (.success, some ((lastStatus history (frameNumber location)).getD
        (initial (frameNumber location)))) ∧ u.mem = t.mem

theorem nextCallSound {initial : FrameMap} {history : List (FrameCall × Outcome)}
    {t : Machine MmStatics} (h : BitmapValid t.statics.mmState)
    (hf : Shows t.statics.mmState t.mem fun n => (lastStatus history n).getD (initial n)) :
    NextCallSound initial history t := by
  refine ⟨fun call hl => ?_, fun location status hl => ?_, fun location hl => ?_⟩
  · apply (call.run_refines h hf).mono
    intro r u hu
    have hr : r = (.invalidMemoryLocation, none) := by
      rw [hu.1]
      cases call with
      | allocate location status => simp only [FrameMap.step]; exact congrArg _ (if_pos hl)
      | lookup location => simp only [FrameMap.step]; exact congrArg _ (if_pos hl)
    exact ⟨hr, hu.2.2.1 (by rw [hr]; decide)⟩
  · rw [returns_mmAllocatePhysFrame (divides_of_frameSize h.frameSize), if_neg hl, hf location hl]
    by_cases hsame : (lastStatus history (frameNumber location)).getD
        (initial (frameNumber location)) = status
    · rw [if_pos hsame]
      exact ⟨by simp [hsame], fun hr => (nomatch hr), fun _ => ⟨rfl, rfl⟩⟩
    · rw [if_neg hsame]
      refine ⟨by simp [hsame], fun _ => ⟨fun other ho => ?_, fun x hx => ?_⟩,
        fun hr => absurd rfl hr⟩
      · exact h.frameBit_setFrameBit t.mem hl ho status
      · exact write8_outside hx
  · rw [returns_mmLookupPhysFrame (divides_of_frameSize h.frameSize),
      MemoryManagementState.lookupFrame, if_neg hl, if_neg hl, hf location hl]
    exact ⟨rfl, rfl⟩

/-- The frame manager refines the map from frames to used or free: every run
gives the outcomes of the map, and after every run every call acts on the map
that the run's history describes. -/
theorem frameRun_refines {s : Machine MmStatics} (h : BitmapValid s.statics.mmState)
    (calls : List FrameCall) :
    Returns (frameRun calls) s fun outcomes t =>
      outcomes = (FrameMap.run s.statics.mmState.maxPAddr
        (s.statics.mmState.frames s.mem) calls).1 ∧
      t.statics = s.statics ∧
      NextCallSound (s.statics.mmState.frames s.mem) (calls.zip outcomes) t := by
  apply (frameRun_shows calls s _ h (h.shows_frames s.mem)).mono
  intro outcomes t ht
  obtain ⟨rfl, hf, hside⟩ := ht
  refine ⟨rfl, hside.1, ?_⟩
  apply nextCallSound
  · rw [hside.1]
    exact h
  · rw [hside.1]
    intro location hl
    rw [hf location hl]
    exact FrameMap.run_eq_lastStatus _ calls _ _

/-- A bitmap in one piece of memory has a byte for every location. -/
theorem bitmapValid_of_spans {mm : MemoryManagementState}
    (hsize : mm.pAllocInfo.frameSize = 4096)
    (hspan : Spans mm.bitmaskUsedFrames (mm.maxPAddr.toNat / 32768 + 1)) : BitmapValid mm := by
  refine ⟨hsize, fun i j hi hj he => ?_⟩
  rw [phys_add hspan (by omega), phys_add hspan (by omega)] at he
  omega

/-- The manager over 64 KiB of memory with its bitmap at 2 MiB. -/
def smallFrames : Machine MmStatics :=
  { coldMachine with statics := { coldMachine.statics with mmState :=
      { pAllocInfo := { frameSize := 4096, memoryAreaRangeCount := 0, ranges := 0 }
        bitmaskUsedFrames := 0x200000
        maxPAddr := 0x10000 } } }

theorem smallFrames_valid : BitmapValid smallFrames.statics.mmState :=
  bitmapValid_of_spans rfl (by unfold Spans; decide)

theorem frameRun_refines_smallFrames :
    Returns (frameRun [.allocate 0x5123 true, .lookup 0x5FFF, .allocate 0x5000 true])
      smallFrames fun outcomes t =>
      outcomes = (FrameMap.run 0x10000 (smallFrames.statics.mmState.frames smallFrames.mem)
        [.allocate 0x5123 true, .lookup 0x5FFF, .allocate 0x5000 true]).1 ∧
      t.statics = smallFrames.statics ∧
      NextCallSound (smallFrames.statics.mmState.frames smallFrames.mem)
        ([FrameCall.allocate 0x5123 true, .lookup 0x5FFF, .allocate 0x5000 true].zip outcomes) t :=
  frameRun_refines smallFrames_valid _

end FeralKernel
