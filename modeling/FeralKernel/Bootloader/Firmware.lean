import FeralKernel.Machine

/-!
# The firmware of the bootloader

The boot services and the file that `bootloader/boot.c` calls are functions over memory and a
state of their own.  Every call is recorded, the newest first.  `EfiAllocAddr` and
`EfiAllocMaxAddr` count in pages, and `BytesToEfiPages` looks at the remainder of the page
count where it means that of the byte count.
-/

namespace FeralKernel

open Verif.Program Verif.Bytes

namespace Bootloader

/-! ## The services -/

abbrev EfiStatus : Type := BitVec 64

def efiSuccess : EfiStatus := 0

def efiLoadError : EfiStatus := 0x8000000000000001

inductive EfiAllocateType where
  | maxAddress
  | address
deriving DecidableEq

inductive EfiMemoryType where
  | runtimeServicesCode
  | runtimeServicesData
deriving DecidableEq

/-- What is put out: a literal, the text of a status or the wide characters in memory. -/
inductive EfiText where
  | literal (text : String)
  | errorString (status : EfiStatus)
  | buffer (a : Ptr)
deriving DecidableEq

/-- The firmware's functions, over memory and the firmware's own state `φ`.  A read is given
the size wanted and gives the size read. -/
structure Firmware (φ : Type) where
  allocatePages : EfiAllocateType → EfiMemoryType → BitVec 64 → Ptr → Mem × φ →
    EfiStatus × Mem × φ
  setPosition : BitVec 64 → Mem × φ → EfiStatus × Mem × φ
  read : BitVec 64 → Ptr → Mem × φ → (EfiStatus × BitVec 64) × Mem × φ
  outputString : EfiText → Mem × φ → EfiStatus × Mem × φ
  stall : BitVec 64 → Mem × φ → EfiStatus × Mem × φ

inductive EfiCall where
  | allocatePages (type : EfiAllocateType) (memType : EfiMemoryType) (pages : BitVec 64)
      (memory : Ptr)
  | setPosition (position : BitVec 64)
  | read (size : BitVec 64) (buffer : Ptr)
  | outputString (text : EfiText)
  | stall (microseconds : BitVec 64)
deriving DecidableEq

/-- The state of the firmware and the calls made to it. -/
structure EfiState (φ : Type) where
  firmware : φ
  calls : List EfiCall

variable {φ α : Type}

/-- A call of the firmware. -/
def efiCall (call : EfiCall) (f : Mem × φ → α × Mem × φ) : Kern (EfiState φ) α := fun s =>
  .ok ((f (s.mem, s.statics.firmware)).1,
    { mem := (f (s.mem, s.statics.firmware)).2.1
      log := s.log
      statics :=
        { firmware := (f (s.mem, s.statics.firmware)).2.2
          calls := call :: s.statics.calls } })

@[simp] theorem returns_efiCall {call : EfiCall} {f : Mem × φ → α × Mem × φ}
    {s : Machine (EfiState φ)} {Q : α → Machine (EfiState φ) → Prop} :
    Returns (efiCall call f) s Q ↔ Q (f (s.mem, s.statics.firmware)).1
      { mem := (f (s.mem, s.statics.firmware)).2.1
        log := s.log
        statics :=
          { firmware := (f (s.mem, s.statics.firmware)).2.2
            calls := call :: s.statics.calls } } := returns_ok rfl

namespace Firmware

def callAllocatePages (fw : Firmware φ) (type : EfiAllocateType) (memType : EfiMemoryType)
    (pages : BitVec 64) (memory : Ptr) : Kern (EfiState φ) EfiStatus :=
  efiCall (.allocatePages type memType pages memory) (fw.allocatePages type memType pages memory)

def callSetPosition (fw : Firmware φ) (position : BitVec 64) : Kern (EfiState φ) EfiStatus :=
  efiCall (.setPosition position) (fw.setPosition position)

def callRead (fw : Firmware φ) (size : BitVec 64) (buffer : Ptr) :
    Kern (EfiState φ) (EfiStatus × BitVec 64) :=
  efiCall (.read size buffer) (fw.read size buffer)

def callOutputString (fw : Firmware φ) (text : EfiText) : Kern (EfiState φ) EfiStatus :=
  efiCall (.outputString text) (fw.outputString text)

def callStall (fw : Firmware φ) (microseconds : BitVec 64) : Kern (EfiState φ) EfiStatus :=
  efiCall (.stall microseconds) (fw.stall microseconds)

end Firmware

/-! ## Allocation -/

def efiPageSize : BitVec 64 := 4096

def efiPageShift : Nat := 12

def bytesToEfiPages (bytes : BitVec 64) : BitVec 64 :=
  let retVal := bytes >>> efiPageShift
  if retVal % efiPageSize ≠ 0 ∨ retVal = 0 then retVal + 1 else retVal

def memTypeFor (code : Bool) : EfiMemoryType :=
  if code then .runtimeServicesCode else .runtimeServicesData

/-- `Ptr` is passed on as the address of the address. -/
def efiAllocAddr (fw : Firmware φ) (amt : BitVec 64) (ptr : Ptr) (code : Bool) :
    Kern (EfiState φ) Bool := do
  let status ← fw.callAllocatePages .address (memTypeFor code) (bytesToEfiPages amt) ptr
  pure (status = efiSuccess)

/-- The result and what is written to `*Ptr`.  `addr` is the address of the local variable
`Addr`. -/
def efiAllocMaxAddr (fw : Firmware φ) (addr : Ptr) (amt maxAddress : BitVec 64) (code : Bool) :
    Kern (EfiState φ) (Bool × Ptr) := do
  store64 addr (maxAddress - amt)
  let status ← fw.callAllocatePages .maxAddress (memTypeFor code) (bytesToEfiPages amt) addr
  let ptr ← load64 addr
  pure (status = efiSuccess, ptr)

/-! ## The number of pages -/

/-- The pages hold the bytes and are at most one more than it takes.  For no bytes there is
one page. -/
structure Covers (bytes pages : BitVec 64) : Prop where
  room : bytes.toNat ≤ pages.toNat * 4096
  least : ∀ n, bytes.toNat ≤ n * 4096 → pages.toNat ≤ n + 1
  zero : bytes = 0 → pages = 1

/-- The call asks the firmware once, and for a number of pages that satisfies `P`. -/
def Requests (x : Kern (EfiState φ) α) (s : Machine (EfiState φ)) (P : BitVec 64 → Prop) : Prop :=
  Returns x s fun _ t => ∃ type memType pages memory,
    t.statics.calls = .allocatePages type memType pages memory :: s.statics.calls ∧ P pages

theorem toNat_bytesToEfiPages (bytes : BitVec 64) : (bytesToEfiPages bytes).toNat =
    if bytes.toNat / 4096 % 4096 ≠ 0 ∨ bytes.toNat / 4096 = 0 then bytes.toNat / 4096 + 1
    else bytes.toNat / 4096 := by
  have hlt := bytes.isLt
  have hshift : (bytes >>> efiPageShift).toNat = bytes.toNat / 4096 := by
    rw [BitVec.toNat_ushiftRight, Nat.shiftRight_eq_div_pow]
    rfl
  have hmod : bytes >>> efiPageShift % efiPageSize ≠ 0 ↔ bytes.toNat / 4096 % 4096 ≠ 0 := by
    rw [not_iff_not, ← BitVec.toNat_inj, BitVec.toNat_umod, hshift]
    rfl
  have hzero : bytes >>> efiPageShift = 0 ↔ bytes.toNat / 4096 = 0 := by
    rw [← BitVec.toNat_inj, hshift]
    rfl
  simp only [bytesToEfiPages, hmod, hzero]
  split
  · rw [BitVec.toNat_add, hshift, show (1 : BitVec 64).toNat = 1 from rfl]
    omega
  · exact hshift

/-- The count comes out short for one kind of numbers: the whole pages make up a positive
multiple of 4096 pages and there is a rest. -/
theorem covers_bytesToEfiPages_iff (bytes : BitVec 64) : Covers bytes (bytesToEfiPages bytes) ↔
    ¬ (4096 ≤ bytes.toNat ∧ bytes.toNat / 4096 % 4096 = 0 ∧ bytes.toNat % 4096 ≠ 0) := by
  have hpages := toNat_bytesToEfiPages bytes
  constructor
  · rintro ⟨hroom, -, -⟩ ⟨hlarge, hmultiple, hrest⟩
    rw [hpages, if_neg (by omega)] at hroom
    omega
  · intro h
    refine ⟨?_, fun n hn => ?_, ?_⟩
    · rw [hpages]
      split <;> omega
    · rw [hpages]
      split <;> omega
    · rintro rfl
      decide

/-- The newest call determines the number of pages. -/
theorem requested_iff {type : EfiAllocateType} {memType : EfiMemoryType} {pages : BitVec 64}
    {memory : Ptr} {calls : List EfiCall} {P : BitVec 64 → Prop} :
    (∃ type' memType' pages' memory', EfiCall.allocatePages type memType pages memory :: calls =
      .allocatePages type' memType' pages' memory' :: calls ∧ P pages') ↔ P pages := by
  constructor
  · rintro ⟨type', memType', pages', memory', hcalls, hP⟩
    cases hcalls
    exact hP
  · intro hP
    exact ⟨_, _, _, _, rfl, hP⟩

theorem requests_efiAllocAddr (fw : Firmware φ) (amt : BitVec 64) (ptr : Ptr) (code : Bool)
    (s : Machine (EfiState φ)) (P : BitVec 64 → Prop) :
    Requests (efiAllocAddr fw amt ptr code) s P ↔ P (bytesToEfiPages amt) := by
  rw [Requests, efiAllocAddr, returns_bind, Firmware.callAllocatePages, returns_efiCall,
    returns_pure]
  exact requested_iff

theorem requests_efiAllocMaxAddr (fw : Firmware φ) (addr : Ptr) (amt maxAddress : BitVec 64)
    (code : Bool) (s : Machine (EfiState φ)) (P : BitVec 64 → Prop) :
    Requests (efiAllocMaxAddr fw addr amt maxAddress code) s P ↔ P (bytesToEfiPages amt) := by
  rw [Requests, efiAllocMaxAddr, returns_bind, returns_store64, returns_bind,
    Firmware.callAllocatePages, returns_efiCall, returns_bind, returns_load64, returns_pure]
  exact requested_iff

/-- What the functions ask for covers the bytes for all but those numbers. -/
theorem bytesToEfiPages_covers_iff (fw : Firmware φ) (amt : BitVec 64) (ptr addr : Ptr)
    (maxAddress : BitVec 64) (code : Bool) (s : Machine (EfiState φ)) :
    (Covers amt (bytesToEfiPages amt) ∧
      Requests (efiAllocAddr fw amt ptr code) s (Covers amt) ∧
      Requests (efiAllocMaxAddr fw addr amt maxAddress code) s (Covers amt)) ↔
    ¬ (4096 ≤ amt.toNat ∧ amt.toNat / 4096 % 4096 = 0 ∧ amt.toNat % 4096 ≠ 0) := by
  rw [requests_efiAllocAddr, requests_efiAllocMaxAddr, and_self, and_self,
    covers_bytesToEfiPages_iff]

/-- Sixteen mebibytes and one byte get sixteen mebibytes. -/
theorem sixteenMebibytes_and_one_not_covered :
    bytesToEfiPages 0x1000001 = 4096 ∧ ¬ Covers 0x1000001 (bytesToEfiPages 0x1000001) := by
  refine ⟨by decide, fun h => ?_⟩
  have hroom := h.room
  exact absurd hroom (by decide)

end Bootloader

end FeralKernel
