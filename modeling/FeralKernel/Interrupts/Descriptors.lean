import FeralKernel.Machine
import Mathlib.Logic.Function.Basic

/-!
# Descriptor tables

`x86IDTSetGate` and `x86InitializeGDT` of `kern/arch/x86_64/archstart.c` and
`x86SetupIDTEntries` of `kern/arch/x86_64/interrupts.c`, with the packed structures of
`idt/idt.h` and `cpuinfo.h`.  The code fills the fields of these structures; the processor
reads the same bytes as gates and segments.
-/

namespace FeralKernel

open Verif.Program Verif.Bytes

variable {σ : Type}

/-! ## Gates -/

structure IDTDescriptor where
  offset : BitVec 16
  selector : BitVec 16
  ist : BitVec 8
  typeAttr : BitVec 8
  offset2 : BitVec 16
  offset3 : BitVec 32
  reserved : BitVec 32
deriving DecidableEq, Repr

/-- The assignment of a packed structure. -/
def storeDescriptor (a : Ptr) (d : IDTDescriptor) : Kern σ Unit := do
  store16 a d.offset
  store16 (a + 2) d.selector
  store8 (a + 4) d.ist
  store8 (a + 5) d.typeAttr
  store16 (a + 6) d.offset2
  store32 (a + 8) d.offset3
  store32 (a + 12) d.reserved

/-- `idt` is the address of `IDT`. -/
def x86IDTSetGate (idt : Ptr) (number : BitVec 8) (base : Ptr) (selector : BitVec 16)
    (flags : BitVec 8) : Kern σ Unit :=
  storeDescriptor (idt + 16 * number.setWidth 64)
    { offset := (base &&& 0xFFFF).setWidth 16
      offset2 := ((base >>> 16) &&& 0xFFFF).setWidth 16
      reserved := 0
      selector := selector
      typeAttr := flags
      offset3 := ((base >>> 32) &&& 0xFFFFFFFF).setWidth 32
      ist := 0 }

/-- The functions that stand in the table. -/
inductive Handler where
  | divideByZero
  | genericHandler
  | genericHandlerPIC1
  | genericHandlerPIC2
  | doubleFaultHandler
  | pageFaultHandler
  | pitHandler
  | ps2KeyboardHandler
deriving DecidableEq, Repr

/-- `entry` is where a handler's code is. -/
def x86SetupIDTEntries (idt : Ptr) (entry : Handler → Ptr) : Kern σ Unit := do
  forRange (fun i _ =>
    x86IDTSetGate idt (BitVec.ofNat 8 i) (entry .genericHandler) 0x08 0x8E) 255 0 ()
  forRange (fun i _ =>
    x86IDTSetGate idt (BitVec.ofNat 8 i) (entry .genericHandlerPIC2) 0x08 0x8E) 8 0x28 ()
  x86IDTSetGate idt 0x00 (entry .divideByZero) 0x08 0x8E
  x86IDTSetGate idt 0x08 (entry .doubleFaultHandler) 0x08 0x8E
  x86IDTSetGate idt 0x0E (entry .pageFaultHandler) 0x08 0x8E
  x86IDTSetGate idt 0x20 (entry .pitHandler) 0x08 0x8E
  x86IDTSetGate idt 0x21 (entry .ps2KeyboardHandler) 0x08 0x8E
  x86IDTSetGate idt 0x2C (entry .ps2KeyboardHandler) 0x08 0x8E

/-- The structure that stands at an address. -/
def descriptorAt (m : Mem) (a : Nat) : IDTDescriptor where
  offset := read16 m a
  selector := read16 m (a + 2)
  ist := m (a + 4)
  typeAttr := m (a + 5)
  offset2 := read16 m (a + 6)
  offset3 := read32 m (a + 8)
  reserved := read32 m (a + 12)

/-- What the processor makes of a descriptor. -/
structure Gate where
  offset : Ptr
  selector : BitVec 16
  ist : BitVec 3
  type : BitVec 4
  privilege : BitVec 2
  present : Bool
deriving DecidableEq, Repr

def IDTDescriptor.gate (d : IDTDescriptor) : Gate where
  offset := d.offset3 ++ (d.offset2 ++ d.offset)
  selector := d.selector
  ist := d.ist.setWidth 3
  type := d.typeAttr.extractLsb' 0 4
  privilege := d.typeAttr.extractLsb' 5 2
  present := d.typeAttr.getLsbD 7

/-- An interrupt gate of the kernel: it turns interrupts off and is not open to `int` from
user code. -/
def kernelGate (target : Ptr) : Gate where
  offset := target
  selector := 0x08
  ist := 0
  type := 0xE
  privilege := 0
  present := true

/-- The handler that a vector gets. -/
def handlerOf (vector : BitVec 8) : Handler :=
  if vector = 0x21 ∨ vector = 0x2C then .ps2KeyboardHandler
  else if vector = 0x20 then .pitHandler
  else if vector = 0x0E then .pageFaultHandler
  else if vector = 0x08 then .doubleFaultHandler
  else if vector = 0x00 then .divideByZero
  else if 0x28 ≤ vector ∧ vector < 0x30 then .genericHandlerPIC2
  else .genericHandler

section Gates

variable {s : Machine σ} {m : Mem} {idt : Ptr} {entry : Handler → Ptr}

/-- The bytes of the seven stores. -/
def putDescriptor (m : Mem) (a : Nat) (d : IDTDescriptor) : Mem :=
  write32 (write32 (write16 (write8 (write8 (write16 (write16 m a d.offset) (a + 2) d.selector)
    (a + 4) d.ist) (a + 5) d.typeAttr) (a + 6) d.offset2) (a + 8) d.offset3) (a + 12) d.reserved

theorem putDescriptor_outside {a x : Nat} {d : IDTDescriptor} (h : x < a ∨ a + 16 ≤ x) :
    putDescriptor m a d x = m x := by
  rw [putDescriptor, write32_outside (by omega), write32_outside (by omega), write16,
    writeLE_outside (by omega), write8_outside (by omega), write8_outside (by omega), write16,
    writeLE_outside (by omega), write16, writeLE_outside (by omega)]

theorem descriptorAt_put (m : Mem) (a : Nat) (d : IDTDescriptor) :
    descriptorAt (putDescriptor m a d) a = d := by
  rcases d with ⟨offset, selector, ist, typeAttr, offset2, offset3, reserved⟩
  rw [descriptorAt, putDescriptor, IDTDescriptor.mk.injEq]
  refine ⟨?_, ?_, ?_, ?_, ?_, ?_, read32_write32_same _ _ _⟩
  · rw [read16_write32_outside (by omega), read16_write32_outside (by omega),
      read16_write16_outside (by omega), read16_write8_outside (by omega),
      read16_write8_outside (by omega), read16_write16_outside (by omega), read16_write16_same]
  · rw [read16_write32_outside (by omega), read16_write32_outside (by omega),
      read16_write16_outside (by omega), read16_write8_outside (by omega),
      read16_write8_outside (by omega), read16_write16_same]
  · rw [write32_outside (by omega), write32_outside (by omega), write16,
      writeLE_outside (by omega), write8_outside (by omega), write8_same]
  · rw [write32_outside (by omega), write32_outside (by omega), write16,
      writeLE_outside (by omega), write8_same]
  · rw [read16_write32_outside (by omega), read16_write32_outside (by omega), read16_write16_same]
  · rw [read32_write32_outside (by omega), read32_write32_same]

theorem storeDescriptor_spec {a : Ptr} (hspan : Spans a 16) (d : IDTDescriptor) :
    Returns (storeDescriptor a d) s fun _ t =>
      t.mem = putDescriptor s.mem (phys a) d ∧ t.statics = s.statics := by
  have h2 : phys (a + 2) = phys a + 2 := phys_add hspan (by decide : 2 < 16)
  have h4 : phys (a + 4) = phys a + 4 := phys_add hspan (by decide : 4 < 16)
  have h5 : phys (a + 5) = phys a + 5 := phys_add hspan (by decide : 5 < 16)
  have h6 : phys (a + 6) = phys a + 6 := phys_add hspan (by decide : 6 < 16)
  have h8 : phys (a + 8) = phys a + 8 := phys_add hspan (by decide : 8 < 16)
  have h12 : phys (a + 12) = phys a + 12 := phys_add hspan (by decide : 12 < 16)
  simp only [storeDescriptor, returns_bind, returns_store16, returns_store8, returns_store32,
    Machine.note_mem, Machine.setMem_mem, h2, h4, h5, h6, h8, h12]
  exact ⟨rfl, rfl⟩

/-- The table as a function of the vector. -/
def descriptors (m : Mem) (idt : Ptr) (vector : BitVec 8) : IDTDescriptor :=
  descriptorAt m (phys idt + 16 * vector.toNat)

/-- The assigned descriptor of `x86IDTSetGate`. -/
def gateDescriptor (base : Ptr) (selector : BitVec 16) (flags : BitVec 8) : IDTDescriptor where
  offset := (base &&& 0xFFFF).setWidth 16
  offset2 := ((base >>> 16) &&& 0xFFFF).setWidth 16
  reserved := 0
  selector := selector
  typeAttr := flags
  offset3 := ((base >>> 32) &&& 0xFFFFFFFF).setWidth 32
  ist := 0

theorem descriptorAt_congr {m m' : Mem} {a : Nat} (h : ∀ x, a ≤ x → x < a + 16 → m x = m' x) :
    descriptorAt m a = descriptorAt m' a := by
  rw [descriptorAt, descriptorAt, IDTDescriptor.mk.injEq]
  refine ⟨?_, ?_, h _ (by omega) (by omega), h _ (by omega) (by omega), ?_, ?_, ?_⟩
  · exact read16_shift fun k hk => h _ (by omega) (by omega)
  · exact read16_shift fun k hk => h _ (by omega) (by omega)
  · exact read16_shift fun k hk => h _ (by omega) (by omega)
  · exact read32_congr fun x h1 h2 => h _ (by omega) (by omega)
  · exact read32_congr fun x h1 h2 => h _ (by omega) (by omega)

/-- From `s` to `t` only the table has changed, and it is `f` now. -/
structure SetsTable (idt : Ptr) (s t : Machine σ) (f : BitVec 8 → IDTDescriptor) : Prop where
  table : descriptors t.mem idt = f
  outside : ∀ x, x < phys idt ∨ phys idt + 4096 ≤ x → t.mem x = s.mem x
  statics : t.statics = s.statics

variable {t : Machine σ} {f : BitVec 8 → IDTDescriptor}

/-- One gate is set, and the others stay. -/
theorem SetsTable.setGate (h : SetsTable idt s t f) (hspan : Spans idt 4096) (number : BitVec 8)
    (base : Ptr) (selector : BitVec 16) (flags : BitVec 8) :
    Returns (x86IDTSetGate idt number base selector flags) t fun _ u =>
      SetsTable idt s u (Function.update f number (gateDescriptor base selector flags)) := by
  have hnum := number.isLt
  have hoff : (16 : Ptr) * number.setWidth 64 = BitVec.ofNat 64 (16 * number.toNat) := by
    apply BitVec.eq_of_toNat_eq
    rw [BitVec.toNat_mul, BitVec.toNat_setWidth, BitVec.toNat_ofNat]
    rw [Nat.mod_eq_of_lt (show number.toNat < 2 ^ 64 by omega)]
    rfl
  have haddr : phys (idt + 16 * number.setWidth 64) = phys idt + 16 * number.toNat := by
    rw [hoff]
    exact phys_add hspan (by omega)
  rw [x86IDTSetGate]
  apply (storeDescriptor_spec (by rw [hoff]; exact hspan.sub (by omega) (by omega)) _).mono
  intro _ u hu
  obtain ⟨hm, hstat⟩ := hu
  rw [haddr] at hm
  refine ⟨?_, fun x hx => ?_, hstat.trans h.statics⟩
  · funext vector
    rw [descriptors, hm]
    by_cases hv : vector = number
    · rw [hv, Function.update_self, descriptorAt_put]
      rfl
    · have hne : vector.toNat ≠ number.toNat := fun h => hv (BitVec.eq_of_toNat_eq h)
      rw [Function.update_of_ne hv, ← h.table]
      exact descriptorAt_congr fun x h1 h2 => putDescriptor_outside (by omega)
  · rw [hm, putDescriptor_outside (by omega)]
    exact h.outside x hx

/-- A loop that gives the vectors from `start` on the same handler. -/
theorem SetsTable.setGates (h : SetsTable idt s t f) (hspan : Spans idt 4096) (base : Ptr)
    (selector : BitVec 16) (flags : BitVec 8) {start count : Nat} (hend : start + count ≤ 256) :
    Returns (forRange (fun i _ => x86IDTSetGate idt (BitVec.ofNat 8 i) base selector flags)
      count start ()) t fun _ u => SetsTable idt s u fun v =>
        if start ≤ v.toNat ∧ v.toNat < start + count then gateDescriptor base selector flags
        else f v := by
  refine (returns_forRange (fun i _ u => start ≤ i ∧ SetsTable idt s u fun v =>
    if start ≤ v.toNat ∧ v.toNat < i then gateDescriptor base selector flags else f v)
    (start + count) ?_ count start () t rfl ⟨Nat.le_refl _, ?_⟩).mono fun _ _ hu => hu.2
  · intro i _ u hi hI
    apply (hI.2.setGate hspan (BitVec.ofNat 8 i) base selector flags).mono
    intro _ w hw
    have hnat : (BitVec.ofNat 8 i).toNat = i := by
      rw [BitVec.toNat_ofNat]
      omega
    refine ⟨by omega, ?_⟩
    refine ⟨?_, hw.outside, hw.statics⟩
    rw [hw.table]
    funext v
    by_cases hv : v = BitVec.ofNat 8 i
    · rw [hv, Function.update_self, hnat, if_pos ⟨hI.1, Nat.lt_succ_self i⟩]
    · have hne : v.toNat ≠ i := fun h => hv (BitVec.eq_of_toNat_eq (h.trans hnat.symm))
      rw [Function.update_of_ne hv]
      exact if_congr (by omega) rfl rfl
  · refine ⟨?_, h.outside, h.statics⟩
    rw [h.table]
    funext v
    rw [if_neg (by omega)]

theorem x86SetupIDTEntries_spec (hspan : Spans idt 4096) :
    Returns (x86SetupIDTEntries idt entry) s fun _ t => SetsTable idt s t fun v =>
      if v = 0xFF then descriptors s.mem idt v
      else gateDescriptor (entry (handlerOf v)) 0x08 0x8E := by
  have hstart : SetsTable idt s s (descriptors s.mem idt) := ⟨rfl, fun _ _ => rfl, rfl⟩
  rw [x86SetupIDTEntries]
  refine (hstart.setGates hspan _ _ _ (by decide)).bind fun _ t1 h1 => ?_
  refine (h1.setGates hspan _ _ _ (by decide)).bind fun _ t2 h2 => ?_
  refine (h2.setGate hspan _ _ _ _).bind fun _ t3 h3 => ?_
  refine (h3.setGate hspan _ _ _ _).bind fun _ t4 h4 => ?_
  refine (h4.setGate hspan _ _ _ _).bind fun _ t5 h5 => ?_
  refine (h5.setGate hspan _ _ _ _).bind fun _ t6 h6 => ?_
  refine (h6.setGate hspan _ _ _ _).bind fun _ t7 h7 => ?_
  refine (h7.setGate hspan _ _ _ _).mono fun _ t8 h8 => ?_
  refine ⟨?_, h8.outside, h8.statics⟩
  rw [h8.table]
  funext v
  -- the last gate set for a vector is the one it keeps
  have hpic : (0x28 ≤ v.toNat ∧ v.toNat < 0x28 + 8) ↔ 0x28 ≤ v ∧ v < 0x30 := by
    rw [BitVec.le_def, BitVec.lt_def]
    exact Iff.rfl
  have hfilled : (0 ≤ v.toNat ∧ v.toNat < 0 + 255) ↔ v ≠ 0xFF := by
    rw [ne_eq, ← BitVec.toNat_inj]
    have hv := v.isLt
    show _ ↔ ¬ v.toNat = 255
    omega
  simp only [Function.update_apply, handlerOf, hpic, hfilled]
  by_cases hff : v = 0xFF
  · subst hff
    rfl
  · rw [if_neg hff, if_pos hff]
    by_cases h2c : v = 0x2C
    · rw [if_pos h2c, if_pos (Or.inr h2c)]
    · rw [if_neg h2c]
      simp only [h2c, or_false, apply_ite entry, apply_ite (gateDescriptor · 0x08 0x8E)]

/-- A field that is shifted down and masked. -/
theorem field_eq_extractLsb' (x mask : BitVec 64) (k n : Nat)
    (hmask : mask.setWidth n = BitVec.allOnes n) :
    ((x >>> k) &&& mask).setWidth n = x.extractLsb' k n := by
  rw [BitVec.setWidth_and, hmask, BitVec.and_allOnes, BitVec.setWidth_ushiftRight_eq_extractLsb]

/-- The three parts of the address come back together. -/
theorem gate_gateDescriptor (target : Ptr) :
    (gateDescriptor target 0x08 0x8E).gate = kernelGate target := by
  have hlow : (target &&& 0xFFFF).setWidth 16 = target.extractLsb' 0 16 :=
    field_eq_extractLsb' target 0xFFFF 0 16 (by decide)
  have hmiddle : ((target >>> 16) &&& 0xFFFF).setWidth 16 = target.extractLsb' 16 16 :=
    field_eq_extractLsb' target 0xFFFF 16 16 (by decide)
  have hhigh : ((target >>> 32) &&& 0xFFFFFFFF).setWidth 32 = target.extractLsb' 32 32 :=
    field_eq_extractLsb' target 0xFFFFFFFF 32 32 (by decide)
  have hword : target.extractLsb' 16 16 ++ target.extractLsb' 0 16 = target.extractLsb' 0 32 :=
    BitVec.extractLsb'_append_extractLsb'_eq_extractLsb' (show 16 = 0 + 16 from rfl)
  have hwhole : target.extractLsb' 32 32 ++ target.extractLsb' 0 32 = target.extractLsb' 0 64 :=
    BitVec.extractLsb'_append_extractLsb'_eq_extractLsb' (show 32 = 0 + 32 from rfl)
  have hoffset : target.extractLsb' 32 32 ++ (target.extractLsb' 16 16 ++
      target.extractLsb' 0 16 : BitVec 32) = target := by
    rw [hword, hwhole]
    exact BitVec.extractLsb'_eq_self
  have htype : (0x8E : BitVec 8).extractLsb' 0 4 = 0xE := by decide
  have hprivilege : (0x8E : BitVec 8).extractLsb' 5 2 = 0 := by decide
  have hpresent : (0x8E : BitVec 8).getLsbD 7 = true := by decide
  rw [IDTDescriptor.gate, gateDescriptor, kernelGate, Gate.mk.injEq, hlow, hmiddle, hhigh]
  exact ⟨hoffset, rfl, rfl, htype, hprivilege, hpresent⟩

end Gates

/-! ## Segments -/

/-- A bit field of `AsBits`, by its place in the `High` it shares memory with. -/
structure BitField where
  shift : Nat
  width : Nat
deriving DecidableEq, Repr

namespace GDTEntry

def readWritable : BitField := ⟨9, 1⟩
def executable : BitField := ⟨11, 1⟩
def system : BitField := ⟨12, 1⟩
def privLevel : BitField := ⟨13, 2⟩
def present : BitField := ⟨15, 1⟩
def sixtyFourMode : BitField := ⟨21, 1⟩
def granularity : BitField := ⟨23, 1⟩

end GDTEntry

/-- What an assignment to the field makes of the word. -/
def BitField.assign (f : BitField) (word v : BitVec 32) : BitVec 32 :=
  (word &&& ~~~ ((BitVec.twoPow 32 f.width - 1) <<< f.shift)) |||
    ((v &&& (BitVec.twoPow 32 f.width - 1)) <<< f.shift)

def assignField (entry : Ptr) (f : BitField) (v : BitVec 32) : Kern σ Unit := do
  let word ← load32 (entry + 4)
  store32 (entry + 4) (f.assign word v)

/-- An entry is cleared and then gets its fields. -/
def setUpEntry (entry : Ptr) (fields : List (BitField × BitVec 32)) : Kern σ Unit := do
  store16 (entry + 2) 0
  store32 (entry + 4) 0
  store16 entry 0
  forM fields fun f => assignField entry f.1 f.2

/-- The entries of `x86InitializeGDT`.  `gdtEntries` is the address of `GDTEntries`. -/
def setUpGDT (gdtEntries : Ptr) : Kern σ Unit := do
  setUpEntry gdtEntries []
  setUpEntry (gdtEntries + 8)
    [(GDTEntry.sixtyFourMode, 1), (GDTEntry.present, 1), (GDTEntry.system, 1),
      (GDTEntry.executable, 1), (GDTEntry.readWritable, 1), (GDTEntry.granularity, 1)]
  setUpEntry (gdtEntries + 16)
    [(GDTEntry.sixtyFourMode, 1), (GDTEntry.present, 1), (GDTEntry.system, 1),
      (GDTEntry.readWritable, 1)]
  setUpEntry (gdtEntries + 24)
    [(GDTEntry.sixtyFourMode, 1), (GDTEntry.present, 1), (GDTEntry.system, 1),
      (GDTEntry.executable, 1), (GDTEntry.readWritable, 1), (GDTEntry.granularity, 1),
      (GDTEntry.privLevel, 3)]
  setUpEntry (gdtEntries + 32)
    [(GDTEntry.sixtyFourMode, 1), (GDTEntry.present, 1), (GDTEntry.system, 1),
      (GDTEntry.readWritable, 1), (GDTEntry.privLevel, 3)]

/-- What the processor makes of eight bytes of the table. -/
structure Segment where
  limit : BitVec 20
  base : BitVec 32
  accessed : Bool
  readWritable : Bool
  direction : Bool
  executable : Bool
  codeOrData : Bool
  privilege : BitVec 2
  present : Bool
  long : Bool
  size : Bool
  granularity : Bool
deriving DecidableEq, Repr

/-- The segment of an entry with these three fields. -/
def segmentOf (limit base : BitVec 16) (high : BitVec 32) : Segment where
  limit := high.extractLsb' 16 4 ++ limit
  base := high.extractLsb' 24 8 ++ (high.extractLsb' 0 8 ++ base)
  accessed := high.getLsbD 8
  readWritable := high.getLsbD 9
  direction := high.getLsbD 10
  executable := high.getLsbD 11
  codeOrData := high.getLsbD 12
  privilege := high.extractLsb' 13 2
  present := high.getLsbD 15
  long := high.getLsbD 21
  size := high.getLsbD 22
  granularity := high.getLsbD 23

def segmentAt (m : Mem) (a : Nat) : Segment :=
  segmentOf (read16 m a) (read16 m (a + 2)) (read32 m (a + 4))

def nullSegment : Segment where
  limit := 0
  base := 0
  accessed := false
  readWritable := false
  direction := false
  executable := false
  codeOrData := false
  privilege := 0
  present := false
  long := false
  size := false
  granularity := false

/-- 64-bit code of a privilege level. -/
def codeSegment (privilege : BitVec 2) : Segment :=
  { nullSegment with
    readWritable := true
    executable := true
    codeOrData := true
    privilege := privilege
    present := true
    long := true
    granularity := true }

/-- Data of a privilege level.  The code sets the bit for 64-bit code here too. -/
def dataSegment (privilege : BitVec 2) : Segment :=
  { nullSegment with
    readWritable := true
    codeOrData := true
    privilege := privilege
    present := true
    long := true }

section Segments

variable {s : Machine σ} {entry gdtEntries : Ptr}

/-- The memory is the same but for the eight bytes of an entry. -/
def SameButEntry (a : Nat) (m m' : Mem) : Prop := ∀ x, x < a ∨ a + 8 ≤ x → m' x = m x

theorem assignField_spec (hspan : Spans entry 8) (f : BitField) (v : BitVec 32) :
    Returns (assignField entry f v) s fun _ t =>
      t.mem = write32 s.mem (phys entry + 4) (f.assign (read32 s.mem (phys entry + 4)) v) ∧
      t.statics = s.statics := by
  have h4 : phys (entry + 4) = phys entry + 4 := phys_add hspan (by decide : 4 < 8)
  simp only [assignField, returns_bind, returns_load32, returns_store32, h4]
  exact ⟨rfl, rfl⟩

/-- The fields are assigned one after the other, and the other bytes stay. -/
theorem assignFields_spec (hspan : Spans entry 8) (fields : List (BitField × BitVec 32)) :
    ∀ s : Machine σ, Returns (forM fields fun f => assignField entry f.1 f.2) s fun _ t =>
      read32 t.mem (phys entry + 4) =
        fields.foldl (fun word f => f.1.assign word f.2) (read32 s.mem (phys entry + 4)) ∧
      (∀ x, x < phys entry + 4 ∨ phys entry + 8 ≤ x → t.mem x = s.mem x) ∧
      t.statics = s.statics := by
  induction fields with
  | nil =>
    intro s
    exact returns_pure.mpr ⟨rfl, fun _ _ => rfl, rfl⟩
  | cons f fields ih =>
    intro s
    rw [List.forM_cons]
    apply (assignField_spec hspan f.1 f.2).bind
    intro _ t ht
    apply (ih t).mono
    intro _ u hu
    obtain ⟨hword, hout, hstat⟩ := hu
    rw [ht.1] at hword hout
    refine ⟨?_, fun x hx => ?_, hstat.trans ht.2⟩
    · rw [hword, read32_write32_same]
      rfl
    · rw [hout x hx, write32_outside (by omega)]

theorem setUpEntry_spec (hspan : Spans entry 8) (fields : List (BitField × BitVec 32)) :
    Returns (setUpEntry entry fields) s fun _ t =>
      segmentAt t.mem (phys entry) =
        segmentOf 0 0 (fields.foldl (fun word f => f.1.assign word f.2) 0) ∧
      SameButEntry (phys entry) s.mem t.mem ∧ t.statics = s.statics := by
  have h2 : phys (entry + 2) = phys entry + 2 := phys_add hspan (by decide : 2 < 8)
  have h4 : phys (entry + 4) = phys entry + 4 := phys_add hspan (by decide : 4 < 8)
  simp only [setUpEntry, returns_bind, returns_store16, returns_store32, Machine.note_mem,
    Machine.setMem_mem, h2, h4]
  apply (assignFields_spec hspan fields _).mono
  intro _ t ht
  obtain ⟨hword, hout, hstat⟩ := ht
  simp only [Machine.note_mem, Machine.setMem_mem] at hword hout
  have hcleared : read32 (write16 (write32 (write16 s.mem (phys entry + 2) 0) (phys entry + 4) 0)
      (phys entry) 0) (phys entry + 4) = 0 := by
    rw [read32_write16_outside (by omega), read32_write32_same]
  have hbase : read16 t.mem (phys entry + 2) = 0 := by
    rw [read16_shift fun k hk => hout _ (by omega), read16_write16_outside (by omega),
      read16_write32_outside (by omega), read16_write16_same]
  have hlimit : read16 t.mem (phys entry) = 0 := by
    rw [read16_shift fun k hk => hout _ (by omega), read16_write16_same]
  rw [hcleared] at hword
  refine ⟨?_, fun x hx => ?_, hstat⟩
  · rw [segmentAt, hlimit, hbase, hword]
  · rw [hout x (by omega), write16, writeLE_outside (by omega), write32_outside (by omega), write16,
      writeLE_outside (by omega)]

theorem segmentAt_congr {m m' : Mem} {a : Nat} (h : ∀ x, a ≤ x → x < a + 8 → m x = m' x) :
    segmentAt m a = segmentAt m' a := by
  rw [segmentAt, segmentAt, read16_shift fun k hk => h (a + k) (by omega) (by omega),
    read16_shift fun k hk => h (a + 2 + k) (by omega) (by omega),
    read32_congr fun x h1 h2 => h x (by omega) (by omega)]

/-- The segment that stands in an entry of the table. -/
def gdtSegment (index : Nat) : Segment :=
  if index = 1 then codeSegment 0
  else if index = 2 then dataSegment 0
  else if index = 3 then codeSegment 3
  else if index = 4 then dataSegment 3
  else nullSegment

/-- The entries below `n` are set up, and nothing else has changed. -/
structure GDTUpTo (gdtEntries : Ptr) (n : Nat) (s t : Machine σ) : Prop where
  entries : ∀ i, i < n → segmentAt t.mem (phys gdtEntries + 8 * i) = gdtSegment i
  outside : ∀ x, x < phys gdtEntries ∨ phys gdtEntries + 40 ≤ x → t.mem x = s.mem x
  statics : t.statics = s.statics

theorem GDTUpTo.next {n : Nat} {t : Machine σ} (h : GDTUpTo gdtEntries n s t)
    (hspan : Spans gdtEntries 40) (hn : n < 5) (fields : List (BitField × BitVec 32))
    (hfields : segmentOf 0 0 (fields.foldl (fun word f => f.1.assign word f.2) 0) = gdtSegment n) :
    Returns (setUpEntry (gdtEntries + BitVec.ofNat 64 (8 * n)) fields) t fun _ u =>
      GDTUpTo gdtEntries (n + 1) s u := by
  have haddr : phys (gdtEntries + BitVec.ofNat 64 (8 * n)) = phys gdtEntries + 8 * n :=
    phys_add hspan (by omega)
  apply (setUpEntry_spec (hspan.sub (by omega) (by omega)) fields).mono
  intro _ u hu
  obtain ⟨hseg, hsame, hstat⟩ := hu
  rw [haddr] at hseg hsame
  refine ⟨fun i hi => ?_, fun x hx => ?_, hstat.trans h.statics⟩
  · by_cases hin : i = n
    · rw [hin, hseg, hfields]
    · rw [← h.entries i (by omega)]
      exact segmentAt_congr fun x h1 h2 => hsame x (by omega)
  · rw [hsame x (by omega), h.outside x hx]

theorem setUpGDT_spec (hspan : Spans gdtEntries 40) :
    Returns (setUpGDT gdtEntries) s fun _ t => GDTUpTo gdtEntries 5 s t := by
  have hstart : GDTUpTo gdtEntries 0 s s := ⟨fun i hi => absurd hi (by omega), fun _ _ => rfl, rfl⟩
  have hzero : gdtEntries = gdtEntries + BitVec.ofNat 64 (8 * 0) := (BitVec.add_zero _).symm
  rw [setUpGDT]
  have hnull := hstart.next hspan (by decide) [] (by decide)
  rw [← hzero] at hnull
  refine hnull.bind fun _ t1 h1 => ?_
  refine (h1.next hspan (by decide) _ (by decide)).bind fun _ t2 h2 => ?_
  refine (h2.next hspan (by decide) _ (by decide)).bind fun _ t3 h3 => ?_
  refine (h3.next hspan (by decide) _ (by decide)).bind fun _ t4 h4 => ?_
  exact h4.next hspan (by decide) _ (by decide)

end Segments

end FeralKernel
