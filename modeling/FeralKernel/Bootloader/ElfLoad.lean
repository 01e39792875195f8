import FeralKernel.Bootloader.ElfImage
import FeralKernel.Bootloader.Firmware
import FeralKernel.Bootloader.Itoa

/-!
# Loading the kernel

`ValidateElfHeader` and `ElfLoadFile` of `bootloader/boot.c`.  The loop over the program
headers runs up to `e_phoff`, the offset of the table, where their number is `e_phnum`.  And
the result of `EfiAllocAddr` is a truth value that is then taken for a status, so that the
loader gives up at the first segment that it could allocate.
-/

namespace FeralKernel

open Verif.Program Verif.Bytes

namespace Bootloader

variable {φ : Type}

/-! ## The code -/

/-- The local variables of `ElfLoadFile` that the firmware fills or reads: objects of their
own, each in one piece of memory. -/
structure LoaderLocals where
  header : Ptr
  programHeader : Ptr
  itoaBuf : Ptr
  header_spans : Spans header 60
  programHeader_spans : Spans programHeader 56
  itoaBuf_spans : Spans itoaBuf 64
  header_programHeader : phys header + 60 ≤ phys programHeader ∨
    phys programHeader + 56 ≤ phys header
  header_itoaBuf : phys header + 60 ≤ phys itoaBuf ∨ phys itoaBuf + 64 ≤ phys header
  programHeader_itoaBuf : phys programHeader + 56 ≤ phys itoaBuf ∨
    phys itoaBuf + 64 ≤ phys programHeader

/-- An address in none of them. -/
structure LoaderLocals.Outside (l : LoaderLocals) (a : Nat) : Prop where
  header : a < phys l.header ∨ phys l.header + 60 ≤ a
  programHeader : a < phys l.programHeader ∨ phys l.programHeader + 56 ≤ a
  itoaBuf : a < phys l.itoaBuf ∨ phys l.itoaBuf + 64 ≤ a

def validateElfHeader (fw : Firmware φ) (header : Ptr) : Kern (EfiState φ) EfiStatus := do
  let matched ← forCount (fun i _ => do
    let c ← load8 (ElfHeader64.magic header + BitVec.ofNat 64 i)
    if c ≠ elfMagic.getD i 0 then pure (.inl efiLoadError) else pure (.inr ())) 4 0 ()
  match matched with
  | .inl status => pure status
  | .inr () => do
    let machine ← load16 (ElfHeader64.eMachine header)
    if machine ≠ machineIdNone ∧ machine ≠ machineIdX8664 then pure efiLoadError
    else
      let phnum ← load16 (ElfHeader64.ePhnum header)
      if phnum = 0 then
        let _ ← fw.callOutputString
          (.literal "Not an executable: missing program headers... \r\n")
        pure efiLoadError
      else pure efiSuccess

/-- The loop that copies a segment. -/
def copySegment (programHeader efiMem pAddr : Ptr) : Kern (EfiState φ) Unit :=
  iterate .hang (fun index : BitVec 64 => do
    let filesz ← load64 (ElfProgramHeader64.pFilesz programHeader)
    if index < filesz then
      let c ← load8 (efiMem + index)
      store8 (pAddr + index) c
      pure (.inr (index + 1))
    else pure (.inl ())) loopBound 0

/-- What is done for a header of type `PT_LOAD`.  With a status the loader returns. -/
def loadSegment (fw : Firmware φ) (programHeader : Ptr) :
    Kern (EfiState φ) (EfiStatus ⊕ Unit) := do
  let vaddr ← load64 (ElfProgramHeader64.pVaddr programHeader)
  let pAddr := elfAddress vaddr
  let memsz ← load64 (ElfProgramHeader64.pMemsz programHeader)
  let flags ← load32 (ElfProgramHeader64.pFlags programHeader)
  let allocated ← efiAllocAddr fw memsz pAddr (flags &&& 0x01 ≠ 0)
  -- a `BOOL`, which is compared as an `EFI_STATUS`
  let status : EfiStatus := if allocated then 1 else 0
  if status ≠ efiSuccess then
    let _ ← fw.callOutputString (.literal "EfiAllocAddr failed...\r\n")
    let _ ← fw.callOutputString (.errorString status)
    let _ ← fw.callStall 12500000
    pure (.inl status)
  else
    let offset ← load64 (ElfProgramHeader64.pOffset programHeader)
    let status ← fw.callSetPosition offset
    if status ≠ efiSuccess then pure (.inl status)
    else
      let efiMem : Ptr := 0
      let filesz ← load64 (ElfProgramHeader64.pFilesz programHeader)
      let (status, _) ← fw.callRead filesz efiMem
      onlyIf (status ≠ efiSuccess) do
        let _ ← fw.callOutputString (.errorString status)
        let _ ← fw.callOutputString (.literal " : Failed to load program section.\r\n")
        let _ ← fw.callStall 10000
        pure ()
      copySegment programHeader efiMem pAddr
      pure (.inr ())

/-- The start of a round: the next program header is read.  It gives the new `PHdrSize`. -/
def readProgramHeader (fw : Firmware φ) (l : LoaderLocals) (index : BitVec 32)
    (pHdrSize : BitVec 64) : Kern (EfiState φ) (BitVec 64) := do
  let phoff ← load64 (ElfHeader64.ePhoff l.header)
  let phentsize ← load16 (ElfHeader64.ePhentsize l.header)
  let _ ← fw.callSetPosition (phoff + (phentsize.setWidth 32 * index).setWidth 64)
  let (_, pHdrSize) ← fw.callRead pHdrSize l.programHeader
  pure pHdrSize

/-- The body of the loop with the condition in front, over `Index` and `PHdrSize`. -/
def headerRound (fw : Firmware φ) (l : LoaderLocals) :
    BitVec 32 × BitVec 64 → Kern (EfiState φ) ((EfiStatus ⊕ Unit) ⊕ (BitVec 32 × BitVec 64)) :=
  fun (index, pHdrSize) => do
    let phoff ← load64 (ElfHeader64.ePhoff l.header)
    if index.setWidth 64 < phoff then
      let pHdrSize ← readProgramHeader fw l index pHdrSize
      let type ← load32 (ElfProgramHeader64.pType l.programHeader)
      if type = ptLoad then
        match ← loadSegment fw l.programHeader with
        | .inl status => pure (.inl (.inl status))
        | .inr () => pure (.inr (index + 1, pHdrSize))
      else pure (.inr (index + 1, pHdrSize))
    else pure (.inl (.inr ()))

/-- What comes behind the loop.  It gives what is written to `*Entry`. -/
def reportEntry (fw : Firmware φ) (l : LoaderLocals) : Kern (EfiState φ) Ptr := do
  let entry ← load64 (ElfHeader64.eEntry l.header)
  let _ ← fw.callOutputString (.literal "Kernel (virt) entry is at: 0x")
  let val ← load64 (ElfHeader64.eEntry l.header)
  internalItoaBaseChange val l.itoaBuf 16
  let _ ← fw.callOutputString (.buffer l.itoaBuf)
  let _ ← fw.callOutputString (.literal "\r\n")
  pure (elfAddress entry)

/-- The loop over the program headers and what comes behind it. -/
def loadProgram (fw : Firmware φ) (l : LoaderLocals) :
    Kern (EfiState φ) (EfiStatus × Option Ptr) := do
  match ← iterate .hang (headerRound fw l) loopBound (0, ElfProgramHeader64.size) with
  | .inl status => pure (status, none)
  | .inr () => do
    let entry ← reportEntry fw l
    pure (efiSuccess, some entry)

/-- The status and what is written to `*Entry`, if anything. -/
def elfLoadFile (fw : Firmware φ) (l : LoaderLocals) :
    Kern (EfiState φ) (EfiStatus × Option Ptr) := do
  let (status, _) ← fw.callRead ElfHeader64.size l.header
  if status ≠ efiSuccess then pure (status, none)
  else
    let status ← validateElfHeader fw l.header
    if status ≠ efiSuccess then pure (status, none)
    else loadProgram fw l

/-! ## The firmware's part -/

/-- The firmware gives the memory it is asked for and delivers the bytes of the file.
`position` is where the file stands. -/
structure DeliversFile (fw : Firmware φ) (file : ElfFile) (position : φ → Nat) : Prop where
  allocatePages : ∀ type memType pages memory w,
    (fw.allocatePages type memType pages memory w).1 = efiSuccess
  /-- Setting the position to a place in the file. -/
  seek : ∀ p m x, p.toNat ≤ file.length → (fw.setPosition p (m, x)).1 = efiSuccess ∧
    position (fw.setPosition p (m, x)).2.2 = p.toNat
  seek_mem : ∀ p m x, (fw.setPosition p (m, x)).2.1 = m
  /-- A read gives as much as there is, and moves on. -/
  read : ∀ n buffer m x, Spans buffer n.toNat → position x ≤ file.length →
    (fw.read n buffer (m, x)).1 =
        (efiSuccess, BitVec.ofNat 64 (min n.toNat (file.length - position x))) ∧
      position (fw.read n buffer (m, x)).2.2 =
        position x + min n.toNat (file.length - position x) ∧
      file.At (position x) (min n.toNat (file.length - position x))
        (fw.read n buffer (m, x)).2.1 (phys buffer)
  /-- The size that is given back is never more than was asked for. -/
  read_size : ∀ n buffer w, (fw.read n buffer w).1.2.toNat ≤ n.toNat
  read_mem : ∀ n buffer m x a, Spans buffer n.toNat →
    (a < phys buffer ∨ phys buffer + n.toNat ≤ a) → (fw.read n buffer (m, x)).2.1 a = m a
  output_mem : ∀ text m x, (fw.outputString text (m, x)).2.1 = m

/-- The file has just been opened. -/
structure Opened (position : φ → Nat) (s : Machine (EfiState φ)) : Prop where
  start : position s.statics.firmware = 0
  calls : s.statics.calls = []

/-! ## What is asked of the loader -/

/-- Where the file has been put last. -/
def seekedTo : List EfiCall → BitVec 64
  | [] => 0
  | .setPosition position :: _ => position
  | .allocatePages _ _ _ _ :: calls => seekedTo calls
  | .read _ _ :: calls => seekedTo calls
  | .outputString _ :: calls => seekedTo calls
  | .stall _ :: calls => seekedTo calls

/-- The positions of the headers that have been read, the first one first. -/
def headersRead (programHeader : Ptr) : List EfiCall → List (BitVec 64)
  | [] => []
  | .read _ buffer :: calls =>
    if buffer = programHeader then headersRead programHeader calls ++ [seekedTo calls]
    else headersRead programHeader calls
  | .allocatePages _ _ _ _ :: calls => headersRead programHeader calls
  | .setPosition _ :: calls => headersRead programHeader calls
  | .outputString _ :: calls => headersRead programHeader calls
  | .stall _ :: calls => headersRead programHeader calls

/-- The image is loaded: the program headers have been looked at, each of them and nothing
else, the segments are in memory, the rest of memory is as it was, and the entry is known. -/
structure LoadsImage (image : ElfImage) (l : LoaderLocals) (s : Machine (EfiState φ))
    (r : EfiStatus × Option Ptr) (t : Machine (EfiState φ)) : Prop where
  status : r.1 = efiSuccess
  entry : r.2 = some (elfAddress image.eEntry)
  examined : headersRead l.programHeader t.statics.calls =
    (List.range image.ePhnum.toNat).map fun i => BitVec.ofNat 64 (image.headerPosition i)
  loaded : ∀ i, image.Loadable i → ∀ k, k < (image.pFilesz i).toNat →
    t.mem (phys (image.segment i + BitVec.ofNat 64 k)) = image.bytes ((image.pOffset i).toNat + k)
  others : ∀ a, l.Outside a →
    (∀ i, image.Loadable i → ∀ k, k < (image.pFilesz i).toNat →
      a ≠ phys (image.segment i + BitVec.ofNat 64 k)) → t.mem a = s.mem a

/-! ## One header -/

section Load

variable {fw : Firmware φ} {image : ElfImage} {position : φ → Nat} {l : LoaderLocals}
  {s t : Machine (EfiState φ)}

/-- Where the loader looks for the header with a number. -/
def soughtPosition (image : ElfImage) (index : BitVec 32) : BitVec 64 :=
  image.ePhoff + (image.ePhentsize.setWidth 32 * index).setWidth 64

theorem validateElfHeader_spec (fw : Firmware φ)
    (hhead : image.At 0 60 s.mem (phys l.header)) :
    Returns (validateElfHeader fw l.header) s fun status t =>
      status = efiSuccess ∧ t.mem = s.mem ∧ t.statics = s.statics := by
  have hspan := l.header_spans
  have hbyte : ∀ i (t : Machine (EfiState φ)), i < 4 → t.mem = s.mem →
      t.mem (phys (ElfHeader64.magic l.header + BitVec.ofNat 64 i)) = elfMagic.getD i 0 := by
    intro i t hi hmem
    rw [ElfHeader64.magic, BitVec.add_zero, phys_add hspan (by omega), hmem,
      hhead i (by omega), Nat.zero_add, image.magic i hi]
  rw [validateElfHeader]
  have hmatch : Returns (forCount (fun i _ => do
      let c ← load8 (ElfHeader64.magic l.header + BitVec.ofNat 64 i)
      if c ≠ elfMagic.getD i 0 then pure (.inl efiLoadError) else pure (.inr ())) 4 0 ()) s
      fun r t => r = (.inr () : EfiStatus ⊕ Unit) ∧ t.mem = s.mem ∧ t.statics = s.statics := by
    refine returns_forCount (fun _ _ t => t.mem = s.mem ∧ t.statics = s.statics) 4 ?_ ?_ 4 0 () s
      rfl ⟨rfl, rfl⟩
    · intro i _ t hi ht
      rw [returns_bind, returns_load8, hbyte i t hi ht.1, if_neg (by simp), returns_pure]
      exact ht
    · intro _ t ht
      exact ⟨rfl, ht⟩
  apply hmatch.bind
  rintro _ t ⟨rfl, hmem, hstatics⟩
  have hat : image.At 0 60 t.mem (phys l.header) := hhead.of_eq hmem
  have hphnum : read16 t.mem (phys (ElfHeader64.ePhnum l.header)) ≠ 0 := by
    rw [hat.read_ePhnum hspan]
    intro hzero
    have hnum := image.phnum
    rw [hzero] at hnum
    exact absurd hnum (by decide)
  have hmachine : ¬ (read16 t.mem (phys (ElfHeader64.eMachine l.header)) ≠ machineIdNone ∧
      read16 t.mem (phys (ElfHeader64.eMachine l.header)) ≠ machineIdX8664) := by
    rw [hat.read_eMachine hspan, image.machine]
    exact fun h => h.2 rfl
  dsimp only
  rw [returns_bind, returns_load16, if_neg hmachine, returns_bind, returns_load16,
    Machine.note_mem, if_neg hphnum, returns_pure]
  exact ⟨rfl, hmem, hstatics⟩

theorem efiAllocAddr_succeeds (hfw : DeliversFile fw image.toElfFile position)
    (amt : BitVec 64) (ptr : Ptr) (code : Bool) (t : Machine (EfiState φ)) :
    Returns (efiAllocAddr fw amt ptr code) t fun allocated _ => allocated = true := by
  rw [efiAllocAddr, Firmware.callAllocatePages, returns_bind, returns_efiCall, returns_pure,
    hfw.allocatePages]
  rfl

/-- The firmware has allocated the segment, and this is what the loader takes for an error. -/
theorem loadSegment_gives_up (hfw : DeliversFile fw image.toElfFile position)
    (programHeader : Ptr) (t : Machine (EfiState φ)) :
    Returns (loadSegment fw programHeader) t fun r _ => r = .inl 1 := by
  rw [loadSegment, returns_bind, returns_load64, returns_bind, returns_load64, returns_bind,
    returns_load32]
  apply (efiAllocAddr_succeeds hfw _ _ _ _).bind
  rintro _ u rfl
  rw [if_pos rfl, if_pos (by decide), Firmware.callOutputString, Firmware.callOutputString,
    Firmware.callStall, returns_bind, returns_efiCall, returns_bind, returns_efiCall, returns_bind,
    returns_efiCall, returns_pure]

/-- From `t` to `u` the header with the number `index` has been read, with the given sizes. -/
structure HeaderRead (image : ElfImage) (l : LoaderLocals) (index : BitVec 32)
    (t : Machine (EfiState φ)) (wanted size : BitVec 64) (u : Machine (EfiState φ)) : Prop where
  size_le : size.toNat ≤ wanted.toNat
  others : ∀ a, (a < phys l.programHeader ∨ phys l.programHeader + 56 ≤ a) → u.mem a = t.mem a
  calls : u.statics.calls = .read wanted l.programHeader ::
    .setPosition (soughtPosition image index) :: t.statics.calls
  /-- A header that is wanted whole and is in the file. -/
  whole : (soughtPosition image index).toNat + 56 ≤ image.length →
    wanted = ElfProgramHeader64.size → size = ElfProgramHeader64.size ∧
      image.At (soughtPosition image index).toNat 56 u.mem (phys l.programHeader)

theorem readProgramHeader_spec (hfw : DeliversFile fw image.toElfFile position)
    (hhead : image.At 0 60 t.mem (phys l.header)) {pHdrSize : BitVec 64}
    (hsize : pHdrSize.toNat ≤ 56) (index : BitVec 32) :
    Returns (readProgramHeader fw l index pHdrSize) t fun size u =>
      HeaderRead image l index t pHdrSize size u := by
  have hspan := l.programHeader_spans.mono hsize
  have hmem := hfw.seek_mem (soughtPosition image index) t.mem t.statics.firmware
  rw [readProgramHeader, returns_bind, returns_load64, returns_bind, returns_load16,
    Machine.note_mem, hhead.read_ePhoff l.header_spans, hhead.read_ePhentsize l.header_spans,
    Firmware.callSetPosition, Firmware.callRead, returns_bind, returns_efiCall, returns_bind,
    returns_efiCall, returns_pure]
  refine ⟨hfw.read_size _ _ _, fun a ha => ?_, rfl, fun hin hfull => ?_⟩
  · show (fw.read _ _ ((fw.setPosition (soughtPosition image index)
      (t.mem, t.statics.firmware)).2.1, _)).2.1 a = _
    rw [hfw.read_mem _ _ _ _ _ hspan (by omega), hmem]
  · have hseek := (hfw.seek (soughtPosition image index) t.mem t.statics.firmware
      (by show _ ≤ image.length; omega)).2
    have hread := hfw.read pHdrSize l.programHeader
      (fw.setPosition (soughtPosition image index) (t.mem, t.statics.firmware)).2.1
      (fw.setPosition (soughtPosition image index) (t.mem, t.statics.firmware)).2.2 hspan
      (by rw [hseek]; show _ ≤ image.length; omega)
    have hall : min pHdrSize.toNat (image.length - (soughtPosition image index).toNat) = 56 := by
      rw [hfull]
      exact Nat.min_eq_left (show 56 ≤ _ by omega)
    obtain ⟨hresult, -, hbytes⟩ := hread
    rw [hseek, hall] at hresult hbytes
    exact ⟨congrArg Prod.snd hresult, hbytes⟩

theorem HeaderRead.header {index : BitVec 32} {wanted size : BitVec 64}
    (h : HeaderRead image l index s wanted size t) (hhead : image.At 0 60 s.mem (phys l.header)) :
    image.At 0 60 t.mem (phys l.header) := by
  have hapart := l.header_programHeader
  exact hhead.congr fun x h1 h2 => h.others x (by omega)

theorem HeaderRead.examined {index : BitVec 32} {wanted size : BitVec 64}
    (h : HeaderRead image l index s wanted size t) :
    headersRead l.programHeader t.statics.calls =
      headersRead l.programHeader s.statics.calls ++ [soughtPosition image index] := by
  rw [h.calls, headersRead, if_pos rfl, headersRead, seekedTo]

/-! ## The loop -/

/-- A round up to the bound.  If the header asks for a segment, the loader gives up. -/
theorem headerRound_open (hfw : DeliversFile fw image.toElfFile position)
    (hhead : image.At 0 60 t.mem (phys l.header)) {index : BitVec 32} {pHdrSize : BitVec 64}
    (hsize : pHdrSize.toNat ≤ 56) (hlt : index.toNat < image.ePhoff.toNat) :
    Returns (headerRound fw l (index, pHdrSize)) t fun r u =>
      ∃ size v, HeaderRead image l index t pHdrSize size v ∧
        (read32 v.mem (phys (ElfProgramHeader64.pType l.programHeader)) = ptLoad ∧
            r = .inl (.inl 1) ∨
          read32 v.mem (phys (ElfProgramHeader64.pType l.programHeader)) ≠ ptLoad ∧
            r = .inr (index + 1, size) ∧ u.mem = v.mem ∧ u.statics = v.statics) := by
  have hcond : index.setWidth 64 < image.ePhoff := by
    rw [BitVec.lt_def, BitVec.toNat_setWidth]
    omega
  rw [headerRound, returns_bind, returns_load64, hhead.read_ePhoff l.header_spans, if_pos hcond]
  have hnote : image.At 0 60 (t.note (.read (ElfHeader64.ePhoff l.header) 8)).mem
      (phys l.header) := hhead
  apply (readProgramHeader_spec hfw hnote hsize index).bind
  intro size v hv
  have hread : HeaderRead image l index t pHdrSize size v := ⟨hv.size_le, hv.others, hv.calls,
    hv.whole⟩
  rw [returns_bind, returns_load32]
  by_cases htype : read32 v.mem (phys (ElfProgramHeader64.pType l.programHeader)) = ptLoad
  · rw [if_pos htype]
    apply (loadSegment_gives_up hfw _ _).bind
    rintro _ u rfl
    rw [returns_pure]
    exact ⟨size, v, hread, Or.inl ⟨htype, rfl⟩⟩
  · rw [if_neg htype, returns_pure]
    exact ⟨size, v, hread, Or.inr ⟨htype, rfl, rfl, rfl⟩⟩

theorem headerRound_closed (hhead : image.At 0 60 t.mem (phys l.header)) {index : BitVec 32}
    (hge : image.ePhoff.toNat ≤ index.toNat) (pHdrSize : BitVec 64) :
    Returns (headerRound fw l (index, pHdrSize)) t fun r u =>
      r = .inl (.inr ()) ∧ u.mem = t.mem ∧ u.statics = t.statics := by
  have hcond : ¬ index.setWidth 64 < image.ePhoff := by
    rw [BitVec.lt_def, BitVec.toNat_setWidth]
    omega
  rw [headerRound, returns_bind, returns_load64, hhead.read_ePhoff l.header_spans, if_neg hcond,
    returns_pure]
  exact ⟨rfl, rfl, rfl⟩

/-- The rounds are counted by the index, as long as it does not wrap. -/
structure Counting (image : ElfImage) (l : LoaderLocals) (loc : BitVec 32 × BitVec 64)
    (t : Machine (EfiState φ)) : Prop where
  size : loc.2.toNat ≤ 56
  header : image.At 0 60 t.mem (phys l.header)
  bound : loc.1.toNat ≤ image.ePhoff.toNat
  count : image.ePhoff.toNat < 2 ^ 32 →
    (headersRead l.programHeader t.statics.calls).length = loc.1.toNat

theorem Counting.round (hfw : DeliversFile fw image.toElfFile position)
    {loc : BitVec 32 × BitVec 64} (h : Counting image l loc t) :
    Returns (headerRound fw l loc) t fun r u => r = .inl (.inl 1) ∨
      r = .inl (.inr ()) ∧ image.At 0 60 u.mem (phys l.header) ∧
        (headersRead l.programHeader u.statics.calls).length = image.ePhoff.toNat ∨
      ∃ next, r = .inr next ∧ Counting image l next u := by
  obtain ⟨index, pHdrSize⟩ := loc
  obtain ⟨hsize, hhead, hbound, hcount⟩ := h
  dsimp only at hsize hbound hcount
  have hindex := index.isLt
  by_cases hlt : index.toNat < image.ePhoff.toNat
  · apply (headerRound_open hfw hhead hsize hlt).mono
    rintro r u ⟨size, v, hread, ⟨-, rfl⟩ | ⟨-, rfl, hmem, hstatics⟩⟩
    · exact Or.inl rfl
    · have hnext : (index + 1).toNat = (index.toNat + 1) % 2 ^ 32 := by
        rw [BitVec.toNat_add]
        rfl
      have hsize' := hread.size_le
      refine Or.inr (Or.inr ⟨_, rfl, ?_, ?_, ?_, ?_⟩)
      · show size.toNat ≤ 56
        omega
      · exact (hread.header hhead).of_eq hmem
      · show (index + 1).toNat ≤ _
        omega
      · intro hsmall
        show _ = (index + 1).toNat
        have hlen := hcount hsmall
        rw [hstatics, hread.examined, List.length_append, List.length_singleton, hnext]
        omega
  · apply (headerRound_closed hhead (by omega) pHdrSize).mono
    rintro r u ⟨rfl, hmem, hstatics⟩
    refine Or.inr (Or.inl ⟨rfl, hhead.of_eq hmem, ?_⟩)
    rw [hstatics, hcount (by omega)]
    omega

/-- The first `i` headers have been read, and none of them asks for a segment. -/
structure AtHeader (image : ElfImage) (l : LoaderLocals) (s : Machine (EfiState φ)) (i : Nat)
    (loc : BitVec 32 × BitVec 64) (t : Machine (EfiState φ)) : Prop where
  index : loc.1 = BitVec.ofNat 32 i
  size : loc.2 = ElfProgramHeader64.size
  header : image.At 0 60 t.mem (phys l.header)
  examined : headersRead l.programHeader t.statics.calls =
    (List.range i).map fun j => BitVec.ofNat 64 (image.headerPosition j)
  others : ∀ a, l.Outside a → t.mem a = s.mem a
  plain : ∀ j, j < i → image.pType j ≠ ptLoad

theorem soughtPosition_eq (image : ElfImage) {i : Nat} (hi : i < image.ePhnum.toNat) :
    soughtPosition image (BitVec.ofNat 32 i) = BitVec.ofNat 64 (image.headerPosition i) := by
  rw [← image.toNat_headerPosition hi, BitVec.ofNat_toNat, BitVec.setWidth_eq, soughtPosition]

theorem AtHeader.round (hfw : DeliversFile fw image.toElfFile position) {i : Nat}
    {loc : BitVec 32 × BitVec 64} (h : AtHeader image l s i loc t) (hi : i < image.ePhnum.toNat)
    (hbound : image.ePhnum.toNat ≤ image.ePhoff.toNat) :
    Returns (headerRound fw l loc) t fun r u => r = .inl (.inl 1) ∧ image.Loadable i ∨
      ∃ next, r = .inr next ∧ AtHeader image l s (i + 1) next u := by
  obtain ⟨index, pHdrSize⟩ := loc
  obtain ⟨hindex, hsize, hhead, hexamined, hothers, hplain⟩ := h
  dsimp only at hindex hsize
  have hnum := image.ePhnum.isLt
  have hnat : index.toNat = i := by
    rw [hindex, BitVec.toNat_ofNat]
    omega
  have hsought : (soughtPosition image index).toNat = image.headerPosition i := by
    rw [hindex]
    exact image.toNat_headerPosition hi
  have hin := image.headerPosition_le hi
  apply (headerRound_open hfw hhead (by rw [hsize]; decide) (by omega)).mono
  rintro r u ⟨size, v, hread, htype⟩
  obtain ⟨hwhole, hbytes⟩ := hread.whole (by omega) hsize
  rw [hsought] at hbytes
  rw [hbytes.read_pType l.programHeader_spans] at htype
  obtain ⟨hload, rfl⟩ | ⟨hother, rfl, hmem, hstatics⟩ := htype
  · exact Or.inl ⟨rfl, hi, hload⟩
  · refine Or.inr ⟨_, rfl, ?_, hwhole, ?_, ?_, ?_, ?_⟩
    · show index + 1 = _
      rw [hindex, BitVec.ofNat_add]
      rfl
    · exact (hread.header hhead).of_eq hmem
    · rw [hstatics, hread.examined, hexamined, List.range_succ, List.map_append, hindex,
        soughtPosition_eq image hi, List.map_singleton]
    · intro a ha
      rw [hmem, hread.others a ha.programHeader, hothers a ha]
    · intro j hj
      by_cases he : j = i
      · rw [he]
        exact hother
      · exact hplain j (by omega)

/-- Where the table starts at its own length, the loop reads the table, up to the first
header that asks for a segment. -/
theorem headerLoop_spec (hfw : DeliversFile fw image.toElfFile position)
    (heq : image.ePhoff.toNat = image.ePhnum.toNat)
    (h : AtHeader image l s 0 (0, ElfProgramHeader64.size) t) :
    Returns (iterate .hang (headerRound fw l) loopBound (0, ElfProgramHeader64.size)) t fun r u =>
      r = .inl 1 ∧ (∃ i, image.Loadable i) ∨
      r = .inr () ∧ ∃ loc, AtHeader image l s image.ePhnum.toNat loc u := by
  have hnum := image.ePhnum.isLt
  refine returns_iterate (fun k loc u => ∃ i, i + k = image.ePhnum.toNat ∧
    AtHeader image l s i loc u) ?_ loopBound image.ePhnum.toNat _ t ?_ ⟨0, Nat.zero_add _, h⟩
  · rintro k loc u ⟨i, hik, hi⟩
    by_cases hlt : i < image.ePhnum.toNat
    · apply (hi.round hfw hlt (by omega)).mono
      rintro r v (⟨rfl, hload⟩ | ⟨next, rfl, hnext⟩)
      · exact Or.inl ⟨rfl, i, hload⟩
      · exact ⟨k - 1, by omega, i + 1, by omega, hnext⟩
    · have hend : i = image.ePhnum.toNat := by omega
      obtain ⟨index, pHdrSize⟩ := loc
      have hindex : index.toNat = i := by
        rw [show index = BitVec.ofNat 32 i from hi.index, BitVec.toNat_ofNat]
        omega
      apply (headerRound_closed hi.header (by omega) pHdrSize).mono
      rintro r v ⟨rfl, hmem, hstatics⟩
      refine Or.inr ⟨rfl, (index, pHdrSize), ?_⟩
      rw [← hend]
      exact ⟨hi.index, hi.size, hi.header.of_eq hmem,
        by rw [hstatics, hi.examined], fun a ha => by rw [hmem, hi.others a ha], hi.plain⟩
  · rw [loopBound]
    omega

/-! ## The whole call -/

theorem callOutputString_spec (hfw : DeliversFile fw image.toElfFile position) (text : EfiText)
    (t : Machine (EfiState φ)) :
    Returns (fw.callOutputString text) t fun _ u => u.mem = t.mem ∧
      headersRead l.programHeader u.statics.calls =
        headersRead l.programHeader t.statics.calls := by
  rw [Firmware.callOutputString, returns_efiCall]
  exact ⟨hfw.output_mem _ _ _, rfl⟩

/-- What follows the loop writes the buffer for the number and nothing else. -/
theorem reportEntry_spec (hfw : DeliversFile fw image.toElfFile position)
    (hhead : image.At 0 60 t.mem (phys l.header)) :
    Returns (reportEntry fw l) t fun entry u => entry = elfAddress image.eEntry ∧
      headersRead l.programHeader u.statics.calls =
        headersRead l.programHeader t.statics.calls ∧
      ∀ a, l.Outside a → u.mem a = t.mem a := by
  have hspan := l.header_spans
  rw [reportEntry, returns_bind, returns_load64, hhead.read_eEntry hspan]
  apply (callOutputString_spec (l := l) hfw _ _).bind
  rintro _ t1 ⟨hmem1, hcalls1⟩
  rw [returns_bind, returns_load64]
  have hroom : ∀ val : BitVec 64, (numeral (16 : BitVec 8).toNat val.toNat).length < 32 := by
    intro val
    have hlen : (numeral (16 : BitVec 8).toNat val.toNat).length ≤ 16 :=
      length_numeral_le (by decide) (by decide) val.isLt
    omega
  apply (internalItoaBaseChange_others (n := 32) (by decide) l.itoaBuf_spans (hroom _)).bind
  rintro _ t2 ⟨hstatics2, hothers2⟩
  apply (callOutputString_spec (l := l) hfw _ _).bind
  rintro _ t3 ⟨hmem3, hcalls3⟩
  apply (callOutputString_spec (l := l) hfw _ _).bind
  rintro _ t4 ⟨hmem4, hcalls4⟩
  rw [returns_pure]
  refine ⟨rfl, ?_, fun a ha => ?_⟩
  · rw [hcalls4, hcalls3, hstatics2]
    exact hcalls1
  · have hin := ha.itoaBuf
    rw [hmem4, hmem3, hothers2 a (by omega)]
    exact congrFun hmem1 a

/-- A well-formed image passes the checks, and the loop starts with its header in memory. -/
theorem elfLoadFile_opens (hfw : DeliversFile fw image.toElfFile position)
    (hopen : Opened position s) :
    ∃ t, AtHeader image l s 0 (0, ElfProgramHeader64.size) t ∧
      elfLoadFile fw l s = loadProgram fw l t := by
  have hsize : ElfHeader64.size.toNat = 60 := rfl
  have hlength := image.header
  have hread := hfw.read ElfHeader64.size l.header s.mem s.statics.firmware
    (by rw [hsize]; exact l.header_spans) (by rw [hopen.start]; exact Nat.zero_le _)
  have hall : min 60 (image.length - 0) = 60 := Nat.min_eq_left (by omega)
  rw [hsize, hopen.start, hall] at hread
  obtain ⟨hresult, -, hbytes⟩ := hread
  have hfirst : Returns (fw.callRead ElfHeader64.size l.header) s fun r t =>
      r.1 = efiSuccess ∧ image.At 0 60 t.mem (phys l.header) ∧
        headersRead l.programHeader t.statics.calls = [] ∧
        ∀ a, l.Outside a → t.mem a = s.mem a := by
    rw [Firmware.callRead, returns_efiCall]
    refine ⟨by rw [hresult], hbytes, ?_, fun a ha => ?_⟩
    · have hne : l.header ≠ l.programHeader := by
        intro he
        have hapart := l.header_programHeader
        rw [he] at hapart
        omega
      show headersRead l.programHeader (.read _ _ :: s.statics.calls) = []
      rw [headersRead, if_neg hne, hopen.calls, headersRead]
    · exact hfw.read_mem _ _ _ _ _ (by rw [hsize]; exact l.header_spans)
        (by rw [hsize]; exact ha.header)
  obtain ⟨r, t, he, hstatus, hat, hcalls, hothers⟩ := hfirst
  obtain ⟨status, u, hvalid, rfl, hmem, hstatics⟩ := validateElfHeader_spec fw hat
  refine ⟨u, ⟨rfl, rfl, hat.of_eq hmem, by rw [hstatics, hcalls]; rfl,
    fun a ha => by rw [hmem, hothers a ha], fun j hj => absurd hj (Nat.not_lt_zero j)⟩, ?_⟩
  rw [elfLoadFile, bind_apply, he]
  show (if r.1 ≠ efiSuccess then _ else _ : Kern (EfiState φ) _) t = _
  rw [if_neg (by rw [hstatus]; simp), bind_apply, hvalid]
  show (if efiSuccess ≠ efiSuccess then _ else _ : Kern (EfiState φ) _) u = _
  rw [if_neg (by simp)]

/-- If the loader reports success it has read as many headers as the offset of the table. -/
theorem loadProgram_counts (hfw : DeliversFile fw image.toElfFile position)
    (h : Counting image l (0, ElfProgramHeader64.size) t) :
    Ensures (loadProgram fw l) t fun r u => r.1 = efiSuccess →
      (headersRead l.programHeader u.statics.calls).length = image.ePhoff.toNat := by
  have hloop : Ensures (iterate .hang (headerRound fw l) loopBound (0, ElfProgramHeader64.size)) t
      fun r u => r = .inl 1 ∨ r = .inr () ∧ image.At 0 60 u.mem (phys l.header) ∧
        (headersRead l.programHeader u.statics.calls).length = image.ePhoff.toNat := by
    refine ensures_iterate (fun loc u => Counting image l loc u) ?_ loopBound _ t h
    intro loc u hu
    refine ((hu.round hfw).mono ?_).ensures
    rintro r v (rfl | ⟨rfl, hat, hlen⟩ | ⟨next, rfl, hnext⟩)
    · exact Or.inl rfl
    · exact Or.inr ⟨rfl, hat, hlen⟩
    · exact hnext
  rw [loadProgram]
  refine hloop.bind ?_
  rintro r u (rfl | ⟨rfl, hat, hlen⟩)
  · dsimp only
    rw [ensures_pure]
    intro hstatus
    exact absurd hstatus (by decide)
  · dsimp only
    refine Ensures.bind (reportEntry_spec hfw hat).ensures ?_
    rintro entry v ⟨-, hcalls, -⟩
    rw [ensures_pure, hcalls]
    exact fun _ => hlen

/-- Where the table starts at its own length, the loader gives up at a segment or loads the
image. -/
theorem loadProgram_spec (hfw : DeliversFile fw image.toElfFile position)
    (heq : image.ePhoff.toNat = image.ePhnum.toNat)
    (h : AtHeader image l s 0 (0, ElfProgramHeader64.size) t) :
    Returns (loadProgram fw l) t fun r u => r.1 = 1 ∧ (∃ i, image.Loadable i) ∨
      LoadsImage image l s r u ∧ ∀ i, ¬ image.Loadable i := by
  rw [loadProgram]
  apply (headerLoop_spec hfw heq h).bind
  rintro r u (⟨rfl, hload⟩ | ⟨rfl, loc, hend⟩)
  · dsimp only
    rw [returns_pure]
    exact Or.inl ⟨rfl, hload⟩
  · have hnone : ∀ i, ¬ image.Loadable i := fun i hi => hend.plain i hi.1 hi.2
    dsimp only
    apply (reportEntry_spec hfw hend.header).bind
    rintro entry v ⟨hentry, hcalls, hothers⟩
    rw [returns_pure]
    refine Or.inr ⟨⟨rfl, by rw [hentry], ?_, ?_, ?_⟩, hnone⟩
    · rw [hcalls, hend.examined]
    · exact fun i hi => absurd hi (hnone i)
    · intro a ha _
      rw [hothers a ha, hend.others a ha]

theorem AtHeader.counting {loc : BitVec 32 × BitVec 64} (h : AtHeader image l s 0 loc t) :
    Counting image l loc t := by
  have hzero : loc.1.toNat = 0 := by
    rw [h.index]
    rfl
  refine ⟨by rw [h.size]; decide, h.header, by omega, fun _ => ?_⟩
  rw [h.examined, List.length_map, List.length_range, hzero]

/-- An image can only be loaded if its headers start at their number and ask for nothing. -/
theorem loadsImage_needs (hfw : DeliversFile fw image.toElfFile position)
    (hopen : Opened position s)
    (h : Returns (elfLoadFile fw l) s fun r t => LoadsImage image l s r t) :
    image.ePhoff.toNat = image.ePhnum.toNat ∧
      ∀ i, i < image.ePhnum.toNat → image.pType i ≠ ptLoad := by
  obtain ⟨t, ht, hrun⟩ := elfLoadFile_opens (l := l) hfw hopen
  obtain ⟨r, u, he, hloads⟩ := h
  rw [hrun] at he
  have hlen := loadProgram_counts hfw ht.counting r u he hloads.status
  rw [hloads.examined, List.length_map, List.length_range] at hlen
  refine ⟨hlen.symm, fun i hi htype => ?_⟩
  obtain ⟨hstatus, -⟩ | ⟨-, hnone⟩ := (loadProgram_spec hfw hlen.symm ht).of_eq he
  · have hsuccess := hloads.status
    rw [hstatus] at hsuccess
    exact absurd hsuccess (by decide)
  · exact hnone i ⟨hi, htype⟩

end Load

/-! ## A file in memory -/

/-- Firmware that reads from a file and has as much memory as is wanted.  Its state is the
position. -/
def fileFirmware (file : ElfFile) : Firmware Nat where
  allocatePages _ _ _ _ w := (efiSuccess, w)
  setPosition p w := (efiSuccess, w.1, p.toNat)
  read n buffer w :=
    let k := min n.toNat (file.length - w.2)
    ((efiSuccess, BitVec.ofNat 64 k), fun a =>
      if phys buffer ≤ a ∧ a < phys buffer + k then file.bytes (w.2 + (a - phys buffer))
      else w.1 a, w.2 + k)
  outputString _ w := (efiSuccess, w)
  stall _ w := (efiSuccess, w)

theorem fileFirmware_delivers (file : ElfFile) : DeliversFile (fileFirmware file) file id where
  allocatePages _ _ _ _ _ := rfl
  seek _ _ _ _ := ⟨rfl, rfl⟩
  seek_mem _ _ _ := rfl
  read n buffer m x _ _ := by
    refine ⟨rfl, rfl, fun k hk => ?_⟩
    have hk' : k < min n.toNat (file.length - x) := hk
    show (if _ then file.bytes (x + (phys buffer + k - phys buffer)) else _) = file.bytes (x + k)
    rw [if_pos ⟨Nat.le_add_right _ _, Nat.add_lt_add_left hk' _⟩, Nat.add_sub_cancel_left]
  read_size n buffer w := by
    have hle : min n.toNat (file.length - w.2) ≤ n.toNat := Nat.min_le_left _ _
    have hlt := n.isLt
    show (BitVec.ofNat 64 (min n.toNat (file.length - w.2))).toNat ≤ _
    rw [BitVec.toNat_ofNat]
    omega
  read_mem n buffer m x a _ ha := by
    have hle : min n.toNat (file.length - x) ≤ n.toNat := Nat.min_le_left _ _
    show (if _ then _ else m a) = m a
    rw [if_neg (by omega)]
  output_mem _ _ _ := rfl

/-- A number as bytes, the lowest first. -/
def littleEndian (n v : Nat) : List (BitVec 8) :=
  (List.range n).map fun k => BitVec.ofNat 8 (v / 256 ^ k)

/-- The header of an executable with the entry 0x100000 and `phnum` program headers behind it. -/
def headerBytes (phnum : Nat) : List (BitVec 8) :=
  elfMagic ++ [2, 1, 1, 0] ++ littleEndian 8 0 ++ littleEndian 2 2 ++ littleEndian 2 0x3E ++
    littleEndian 4 1 ++ littleEndian 8 0x100000 ++ littleEndian 8 64 ++ littleEndian 8 0 ++
    littleEndian 4 0 ++ littleEndian 2 64 ++ littleEndian 2 56 ++ littleEndian 2 phnum ++
    littleEndian 6 0

/-- Sixty-four program headers of type `PT_NULL`, at offset 64. -/
def plainFile : ElfFile := ⟨fun a => (headerBytes 64).getD a 0, 3648⟩

theorem plainFile_not_loadable (i : Nat) : ¬ plainFile.Loadable i := by
  intro h
  have htype := h.2
  have hpos : 64 ≤ plainFile.headerPosition i := Nat.le_add_right 64 _
  have hzero : plainFile.pType i = 0 := by
    refine read32_zero fun x h1 _ => ?_
    exact List.getD_eq_default _ _ (Nat.le_trans (show (headerBytes 64).length ≤ 64 by decide)
      (Nat.le_trans hpos h1))
  rw [hzero] at htype
  exact absurd htype (by decide)

def plainImage : ElfImage where
  toElfFile := plainFile
  small := by decide
  header := by decide
  magic := by decide
  class64 := by decide
  machine := by decide
  phnum := by decide
  phentsize := by decide
  table := by decide
  contents i hi := absurd hi (plainFile_not_loadable i)
  memory i hi := absurd hi (plainFile_not_loadable i)
  apart i _ hi := absurd hi (plainFile_not_loadable i)

/-- One program header, which asks for the byte behind it at the entry. -/
def segmentFile : ElfFile := ⟨fun a => (headerBytes 1 ++ littleEndian 4 1 ++ littleEndian 4 5 ++
  littleEndian 8 120 ++ littleEndian 8 0x100000 ++ littleEndian 8 0x100000 ++ littleEndian 8 1 ++
  littleEndian 8 1 ++ littleEndian 8 4096 ++ [0xC3]).getD a 0, 121⟩

theorem segmentFile_loadable {i : Nat} (h : segmentFile.Loadable i) : i = 0 := by
  have hlt := h.1
  rw [show segmentFile.ePhnum.toNat = 1 by decide] at hlt
  omega

def segmentImage : ElfImage where
  toElfFile := segmentFile
  small := by decide
  header := by decide
  magic := by decide
  class64 := by decide
  machine := by decide
  phnum := by decide
  phentsize := by decide
  table := by decide
  contents i hi := by
    rw [segmentFile_loadable hi]
    decide
  memory i hi := by
    rw [segmentFile_loadable hi]
    decide
  apart i j hi hj hne := absurd ((segmentFile_loadable hi).trans (segmentFile_loadable hj).symm) hne

def lowLocals : LoaderLocals where
  header := 0x10000
  programHeader := 0x11000
  itoaBuf := 0x12000
  header_spans := by unfold Spans; decide
  programHeader_spans := by unfold Spans; decide
  itoaBuf_spans := by unfold Spans; decide
  header_programHeader := by decide
  header_itoaBuf := by decide
  programHeader_itoaBuf := by decide

/-- Empty memory, and the file at its start. -/
def openedMachine : Machine (EfiState Nat) := ⟨fun _ => 0, [], ⟨0, []⟩⟩

/-! ## When the image is loaded -/

variable {fw : Firmware φ} {image : ElfImage} {position : φ → Nat} {s : Machine (EfiState φ)}

/-- The loader does what is asked of it for images whose program headers start at the file
offset that is also their number, and of which none asks for a segment. -/
theorem elfLoadFile_loads_iff (hfw : DeliversFile fw image.toElfFile position)
    (hopen : Opened position s) (l : LoaderLocals) :
    (Returns (elfLoadFile fw l) s fun r t => LoadsImage image l s r t) ↔
      image.ePhoff.toNat = image.ePhnum.toNat ∧
        ∀ i, i < image.ePhnum.toNat → image.pType i ≠ ptLoad := by
  constructor
  · intro h
    exact loadsImage_needs hfw hopen h
  · rintro ⟨heq, hplain⟩
    obtain ⟨t, ht, hrun⟩ := elfLoadFile_opens (l := l) hfw hopen
    obtain ⟨r, u, he, ⟨-, i, hi⟩ | ⟨hloads, -⟩⟩ := loadProgram_spec hfw heq ht
    · exact absurd hi.2 (hplain i hi.1)
    · exact ⟨r, u, by rw [hrun, he], hloads⟩

theorem elfLoadFile_loads_iff_plain :
    (Returns (elfLoadFile (fileFirmware plainImage.toElfFile) lowLocals) openedMachine fun r t =>
        LoadsImage plainImage lowLocals openedMachine r t) ↔
      plainImage.ePhoff.toNat = plainImage.ePhnum.toNat ∧
        ∀ i, i < plainImage.ePhnum.toNat → plainImage.pType i ≠ ptLoad :=
  elfLoadFile_loads_iff (fileFirmware_delivers _) ⟨rfl, rfl⟩ lowLocals

/-- An image with one segment. -/
theorem segmentImage_not_loaded :
    ¬ Returns (elfLoadFile (fileFirmware segmentImage.toElfFile) lowLocals) openedMachine fun r t =>
      LoadsImage segmentImage lowLocals openedMachine r t := by
  intro h
  have hneeds := loadsImage_needs (fileFirmware_delivers segmentImage.toElfFile) ⟨rfl, rfl⟩ h
  exact absurd hneeds.1 (by decide)

end Bootloader

end FeralKernel
