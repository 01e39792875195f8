import FeralKernel.Machine

/-!
# ELF images

The headers of `drivers/proc/elf/elf.h`, as the file has them and as they lie in memory.  Both
are packed: `ElfHeader64` has 60 bytes, since it ends before the count of the section headers,
and `ElfProgramHeader64` has 56.
-/

namespace FeralKernel

open Verif.Bytes

/-! ## Layout -/

namespace ElfHeader64

def size : BitVec 64 := 60

def magic (h : Ptr) : Ptr := h + 0#64
def eMachine (h : Ptr) : Ptr := h + 18#64
def eEntry (h : Ptr) : Ptr := h + 24#64
def ePhoff (h : Ptr) : Ptr := h + 32#64
def ePhentsize (h : Ptr) : Ptr := h + 54#64
def ePhnum (h : Ptr) : Ptr := h + 56#64

end ElfHeader64

namespace ElfProgramHeader64

def size : BitVec 64 := 56

def pType (h : Ptr) : Ptr := h + 0#64
def pFlags (h : Ptr) : Ptr := h + 4#64
def pOffset (h : Ptr) : Ptr := h + 8#64
def pVaddr (h : Ptr) : Ptr := h + 16#64
def pFilesz (h : Ptr) : Ptr := h + 32#64
def pMemsz (h : Ptr) : Ptr := h + 40#64

end ElfProgramHeader64

def ptLoad : BitVec 32 := 0x01

def machineIdNone : BitVec 16 := 0x0000

def machineIdX8664 : BitVec 16 := 0x003E

/-- `Match` of `ValidateElfHeader`. -/
def elfMagic : List (BitVec 8) := [0x7F, 0x45, 0x4C, 0x46]

def feralVirtOffset : BitVec 64 := 0xFFFFFFFFC0000000

/-- The translation of a virtual address that is made for segments and for the entry. -/
def elfAddress (vaddr : BitVec 64) : BitVec 64 :=
  if vaddr > feralVirtOffset then vaddr - feralVirtOffset else vaddr

/-! ## Files -/

structure ElfFile where
  bytes : Mem
  length : Nat

namespace ElfFile

def eMachine (file : ElfFile) : BitVec 16 := read16 file.bytes 18
def eEntry (file : ElfFile) : BitVec 64 := read64 file.bytes 24
def ePhoff (file : ElfFile) : BitVec 64 := read64 file.bytes 32
def ePhentsize (file : ElfFile) : BitVec 16 := read16 file.bytes 54
def ePhnum (file : ElfFile) : BitVec 16 := read16 file.bytes 56

/-- Where the `i`-th program header is in the file. -/
def headerPosition (file : ElfFile) (i : Nat) : Nat :=
  file.ePhoff.toNat + file.ePhentsize.toNat * i

def pType (file : ElfFile) (i : Nat) : BitVec 32 := read32 file.bytes (file.headerPosition i)
def pOffset (file : ElfFile) (i : Nat) : BitVec 64 :=
  read64 file.bytes (file.headerPosition i + 8)
def pVaddr (file : ElfFile) (i : Nat) : BitVec 64 :=
  read64 file.bytes (file.headerPosition i + 16)
def pFilesz (file : ElfFile) (i : Nat) : BitVec 64 :=
  read64 file.bytes (file.headerPosition i + 32)
def pMemsz (file : ElfFile) (i : Nat) : BitVec 64 :=
  read64 file.bytes (file.headerPosition i + 40)

/-- The `i`-th program header asks for a segment to be loaded. -/
def Loadable (file : ElfFile) (i : Nat) : Prop :=
  i < file.ePhnum.toNat ∧ file.pType i = ptLoad

/-- The first address of the `i`-th segment. -/
def segment (file : ElfFile) (i : Nat) : Ptr := elfAddress (file.pVaddr i)

end ElfFile

/-- A well-formed executable for this processor. -/
structure ElfImage extends ElfFile where
  small : length < 2 ^ 64
  header : 64 ≤ length
  magic : ∀ i, i < 4 → bytes i = elfMagic.getD i 0
  class64 : bytes 4 = 2
  machine : toElfFile.eMachine = machineIdX8664
  phnum : 1 ≤ toElfFile.ePhnum.toNat
  phentsize : 56 ≤ toElfFile.ePhentsize.toNat
  table : toElfFile.headerPosition toElfFile.ePhnum.toNat ≤ length
  contents : ∀ i, toElfFile.Loadable i →
    (toElfFile.pOffset i).toNat + (toElfFile.pFilesz i).toNat ≤ length
  memory : ∀ i, toElfFile.Loadable i → (toElfFile.pFilesz i).toNat ≤ (toElfFile.pMemsz i).toNat ∧
    (toElfFile.segment i).toNat + (toElfFile.pMemsz i).toNat ≤ 2 ^ 64
  apart : ∀ i j, toElfFile.Loadable i → toElfFile.Loadable j → i ≠ j →
    (toElfFile.segment i).toNat + (toElfFile.pMemsz i).toNat ≤ (toElfFile.segment j).toNat ∨
      (toElfFile.segment j).toNat + (toElfFile.pMemsz j).toNat ≤ (toElfFile.segment i).toNat

/-- A program header in the table is in the file with all its bytes. -/
theorem ElfImage.headerPosition_le (image : ElfImage) {i : Nat} (hi : i < image.ePhnum.toNat) :
    image.headerPosition i + 56 ≤ image.length := by
  have htable := image.table
  have hsize := image.phentsize
  have hstep : image.ePhentsize.toNat * (i + 1) ≤ image.ePhentsize.toNat * image.ePhnum.toNat :=
    Nat.mul_le_mul_left _ hi
  rw [Nat.mul_succ] at hstep
  rw [ElfFile.headerPosition] at htable ⊢
  omega

/-- The product that gives the offset in the table does not wrap in 32 bits. -/
theorem ElfImage.toNat_headerPosition (image : ElfImage) {i : Nat}
    (hi : i < image.ePhnum.toNat) :
    (image.ePhoff + (image.ePhentsize.setWidth 32 * BitVec.ofNat 32 i).setWidth 64).toNat =
      image.headerPosition i := by
  have hin := image.headerPosition_le hi
  have hsmall := image.small
  have hnum := image.ePhnum.isLt
  have hentsize := image.ePhentsize.isLt
  have hproduct : image.ePhentsize.toNat * i < 2 ^ 32 :=
    Nat.lt_of_le_of_lt (Nat.mul_le_mul (Nat.le_of_lt_succ hentsize)
      (show i ≤ 2 ^ 16 - 1 by omega)) (by decide)
  rw [ElfFile.headerPosition] at hin ⊢
  rw [BitVec.toNat_add, BitVec.toNat_setWidth, BitVec.toNat_mul, BitVec.toNat_setWidth,
    BitVec.toNat_ofNat, Nat.mod_eq_of_lt (show image.ePhentsize.toNat < 2 ^ 32 by omega),
    Nat.mod_eq_of_lt (show i < 2 ^ 32 by omega), Nat.mod_eq_of_lt hproduct]
  omega

/-! ## Headers in memory -/

/-- The `n` bytes of memory from `a` on are those of the file from `p` on. -/
def ElfFile.At (file : ElfFile) (p n : Nat) (m : Mem) (a : Nat) : Prop :=
  ∀ k, k < n → m (a + k) = file.bytes (p + k)

namespace ElfFile.At

variable {file : ElfFile} {p n a k : Nat} {m : Mem}

theorem word16 (h : file.At p n m a) (hk : k + 2 ≤ n) :
    read16 m (a + k) = read16 file.bytes (p + k) :=
  read16_shift fun j hj => by rw [Nat.add_assoc, Nat.add_assoc, h (k + j) (by omega)]

theorem word32 (h : file.At p n m a) (hk : k + 4 ≤ n) :
    read32 m (a + k) = read32 file.bytes (p + k) :=
  read32_shift fun j hj => by rw [Nat.add_assoc, Nat.add_assoc, h (k + j) (by omega)]

theorem word64 (h : file.At p n m a) (hk : k + 8 ≤ n) :
    read64 m (a + k) = read64 file.bytes (p + k) :=
  read64_shift fun j hj => by rw [Nat.add_assoc, Nat.add_assoc, h (k + j) (by omega)]

theorem congr {m' : Mem} (h : file.At p n m a) (hm : ∀ x, a ≤ x → x < a + n → m' x = m x) :
    file.At p n m' a := fun k hk => by rw [hm (a + k) (by omega) (by omega), h k hk]

theorem of_eq {m' : Mem} (h : file.At p n m a) (hm : m' = m) : file.At p n m' a :=
  h.congr fun x _ _ => congrFun hm x

end ElfFile.At

section Header

variable {file : ElfFile} {h : Ptr} {m : Mem} (hspan : Spans h 60) (hat : file.At 0 60 m (phys h))
include hspan hat

theorem ElfFile.At.read_eMachine : read16 m (phys (ElfHeader64.eMachine h)) = file.eMachine := by
  rw [ElfHeader64.eMachine, phys_add hspan (k := 18) (by omega), hat.word16 (by omega),
    Nat.zero_add, ElfFile.eMachine]

theorem ElfFile.At.read_eEntry : read64 m (phys (ElfHeader64.eEntry h)) = file.eEntry := by
  rw [ElfHeader64.eEntry, phys_add hspan (k := 24) (by omega), hat.word64 (by omega),
    Nat.zero_add, ElfFile.eEntry]

theorem ElfFile.At.read_ePhoff : read64 m (phys (ElfHeader64.ePhoff h)) = file.ePhoff := by
  rw [ElfHeader64.ePhoff, phys_add hspan (k := 32) (by omega), hat.word64 (by omega),
    Nat.zero_add, ElfFile.ePhoff]

theorem ElfFile.At.read_ePhentsize :
    read16 m (phys (ElfHeader64.ePhentsize h)) = file.ePhentsize := by
  rw [ElfHeader64.ePhentsize, phys_add hspan (k := 54) (by omega), hat.word16 (by omega),
    Nat.zero_add, ElfFile.ePhentsize]

theorem ElfFile.At.read_ePhnum :
    read16 m (phys (ElfHeader64.ePhnum h)) = file.ePhnum := by
  rw [ElfHeader64.ePhnum, phys_add hspan (k := 56) (by omega), hat.word16 (by omega),
    Nat.zero_add, ElfFile.ePhnum]

end Header

theorem ElfFile.At.read_pType {file : ElfFile} {h : Ptr} {m : Mem} {i : Nat} (hspan : Spans h 56)
    (hat : file.At (file.headerPosition i) 56 m (phys h)) :
    read32 m (phys (ElfProgramHeader64.pType h)) = file.pType i := by
  rw [ElfProgramHeader64.pType, phys_add hspan (k := 0) (by omega), hat.word32 (by omega),
    Nat.add_zero, ElfFile.pType]

end FeralKernel
