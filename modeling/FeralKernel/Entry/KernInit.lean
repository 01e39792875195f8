import FeralKernel.Lib.StringFuncs
import FeralKernel.Mm.BootLayout

/-!
# The tags that the loader passes

The loop of `kern_init` in `kern/entry/mb2entry.c`, which goes through the tags of
a Multiboot2 information block.  It asks the 32-bit type whether a tag is the last
and the low 16 bits of it what the tag is.
-/

namespace FeralKernel

open Verif.Program Verif.Bytes

variable {σ : Type}

/-! ## The code -/

namespace MultibootTag

def type (tag : Ptr) : Ptr := tag + 0#64
def size (tag : Ptr) : Ptr := tag + 4#64

/-- `string` of `multiboot_tag_string`. -/
def string (tag : Ptr) : Ptr := tag + 8#64

/-- `MULTIBOOT_TAG_TYPE_END`. -/
def typeEnd : BitVec 32 := 0

/-- `MULTIBOOT_TAG_TYPE_CMD_LINE` as a `UINT16`. -/
def typeCmdLine : BitVec 16 := 1

def typeBootLoader : BitVec 16 := 2
def typeMemMap : BitVec 16 := 6
def typeFrameBuffer : BitVec 16 := 8

end MultibootTag

namespace MultibootTagFramebufferCommon

def framebufferAddr (tag : Ptr) : Ptr := tag + 8#64
def framebufferWidth (tag : Ptr) : Ptr := tag + 20#64
def framebufferHeight (tag : Ptr) : Ptr := tag + 24#64
def framebufferBpp (tag : Ptr) : Ptr := tag + 28#64

/-- `MULTIBOOT_FRAMEBUFFER_TYPE_EGA_TEXT`. -/
def typeEgaText : BitVec 32 := 2

end MultibootTagFramebufferCommon

/-- The local variables that describe the framebuffer. -/
structure FramebufferInfo where
  framebuffer : Ptr
  framebufferBPP : BitVec 16
  framebufferHeight : BitVec 32
  framebufferWidth : BitVec 32
  framebufferTextOnly : Bool
deriving DecidableEq

/-- The variables of `kern_init` during the loop.  A string that is `none` is still
the literal, `""` or `"Unknown"`, and the framebuffer is uninitialised at first. -/
structure KernInit where
  multibootInfo : Ptr
  commandLine : Option Ptr
  bootloaderName : Option Ptr
  framebuffer : Option FramebufferInfo
  numDisplays : BitVec 64
  statics : EntryStatics
deriving DecidableEq

/-- What a string tag sets its variable to: an empty string changes nothing. -/
def readString (tag : Ptr) (current : Option Ptr) : Kern σ (Option Ptr) := do
  let str := MultibootTag.string tag
  let (status, len) ← kiGetStringLength str
  if status = .success then
    if len.getD 0 ≠ 0 then pure (some str) else pure current
  else pure current

def readFramebuffer (tag : Ptr) : Kern σ FramebufferInfo := do
  let addr ← load64 (MultibootTagFramebufferCommon.framebufferAddr tag)
  let bpp ← load8 (MultibootTagFramebufferCommon.framebufferBpp tag)
  let height ← load32 (MultibootTagFramebufferCommon.framebufferHeight tag)
  let width ← load32 (MultibootTagFramebufferCommon.framebufferWidth tag)
  -- the type of the tag is compared, not `framebuffer_type`
  let type ← load32 (MultibootTag.type tag)
  pure
    { framebuffer := addr
      framebufferBPP := bpp.setWidth 16
      framebufferHeight := height
      framebufferWidth := width
      framebufferTextOnly := type = MultibootTagFramebufferCommon.typeEgaText }

/-- The body of the loop. -/
def handleTag (kernelEnd : Ptr) (init : KernInit) : Kern σ KernInit := do
  let type ← load32 (MultibootTag.type init.multibootInfo)
  let type := type.setWidth 16
  if type = MultibootTag.typeCmdLine then
    let str ← readString init.multibootInfo init.commandLine
    pure { init with commandLine := str }
  else if type = MultibootTag.typeBootLoader then
    let str ← readString init.multibootInfo init.bootloaderName
    pure { init with bootloaderName := str }
  else if type = MultibootTag.typeMemMap then
    let statics ← handleMemory kernelEnd init.multibootInfo init.statics
    pure { init with statics := statics }
  else if type = MultibootTag.typeFrameBuffer then
    let info ← readFramebuffer init.multibootInfo
    pure { init with framebuffer := some info, numDisplays := 1 }
  else pure init

/-- `(size + 7) & ~0x07`, in 32 bits. -/
def tagStep (size : BitVec 32) : BitVec 32 := (size + 7) &&& 0xFFFFFFF8

/-- A round of the loop: its condition, its body and its increment. -/
def tagRound (kernelEnd : Ptr) (init : KernInit) : Kern σ (KernInit ⊕ KernInit) := do
  let type ← load32 (MultibootTag.type init.multibootInfo)
  if type ≠ MultibootTag.typeEnd then
    let init ← handleTag kernelEnd init
    let size ← load32 (MultibootTag.size init.multibootInfo)
    pure (.inr
      { init with multibootInfo := init.multibootInfo + (tagStep size).setWidth 64 })
  else pure (.inl init)

/-- Where the tags start: `MBINFO + 8` is a sum of 32-bit numbers. -/
def firstTag (mbInfo : BitVec 32) : Ptr := (mbInfo + 8).setWidth 64

/-- The static variables start out as zero. -/
def KernInit.start (mbInfo : BitVec 32) : KernInit where
  multibootInfo := firstTag mbInfo
  commandLine := none
  bootloaderName := none
  framebuffer := none
  numDisplays := 0
  statics :=
    { memoryRangeCount := 0
      maxAddress := 0
      bootInfo := { numMemoryRanges := 0, memoryRanges := 0 } }

/-- The loop of `kern_init`. -/
def readTags (kernelEnd : Ptr) (mbInfo : BitVec 32) : Kern σ KernInit :=
  iterate .hang (tagRound kernelEnd) loopBound (KernInit.start mbInfo)

/-! ## Sizes -/

/-- Sizes close to `2 ^ 32` wrap around and round to zero, as zero itself does. -/
theorem toNat_tagStep (size : BitVec 32) :
    (tagStep size).toNat = (size.toNat + 7) % 2 ^ 32 / 8 * 8 := by
  have hmask : (0xFFFFFFF8 : BitVec 32) = BitVec.allOnes 32 <<< 3 := by decide
  have hround := toNat_and_highBits (size + 7) 3
  rw [BitVec.toNat_add, show (7 : BitVec 32).toNat = 7 from rfl] at hround
  rw [tagStep, hmask]
  exact hround

/-- The sizes that take the pointer forward. -/
def SizeFits (size : BitVec 32) : Prop := 1 ≤ size.toNat ∧ size.toNat ≤ 2 ^ 32 - 8

instance (size : BitVec 32) : Decidable (SizeFits size) :=
  inferInstanceAs (Decidable (_ ∧ _))

theorem tagStep_pos_iff {size : BitVec 32} : 0 < (tagStep size).toNat ↔ SizeFits size := by
  have hlt := size.isLt
  rw [toNat_tagStep, SizeFits]
  omega

theorem SizeFits.toNat_tagStep {size : BitVec 32} (h : SizeFits size) :
    (tagStep size).toNat = (size.toNat + 7) / 8 * 8 := by
  rw [SizeFits] at h
  rw [FeralKernel.toNat_tagStep]
  omega

/-! ## What one tag does -/

namespace MultibootTag

variable {tag : Ptr}

theorem phys_type (hlow : tag.toNat ≤ 2 ^ 60) : phys (type tag) = tag.toNat :=
  phys_low hlow (Nat.zero_le _)

theorem phys_size (hlow : tag.toNat ≤ 2 ^ 60) : phys (size tag) = tag.toNat + 4 :=
  phys_low hlow (by omega)

theorem toNat_string (hlow : tag.toNat ≤ 2 ^ 60) : (string tag).toNat = tag.toNat + 8 :=
  toNat_add_ofNat (by omega)

theorem string_ne_zero (hlow : tag.toNat ≤ 2 ^ 60) : string tag ≠ 0 := by
  intro hz
  have hnat := toNat_string hlow
  rw [hz] at hnat
  exact absurd hnat (by show 0 ≠ _; omega)

end MultibootTag

/-- The type as the loop dispatches on it. -/
def tagKind (m : Mem) (tag : Ptr) : BitVec 16 := (read32 m tag.toNat).setWidth 16

/-- The framebuffer that the tag at `tag` describes. -/
def framebufferAt (m : Mem) (tag : Ptr) : FramebufferInfo where
  framebuffer := read64 m (tag.toNat + 8)
  framebufferBPP := (m (tag.toNat + 28)).setWidth 16
  framebufferHeight := read32 m (tag.toNat + 24)
  framebufferWidth := read32 m (tag.toNat + 20)
  framebufferTextOnly := read32 m tag.toNat = MultibootTagFramebufferCommon.typeEgaText

/-- The memory after the tag has been handled: only a memory map changes it. -/
def tagHandled (kernelEnd : Ptr) (m : Mem) (tag : Ptr) : Mem :=
  if tagKind m tag = MultibootTag.typeMemMap then
    mapWritten m kernelEnd tag (MultibootTagMmap.entryCount m tag)
  else m

/-- The pointer is taken on by the size as it is then. -/
def nextTag (m : Mem) (tag : Ptr) : Ptr :=
  tag + (tagStep (read32 m (tag.toNat + 4))).setWidth 64

theorem toNat_nextTag {m : Mem} {tag : Ptr} (hlow : tag.toNat ≤ 2 ^ 60) :
    (nextTag m tag).toNat = tag.toNat + (tagStep (read32 m (tag.toNat + 4))).toNat := by
  have hstep := (tagStep (read32 m (tag.toNat + 4))).isLt
  rw [nextTag, BitVec.toNat_add, BitVec.toNat_setWidth]
  omega

/-- What handling a tag changes, when the string behind its header is `text`. -/
structure TagHandled (kernelEnd : Ptr) (m : Mem) (text : List (BitVec 8)) (init init' : KernInit)
    (m' : Mem) : Prop where
  tag : init'.multibootInfo = init.multibootInfo
  commandLine : init'.commandLine =
    if tagKind m init.multibootInfo = MultibootTag.typeCmdLine ∧ text ≠ [] then
      some (MultibootTag.string init.multibootInfo) else init.commandLine
  bootloaderName : init'.bootloaderName =
    if tagKind m init.multibootInfo = MultibootTag.typeBootLoader ∧ text ≠ [] then
      some (MultibootTag.string init.multibootInfo) else init.bootloaderName
  framebuffer : init'.framebuffer =
    if tagKind m init.multibootInfo = MultibootTag.typeFrameBuffer then
      some (framebufferAt m init.multibootInfo) else init.framebuffer
  numDisplays : init'.numDisplays =
    if tagKind m init.multibootInfo = MultibootTag.typeFrameBuffer then 1 else init.numDisplays
  bootInfo : init'.statics.bootInfo =
    if tagKind m init.multibootInfo = MultibootTag.typeMemMap then
      { numMemoryRanges := BitVec.ofNat 64 (MultibootTagMmap.entryCount m init.multibootInfo)
        memoryRanges := kernelEnd + 8 } else init.statics.bootInfo
  mem : m' = tagHandled kernelEnd m init.multibootInfo

section Body

variable {kernelEnd : Ptr} {init : KernInit} {s : Machine σ} {text : List (BitVec 8)}

theorem readString_spec {tag : Ptr} (h : CString s.mem (MultibootTag.string tag) text)
    (current : Option Ptr) :
    Returns (readString tag current) s fun r t =>
      r = (if text ≠ [] then some (MultibootTag.string tag) else current) ∧ t.mem = s.mem := by
  have hshort := h.short
  apply (kiGetStringLength_spec h).bind
  intro r t ht
  obtain ⟨rfl, hm, -⟩ := ht
  simp only [if_true, Option.getD_some]
  have hiff : BitVec.ofNat 64 text.length ≠ 0 ↔ text ≠ [] := by
    rw [not_iff_not, ← List.length_eq_zero_iff]
    constructor
    · intro hz
      have hnat := congrArg BitVec.toNat hz
      rw [BitVec.toNat_ofNat, Nat.mod_eq_of_lt hshort] at hnat
      exact hnat
    · intro hz
      rw [hz]
      rfl
  by_cases htext : text ≠ []
  · rw [if_pos (hiff.mpr htext), if_pos htext, returns_pure]
    exact ⟨rfl, hm⟩
  · rw [if_neg (fun hne => htext (hiff.mp hne)), if_neg htext, returns_pure]
    exact ⟨rfl, hm⟩

theorem readFramebuffer_spec {tag : Ptr} (hlow : tag.toNat ≤ 2 ^ 60) :
    Returns (readFramebuffer tag) s fun r t => r = framebufferAt s.mem tag ∧ t.mem = s.mem := by
  have htype := MultibootTag.phys_type hlow
  have haddr : phys (MultibootTagFramebufferCommon.framebufferAddr tag) = tag.toNat + 8 :=
    phys_low hlow (by omega)
  have hwidth : phys (MultibootTagFramebufferCommon.framebufferWidth tag) = tag.toNat + 20 :=
    phys_low hlow (by omega)
  have hheight : phys (MultibootTagFramebufferCommon.framebufferHeight tag) = tag.toNat + 24 :=
    phys_low hlow (by omega)
  have hbpp : phys (MultibootTagFramebufferCommon.framebufferBpp tag) = tag.toNat + 28 :=
    phys_low hlow (by omega)
  simp only [readFramebuffer, returns_bind, returns_load64, returns_load32, returns_load8,
    returns_pure, Machine.note_mem, htype, haddr, hwidth, hheight, hbpp, and_true]
  rfl

/-- The body of the loop, when a string can be read and no entry size is zero. -/
theorem handleTag_spec (hlow : init.multibootInfo.toNat ≤ 2 ^ 60)
    (hend : kernelEnd.toNat + 8 ≤ 2 ^ 32)
    (htext : tagKind s.mem init.multibootInfo = MultibootTag.typeCmdLine ∨
      tagKind s.mem init.multibootInfo = MultibootTag.typeBootLoader →
      CString s.mem (MultibootTag.string init.multibootInfo) text)
    (hentry : tagKind s.mem init.multibootInfo = MultibootTag.typeMemMap →
      read32 s.mem (init.multibootInfo.toNat + 8) ≠ 0) :
    Returns (handleTag kernelEnd init) s fun init' t =>
      TagHandled kernelEnd s.mem text init init' t.mem := by
  have htype := MultibootTag.phys_type hlow
  simp only [handleTag, returns_bind, returns_load32, htype]
  rw [show (read32 s.mem init.multibootInfo.toNat).setWidth 16 =
    tagKind s.mem init.multibootInfo from rfl]
  split
  · rename_i hkind
    apply (readString_spec (s := s.note _) (htext (Or.inl hkind)) init.commandLine).bind
    intro r t ht
    obtain ⟨rfl, hm⟩ := ht
    rw [returns_pure]
    constructor <;> simp [hkind, hm, tagHandled, MultibootTag.typeCmdLine,
      MultibootTag.typeBootLoader, MultibootTag.typeMemMap, MultibootTag.typeFrameBuffer]
  split
  · rename_i hkind
    apply (readString_spec (s := s.note _) (htext (Or.inr hkind)) init.bootloaderName).bind
    intro r t ht
    obtain ⟨rfl, hm⟩ := ht
    rw [returns_pure]
    constructor <;> simp [hkind, hm, tagHandled, MultibootTag.typeCmdLine,
      MultibootTag.typeBootLoader, MultibootTag.typeMemMap, MultibootTag.typeFrameBuffer]
  split
  · rename_i hkind
    apply (handleMemory_written (s := s.note _) hend hlow (hentry hkind) rfl init.statics).bind
    intro statics t ht
    obtain ⟨-, hboot, -, hm, -⟩ := ht
    rw [returns_pure]
    constructor <;> simp [hkind, hm, hboot, tagHandled, MultibootTag.typeCmdLine,
      MultibootTag.typeBootLoader, MultibootTag.typeMemMap, MultibootTag.typeFrameBuffer]
  split
  · rename_i hkind
    apply (readFramebuffer_spec (s := s.note _) hlow).bind
    intro r t ht
    obtain ⟨rfl, hm⟩ := ht
    rw [returns_pure]
    constructor <;> simp [hkind, hm, tagHandled, MultibootTag.typeCmdLine,
      MultibootTag.typeBootLoader, MultibootTag.typeMemMap, MultibootTag.typeFrameBuffer]
  · rename_i hcmd hboot hmap hframe
    rw [returns_pure]
    constructor <;> simp [hcmd, hboot, hmap, hframe, tagHandled]

/-- Dividing by an entry size of zero. -/
theorem handleTag_divides (hlow : init.multibootInfo.toNat ≤ 2 ^ 60)
    (hkind : tagKind s.mem init.multibootInfo = MultibootTag.typeMemMap)
    (hentry : read32 s.mem (init.multibootInfo.toNat + 8) = 0) {Q : KernInit → Machine σ → Prop} :
    ¬ Returns (handleTag kernelEnd init) s Q := by
  have htype := MultibootTag.phys_type hlow
  obtain ⟨hsize, hesize⟩ := MultibootTagMmap.phys_header hlow
  simp only [handleTag, returns_bind, returns_load32, htype]
  rw [show (read32 s.mem init.multibootInfo.toNat).setWidth 16 =
    tagKind s.mem init.multibootInfo from rfl, hkind, if_neg (by decide), if_neg (by decide),
    if_pos rfl]
  simp only [handleMemory, returns_bind, returns_load32, Machine.note_mem, hsize, hesize,
    returns_divide]
  exact fun h => h.1 hentry

/-! ## One round -/

theorem tagRound_last (hlow : init.multibootInfo.toNat ≤ 2 ^ 60)
    (htype : read32 s.mem init.multibootInfo.toNat = MultibootTag.typeEnd) :
    Returns (tagRound kernelEnd init) s fun r t => r = .inl init ∧ t.mem = s.mem := by
  have hphys := MultibootTag.phys_type hlow
  simp only [tagRound, returns_bind, returns_load32, hphys]
  rw [if_neg (fun hne => hne htype), returns_pure]
  exact ⟨rfl, rfl⟩

theorem tagRound_next (hlow : init.multibootInfo.toNat ≤ 2 ^ 60)
    (hend : kernelEnd.toNat + 8 ≤ 2 ^ 32)
    (htype : read32 s.mem init.multibootInfo.toNat ≠ MultibootTag.typeEnd)
    (htext : tagKind s.mem init.multibootInfo = MultibootTag.typeCmdLine ∨
      tagKind s.mem init.multibootInfo = MultibootTag.typeBootLoader →
      CString s.mem (MultibootTag.string init.multibootInfo) text)
    (hentry : tagKind s.mem init.multibootInfo = MultibootTag.typeMemMap →
      read32 s.mem (init.multibootInfo.toNat + 8) ≠ 0) :
    Returns (tagRound kernelEnd init) s fun r t =>
      ∃ init', TagHandled kernelEnd s.mem text init init' t.mem ∧
        r = .inr { init' with multibootInfo := nextTag t.mem init.multibootInfo } := by
  have hphys := MultibootTag.phys_type hlow
  have hsize := MultibootTag.phys_size hlow
  simp only [tagRound, returns_bind, returns_load32, hphys]
  rw [if_pos htype, returns_bind]
  apply (handleTag_spec (s := s.note _) hlow hend htext hentry).mono
  intro init' t ht
  have htag := ht.tag
  simp only [returns_bind, returns_load32, returns_pure, htag, hsize, Machine.note_mem]
  exact ⟨init', ht, rfl⟩

/-- A round that returns has not divided by zero. -/
theorem tagRound_entrySize (hlow : init.multibootInfo.toNat ≤ 2 ^ 60)
    (htype : read32 s.mem init.multibootInfo.toNat ≠ MultibootTag.typeEnd)
    {Q : KernInit ⊕ KernInit → Machine σ → Prop} (h : Returns (tagRound kernelEnd init) s Q)
    (hkind : tagKind s.mem init.multibootInfo = MultibootTag.typeMemMap) :
    read32 s.mem (init.multibootInfo.toNat + 8) ≠ 0 := by
  have hphys := MultibootTag.phys_type hlow
  intro hentry
  simp only [tagRound, returns_bind, returns_load32, hphys] at h
  rw [if_pos htype, returns_bind] at h
  exact handleTag_divides (s := s.note _) hlow hkind hentry h

end Body

/-! ## The loop leaves the static variables of other code alone -/

theorem handleMemory_statics (kernelEnd memoryMap : Ptr) (statics : EntryStatics) :
    KeepsStatics (handleMemory kernelEnd memoryMap statics : Kern σ _) := by
  rw [handleMemory]
  refine .bind (.load32 _) fun size => .bind (.load32 _) fun entrySize =>
    .bind (.divide _ _) fun entries => ?_
  refine .bind (.store64 _ _) fun _ => .bind (.forRange (fun index maxAddress => ?_) _ _ _)
    fun _ => .pure _
  exact .bind (.load64 _) fun _ => .bind (.load64 _) fun _ => .bind (.load32 _) fun _ =>
    .bind (.store32 _ _) fun _ => .bind (.store64 _ _) fun _ => .bind (.load64 _) fun _ =>
      .bind (.store64 _ _) fun _ => .bind (.load64 _) fun _ => .pure _

theorem readString_statics (tag : Ptr) (current : Option Ptr) :
    KeepsStatics (readString tag current : Kern σ _) := by
  rw [readString]
  refine .bind (kiGetStringLength_keeps _) fun r => ?_
  dsimp only
  split
  · split
    · exact .pure _
    · exact .pure _
  · exact .pure _

theorem handleTag_statics (kernelEnd : Ptr) (init : KernInit) :
    KeepsStatics (handleTag kernelEnd init : Kern σ _) := by
  rw [handleTag]
  refine .bind (.load32 _) fun type => ?_
  dsimp only
  split
  · exact .bind (readString_statics _ _) fun _ => .pure _
  split
  · exact .bind (readString_statics _ _) fun _ => .pure _
  split
  · exact .bind (handleMemory_statics _ _ _) fun _ => .pure _
  split
  · refine .bind ?_ fun _ => .pure _
    exact .bind (.load64 _) fun _ => .bind (.load8 _) fun _ => .bind (.load32 _) fun _ =>
      .bind (.load32 _) fun _ => .bind (.load32 _) fun _ => .pure _
  · exact .pure _

theorem readTags_statics (kernelEnd : Ptr) (mbInfo : BitVec 32) :
    KeepsStatics (readTags kernelEnd mbInfo : Kern σ _) := by
  refine .iterate (fun init => .bind (.load32 _) fun type => ?_) _ _
  split
  · exact .bind (handleTag_statics _ _) fun _ => .bind (.load32 _) fun _ => .pure _
  · exact .pure _

end FeralKernel
