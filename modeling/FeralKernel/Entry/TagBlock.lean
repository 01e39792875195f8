import FeralKernel.Entry.InfoTags
import FeralKernel.Mm.MemoryMap

/-!
# What the loop reads from a block

Over a block of tags the loop of `kern_init` comes to each tag once, in order, and
stops at the end tag.  What it is left with is what the tags say, read by the low
half of their types.  A tag whose type the format does not define but whose low
half is that of a defined one is therefore taken for one of those.
-/

namespace FeralKernel

open Verif.Program Verif.Bytes

variable {σ : Type}

/-! ## What the variables hold -/

/-- The string that a variable points at, or the literal. -/
def TextAt (m : Mem) (literal : List (BitVec 8)) : Option Ptr → List (BitVec 8) → Prop
  | none, text => text = literal
  | some a, text => CString m a text

def RangesAt (m : Mem) (bootInfo : SystemBootInfo) (ranges : List RangeRecord) : Prop :=
  bootInfo.numMemoryRanges.toNat = ranges.length ∧
  ∀ i (hi : i < ranges.length), bootRange m bootInfo i = ranges[i]

/-- What the variables of `kern_init` say after the loop. -/
structure Describes (m : Mem) (init : KernInit) (d : BootTags) : Prop where
  commandLine : TextAt m BootTags.start.commandLine init.commandLine d.commandLine
  bootloaderName : TextAt m BootTags.start.bootloaderName init.bootloaderName d.bootloaderName
  ranges : RangesAt m init.statics.bootInfo d.ranges
  framebuffer : init.framebuffer = d.framebuffer
  numDisplays : init.numDisplays = if d.framebuffer.isSome then 1 else 0

theorem TextAt.unique {m : Mem} {literal text text' : List (BitVec 8)} {ptr : Option Ptr}
    (h : TextAt m literal ptr text) (h' : TextAt m literal ptr text') : text = text' := by
  cases ptr with
  | none => exact Eq.trans h (Eq.symm h')
  | some a => exact CString.unique h h'

theorem RangesAt.unique {m : Mem} {bootInfo : SystemBootInfo} {ranges ranges' : List RangeRecord}
    (h : RangesAt m bootInfo ranges) (h' : RangesAt m bootInfo ranges') : ranges = ranges' := by
  have hlen : ranges.length = ranges'.length := h.1.symm.trans h'.1
  refine List.ext_getElem hlen fun i hi hi' => ?_
  rw [← h.2 i hi, ← h'.2 i hi']

theorem Describes.unique {m : Mem} {init : KernInit} {d d' : BootTags} (h : Describes m init d)
    (h' : Describes m init d') : d = d' := by
  have hcmd := h.commandLine.unique h'.commandLine
  have hboot := h.bootloaderName.unique h'.bootloaderName
  have hranges := h.ranges.unique h'.ranges
  have hframe := h.framebuffer.symm.trans h'.framebuffer
  cases d
  cases d'
  simp_all

/-! ## Blocks -/

/-- The block that `MBINFO` points at holds `tags`.  The bytes that each tag is read
for are its own, physical addresses have at most 52 bits, the kernel image ends
below 4 GiB, and no memory map is recorded over the block. -/
structure InfoBlock (m : Mem) (kernelEnd : Ptr) (mbInfo : BitVec 32) (tags : List InfoTag) :
    Prop where
  held : TagsAt m (firstTag mbInfo).toNat tags
  low : (firstTag mbInfo).toNat + tagsLength tags + 8 ≤ 2 ^ 52
  image : kernelEnd.toNat + 8 ≤ 2 ^ 32
  contained : ∀ tag ∈ tags, tag.SelfContained
  apart : ∀ tag ∈ tags, tag.kind = MultibootTag.typeMemMap →
    kernelEnd.toNat + 8 + 24 * tag.entryCount ≤ (firstTag mbInfo).toNat ∨
      (firstTag mbInfo).toNat + tagsLength tags + 8 ≤ kernelEnd.toNat

/-- The loop comes to its head at each of `positions`, once and in order, and leaves
at the last. -/
def Visits (kernelEnd : Ptr) (mbInfo : BitVec 32) (s : Machine σ) (positions : List Nat) : Prop :=
  positions.Nodup ∧ ∃ heads init t,
    Passes (tagRound kernelEnd) (KernInit.start mbInfo) s heads init t ∧
    heads.map (fun head => head.multibootInfo.toNat) = positions ∧
    readTags kernelEnd mbInfo s = .ok (init, t)

/-- The loop returns and its variables say `d`. -/
def Reads (kernelEnd : Ptr) (mbInfo : BitVec 32) (s : Machine σ) (d : BootTags) : Prop :=
  Returns (readTags kernelEnd mbInfo) s fun init t => Describes t.mem init d

/-- The types that the format defines and the loop looks for. -/
def InfoTag.Defined (tag : InfoTag) : Prop :=
  tag.type = 1 ∨ tag.type = 2 ∨ tag.type = 6 ∨ tag.type = 8

/-- Taking any tag of another type out of the block makes no difference. -/
def OthersIgnored (kernelEnd : Ptr) (mbInfo : BitVec 32) (s : Machine σ) (tags : List InfoTag) :
    Prop :=
  ∀ pre tag post, tags = pre ++ tag :: post → ¬ tag.Defined → ∀ d,
    Reads kernelEnd mbInfo s d ↔
      Reads kernelEnd mbInfo
        { s with mem := withoutTag s.mem (firstTag mbInfo).toNat pre tag post } d

/-! ## A tag in memory -/

section Holds

variable {m : Mem} {ptr : Ptr} {p k i : Nat} {tag : InfoTag}

theorem HoldsTag.read32 (h : HoldsTag m p tag) (hk : k + 4 ≤ tag.size) :
    read32 m (p + k) = Verif.Bytes.read32 tag.image k := by
  refine read32_shift fun j hj => ?_
  rw [Nat.add_assoc]
  exact h (k + j) (by omega)

theorem HoldsTag.read64 (h : HoldsTag m p tag) (hk : k + 8 ≤ tag.size) :
    read64 m (p + k) = Verif.Bytes.read64 tag.image k := by
  refine read64_shift fun j hj => ?_
  rw [Nat.add_assoc]
  exact h (k + j) (by omega)

theorem InfoTag.eight_le_size (tag : InfoTag) : 8 ≤ tag.size := Nat.le_add_right 8 _

theorem HoldsTag.type (h : HoldsTag m p tag) : Verif.Bytes.read32 m p = tag.type := by
  have hsize := tag.eight_le_size
  have hread := h.read32 (k := 0) (by omega)
  rwa [tag.read32_image_type] at hread

theorem HoldsTag.kind (h : HoldsTag m ptr.toNat tag) : tagKind m ptr = tag.kind := by
  rw [tagKind, h.type, InfoTag.kind]

theorem HoldsTag.size (h : HoldsTag m p tag) :
    Verif.Bytes.read32 m (p + 4) = BitVec.ofNat 32 tag.size := by
  have hsize := tag.eight_le_size
  rw [h.read32 (k := 4) (by omega), tag.read32_image_size]

/-- The pointer moves on to where the next tag is. -/
theorem HoldsTag.nextTag (h : HoldsTag m ptr.toNat tag) (hlow : ptr.toNat ≤ 2 ^ 60) :
    (nextTag m ptr).toNat = ptr.toNat + tag.step := by
  have hsize := tag.eight_le_size
  have hfits : tag.size ≤ 2 ^ 32 - 8 := tag.fits
  have hnat : (BitVec.ofNat 32 tag.size).toNat = tag.size := by
    rw [BitVec.toNat_ofNat]
    omega
  have hsizeFits : SizeFits (BitVec.ofNat 32 tag.size) := by
    rw [SizeFits, hnat]
    omega
  rw [toNat_nextTag hlow, h.size, hsizeFits.toNat_tagStep, hnat, InfoTag.step]

theorem HoldsTag.text (h : HoldsTag m ptr.toNat tag) (hlow : ptr.toNat ≤ 2 ^ 52)
    (hnul : 0 ∈ tag.body) : CString m (MultibootTag.string ptr) tag.text := by
  have hlt : tag.body.idxOf 0 < tag.body.length := List.idxOf_lt_length_of_mem hnul
  have hfits := tag.fits
  have hsize : tag.size = 8 + tag.body.length := rfl
  have hlen : tag.text.length = tag.body.idxOf 0 := by
    rw [InfoTag.text, List.length_take, Nat.min_eq_left (Nat.le_of_lt hlt)]
  have hstring : (MultibootTag.string ptr).toNat = ptr.toNat + 8 :=
    MultibootTag.toNat_string (by omega)
  refine ⟨MultibootTag.string_ne_zero (by omega), by omega, fun k hk => ?_, fun c hc => ?_⟩
  · rw [phys_low (by omega) (by omega), hstring, Nat.add_assoc, h (8 + k) (by omega),
      tag.image_body (by omega)]
    by_cases he : k = tag.body.idxOf 0
    · rw [he, List.getD_eq_getElem _ _ hlt, List.getElem_idxOf,
        List.getD_eq_default _ _ (Nat.le_of_eq hlen)]
    · rw [List.getD_eq_getElem _ _ (by omega), List.getD_eq_getElem _ _ (by omega)]
      simp only [InfoTag.text, List.getElem_take]
  · rintro rfl
    exact Nat.lt_irrefl _ ((List.mem_take_iff_idxOf_lt hnul).mp hc)

theorem HoldsTag.entryRecord (h : HoldsTag m ptr.toNat tag) (hi : 16 + 24 * i + 24 ≤ tag.size) :
    MultibootTagMmap.entryRecord m ptr i = MultibootTagMmap.entryRecord tag.image 0 i := by
  have hstart := h.read64 (k := 16 + 24 * i) (by omega)
  have hlen := h.read64 (k := 16 + 24 * i + 8) (by omega)
  have htype := h.read32 (k := 16 + 24 * i + 16) (by omega)
  have hzero : (0 : Ptr).toNat = 0 := rfl
  simp only [← Nat.add_assoc] at hstart hlen htype
  simp only [MultibootTagMmap.entryRecord, MultibootTagMmap.entryUsage, MultibootTagMmap.entryEnd,
    MultibootTagMmap.entryStart, hzero, Nat.zero_add, hstart, hlen, htype]

theorem HoldsTag.entryCount (h : HoldsTag m ptr.toNat tag) (hsize : 16 ≤ tag.size) :
    MultibootTagMmap.entryCount m ptr = tag.entryCount := by
  rw [MultibootTagMmap.entryCount, h.read32 (k := 4) (by omega), h.read32 (k := 8) (by omega)]
  rfl

theorem HoldsTag.framebufferAt (h : HoldsTag m ptr.toNat tag) (hsize : 29 ≤ tag.size) :
    framebufferAt m ptr = framebufferAt tag.image 0 := by
  have htype := h.read32 (k := 0) (by omega)
  rw [Nat.add_zero] at htype
  rw [FeralKernel.framebufferAt, h.read64 (k := 8) (by omega), h 28 (by omega),
    h.read32 (k := 24) (by omega), h.read32 (k := 20) (by omega), htype]
  rfl

end Holds

/-! ## What one tag adds -/

/-- A string that the loop has taken from the block between `lo` and `hi`, or the
literal. -/
def TextIn (m : Mem) (lo hi : Nat) (literal : List (BitVec 8)) :
    Option Ptr → List (BitVec 8) → Prop
  | none, text => text = literal
  | some a, text => CString m a text ∧ lo ≤ a.toNat ∧ a.toNat + text.length < hi

/-- The variables say `d`, with strings between `lo` and `hi`. -/
structure BlockState (m : Mem) (lo hi : Nat) (init : KernInit) (d : BootTags) : Prop where
  commandLine : TextIn m lo hi BootTags.start.commandLine init.commandLine d.commandLine
  bootloaderName : TextIn m lo hi BootTags.start.bootloaderName init.bootloaderName d.bootloaderName
  ranges : RangesAt m init.statics.bootInfo d.ranges
  framebuffer : init.framebuffer = d.framebuffer
  numDisplays : init.numDisplays = if d.framebuffer.isSome then 1 else 0

section State

variable {m m' : Mem} {lo hi : Nat} {literal text old : List (BitVec 8)} {ptr : Option Ptr}
  {init : KernInit} {d : BootTags}

theorem TextIn.textAt (h : TextIn m lo hi literal ptr text) : TextAt m literal ptr text := by
  cases ptr with
  | none => exact h
  | some a => exact h.1

theorem BlockState.describes (h : BlockState m lo hi init d) : Describes m init d :=
  ⟨h.commandLine.textAt, h.bootloaderName.textAt, h.ranges, h.framebuffer, h.numDisplays⟩

theorem blockState_start (m : Mem) (lo hi : Nat) (mbInfo : BitVec 32) :
    BlockState m lo hi (KernInit.start mbInfo) BootTags.start :=
  ⟨rfl, rfl, ⟨rfl, fun i hi => absurd hi (Nat.not_lt_zero i)⟩, rfl, rfl⟩

/-- The block is left alone, and its strings with it. -/
theorem TextIn.keep (h : TextIn m lo hi literal ptr text) (hhi : hi ≤ 2 ^ 60)
    (hm : ∀ x, lo ≤ x → x < hi → m' x = m x) : TextIn m' lo hi literal ptr text := by
  cases ptr with
  | none => exact h
  | some a =>
    obtain ⟨htext, hlo, hlt⟩ := h
    refine ⟨htext.congr fun k hk => ?_, hlo, hlt⟩
    rw [phys_low (by omega) (by omega)]
    exact hm _ (by omega) (by omega)

/-- A string tag sets its variable, and any other tag keeps it. -/
theorem TextIn.set {c : Prop} [Decidable c] {a : Ptr} (h : TextIn m lo hi literal ptr old)
    (hnew : c → CString m a text ∧ lo ≤ a.toNat ∧ a.toNat + text.length < hi)
    (hhi : hi ≤ 2 ^ 60) (hm : ∀ x, lo ≤ x → x < hi → m' x = m x) :
    TextIn m' lo hi literal (if c then some a else ptr)
      ((if c then some text else none).getD old) := by
  by_cases hc : c
  · rw [if_pos hc, if_pos hc, Option.getD_some]
    have hset : TextIn m lo hi literal (some a) text := hnew hc
    exact hset.keep hhi hm
  · rw [if_neg hc, if_neg hc, Option.getD_none]
    exact h.keep hhi hm

end State

section Round

variable {m m' : Mem} {lo hi : Nat} {kernelEnd : Ptr} {init init' : KernInit} {d : BootTags}
  {tag : InfoTag}

/-- What is wanted of the tag at hand: it lies between `lo` and `hi`, and if it is a
memory map it is not recorded there. -/
structure TagInBlock (m : Mem) (kernelEnd : Ptr) (lo hi : Nat) (ptr : Ptr) (tag : InfoTag) :
    Prop where
  holds : HoldsTag m ptr.toNat tag
  contained : tag.SelfContained
  low : lo ≤ ptr.toNat
  high : ptr.toNat + tag.size ≤ hi
  physical : hi ≤ 2 ^ 52
  image : kernelEnd.toNat + 8 ≤ 2 ^ 32
  apart : tag.kind = MultibootTag.typeMemMap →
    kernelEnd.toNat + 8 + 24 * tag.entryCount ≤ lo ∨ hi ≤ kernelEnd.toNat

namespace TagInBlock

/-- The block stays as it is. -/
theorem keeps {ptr : Ptr} (h : TagInBlock m kernelEnd lo hi ptr tag) {x : Nat} (hx : lo ≤ x)
    (hlt : x < hi) : tagHandled kernelEnd m ptr x = m x := by
  rw [tagHandled]
  split
  · rename_i hkind
    rw [h.holds.kind] at hkind
    have hfits := h.contained.memoryMap hkind
    have hapart := h.apart hkind
    rw [h.holds.entryCount (by omega)]
    exact mapWritten_outside (by omega)
  · rfl

/-- Nothing in front of the end of the image is written. -/
theorem below {ptr : Ptr} {x : Nat} (hx : x < kernelEnd.toNat) :
    tagHandled kernelEnd m ptr x = m x := by
  rw [tagHandled]
  split
  · exact mapWritten_outside (Or.inl hx)
  · rfl

/-- Where the string lies, when the tag is read for one. -/
theorem text {ptr : Ptr} (h : TagInBlock m kernelEnd lo hi ptr tag)
    (hkind : tag.kind = MultibootTag.typeCmdLine ∨ tag.kind = MultibootTag.typeBootLoader) :
    CString m (MultibootTag.string ptr) tag.text ∧ lo ≤ (MultibootTag.string ptr).toNat ∧
      (MultibootTag.string ptr).toNat + tag.text.length < hi := by
  have hlow := h.low
  have hhigh := h.high
  have hphysical := h.physical
  have hnul := h.contained.string hkind
  have hsize : tag.size = 8 + tag.body.length := rfl
  have hlt : tag.body.idxOf 0 < tag.body.length := List.idxOf_lt_length_of_mem hnul
  have hlen : tag.text.length ≤ tag.body.idxOf 0 := List.length_take_le _ _
  have hstring : (MultibootTag.string ptr).toNat = ptr.toNat + 8 :=
    MultibootTag.toNat_string (by omega)
  refine ⟨h.holds.text (by omega) hnul, ?_, ?_⟩ <;> omega

/-- The ranges that a memory map leaves behind are its entries. -/
theorem rangesAt {ptr : Ptr} (h : TagInBlock m kernelEnd lo hi ptr tag)
    (hkind : tag.kind = MultibootTag.typeMemMap) :
    RangesAt (mapWritten m kernelEnd ptr tag.entryCount)
      { numMemoryRanges := BitVec.ofNat 64 tag.entryCount, memoryRanges := kernelEnd + 8 }
      ((List.range tag.entryCount).map (MultibootTagMmap.entryRecord tag.image 0)) := by
  have hlow := h.low
  have hhigh := h.high
  have hcount : tag.entryCount < 2 ^ 32 := MultibootTagMmap.entryCount_lt tag.image 0
  have hfits := h.contained.memoryMap hkind
  have hapart : TagApart kernelEnd ptr tag.entryCount := by
    have hside := h.apart hkind
    exact ⟨h.image, by omega⟩
  refine ⟨?_, fun i hi' => ?_⟩
  · rw [List.length_map, List.length_range, BitVec.toNat_ofNat]
    exact Nat.mod_eq_of_lt (by omega)
  · rw [List.length_map, List.length_range] at hi'
    rw [List.getElem_map, List.getElem_range, bootRange_eq h.image _ _ (by omega),
      hapart.rangeRecord hi', h.holds.entryRecord (by omega)]

/-- The variables after the tag say what it adds. -/
theorem add (h : TagInBlock m kernelEnd lo hi init.multibootInfo tag)
    (hstate : BlockState m lo hi init d)
    (hhandled : TagHandled kernelEnd m tag.text init init' m') :
    BlockState m' lo hi init' (d.add tag) := by
  have hphysical := h.physical
  have hkind := h.holds.kind
  have hm : ∀ x, lo ≤ x → x < hi → m' x = m x := by
    intro x hx hlt
    rw [hhandled.mem]
    exact h.keeps hx hlt
  constructor
  · rw [hhandled.commandLine, hkind]
    exact hstate.commandLine.set (fun hc => h.text (Or.inl hc.1)) (by omega) hm
  · rw [hhandled.bootloaderName, hkind]
    exact hstate.bootloaderName.set (fun hc => h.text (Or.inr hc.1)) (by omega) hm
  · rw [hhandled.bootInfo, hhandled.mem, tagHandled, hkind]
    by_cases hmap : tag.kind = MultibootTag.typeMemMap
    · have hfits := h.contained.memoryMap hmap
      rw [if_pos hmap, if_pos hmap, h.holds.entryCount (by omega), BootTags.add, InfoTag.ranges,
        if_pos hmap]
      exact h.rangesAt hmap
    · rw [if_neg hmap, if_neg hmap, BootTags.add, InfoTag.ranges, if_neg hmap]
      exact hstate.ranges
  · rw [hhandled.framebuffer, hkind, BootTags.add, InfoTag.framebuffer]
    by_cases hframe : tag.kind = MultibootTag.typeFrameBuffer
    · rw [if_pos hframe, if_pos hframe, h.holds.framebufferAt (h.contained.framebuffer hframe)]
      rfl
    · rw [if_neg hframe, if_neg hframe]
      exact hstate.framebuffer
  · rw [hhandled.numDisplays, hkind, BootTags.add, InfoTag.framebuffer]
    by_cases hframe : tag.kind = MultibootTag.typeFrameBuffer
    · rw [if_pos hframe, if_pos hframe]
      rfl
    · rw [if_neg hframe, if_neg hframe]
      exact hstate.numDisplays

end TagInBlock

/-- A round that returns has a size to divide by. -/
theorem TagInBlock.counts {s : Machine σ}
    (h : TagInBlock s.mem kernelEnd lo hi init.multibootInfo tag)
    {Q : KernInit ⊕ KernInit → Machine σ → Prop} (hreturns : Returns (tagRound kernelEnd init) s Q) :
    tag.Counts := by
  intro hmap
  have hhigh := h.high
  have hphysical := h.physical
  have hfits := h.contained.memoryMap hmap
  have htype : read32 s.mem init.multibootInfo.toNat ≠ MultibootTag.typeEnd := by
    rw [h.holds.type]
    exact tag.notEnd
  have hentry := tagRound_entrySize (by omega) htype hreturns (h.holds.kind.trans hmap)
  rw [h.holds.read32 (k := 8) (by omega)] at hentry
  exact hentry

/-- A round of the loop at a tag of the block. -/
theorem TagInBlock.round {s : Machine σ}
    (h : TagInBlock s.mem kernelEnd lo hi init.multibootInfo tag) (hcounts : tag.Counts)
    (hstate : BlockState s.mem lo hi init d) :
    Returns (tagRound kernelEnd init) s fun r t => ∃ next, r = .inr next ∧
      next.multibootInfo.toNat = init.multibootInfo.toNat + tag.step ∧
      BlockState t.mem lo hi next (d.add tag) ∧ (∀ x, lo ≤ x → x < hi → t.mem x = s.mem x) ∧
      ∀ x, x < kernelEnd.toNat → t.mem x = s.mem x := by
  have hhigh := h.high
  have hphysical := h.physical
  have hlow : init.multibootInfo.toNat ≤ 2 ^ 60 := by omega
  have hkind := h.holds.kind
  have htype : read32 s.mem init.multibootInfo.toNat ≠ MultibootTag.typeEnd := by
    rw [h.holds.type]
    exact tag.notEnd
  have htext : tagKind s.mem init.multibootInfo = MultibootTag.typeCmdLine ∨
      tagKind s.mem init.multibootInfo = MultibootTag.typeBootLoader →
      CString s.mem (MultibootTag.string init.multibootInfo) tag.text := by
    rw [hkind]
    exact fun hstring => (h.text hstring).1
  have hentry : tagKind s.mem init.multibootInfo = MultibootTag.typeMemMap →
      read32 s.mem (init.multibootInfo.toNat + 8) ≠ 0 := by
    rw [hkind]
    intro hmap
    have hfits := h.contained.memoryMap hmap
    rw [h.holds.read32 (k := 8) (by omega)]
    exact hcounts hmap
  apply (tagRound_next hlow h.image htype htext hentry).mono
  intro r t ht
  obtain ⟨init', hhandled, rfl⟩ := ht
  have hadd := h.add hstate hhandled
  have hm : ∀ x, lo ≤ x → x < hi → t.mem x = s.mem x := by
    intro x hx hlt
    rw [hhandled.mem]
    exact h.keeps hx hlt
  refine ⟨_, rfl, ?_, ⟨hadd.commandLine, hadd.bootloaderName, hadd.ranges, hadd.framebuffer,
    hadd.numDisplays⟩, hm, fun x hx => by rw [hhandled.mem, below hx]⟩
  have hsize := tag.eight_le_size
  have hheld : HoldsTag t.mem init.multibootInfo.toNat tag :=
    h.holds.shift fun k hk => hm _ (by have := h.low; omega) (by omega)
  exact hheld.nextTag hlow

end Round

/-! ## The whole block -/

section Walk

variable {m m' : Mem} {lo hi p : Nat} {kernelEnd : Ptr} {tag : InfoTag} {tags rest : List InfoTag}

/-- The tags that are still to come. -/
structure BlockRest (m : Mem) (kernelEnd : Ptr) (lo hi p : Nat) (rest : List InfoTag) : Prop where
  held : TagsAt m p rest
  low : lo ≤ p
  high : p + tagsLength rest + 8 ≤ hi
  physical : hi ≤ 2 ^ 52
  image : kernelEnd.toNat + 8 ≤ 2 ^ 32
  contained : ∀ tag ∈ rest, tag.SelfContained
  apart : ∀ tag ∈ rest, tag.kind = MultibootTag.typeMemMap →
    kernelEnd.toNat + 8 + 24 * tag.entryCount ≤ lo ∨ hi ≤ kernelEnd.toNat

theorem BlockRest.head {ptr : Ptr} (h : BlockRest m kernelEnd lo hi ptr.toNat (tag :: rest)) :
    TagInBlock m kernelEnd lo hi ptr tag := by
  have hhigh := h.high
  have hstep := tag.size_le_step
  rw [tagsLength_cons] at hhigh
  exact ⟨h.held.1, h.contained tag List.mem_cons_self, h.low, by omega, h.physical, h.image,
    h.apart tag List.mem_cons_self⟩

theorem BlockRest.tail (h : BlockRest m kernelEnd lo hi p (tag :: rest))
    (hm : ∀ x, lo ≤ x → x < hi → m' x = m x) :
    BlockRest m' kernelEnd lo hi (p + tag.step) rest := by
  have hlow := h.low
  have hhigh := h.high
  rw [tagsLength_cons] at hhigh
  exact ⟨h.held.2.congr fun x hx hlt => hm x (by omega) (by omega), by omega, by omega, h.physical,
    h.image, fun t ht => h.contained t (List.mem_cons_of_mem tag ht),
    fun t ht => h.apart t (List.mem_cons_of_mem tag ht)⟩

/-- The induction is on the tags to come: each round passes one and adds what it says. -/
theorem BlockRest.passes {init : KernInit} {s : Machine σ} {d : BootTags}
    (h : BlockRest s.mem kernelEnd lo hi init.multibootInfo.toNat rest)
    (hcounts : ∀ tag ∈ rest, tag.Counts) (hstate : BlockState s.mem lo hi init d) :
    ∃ heads init' t, Passes (tagRound kernelEnd) init s heads init' t ∧
      heads.map (fun head => head.multibootInfo.toNat) =
        tagPositions init.multibootInfo.toNat rest ∧
      BlockState t.mem lo hi init' (rest.foldl BootTags.add d) ∧
      ∀ x, x < kernelEnd.toNat → t.mem x = s.mem x := by
  induction rest generalizing init s d with
  | nil =>
    have hhigh := h.high
    have hphysical := h.physical
    have hlast : Returns (tagRound kernelEnd init) s fun r t => r = .inl init ∧ t.mem = s.mem :=
      tagRound_last (by omega) h.held
    obtain ⟨r, t, he, rfl, hm⟩ := hlast
    refine ⟨[init], init, t, .leave he, rfl, ?_, fun x _ => congrFun hm x⟩
    rw [hm]
    exact hstate
  | cons tag rest ih =>
    obtain ⟨r, u, he, next, rfl, hnext, hadd, hm, hbelow⟩ :=
      h.head.round (hcounts tag List.mem_cons_self) hstate
    have htail := h.tail hm
    rw [← hnext] at htail
    obtain ⟨heads, init', t, hpasses, hpositions, hfinal, hrest⟩ :=
      ih htail (fun t ht => hcounts t (List.mem_cons_of_mem tag ht)) hadd
    refine ⟨init :: heads, init', t, .next he hpasses, ?_, hfinal,
      fun x hx => (hrest x hx).trans (hbelow x hx)⟩
    rw [List.map_cons, hpositions, hnext]
    rfl

/-- A walk that gets to its end has come through all tags, and divided at each map. -/
theorem BlockRest.counts_of_passes {init init' : KernInit} {s t : Machine σ} {d : BootTags}
    {heads : List KernInit} (h : BlockRest s.mem kernelEnd lo hi init.multibootInfo.toNat rest)
    (hstate : BlockState s.mem lo hi init d)
    (hpasses : Passes (tagRound kernelEnd) init s heads init' t) : ∀ tag ∈ rest, tag.Counts := by
  induction rest generalizing init s d heads with
  | nil =>
    intro tag htag
    exact absurd htag List.not_mem_nil
  | cons tag rest ih =>
    cases hpasses with
    | leave he =>
      have hreturns : Returns (tagRound kernelEnd init) s fun _ _ => True :=
        returns_of_eq he trivial
      have hcounts := h.head.counts hreturns
      obtain ⟨r, u, he', next, rfl, -⟩ := h.head.round hcounts hstate
      rw [he] at he'
      cases he'
    | next he hrest =>
      have hreturns : Returns (tagRound kernelEnd init) s fun _ _ => True :=
        returns_of_eq he trivial
      have hcounts := h.head.counts hreturns
      obtain ⟨r, u, he', next, rfl, hnext, hadd, hm, -⟩ := h.head.round hcounts hstate
      rw [he] at he'
      cases he'
      have htail := h.tail hm
      rw [← hnext] at htail
      intro other hother
      rcases List.mem_cons.mp hother with rfl | hother
      · exact hcounts
      · exact ih htail hadd hrest other hother

end Walk

section Block

variable {m : Mem} {kernelEnd : Ptr} {mbInfo : BitVec 32} {tag : InfoTag}
  {tags pre post : List InfoTag} {s : Machine σ}

theorem InfoBlock.rest (h : InfoBlock m kernelEnd mbInfo tags) :
    BlockRest m kernelEnd (firstTag mbInfo).toNat ((firstTag mbInfo).toNat + tagsLength tags + 8)
      (firstTag mbInfo).toNat tags :=
  ⟨h.held, Nat.le_refl _, Nat.le_refl _, h.low, h.image, h.contained, h.apart⟩

/-- The loop passes over the block, and its strings are left where they are. -/
theorem InfoBlock.passes (h : InfoBlock s.mem kernelEnd mbInfo tags)
    (hcounts : ∀ tag ∈ tags, tag.Counts) :
    ∃ heads init t, Passes (tagRound kernelEnd) (KernInit.start mbInfo) s heads init t ∧
      heads.map (fun head => head.multibootInfo.toNat) =
        tagPositions (firstTag mbInfo).toNat tags ∧
      readTags kernelEnd mbInfo s = .ok (init, t) ∧
      BlockState t.mem (firstTag mbInfo).toNat ((firstTag mbInfo).toNat + tagsLength tags + 8) init
        (described tags) ∧
      ∀ x, x < kernelEnd.toNat → t.mem x = s.mem x := by
  have hrest : BlockRest s.mem kernelEnd (firstTag mbInfo).toNat
      ((firstTag mbInfo).toNat + tagsLength tags + 8)
      (KernInit.start mbInfo).multibootInfo.toNat tags := h.rest
  obtain ⟨heads, init, t, hpasses, hpositions, hstate, hbelow⟩ :=
    hrest.passes hcounts (blockState_start s.mem _ _ mbInfo)
  have hlow := h.low
  have hcount := eight_mul_length_le tags
  have hlen := congrArg List.length hpositions
  rw [List.length_map, length_tagPositions] at hlen
  have hrun : readTags kernelEnd mbInfo s = .ok (init, t) :=
    hpasses.iterate (by rw [loopBound]; omega)
  exact ⟨heads, init, t, hpasses, hpositions, hrun, hstate, hbelow⟩

/-- The loop passes over the block and is left with what the tags say. -/
theorem InfoBlock.visits_and_reads (h : InfoBlock s.mem kernelEnd mbInfo tags)
    (hcounts : ∀ tag ∈ tags, tag.Counts) :
    Visits kernelEnd mbInfo s (tagPositions (firstTag mbInfo).toNat tags) ∧
      Reads kernelEnd mbInfo s (described tags) := by
  obtain ⟨heads, init, t, hpasses, hpositions, hrun, hstate, -⟩ := h.passes hcounts
  exact ⟨⟨nodup_tagPositions _ _, heads, init, t, hpasses, hpositions, hrun⟩,
    returns_of_eq hrun hstate.describes⟩

/-- What is read from a block is what its tags say. -/
theorem InfoBlock.reads_iff (h : InfoBlock s.mem kernelEnd mbInfo tags)
    (hcounts : ∀ tag ∈ tags, tag.Counts) (d : BootTags) :
    Reads kernelEnd mbInfo s d ↔ d = described tags := by
  obtain ⟨-, init, t, hrun, hdescribes⟩ := h.visits_and_reads hcounts
  constructor
  · intro hreads
    exact (hreads.of_eq hrun).unique hdescribes
  · rintro rfl
    exact returns_of_eq hrun hdescribes

/-- A loop that has visited the block has divided at each map. -/
theorem InfoBlock.counts (h : InfoBlock s.mem kernelEnd mbInfo tags) {positions : List Nat}
    (hvisits : Visits kernelEnd mbInfo s positions) : ∀ tag ∈ tags, tag.Counts := by
  obtain ⟨-, heads, init, t, hpasses, -, -⟩ := hvisits
  have hrest : BlockRest s.mem kernelEnd (firstTag mbInfo).toNat
      ((firstTag mbInfo).toNat + tagsLength tags + 8)
      (KernInit.start mbInfo).multibootInfo.toNat tags := h.rest
  exact hrest.counts_of_passes (blockState_start s.mem _ _ mbInfo) hpasses

/-- A tag that the format defines says how large its entries are. -/
theorem InfoTag.SelfContained.counts (h : tag.SelfContained) (hdefined : tag.Defined) :
    tag.Counts := by
  rcases hdefined with htype | htype | htype | htype
  · intro hmap
    rw [InfoTag.kind, htype] at hmap
    exact absurd hmap (by decide)
  · intro hmap
    rw [InfoTag.kind, htype] at hmap
    exact absurd hmap (by decide)
  · exact h.entrySize htype
  · intro hmap
    rw [InfoTag.kind, htype] at hmap
    exact absurd hmap (by decide)

theorem mem_of_without {t : InfoTag} (ht : t ∈ pre ++ post) : t ∈ pre ++ tag :: post := by
  rcases List.mem_append.mp ht with ht | ht
  · exact List.mem_append_left _ ht
  · exact List.mem_append_right _ (List.mem_cons_of_mem tag ht)

/-- A block is still one when a tag has been taken out. -/
theorem InfoBlock.without (h : InfoBlock m kernelEnd mbInfo (pre ++ tag :: post)) :
    InfoBlock (withoutTag m (firstTag mbInfo).toNat pre tag post) kernelEnd mbInfo
      (pre ++ post) := by
  have hlow := h.low
  have hlen : tagsLength (pre ++ post) ≤ tagsLength (pre ++ tag :: post) := by
    rw [tagsLength_append, tagsLength_append, tagsLength_cons]
    omega
  refine ⟨h.held.without, by omega, h.image, fun t ht => h.contained t (mem_of_without ht),
    fun t ht hkind => ?_⟩
  have hapart := h.apart t (mem_of_without ht) hkind
  omega

theorem InfoBlock.ignored_iff (h : InfoBlock s.mem kernelEnd mbInfo (pre ++ tag :: post))
    (hcounts : ∀ t ∈ pre ++ tag :: post, t.Counts) :
    (∀ d, Reads kernelEnd mbInfo s d ↔ Reads kernelEnd mbInfo
      { s with mem := withoutTag s.mem (firstTag mbInfo).toNat pre tag post } d) ↔
      Superfluous pre tag post := by
  have hless : InfoBlock ({ s with
      mem := withoutTag s.mem (firstTag mbInfo).toNat pre tag post } : Machine σ).mem kernelEnd
      mbInfo (pre ++ post) := h.without
  have hcounts' : ∀ t ∈ pre ++ post, t.Counts := fun t ht => hcounts t (mem_of_without ht)
  rw [← described_erase_iff]
  constructor
  · intro hall
    exact (hless.reads_iff hcounts' _).mp ((hall _).mp ((h.reads_iff hcounts _).mpr rfl))
  · intro hsame d
    rw [h.reads_iff hcounts, hless.reads_iff hcounts', hsame]

/-- The loop goes over every block tag by tag and ignores tags of other types than it looks for
just when none of them is a memory map with no entry size by the low half of its type and each
of them could as well be missing, although the loop takes it for what that half names. -/
theorem readTags_block_iff (h : InfoBlock s.mem kernelEnd mbInfo tags) :
    (Visits kernelEnd mbInfo s (tagPositions (firstTag mbInfo).toNat tags) ∧
      OthersIgnored kernelEnd mbInfo s tags) ↔
    ∀ pre tag post, tags = pre ++ tag :: post → ¬ tag.Defined →
      tag.Counts ∧ Superfluous pre tag post := by
  constructor
  · rintro ⟨hvisits, hignored⟩ pre tag post hsplit htag
    have hcounts := h.counts hvisits
    have hsame := hignored pre tag post hsplit htag
    subst hsplit
    exact ⟨hcounts tag (List.mem_append_right _ List.mem_cons_self),
      (h.ignored_iff hcounts).mp hsame⟩
  · intro hall
    have hcounts : ∀ tag ∈ tags, tag.Counts := by
      intro tag htag
      by_cases hdefined : tag.Defined
      · exact (h.contained tag htag).counts hdefined
      · obtain ⟨pre, post, hsplit⟩ := List.append_of_mem htag
        exact (hall pre tag post hsplit hdefined).1
    refine ⟨(h.visits_and_reads hcounts).1, fun pre tag post hsplit htag => ?_⟩
    have hsuperfluous := (hall pre tag post hsplit htag).2
    subst hsplit
    exact (h.ignored_iff hcounts).mpr hsuperfluous

end Block

/-! ## Two blocks at 320 KiB -/

/-- A string tag of the given type that holds the one letter `a`. -/
def letterTag (type : BitVec 32) (h : type ≠ MultibootTag.typeEnd) : InfoTag where
  type := type
  body := [ch 'a', 0]
  notEnd := h
  fits := by decide

def letterBlock (type : BitVec 32) (h : type ≠ MultibootTag.typeEnd) : Machine MmStatics :=
  { coldMachine with mem := block coldMachine.mem 0x50008 (encodeTags [letterTag type h]) }

theorem letterBlock_holds (type : BitVec 32) (h : type ≠ MultibootTag.typeEnd)
    (hkind : type.setWidth 16 ≠ MultibootTag.typeMemMap ∧
      type.setWidth 16 ≠ MultibootTag.typeFrameBuffer) :
    InfoBlock (letterBlock type h).mem 0x180000 0x50000 [letterTag type h] := by
  have hself : (letterTag type h).SelfContained :=
    ⟨fun _ => List.mem_cons_of_mem _ List.mem_cons_self, fun hmap => absurd hmap hkind.1,
      fun _ hmap => absurd hmap hkind.1, fun hframe => absurd hframe hkind.2⟩
  have hlow : (firstTag 0x50000).toNat + tagsLength [letterTag type h] + 8 ≤ 2 ^ 52 := by
    have hfirst : (firstTag 0x50000).toNat = 0x50008 := rfl
    have hsize : (letterTag type h).size = 10 := rfl
    rw [tagsLength_cons, InfoTag.step, hsize, hfirst, show tagsLength [] = 0 from rfl]
    omega
  refine ⟨tagsAt_encodeTags coldMachine.mem 0x50008 _, hlow, by decide, ?_, ?_⟩
  · intro tag htag
    rw [List.mem_singleton.mp htag]
    exact hself
  · intro tag htag
    rw [List.mem_singleton.mp htag]
    exact fun hmap => absurd hmap hkind.1

/-- A module tag is passed over. -/
theorem readTags_block_iff_module :
    Visits 0x180000 0x50000 (letterBlock 3 (by decide))
        (tagPositions (firstTag 0x50000).toNat [letterTag 3 (by decide)]) ∧
      OthersIgnored 0x180000 0x50000 (letterBlock 3 (by decide)) [letterTag 3 (by decide)] := by
  refine (readTags_block_iff (letterBlock_holds 3 (by decide) (by decide))).mpr ?_
  intro pre tag post hsplit _
  have htag : tag ∈ [letterTag 3 (by decide)] := by
    rw [hsplit]
    exact List.mem_append_right _ List.mem_cons_self
  rw [List.mem_singleton.mp htag]
  exact ⟨fun hmap => absurd hmap (by decide),
    superfluous_of_kind (by decide) (by decide) (by decide) (by decide)⟩

/-- A tag of type `0x10001` becomes the command line. -/
theorem wideType_not_ignored :
    ¬ (Visits 0x180000 0x50000 (letterBlock 0x10001 (by decide))
        (tagPositions (firstTag 0x50000).toNat [letterTag 0x10001 (by decide)]) ∧
      OthersIgnored 0x180000 0x50000 (letterBlock 0x10001 (by decide))
        [letterTag 0x10001 (by decide)]) := by
  intro hclaim
  have hblock : InfoBlock (letterBlock 0x10001 (by decide)).mem 0x180000 0x50000
      ([] ++ letterTag 0x10001 (by decide) :: []) :=
    letterBlock_holds 0x10001 (by decide) (by decide)
  have hundefined : ¬ (letterTag 0x10001 (by decide)).Defined := by
    unfold InfoTag.Defined
    decide
  have hignored := hclaim.2 [] _ [] rfl hundefined
  have hidle := ((hblock.ignored_iff (hblock.counts hclaim.1)).mp hignored).commandLine
  rcases hidle with hnone | ⟨_, hmem, _⟩ | hsame
  · exact absurd hnone (by decide)
  · exact absurd hmem List.not_mem_nil
  · exact absurd hsame (by decide)

end FeralKernel
