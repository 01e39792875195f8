import FeralKernel.Entry.KernInit
import Mathlib.Algebra.GroupWithZero.Nat

/-!
# Information blocks as lists of tags

A Multiboot2 information block is a list of tags, each padded to a multiple of 8
bytes, and an end tag.  This module says what it means for memory to hold a list
of tags, that every list can be laid out, and what taking a tag out of a block
does.  What a tag says is read from its own bytes.
-/

namespace FeralKernel

open Verif.Program Verif.Bytes

/-! ## The last setting wins -/

/-- What is in force after some settings, of which `none` changes nothing. -/
def latest {α : Type} (l : List (Option α)) (d : α) : α := l.foldl (fun d o => o.getD d) d

section Latest

variable {α : Type}

@[simp] theorem latest_nil (d : α) : latest [] d = d := rfl

@[simp] theorem latest_cons (o : Option α) (l : List (Option α)) (d : α) :
    latest (o :: l) d = latest l (o.getD d) := rfl

theorem latest_append (l l' : List (Option α)) (d : α) :
    latest (l ++ l') d = latest l' (latest l d) := List.foldl_append

/-- Two settings lead to the same when a later one replaces them or they agree. -/
theorem latest_eq_iff (l : List (Option α)) (d d' : α) :
    latest l d = latest l d' ↔ (∃ o ∈ l, o ≠ none) ∨ d = d' := by
  induction l generalizing d d' with
  | nil => simp
  | cons o l ih =>
    cases o with
    | none => simpa using ih d d'
    | some a => simp

theorem latest_erase_iff (l l' : List (Option α)) (o : Option α) (d : α) :
    latest (l ++ o :: l') d = latest (l ++ l') d ↔
      o = none ∨ (∃ o' ∈ l', o' ≠ none) ∨ o = some (latest l d) := by
  rw [latest_append, latest_append, latest_cons, latest_eq_iff]
  cases o with
  | none => simp
  | some a => simp

end Latest

/-! ## Tags -/

/-- A tag other than the end tag: its type and the bytes behind its header. -/
structure InfoTag where
  type : BitVec 32
  body : List (BitVec 8)
  notEnd : type ≠ MultibootTag.typeEnd
  fits : 8 + body.length ≤ 2 ^ 32 - 8

namespace InfoTag

variable (tag : InfoTag)

def size : Nat := 8 + tag.body.length

/-- The bytes that the tag takes with its padding. -/
def step : Nat := (tag.size + 7) / 8 * 8

/-- The low half of the type. -/
def kind : BitVec 16 := tag.type.setWidth 16

def header : Mem := write32 (write32 (fun _ => 0) 0 tag.type) 4 (BitVec.ofNat 32 tag.size)

/-- The tag alone in memory, from address zero on. -/
def image : Mem := block tag.header 8 tag.body

def bytes : List (BitVec 8) := (List.range tag.step).map tag.image

@[simp] theorem length_bytes : tag.bytes.length = tag.step := by
  rw [bytes, List.length_map, List.length_range]

theorem size_le_step : tag.size ≤ tag.step := by
  rw [step]
  omega

theorem eight_le_step : 8 ≤ tag.step := by
  have hsize : tag.size = 8 + tag.body.length := rfl
  rw [step]
  omega

theorem read32_image_type : read32 tag.image 0 = tag.type := by
  have hhead : read32 tag.image 0 = read32 tag.header 0 :=
    read32_congr fun x _ h2 => block_outside (by omega)
  rw [hhead, header, read32_write32_outside (by omega), read32_write32_same]

theorem read32_image_size : read32 tag.image 4 = BitVec.ofNat 32 tag.size := by
  have hhead : read32 tag.image 4 = read32 tag.header 4 :=
    read32_congr fun x _ h2 => block_outside (by omega)
  rw [hhead, header, read32_write32_same]

theorem image_body {k : Nat} (hk : k < tag.body.length) : tag.image (8 + k) = tag.body.getD k 0 :=
  block_inside _ _ hk

end InfoTag

/-- `m` holds the bytes of `tag` from `p` on. -/
def HoldsTag (m : Mem) (p : Nat) (tag : InfoTag) : Prop := ∀ k, k < tag.size → m (p + k) = tag.image k

/-- `m` holds `tags` from `p` on, one behind the other, and an end tag. -/
def TagsAt (m : Mem) : Nat → List InfoTag → Prop
  | p, [] => read32 m p = MultibootTag.typeEnd
  | p, tag :: rest => HoldsTag m p tag ∧ TagsAt m (p + tag.step) rest

/-- The bytes up to the end tag. -/
def tagsLength (tags : List InfoTag) : Nat := (tags.map InfoTag.step).sum

/-- The positions of the tags and of the end tag. -/
def tagPositions : Nat → List InfoTag → List Nat
  | p, [] => [p]
  | p, tag :: rest => p :: tagPositions (p + tag.step) rest

section Tags

variable {m m' : Mem} {p q : Nat} {tag : InfoTag} {tags pre post : List InfoTag}

theorem tagsLength_cons (tag : InfoTag) (tags : List InfoTag) :
    tagsLength (tag :: tags) = tag.step + tagsLength tags := rfl

theorem tagsLength_append (pre post : List InfoTag) :
    tagsLength (pre ++ post) = tagsLength pre + tagsLength post := by
  rw [tagsLength, List.map_append, List.sum_append]
  rfl

theorem eight_mul_length_le (tags : List InfoTag) : 8 * tags.length ≤ tagsLength tags := by
  induction tags with
  | nil => exact Nat.zero_le _
  | cons tag tags ih =>
    have hstep := tag.eight_le_step
    rw [tagsLength_cons, List.length_cons]
    omega

theorem length_tagPositions (p : Nat) (tags : List InfoTag) :
    (tagPositions p tags).length = tags.length + 1 := by
  induction tags generalizing p with
  | nil => rfl
  | cons tag tags ih => rw [tagPositions, List.length_cons, ih, List.length_cons]

theorem le_of_mem_tagPositions {x : Nat} (h : x ∈ tagPositions p tags) : p ≤ x := by
  induction tags generalizing p with
  | nil => simp_all [tagPositions]
  | cons tag tags ih =>
    rw [tagPositions, List.mem_cons] at h
    rcases h with rfl | h
    · exact Nat.le_refl x
    · exact Nat.le_trans (Nat.le_add_right p tag.step) (ih h)

/-- No two tags lie at one place. -/
theorem nodup_tagPositions (p : Nat) (tags : List InfoTag) : (tagPositions p tags).Nodup := by
  induction tags generalizing p with
  | nil => simp [tagPositions]
  | cons tag tags ih =>
    have hstep := tag.eight_le_step
    rw [tagPositions, List.nodup_cons]
    refine ⟨fun hmem => ?_, ih _⟩
    have hle := le_of_mem_tagPositions hmem
    omega

/-- Tags can be moved, and only their own bytes matter. -/
theorem HoldsTag.shift (h : HoldsTag m q tag) (hm : ∀ k, k < tag.size → m' (p + k) = m (q + k)) :
    HoldsTag m' p tag := fun k hk => (hm k hk).trans (h k hk)

theorem TagsAt.shift (h : TagsAt m q tags)
    (hm : ∀ k, k < tagsLength tags + 8 → m' (p + k) = m (q + k)) : TagsAt m' p tags := by
  induction tags generalizing p q with
  | nil =>
    rw [TagsAt] at h ⊢
    rw [← h]
    exact read32_shift fun k hk => hm k (by omega)
  | cons tag tags ih =>
    obtain ⟨htag, hrest⟩ := h
    have hstep := tag.size_le_step
    rw [tagsLength_cons] at hm
    refine ⟨htag.shift fun k hk => hm k (by omega), ih hrest fun k hk => ?_⟩
    rw [Nat.add_assoc, Nat.add_assoc]
    exact hm _ (by omega)

theorem TagsAt.congr (h : TagsAt m p tags)
    (hm : ∀ x, p ≤ x → x < p + tagsLength tags + 8 → m' x = m x) : TagsAt m' p tags :=
  h.shift fun k _ => hm _ (by omega) (by omega)

/-- The memory in which the tags `post` have been moved down over `tag`. -/
def withoutTag (m : Mem) (p : Nat) (pre : List InfoTag) (tag : InfoTag) (post : List InfoTag) : Mem :=
  move m (p + tagsLength pre) tag.step (tagsLength post + 8)

/-- Taking a tag out of a block. -/
theorem TagsAt.without (h : TagsAt m p (pre ++ tag :: post)) :
    TagsAt (withoutTag m p pre tag post) p (pre ++ post) := by
  -- the tags in front stay where they are
  have hmoved : ∀ (front : List InfoTag) (q : Nat), q + tagsLength front = p + tagsLength pre →
      TagsAt m q (front ++ tag :: post) →
      TagsAt (withoutTag m p pre tag post) q (front ++ post) := by
    intro front
    induction front with
    | nil =>
      intro q hq hq'
      refine hq'.2.shift fun k hk => ?_
      rw [show q + tagsLength [] = q from rfl] at hq
      rw [withoutTag, ← hq, move_inside ⟨Nat.le_add_right q k, Nat.add_lt_add_left hk q⟩,
        Nat.add_right_comm]
    | cons first front ih =>
      intro q hq hq'
      have hstep := first.size_le_step
      rw [tagsLength_cons] at hq
      refine ⟨hq'.1.shift fun k hk => ?_, ih (q + first.step) (by omega) hq'.2⟩
      rw [withoutTag, move_outside (by omega)]
  exact hmoved pre p rfl h

/-! ## Every list of tags has a block -/

/-- The tags one behind the other, and an end tag of 8 bytes. -/
def encodeTags : List InfoTag → List (BitVec 8)
  | [] => [0, 0, 0, 0, 8, 0, 0, 0]
  | tag :: rest => tag.bytes ++ encodeTags rest

theorem length_encodeTags (tags : List InfoTag) : (encodeTags tags).length = tagsLength tags + 8 := by
  induction tags with
  | nil => rfl
  | cons tag tags ih =>
    rw [encodeTags, List.length_append, ih, tagsLength_cons, InfoTag.length_bytes, Nat.add_assoc]

theorem tagsAt_of_bytes (h : ∀ k, k < tagsLength tags + 8 → m (p + k) = (encodeTags tags).getD k 0) :
    TagsAt m p tags := by
  induction tags generalizing p with
  | nil =>
    refine read32_zero fun x h1 h2 => ?_
    obtain ⟨k, rfl⟩ : ∃ k, x = p + k := ⟨x - p, by omega⟩
    have hk : k = 0 ∨ k = 1 ∨ k = 2 ∨ k = 3 := by omega
    rw [h k (by omega)]
    rcases hk with rfl | rfl | rfl | rfl <;> rfl
  | cons tag tags ih =>
    have hstep := tag.size_le_step
    have hlen := tag.length_bytes
    rw [tagsLength_cons] at h
    refine ⟨fun k hk => ?_, ih fun k hk => ?_⟩
    · rw [h k (by omega), encodeTags, List.getD_append _ _ _ _ (by omega),
        List.getD_eq_getElem _ _ (by omega)]
      simp [InfoTag.bytes]
    · rw [Nat.add_assoc, h (tag.step + k) (by omega), encodeTags,
        List.getD_append_right _ _ _ _ (by omega), hlen, Nat.add_sub_cancel_left]

/-- A block of memory with the encoded tags holds them. -/
theorem tagsAt_encodeTags (m : Mem) (p : Nat) (tags : List InfoTag) :
    TagsAt (block m p (encodeTags tags)) p tags :=
  tagsAt_of_bytes fun k hk => block_inside _ _ (by rw [length_encodeTags]; exact hk)

end Tags

/-! ## What a tag says -/

namespace InfoTag

variable (tag : InfoTag)

/-- The string behind the header, up to its NUL. -/
def text : List (BitVec 8) := tag.body.take (tag.body.idxOf 0)

def commandLine : Option (List (BitVec 8)) :=
  if tag.kind = MultibootTag.typeCmdLine ∧ tag.text ≠ [] then some tag.text else none

def bootloaderName : Option (List (BitVec 8)) :=
  if tag.kind = MultibootTag.typeBootLoader ∧ tag.text ≠ [] then some tag.text else none

def entryCount : Nat := MultibootTagMmap.entryCount tag.image 0

def ranges : Option (List RangeRecord) :=
  if tag.kind = MultibootTag.typeMemMap then
    some ((List.range tag.entryCount).map (MultibootTagMmap.entryRecord tag.image 0))
  else none

/-- There is no description until a tag gives one. -/
def framebuffer : Option (Option FramebufferInfo) :=
  if tag.kind = MultibootTag.typeFrameBuffer then some (some (framebufferAt tag.image 0)) else none

/-- A tag that is read as a memory map says how large its entries are. -/
def Counts : Prop := tag.kind = MultibootTag.typeMemMap → read32 tag.image 8 ≠ 0

/-- The bytes that the tag is read for are its own: the string ends in it, and the
entries (24 bytes each, as they are read) and the framebuffer's fields fit in it.  A
memory map, type 6 in all 32 bits, says how large its entries are. -/
structure SelfContained : Prop where
  string : tag.kind = MultibootTag.typeCmdLine ∨ tag.kind = MultibootTag.typeBootLoader →
    0 ∈ tag.body
  memoryMap : tag.kind = MultibootTag.typeMemMap → 16 + 24 * tag.entryCount ≤ tag.size
  entrySize : tag.type = 6 → tag.Counts
  framebuffer : tag.kind = MultibootTag.typeFrameBuffer → 29 ≤ tag.size

end InfoTag

/-- What the tags of a block say. -/
structure BootTags where
  commandLine : List (BitVec 8)
  bootloaderName : List (BitVec 8)
  ranges : List RangeRecord
  framebuffer : Option FramebufferInfo
deriving DecidableEq

namespace BootTags

/-- Before any tag has been read. -/
def start : BootTags where
  commandLine := []
  bootloaderName := chars "Unknown"
  ranges := []
  framebuffer := none

/-- What is in force after `tag`. -/
def add (d : BootTags) (tag : InfoTag) : BootTags where
  commandLine := tag.commandLine.getD d.commandLine
  bootloaderName := tag.bootloaderName.getD d.bootloaderName
  ranges := tag.ranges.getD d.ranges
  framebuffer := tag.framebuffer.getD d.framebuffer

theorem foldl_add (d : BootTags) (tags : List InfoTag) : tags.foldl add d =
    { commandLine := latest (tags.map InfoTag.commandLine) d.commandLine
      bootloaderName := latest (tags.map InfoTag.bootloaderName) d.bootloaderName
      ranges := latest (tags.map InfoTag.ranges) d.ranges
      framebuffer := latest (tags.map InfoTag.framebuffer) d.framebuffer } := by
  induction tags generalizing d with
  | nil => rfl
  | cons tag tags ih => rw [List.foldl_cons, ih]; rfl

end BootTags

/-- What a whole block says. -/
def described (tags : List InfoTag) : BootTags := tags.foldl BootTags.add BootTags.start

/-- Of a block `pre ++ tag :: post`, `tag` does not give the `field`, or a later tag
gives it anew, or `tag` repeats what was in force. -/
def Idle {α : Type} (field : InfoTag → Option α) (d : α) (pre : List InfoTag) (tag : InfoTag)
    (post : List InfoTag) : Prop :=
  field tag = none ∨ (∃ later ∈ post, field later ≠ none) ∨
    field tag = some (latest (pre.map field) d)

/-- The tag could as well be missing. -/
structure Superfluous (pre : List InfoTag) (tag : InfoTag) (post : List InfoTag) : Prop where
  commandLine : Idle InfoTag.commandLine BootTags.start.commandLine pre tag post
  bootloaderName : Idle InfoTag.bootloaderName BootTags.start.bootloaderName pre tag post
  ranges : Idle InfoTag.ranges BootTags.start.ranges pre tag post
  framebuffer : Idle InfoTag.framebuffer BootTags.start.framebuffer pre tag post

section Described

variable {pre post : List InfoTag} {tag : InfoTag}

theorem latest_map_erase_iff {α : Type} (field : InfoTag → Option α) (d : α) :
    latest ((pre ++ tag :: post).map field) d = latest ((pre ++ post).map field) d ↔
      Idle field d pre tag post := by
  rw [List.map_append, List.map_cons, List.map_append, latest_erase_iff, Idle]
  simp only [List.mem_map, exists_exists_and_eq_and]

theorem described_erase_iff :
    described (pre ++ tag :: post) = described (pre ++ post) ↔ Superfluous pre tag post := by
  rw [described, described, BootTags.foldl_add, BootTags.foldl_add, BootTags.mk.injEq,
    latest_map_erase_iff, latest_map_erase_iff, latest_map_erase_iff, latest_map_erase_iff]
  constructor
  · intro h
    exact ⟨h.1, h.2.1, h.2.2.1, h.2.2.2⟩
  · intro h
    exact ⟨h.commandLine, h.bootloaderName, h.ranges, h.framebuffer⟩

/-- A tag that the loop does not dispatch on says nothing. -/
theorem superfluous_of_kind (hcmd : tag.kind ≠ MultibootTag.typeCmdLine)
    (hboot : tag.kind ≠ MultibootTag.typeBootLoader) (hmap : tag.kind ≠ MultibootTag.typeMemMap)
    (hframe : tag.kind ≠ MultibootTag.typeFrameBuffer) : Superfluous pre tag post :=
  ⟨Or.inl (if_neg fun h => hcmd h.1), Or.inl (if_neg fun h => hboot h.1), Or.inl (if_neg hmap),
    Or.inl (if_neg hframe)⟩

end Described

end FeralKernel
