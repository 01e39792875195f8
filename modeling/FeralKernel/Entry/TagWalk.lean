import FeralKernel.Entry.KernInit

/-!
# How the walk over the tags ends

The loop of `kern_init` goes on by a size that it rounds up in 32 bits and never
checks.  Over memory that holds end tags from some point on, the walk ends just
when every tag it comes to takes the pointer forward.  Nothing is assumed of where
the block lies: a memory map may be recorded over the tags that are still to come.
-/

namespace FeralKernel

open Verif.Program Verif.Bytes

variable {σ : Type}

/-! ## The tags that the loop comes to -/

/-- From `bound` on there is an end tag at every multiple of 8.  A physical address
has at most 52 bits. -/
structure TagImage (m : Mem) (bound : Nat) : Prop where
  low : bound ≤ 2 ^ 52
  ended : ∀ p, bound ≤ p → 8 ∣ p → read32 m p = MultibootTag.typeEnd

/-- The walk from `first` comes to `tag` and the memory is then `m`. -/
inductive TagReached (kernelEnd : Ptr) (m₀ : Mem) (first : Ptr) : Ptr → Mem → Prop where
  | first : TagReached kernelEnd m₀ first first m₀
  | next {tag : Ptr} {m : Mem} : TagReached kernelEnd m₀ first tag m →
      read32 m tag.toNat ≠ MultibootTag.typeEnd →
      TagReached kernelEnd m₀ first (nextTag (tagHandled kernelEnd m tag) tag)
        (tagHandled kernelEnd m tag)

/-- The tag at `tag` can be handled, and its size takes the pointer forward. -/
def TagAdvances (kernelEnd : Ptr) (m : Mem) (tag : Ptr) : Prop :=
  (tagKind m tag = MultibootTag.typeMemMap → read32 m (tag.toNat + 8) ≠ 0) ∧
  SizeFits (read32 (tagHandled kernelEnd m tag) (tag.toNat + 4))

/-- Every iteration moves the pointer forward by a positive multiple of 8, and the
loop comes to its end. -/
def WalkForward (kernelEnd : Ptr) (mbInfo : BitVec 32) (s : Machine σ) : Prop :=
  Returns (readTags kernelEnd mbInfo) s (fun _ _ => True) ∧
  ∀ init t, Rounds (tagRound kernelEnd) (KernInit.start mbInfo) s init t →
    Ensures (tagRound kernelEnd init) t fun r _ => ∀ init', r = .inr init' →
      ∃ k, 0 < k ∧ init'.multibootInfo.toNat = init.multibootInfo.toNat + 8 * k

/-! ## What the walk keeps -/

/-- Behind this point no byte of the image is ever written. -/
def walkTop (kernelEnd : Ptr) (bound : Nat) : Nat := bound + kernelEnd.toNat + 8 + 24 * 2 ^ 32

/-- The walk over `m₀` is at `tag` in memory `m`. -/
structure WalkState (kernelEnd : Ptr) (bound : Nat) (m₀ : Mem) (tag : Ptr) (m : Mem) : Prop where
  aligned : 8 ∣ tag.toNat
  low : tag.toNat ≤ walkTop kernelEnd bound + 2 ^ 32
  above : ∀ x, walkTop kernelEnd bound ≤ x → m x = m₀ x

section Walk

variable {kernelEnd tag : Ptr} {bound : Nat} {m₀ m : Mem}

theorem tagHandled_above {x : Nat} (hx : walkTop kernelEnd bound ≤ x) :
    tagHandled kernelEnd m tag x = m x := by
  have hcount := MultibootTagMmap.entryCount_lt m tag
  rw [walkTop] at hx
  rw [tagHandled]
  split
  · exact mapWritten_outside (by omega)
  · rfl

namespace WalkState

theorem ended (h : WalkState kernelEnd bound m₀ tag m) (himage : TagImage m₀ bound) {p : Nat}
    (hp : walkTop kernelEnd bound ≤ p) (hdvd : 8 ∣ p) : read32 m p = MultibootTag.typeEnd := by
  have hbound : bound ≤ p := by
    rw [walkTop] at hp
    omega
  rw [← himage.ended p hbound hdvd]
  exact read32_congr fun x h1 _ => h.above x (by omega)

theorem low_60 (h : WalkState kernelEnd bound m₀ tag m) (himage : TagImage m₀ bound)
    (hend : kernelEnd.toNat + 8 ≤ 2 ^ 32) : tag.toNat ≤ 2 ^ 60 := by
  have hlow := h.low
  have hbound := himage.low
  rw [walkTop] at hlow
  omega

/-- Some NUL follows every tag, in an end tag if nowhere before. -/
theorem text (h : WalkState kernelEnd bound m₀ tag m) (himage : TagImage m₀ bound)
    (hend : kernelEnd.toNat + 8 ≤ 2 ^ 32) :
    ∃ text, CString m (MultibootTag.string tag) text := by
  have hlow := h.low_60 himage hend
  have hbound := himage.low
  have hdvd := h.aligned
  have htop : walkTop kernelEnd bound ≤ 2 ^ 54 := by
    rw [walkTop]
    omega
  have hnul : m (tag.toNat + 8 + 8 * walkTop kernelEnd bound) = 0 := by
    rw [← setWidth_read32 m, h.ended himage (by omega) (by omega)]
    rfl
  refine CString.exists_of_nul (MultibootTag.string_ne_zero hlow) (k := 8 * walkTop kernelEnd bound) (by omega) ?_
  rw [MultibootTag.string, BitVec.add_assoc, show (8#64) = BitVec.ofNat 64 8 from rfl,
    ← BitVec.ofNat_add, phys_low hlow (by omega), ← Nat.add_assoc]
  exact hnul

theorem next (h : WalkState kernelEnd bound m₀ tag m) (himage : TagImage m₀ bound)
    (hend : kernelEnd.toNat + 8 ≤ 2 ^ 32) (htype : read32 m tag.toNat ≠ MultibootTag.typeEnd) :
    WalkState kernelEnd bound m₀ (nextTag (tagHandled kernelEnd m tag) tag)
      (tagHandled kernelEnd m tag) := by
  have hlow := h.low_60 himage hend
  have hdvd := h.aligned
  have hbelow : tag.toNat < walkTop kernelEnd bound := by
    by_contra hge
    exact htype (h.ended himage (by omega) hdvd)
  have hnext := toNat_nextTag (m := tagHandled kernelEnd m tag) hlow
  have hstep := (tagStep (read32 (tagHandled kernelEnd m tag) (tag.toNat + 4))).isLt
  have hround := toNat_tagStep (read32 (tagHandled kernelEnd m tag) (tag.toNat + 4))
  refine ⟨?_, ?_, fun x hx => ?_⟩
  · rw [hnext, hround]
    omega
  · omega
  · rw [tagHandled_above hx, h.above x hx]

end WalkState

theorem TagReached.walkState {first : Ptr} (h : TagReached kernelEnd m₀ first tag m)
    (himage : TagImage m₀ bound) (hend : kernelEnd.toNat + 8 ≤ 2 ^ 32)
    (hfirst : 8 ∣ first.toNat) (hlow : first.toNat ≤ 2 ^ 32) :
    WalkState kernelEnd bound m₀ tag m := by
  induction h with
  | first => exact ⟨hfirst, by omega, fun _ _ => rfl⟩
  | next _ htype ih => exact ih.next himage hend htype

end Walk

/-! ## One round of the loop -/

section Rounds

variable {kernelEnd : Ptr} {bound : Nat} {m₀ : Mem} {init : KernInit} {s : Machine σ}

/-- A round that goes on makes one step of the walk. -/
theorem WalkState.round (h : WalkState kernelEnd bound m₀ init.multibootInfo s.mem)
    (himage : TagImage m₀ bound) (hend : kernelEnd.toNat + 8 ≤ 2 ^ 32)
    (htype : read32 s.mem init.multibootInfo.toNat ≠ MultibootTag.typeEnd)
    (hentry : tagKind s.mem init.multibootInfo = MultibootTag.typeMemMap →
      read32 s.mem (init.multibootInfo.toNat + 8) ≠ 0) :
    Returns (tagRound kernelEnd init) s fun r t => ∃ init', r = .inr init' ∧
      t.mem = tagHandled kernelEnd s.mem init.multibootInfo ∧
      init'.multibootInfo = nextTag t.mem init.multibootInfo := by
  obtain ⟨text, htext⟩ := h.text himage hend
  apply (tagRound_next (h.low_60 himage hend) hend htype (fun _ => htext) hentry).mono
  intro r t ht
  obtain ⟨init', hhandled, rfl⟩ := ht
  exact ⟨_, rfl, hhandled.mem, rfl⟩

/-- The pointer moves forward by the rounded size. -/
theorem tagStep_forward {tag : Ptr} {m : Mem} (hlow : tag.toNat ≤ 2 ^ 60) :
    (∃ k, 0 < k ∧ (nextTag m tag).toNat = tag.toNat + 8 * k) ↔
      SizeFits (read32 m (tag.toNat + 4)) := by
  have hround := toNat_tagStep (read32 m (tag.toNat + 4))
  rw [toNat_nextTag hlow, ← tagStep_pos_iff]
  constructor
  · intro h
    obtain ⟨k, hk, he⟩ := h
    omega
  · intro h
    exact ⟨(tagStep (read32 m (tag.toNat + 4))).toNat / 8, by omega, by omega⟩

end Rounds

/-! ## When the loop ends -/

section Loop

variable {kernelEnd : Ptr} {bound : Nat} {mbInfo : BitVec 32} {s : Machine σ}

theorem toNat_firstTag_le (mbInfo : BitVec 32) : (firstTag mbInfo).toNat ≤ 2 ^ 32 := by
  have hlt := (mbInfo + 8).isLt
  rw [firstTag, BitVec.toNat_setWidth]
  omega

theorem dvd_toNat_firstTag (haligned : 8 ∣ mbInfo.toNat) : 8 ∣ (firstTag mbInfo).toNat := by
  rw [firstTag, BitVec.toNat_setWidth, BitVec.toNat_add, show (8 : BitVec 32).toNat = 8 from rfl]
  omega

/-- In a walk that moves forward, every tag of the walk is the head of a round, and
it advances. -/
theorem WalkForward.advances (hwalk : WalkForward kernelEnd mbInfo s)
    (himage : TagImage s.mem bound) (hend : kernelEnd.toNat + 8 ≤ 2 ^ 32)
    (haligned : 8 ∣ mbInfo.toNat) {tag : Ptr} {m : Mem}
    (hreached : TagReached kernelEnd s.mem (firstTag mbInfo) tag m) :
    (∃ init t, Rounds (tagRound kernelEnd) (KernInit.start mbInfo) s init t ∧
      init.multibootInfo = tag ∧ t.mem = m) ∧
    (read32 m tag.toNat ≠ MultibootTag.typeEnd → TagAdvances kernelEnd m tag) := by
  obtain ⟨hloop, hforward⟩ := hwalk
  have hround : ∀ init t, TagReached kernelEnd s.mem (firstTag mbInfo) init.multibootInfo t.mem →
      Rounds (tagRound kernelEnd) (KernInit.start mbInfo) s init t →
      read32 t.mem init.multibootInfo.toNat ≠ MultibootTag.typeEnd →
      TagAdvances kernelEnd t.mem init.multibootInfo ∧
      ∃ init' u, Rounds (tagRound kernelEnd) (KernInit.start mbInfo) s init' u ∧
        init'.multibootInfo = nextTag u.mem init.multibootInfo ∧
        u.mem = tagHandled kernelEnd t.mem init.multibootInfo := by
    intro init t hr hhead htype
    have hstate := hr.walkState himage hend (dvd_toNat_firstTag haligned) (toNat_firstTag_le _)
    have hlow := hstate.low_60 himage hend
    have hentry := tagRound_entrySize hlow htype (hhead.returns hloop)
    obtain ⟨r, u, he, init', rfl, hm, hnext⟩ := hstate.round himage hend htype hentry
    have hsize := hforward init t hhead _ u he init' rfl
    rw [hnext, tagStep_forward hlow, hm] at hsize
    exact ⟨⟨hentry, hsize⟩, init', u, hhead.next he, hnext, hm⟩
  have hhead : ∃ init t, Rounds (tagRound kernelEnd) (KernInit.start mbInfo) s init t ∧
      init.multibootInfo = tag ∧ t.mem = m := by
    induction hreached with
    | first => exact ⟨_, s, .first, rfl, rfl⟩
    | next hr htype ih =>
      obtain ⟨init, t, hhead, rfl, rfl⟩ := ih
      obtain ⟨-, init', u, hhead', hnext, hm⟩ := hround init t hr hhead htype
      rw [hm] at hnext
      exact ⟨init', u, hhead', hnext, hm⟩
  refine ⟨hhead, fun htype => ?_⟩
  obtain ⟨init, t, hrounds, rfl, rfl⟩ := hhead
  exact (hround init t hreached hrounds htype).1

/-- A round from a tag of the walk ends the loop or makes the next step. -/
theorem TagReached.round {init : KernInit} {t : Machine σ}
    (hreached : TagReached kernelEnd s.mem (firstTag mbInfo) init.multibootInfo t.mem)
    (himage : TagImage s.mem bound) (hend : kernelEnd.toNat + 8 ≤ 2 ^ 32)
    (haligned : 8 ∣ mbInfo.toNat)
    (hadvances : read32 t.mem init.multibootInfo.toNat ≠ MultibootTag.typeEnd →
      TagAdvances kernelEnd t.mem init.multibootInfo) :
    Returns (tagRound kernelEnd init) t fun r u => r = .inl init ∨
      ∃ init', r = .inr init' ∧
        TagReached kernelEnd s.mem (firstTag mbInfo) init'.multibootInfo u.mem ∧
        ∃ k, 0 < k ∧ init'.multibootInfo.toNat = init.multibootInfo.toNat + 8 * k := by
  have hstate := hreached.walkState himage hend (dvd_toNat_firstTag haligned)
    (toNat_firstTag_le _)
  have hlow := hstate.low_60 himage hend
  by_cases htype : read32 t.mem init.multibootInfo.toNat = MultibootTag.typeEnd
  · exact (tagRound_last hlow htype).mono fun r u hr => Or.inl hr.1
  · obtain ⟨hentry, hsize⟩ := hadvances htype
    apply (hstate.round himage hend htype hentry).mono
    intro r u hu
    obtain ⟨init', rfl, hm, hnext⟩ := hu
    refine Or.inr ⟨init', rfl, ?_, ?_⟩
    · rw [hnext, hm]
      exact hreached.next htype
    · rw [hnext, tagStep_forward hlow, hm]
      exact hsize

/-- The walk ends just when every tag it comes to advances. -/
theorem readTags_forward_iff (himage : TagImage s.mem bound) (hend : kernelEnd.toNat + 8 ≤ 2 ^ 32)
    (haligned : 8 ∣ mbInfo.toNat) :
    WalkForward kernelEnd mbInfo s ↔ ∀ tag m,
      TagReached kernelEnd s.mem (firstTag mbInfo) tag m →
      read32 m tag.toNat ≠ MultibootTag.typeEnd → TagAdvances kernelEnd m tag := by
  constructor
  · intro hwalk tag m hreached
    exact (hwalk.advances himage hend haligned hreached).2
  · intro hall
    refine ⟨?_, fun init t hrounds => ?_⟩
    · have hbound := himage.low
      refine returns_iterate (fun k init t => k = walkTop kernelEnd bound + 2 ^ 32 -
          init.multibootInfo.toNat ∧
        TagReached kernelEnd s.mem (firstTag mbInfo) init.multibootInfo t.mem) ?_ loopBound _
        (KernInit.start mbInfo) s ?_ ⟨rfl, .first⟩
      · intro k init t hI
        obtain ⟨rfl, hreached⟩ := hI
        have hstate := hreached.walkState himage hend (dvd_toNat_firstTag haligned)
          (toNat_firstTag_le _)
        apply (hreached.round himage hend haligned (hall _ _ hreached)).mono
        intro r u hr
        rcases hr with rfl | ⟨init', rfl, hreached', k, hk, hforward⟩
        · trivial
        · have hlow := (hreached'.walkState himage hend (dvd_toNat_firstTag haligned)
            (toNat_firstTag_le _)).low
          exact ⟨_, by omega, rfl, hreached'⟩
      · rw [walkTop, loopBound]
        omega
    · -- the heads of the loop are the tags of the walk
      have hreached := hrounds.invariant
        (fun init t => TagReached kernelEnd s.mem (firstTag mbInfo) init.multibootInfo t.mem) .first
        (fun init t hI => (hI.round himage hend haligned (hall _ _ hI)).ensures.mono
          fun r u hr init' he => by
            rcases hr with rfl | ⟨init'', rfl, hreached', -⟩
            · cases he
            · cases he
              exact hreached')
      refine (hreached.round himage hend haligned (hall _ _ hreached)).ensures.mono ?_
      intro r u hr init' he
      rcases hr with rfl | ⟨init'', rfl, -, hforward⟩
      · cases he
      · cases he
        exact hforward

end Loop

/-! ## Two blocks at 320 KiB -/

/-- One tag of type 3 with a size of `size`, and end tags everywhere behind it. -/
def oneTag (size : BitVec 32) : Machine MmStatics :=
  { coldMachine with mem := write32 (write32 coldMachine.mem 0x50008 3) 0x5000C size }

theorem oneTag_image (size : BitVec 32) : TagImage (oneTag size).mem 0x50010 := by
  refine ⟨by decide, fun p hp _ => read32_zero fun x h1 _ => ?_⟩
  show write32 (write32 coldMachine.mem 0x50008 3) 0x5000C size x = 0
  rw [write32_outside (by omega), write32_outside (by omega)]
  rfl

theorem oneTag_type (size : BitVec 32) :
    read32 (oneTag size).mem (firstTag 0x50000).toNat = 3 := by
  show read32 (write32 (write32 coldMachine.mem 0x50008 3) 0x5000C size) 0x50008 = 3
  rw [read32_write32_outside (by omega), read32_write32_same]

theorem oneTag_handled (kernelEnd : Ptr) (size : BitVec 32) :
    tagHandled kernelEnd (oneTag size).mem (firstTag 0x50000) = (oneTag size).mem := by
  have hkind : tagKind (oneTag size).mem (firstTag 0x50000) ≠ MultibootTag.typeMemMap := by
    rw [tagKind, oneTag_type]
    decide
  exact if_neg hkind

theorem oneTag_size (size : BitVec 32) :
    read32 (oneTag size).mem ((firstTag 0x50000).toNat + 4) = size :=
  read32_write32_same _ _ _

/-- A tag of 16 bytes is passed over. -/
theorem readTags_forward_iff_oneTag : WalkForward 0x180000 0x50000 (oneTag 16) := by
  refine (readTags_forward_iff (oneTag_image 16) (by decide) (by decide)).mpr ?_
  have hnext : nextTag (oneTag 16).mem (firstTag 0x50000) = 0x50018 := by
    rw [nextTag, oneTag_size]
    decide
  have hvisited : ∀ tag m, TagReached 0x180000 (oneTag 16).mem (firstTag 0x50000) tag m →
      m = (oneTag 16).mem ∧ (tag = firstTag 0x50000 ∨ tag = 0x50018) := by
    intro tag m hreached
    induction hreached with
    | first => exact ⟨rfl, Or.inl rfl⟩
    | next _ htype ih =>
      obtain ⟨rfl, rfl | rfl⟩ := ih
      · rw [oneTag_handled, hnext]
        exact ⟨rfl, Or.inr rfl⟩
      · exact absurd ((oneTag_image 16).ended 0x50018 (by decide) (by decide)) htype
  intro tag m hreached htype
  obtain ⟨rfl, rfl | rfl⟩ := hvisited tag m hreached
  · refine ⟨fun hkind => ?_, ?_⟩
    · rw [tagKind, oneTag_type] at hkind
      exact absurd hkind (by decide)
    · rw [oneTag_handled, oneTag_size]
      decide
  · exact absurd ((oneTag_image 16).ended 0x50018 (by decide) (by decide)) htype

/-- At a tag of size zero the pointer stays where it is. -/
theorem emptyTag_not_forward : ¬ WalkForward 0x180000 0x50000 (oneTag 0) := by
  intro hwalk
  obtain ⟨-, hadvances⟩ := hwalk.advances (oneTag_image 0) (by decide) (by decide) .first
  obtain ⟨-, hsize⟩ := hadvances (by rw [oneTag_type]; decide)
  rw [oneTag_handled, oneTag_size] at hsize
  exact absurd hsize (by decide)

end FeralKernel
