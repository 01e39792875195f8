import FeralKernel.Paging.AllocPages

/-!
# Allocating a range of pages

What `MmKernelAllocPages` is for: on success page `i` of the virtual range is mapped
to frame `i` of the physical one and no other page has changed, and a free range can
be had.  The second half fails for every longer range, and for a page that the slip of
`x86ValidateVirtualAddress` takes for used.  The first half holds for the one page that
can be had, if its entry can hold the frame and nothing is left over in it.
-/

namespace FeralKernel

open Verif.Program Verif.Bytes Verif

variable {κ : Type}

/-! ## Ranges -/

/-- The address is in one of the `n` pages from `v` up, as far as the processor's walk
can tell: it looks at bits 12 to 47. -/
def InRange (v : Ptr) (n : Nat) (w : Ptr) : Prop := ∃ i, i < n ∧ SamePage (pageAt v i) w

/-- Bits 47 to 63 are equal. -/
def Canonical (v : Ptr) : Prop := v.toNat < 2 ^ 47 ∨ 2 ^ 64 - 2 ^ 47 ≤ v.toNat

theorem toNat_pageAt {v : Ptr} {i n : Nat} (hi : i < n) (hwrap : v.toNat + 4096 * n ≤ 2 ^ 64) :
    (pageAt v i).toNat = v.toNat + 4096 * i := by
  rw [pageAt, BitVec.toNat_add, BitVec.toNat_mul, BitVec.toNat_ofNat,
    show (4096 : BitVec 64).toNat = 4096 from rfl]
  omega

theorem SamePage.of_canonical {v w : Ptr} (h : SamePage v w) (hv : Canonical v)
    (hw : Canonical w) : v.toNat / 4096 = w.toNat / 4096 := by
  have hnat := congrArg BitVec.toNat h
  rw [BitVec.extractLsb'_toNat, BitVec.extractLsb'_toNat, Nat.shiftRight_eq_div_pow,
    Nat.shiftRight_eq_div_pow] at hnat
  unfold Canonical at hv hw
  omega

/-- Among canonical addresses the range is what its bounds say. -/
theorem not_inRange_of_outside {v w : Ptr} {n : Nat} (hv : v.toNat % 4096 = 0)
    (hwrap : v.toNat + 4096 * n ≤ 2 ^ 64) (hpages : ∀ i, i < n → Canonical (pageAt v i))
    (hw : Canonical w) (hout : w.toNat < v.toNat ∨ v.toNat + 4096 * n ≤ w.toNat) :
    ¬ InRange v n w := by
  intro hin
  obtain ⟨i, hi, hsame⟩ := hin
  have hpage := hsame.of_canonical (hpages i hi) hw
  rw [toNat_pageAt hi hwrap] at hpage
  omega

/-! ## What a call promises -/

/-- The range from `v` has become the range of frames from `p`, and nothing else has
changed. -/
structure RangeMapped (pml4 : Ptr) (n : Nat) (p v : Ptr) (s t : Machine MmStatics) : Prop where
  pages : ∀ i, i < n →
    (translate t.mem (phys pml4) (pageAt v i)).map Translation.address = some (pageAt p i)
  rest : ∀ w, ¬ InRange v n w →
    translate t.mem (phys pml4) w = translate s.mem (phys pml4) w

/-- The addresses outside the range, by its bounds. -/
theorem RangeMapped.outside {pml4 p v : Ptr} {n : Nat} {s t : Machine MmStatics}
    (h : RangeMapped pml4 n p v s t) (hv : v.toNat % 4096 = 0)
    (hwrap : v.toNat + 4096 * n ≤ 2 ^ 64) (hpages : ∀ i, i < n → Canonical (pageAt v i)) {w : Ptr}
    (hw : Canonical w) (hout : w.toNat < v.toNat ∨ v.toNat + 4096 * n ≤ w.toNat) :
    translate t.mem (phys pml4) w = translate s.mem (phys pml4) w :=
  h.rest w (not_inRange_of_outside hv hwrap hpages hw hout)

/-- No page of the range is mapped. -/
def RangeUnmapped (pml4 : Ptr) (n : Nat) (v : Ptr) (s : Machine MmStatics) : Prop :=
  ∀ i, i < n → translate s.mem (phys pml4) (pageAt v i) = none

/-- The promise of a call that ends in `t` with `r`. -/
structure AllocatesRange (pml4 : Ptr) (pages : BitVec 64) (p v : Ptr) (s : Machine MmStatics)
    (r : FeralStatus × Option Ptr) (t : Machine MmStatics) : Prop where
  mapped : r.1 = .success → r.2 = some v ∧ RangeMapped pml4 pages.toNat p v s t
  available : FramesFree s pages p → RangeUnmapped pml4 pages.toNat v s → r.1 = .success

/-! ## The mapping loop on any tables -/

section Alloc

variable {malloc : BitVec 64 → Kern MmStatics Ptr} {owned : Nat → Prop} {view : MmStatics → κ}
  {pml4 : Ptr} {s t u : Machine MmStatics} {p v : Ptr}

/-- Tables without huge pages, which may hold anything else. -/
structure SmallTables (pml4 : Ptr) (s : Machine MmStatics) : Prop where
  tables : TablesAt pml4 s
  noHuge : NoHuge (phys pml4) s.mem

/-- The page of `v` has been added to the tables, and no other. -/
structure PageAdded (pml4 : Ptr) (p v : Ptr) (s t : Machine MmStatics) : Prop where
  unmapped : leafEntry s.mem (phys pml4) v = none
  small : SmallTables pml4 t
  way : WayClear (phys pml4) t.mem v
  keeps : ∀ q j e, q.length ≤ 3 →
    Radix.lookup childTable (entries s.mem) (phys pml4) q j = some e →
      Radix.lookup childTable (entries t.mem) (phys pml4) q j = some e
  leaf : ∀ w, leafEntry t.mem (phys pml4) w = if SamePage v w
    then some (PageMapEntry.linkInto (leafWord s.mem (phys pml4) v) p)
    else leafEntry s.mem (phys pml4) w

/-- What `n` rounds of the third loop have done, by how they end. -/
inductive LoopOutcome (pml4 : Ptr) (n : Nat) (p v : Ptr) (s t : Machine MmStatics) :
    FeralStatus ⊕ Unit → Prop where
  | none : n = 0 → LoopOutcome pml4 n p v s t (.inr ())
  | used : (leafEntry s.mem (phys pml4) v).isSome →
      LoopOutcome pml4 n p v s t (.inl .memoryPageFailure)
  | one : n = 1 → PageAdded pml4 p v s t → LoopOutcome pml4 n p v s t (.inr ())
  | part : 2 ≤ n → LoopOutcome pml4 n p v s t (.inl .memoryPageFailure)

/-- One round of the loop. -/
theorem mapPages_round (hmalloc : TableAllocator malloc owned view) (hpml4 : Spans pml4 4096)
    (p v : Ptr) (s : Machine MmStatics) :
    Returns (do
      let status ← x86MapAddress malloc pml4 p v
      if status ≠ .success then pure (.inl status) else pure (.inr ())) s
      fun (r : FeralStatus ⊕ Unit) t => Extends view s t ∧
        (FreshTables pml4 owned (linked t.log) → SmallTables pml4 s →
          WayClear (phys pml4) s.mem v →
          leafEntry s.mem (phys pml4) v = none ∧ r = .inr () ∧ PageAdded pml4 p v s t ∨
          (leafEntry s.mem (phys pml4) v).isSome ∧ r = .inl .memoryPageFailure) := by
  apply (x86MapAddress_effect hmalloc hpml4 p v).bind
  intro status t ht
  obtain ⟨hext, hout⟩ := ht
  have hcases : FreshTables pml4 owned (linked t.log) → SmallTables pml4 s →
      WayClear (phys pml4) s.mem v →
      leafEntry s.mem (phys pml4) v = none ∧ status = .success ∧ PageAdded pml4 p v s t ∨
      (leafEntry s.mem (phys pml4) v).isSome ∧ status = .memoryPageFailure := by
    intro hfresh hsmall hway
    have h := hout hfresh hsmall.tables hway
    cases hleaf : leafEntry s.mem (phys pml4) v with
    | none =>
      obtain ⟨hst, hleaves, -⟩ := h.mapped hleaf
      exact Or.inl ⟨rfl, hst, hleaf, ⟨h.tables, h.noHuge hsmall.noHuge⟩, h.way, h.keeps, hleaves⟩
    | some e => exact Or.inr ⟨rfl, (h.failed (by rw [hleaf]; rfl)).1⟩
  by_cases hst : status = .success
  · rw [if_neg (not_not_intro hst), returns_pure]
    refine ⟨hext, fun hfresh hsmall hway => ?_⟩
    rcases hcases hfresh hsmall hway with ⟨hleaf, -, hadded⟩ | ⟨-, hfail⟩
    · exact Or.inl ⟨hleaf, rfl, hadded⟩
    · rw [hfail] at hst
      cases hst
  · rw [if_pos hst, returns_pure]
    refine ⟨hext, fun hfresh hsmall hway => ?_⟩
    rcases hcases hfresh hsmall hway with ⟨-, hsucc, -⟩ | ⟨hsome, hfail⟩
    · exact absurd hsucc hst
    · exact Or.inr ⟨hsome, by rw [hfail]⟩

/-- The state before round `i`. -/
def LoopRound (pml4 p v : Ptr) (s : Machine MmStatics) (i : Nat) (t : Machine MmStatics) : Prop :=
  i = 0 ∧ t = s ∨ i = 1 ∧ PageAdded pml4 p v s t

theorem PageAdded.isSome (h : PageAdded pml4 p v s t) :
    (leafEntry t.mem (phys pml4) v).isSome := by
  rw [h.leaf v, if_pos (SamePage.refl v)]
  rfl

theorem mapPages_loop (hmalloc : TableAllocator malloc owned view) (hpml4 : Spans pml4 4096)
    (pages : BitVec 64) (p v : Ptr) (s : Machine MmStatics) :
    Returns (mapPages malloc pages pml4 p v) s fun r t =>
      Extends view s t ∧
      (FreshTables pml4 owned (linked t.log) → SmallTables pml4 s →
        WayClear (phys pml4) s.mem v → LoopOutcome pml4 pages.toNat p v s t r) := by
  apply returns_forCount (fun i _ t => Extends view s t ∧
    (FreshTables pml4 owned (linked t.log) → SmallTables pml4 s → WayClear (phys pml4) s.mem v →
      LoopRound pml4 p v s i t)) pages.toNat _ _ pages.toNat 0 () s (by omega)
  · exact ⟨Extends.refl view s, fun _ _ _ => Or.inl ⟨rfl, rfl⟩⟩
  · intro i _ t hi ht
    obtain ⟨hext, hround⟩ := ht
    apply (mapPages_round hmalloc hpml4 p v t).mono
    intro r u hu
    obtain ⟨hext', hout⟩ := hu
    have hstep : FreshTables pml4 owned (linked u.log) → SmallTables pml4 s →
        WayClear (phys pml4) s.mem v →
        r = .inr () ∧ LoopRound pml4 p v s (i + 1) u ∨
        r = .inl .memoryPageFailure ∧
          LoopOutcome pml4 pages.toNat p v s u (.inl .memoryPageFailure) := by
      intro hfresh hsmall hway
      rcases hround (hfresh.of_suffix hext'.suffix) hsmall hway with ⟨rfl, rfl⟩ | ⟨rfl, hadded⟩
      · rcases hout hfresh hsmall hway with ⟨-, hr, hadded⟩ | ⟨hsome, hr⟩
        · exact Or.inl ⟨hr, Or.inr ⟨rfl, hadded⟩⟩
        · exact Or.inr ⟨hr, .used hsome⟩
      · -- the second round finds the page that the first one has mapped
        rcases hout hfresh hadded.small hadded.way with ⟨hnone, -⟩ | ⟨-, hr⟩
        · have hsome := hadded.isSome
          rw [hnone] at hsome
          cases hsome
        · exact Or.inr ⟨hr, .part (by omega)⟩
    cases r with
    | inl status =>
      refine ⟨hext.trans hext', fun hfresh hsmall hway => ?_⟩
      rcases hstep hfresh hsmall hway with ⟨hr, -⟩ | ⟨hr, hpart⟩
      · cases hr
      · cases hr
        exact hpart
    | inr b =>
      refine ⟨hext.trans hext', fun hfresh hsmall hway => ?_⟩
      rcases hstep hfresh hsmall hway with ⟨-, hnext⟩ | ⟨hr, -⟩
      · exact hnext
      · cases hr
  · intro _ t ht
    obtain ⟨hext, hround⟩ := ht
    refine ⟨hext, fun hfresh hsmall hway => ?_⟩
    rcases hround hfresh hsmall hway with ⟨hn, -⟩ | ⟨hn, hadded⟩
    · exact .none hn
    · exact .one hn hadded

/-- What a call has done, by what it returns. -/
inductive RangeOutcome (pml4 : Ptr) (pages : BitVec 64) (p v : Ptr) (s t : Machine MmStatics) :
    FeralStatus × Option Ptr → Prop where
  | conflict : ¬ (FramesFree s pages p ∧ PagesFree s pages pml4 v) →
      RangeOutcome pml4 pages p v s t (.memoryPageConflict, none)
  | failed : LoopOutcome pml4 pages.toNat p v s t (.inl .memoryPageFailure) →
      RangeOutcome pml4 pages p v s t (.memoryPageFailure, none)
  | done : FramesFree s pages p → PagesFree s pages pml4 v →
      LoopOutcome pml4 pages.toNat p v s t (.inr ()) →
      RangeOutcome pml4 pages p v s t (.success, some v)

theorem PageAdded.of_unwritten (h : Unwritten s t) (hadded : PageAdded pml4 p v t u) :
    PageAdded pml4 p v s u := by
  obtain ⟨hunmapped, hsmall, hway, hkeeps, hleaf⟩ := hadded
  rw [h.1] at hunmapped hkeeps hleaf
  exact ⟨hunmapped, hsmall, hway, hkeeps, hleaf⟩

theorem LoopOutcome.of_unwritten {n : Nat} {r : FeralStatus ⊕ Unit} (h : Unwritten s t)
    (hout : LoopOutcome pml4 n p v t u r) : LoopOutcome pml4 n p v s u r := by
  cases hout with
  | none hn => exact .none hn
  | used hsome =>
    rw [h.1] at hsome
    exact .used hsome
  | one hn hadded => exact .one hn (hadded.of_unwritten h)
  | part hn => exact .part hn

theorem mmKernelAllocPages_outcome (hmalloc : TableAllocator malloc owned view)
    (hpml4 : Spans pml4 4096) (pages : BitVec 64) (baseAddr baseVAddr : Ptr)
    (s : Machine MmStatics) (hdiv : s.statics.mmState.pAllocInfo.Divides) :
    Returns (mmKernelAllocPages malloc pages pml4 baseAddr baseVAddr) s fun r t =>
      FreshTables pml4 owned (linked t.log) → SmallTables pml4 s →
        (FramesFree s pages baseAddr → PagesFree s pages pml4 (virtualBase baseAddr baseVAddr) →
          WayClear (phys pml4) s.mem (virtualBase baseAddr baseVAddr)) →
        RangeOutcome pml4 pages baseAddr (virtualBase baseAddr baseVAddr) s t r := by
  apply mmKernelAllocPages_of_loop hdiv
  · intro t _ hused
    exact fun _ _ _ => .conflict hused
  · intro t ht hframes hpages
    generalize virtualBase baseAddr baseVAddr = v at *
    apply (mapPages_loop hmalloc hpml4 pages baseAddr v t).mono
    intro r u hu
    obtain ⟨-, hout⟩ := hu
    intro hfresh hsmall hway
    have hsmall' : SmallTables pml4 t := by
      obtain ⟨htables, hnoHuge⟩ := hsmall
      rw [← ht.1] at hnoHuge
      refine ⟨?_, hnoHuge⟩
      rw [TablesAt, ht.1, ht.2.2]
      exact htables
    have hloop := (hout hfresh hsmall' (by rw [ht.1]; exact hway hframes hpages)).of_unwritten ht
    cases hloop with
    | none hn => exact .done hframes hpages (.none hn)
    | used hsome => exact .failed (.used hsome)
    | one hn hadded => exact .done hframes hpages (.one hn hadded)
    | part hn => exact .failed (.part hn)

/-! ## When the promise is kept -/

/-- The kind of call that breaks the promise: the range is free, and it has several
pages or its first one is reported used. -/
structure RangeRefused (pml4 : Ptr) (pages : BitVec 64) (p v : Ptr) (s : Machine MmStatics) :
    Prop where
  frames : FramesFree s pages p
  unmapped : RangeUnmapped pml4 pages.toNat v s
  cause : 2 ≤ pages.toNat ∨ (validated s.mem pml4 v).2 = some true

/-- The entry of the page of `v` can hold `p` and will hold nothing else: `p` has no bit from
52 up, and an address left over in the entry has none but those of `p`. -/
def FrameFits (m : Mem) (root : Nat) (p v : Ptr) : Prop :=
  p.toNat < 2 ^ 52 ∧ frameBits (leafWord m root v) ||| p = p

/-- A call that keeps its promise: it does not refuse a free range, the way to `v` is clear
if it comes to map, and the entry of a single page takes the frame. -/
structure RangeFits (pml4 : Ptr) (pages : BitVec 64) (p v : Ptr) (s : Machine MmStatics) :
    Prop where
  granted : ¬ RangeRefused pml4 pages p v s
  way : FramesFree s pages p → PagesFree s pages pml4 v → WayClear (phys pml4) s.mem v
  frame : pages.toNat = 1 → AllocReady pml4 pages p v s → FrameFits s.mem (phys pml4) p v

/-- What the entry holds after the frame has been ORed into it. -/
theorem frameFits_iff {m : Mem} {root : Nat} (hp : p.toNat % 4096 = 0) :
    FrameFits m root p v ↔
      frameBits (PageMapEntry.linkInto (leafWord m root v) p) = p := by
  rw [FrameFits, PageMapEntry.frameBits_linkInto]
  constructor
  · intro h
    rw [(frameBits_eq_pageAlign_iff p).mpr h.1, pageAlign_of_aligned hp, h.2]
  · intro h
    have hword := toNat_frameBits (leafWord m root v)
    have hframe := toNat_frameBits p
    have hlt : p.toNat < 2 ^ 52 := by
      rw [← h, BitVec.toNat_or]
      exact Nat.or_lt_two_pow (by omega) (by omega)
    rw [(frameBits_eq_pageAlign_iff p).mpr hlt, pageAlign_of_aligned hp] at h
    exact ⟨hlt, h⟩

theorem PageAdded.address_eq (h : PageAdded pml4 p v s t) :
    (translate t.mem (phys pml4) v).map Translation.address =
      some (frameBits (PageMapEntry.linkInto (leafWord s.mem (phys pml4) v) p)) := by
  rw [h.small.noHuge.address_eq, h.leaf v, if_pos (SamePage.refl v)]
  rfl

theorem PageAdded.rangeMapped (h : PageAdded pml4 p v s t) (hs : SmallTables pml4 s)
    (hp : p.toNat % 4096 = 0) (hfits : FrameFits s.mem (phys pml4) p v) :
    RangeMapped pml4 1 p v s t := by
  constructor
  · intro i hi
    obtain rfl : i = 0 := by omega
    rw [pageAt_zero, pageAt_zero, h.address_eq, (frameFits_iff hp).mp hfits]
  · intro w hw
    have hne : ¬ SamePage v w := by
      intro hsame
      apply hw
      refine ⟨0, by omega, ?_⟩
      rw [pageAt_zero]
      exact hsame
    exact hs.noHuge.translate_congr h.small.noHuge (by rw [h.leaf w, if_neg hne]) h.keeps

theorem RangeOutcome.allocatesRange_iff {pages : BitVec 64} {r : FeralStatus × Option Ptr}
    (h : RangeOutcome pml4 pages p v s t r) (hs : SmallTables pml4 s) (hpages : 0 < pages.toNat)
    (hp : p.toNat % 4096 = 0) :
    AllocatesRange pml4 pages p v s r t ↔ ¬ RangeRefused pml4 pages p v s ∧
      (pages.toNat = 1 → AllocReady pml4 pages p v s → FrameFits s.mem (phys pml4) p v) := by
  have hfree : ∀ {n : Nat}, RangeUnmapped pml4 n v s → 0 < n →
      leafEntry s.mem (phys pml4) v = none := by
    intro n hunmapped hn
    have hv := hunmapped 0 hn
    rw [pageAt_zero] at hv
    exact (hs.noHuge.translate_none v).mp hv
  constructor
  · intro halloc
    refine ⟨fun hrefused => ?_, fun hone hready => ?_⟩
    · have hst := halloc.available hrefused.frames hrefused.unmapped
      cases h with
      | conflict => cases hst
      | failed => cases hst
      | done _ hreported hloop =>
        cases hloop with
        | none hn => omega
        | one hn =>
          rcases hrefused.cause with hlong | hused
          · omega
          · have hfirst := hreported 0 hpages
            rw [pageAt_zero] at hfirst
            exact hfirst hused
    · cases h with
      | conflict hchecks => exact absurd ⟨hready.frames, hready.pages⟩ hchecks
      | failed hloop =>
        cases hloop with
        | used hsome =>
          rw [(hs.noHuge.translate_none v).mp hready.unmapped] at hsome
          cases hsome
        | part hn => omega
      | done _ _ hloop =>
        cases hloop with
        | none hn => omega
        | one _ hadded =>
          have hpage := (halloc.mapped rfl).2.pages 0 hpages
          rw [pageAt_zero, pageAt_zero, hadded.address_eq, Option.some.injEq] at hpage
          exact (frameFits_iff hp).mpr hpage
  · intro hcond
    obtain ⟨hnot, hframe⟩ := hcond
    constructor
    · intro hst
      cases h with
      | conflict => cases hst
      | failed => cases hst
      | done hframes hreported hloop =>
        cases hloop with
        | none hn => omega
        | one hn hadded =>
          have hunmapped := (hs.noHuge.translate_none v).mpr hadded.unmapped
          have hfits := hframe hn ⟨hframes, hreported, hunmapped⟩
          rw [hn]
          exact ⟨rfl, hadded.rangeMapped hs hp hfits⟩
    · intro hframes hunmapped
      have hone : ¬ 2 ≤ pages.toNat := fun hlong => hnot ⟨hframes, hunmapped, Or.inl hlong⟩
      cases h with
      | conflict hchecks =>
        refine absurd ⟨hframes, fun i hi hused => ?_⟩ hchecks
        obtain rfl : i = 0 := by omega
        rw [pageAt_zero] at hused
        exact hnot ⟨hframes, hunmapped, Or.inr hused⟩
      | failed hloop =>
        cases hloop with
        | used hsome =>
          rw [hfree hunmapped hpages] at hsome
          cases hsome
        | part hn => exact absurd hn hone
      | done => rfl

/-- `MmKernelAllocPages` keeps its promise when it fits, and only then where the way to the
address is clear.  An address left over on the way may lead anywhere, also to tables that
happen to hold what was asked for. -/
theorem mmKernelAllocPages_allocatesRange_iff (hmalloc : TableAllocator malloc owned view)
    (hpml4 : Spans pml4 4096) (hdiv : s.statics.mmState.pAllocInfo.Divides)
    (hs : SmallTables pml4 s) (pages : BitVec 64) (hpages : 0 < pages.toNat)
    (baseAddr baseVAddr : Ptr) (hbase : baseAddr.toNat % 4096 = 0) :
    Returns (mmKernelAllocPages malloc pages pml4 baseAddr baseVAddr) s fun r t =>
      FreshTables pml4 owned (linked t.log) →
        (RangeFits pml4 pages baseAddr (virtualBase baseAddr baseVAddr) s →
          AllocatesRange pml4 pages baseAddr (virtualBase baseAddr baseVAddr) s r t) ∧
        (WayClear (phys pml4) s.mem (virtualBase baseAddr baseVAddr) →
          (AllocatesRange pml4 pages baseAddr (virtualBase baseAddr baseVAddr) s r t ↔
            RangeFits pml4 pages baseAddr (virtualBase baseAddr baseVAddr) s)) := by
  apply (mmKernelAllocPages_outcome hmalloc hpml4 pages baseAddr baseVAddr s hdiv).mono
  intro r t hout hfresh
  generalize virtualBase baseAddr baseVAddr = v at *
  have hiff := fun hway => (hout hfresh hs hway).allocatesRange_iff hs hpages hbase
  refine ⟨fun hfits => ?_, fun hway => ?_⟩
  · exact (hiff hfits.way).mpr ⟨hfits.granted, hfits.frame⟩
  · rw [hiff fun _ _ => hway]
    exact ⟨fun h => ⟨h.1, fun _ _ => hway, h.2⟩, fun h => ⟨h.granted, h.frame⟩⟩

end Alloc

/-! ## With the bump allocator -/

theorem allocMachine_small (v : Ptr) :
    SmallTables 0x20000 allocMachine ∧ WayClear (phys 0x20000) allocMachine.mem v := by
  have htree : TreeAt 0x20000 allocMachine := (mapState_empty rfl fun _ _ _ => rfl).tree
  exact ⟨⟨htree.reached, PageTree.noHuge htree⟩, PageTree.wayClear htree v⟩

/-- In cleared memory one page is had. -/
theorem mmKernelAllocPages_allocatesRange_one :
    Returns (mmKernelAllocPages bumpMalloc 1 0x20000 0x6000 0x3000) allocMachine fun r t =>
      FreshTables 0x20000 (fun _ => False) (linked t.log) ∧
      AllocatesRange 0x20000 1 0x6000 0x3000 allocMachine r t := by
  obtain ⟨hsmall, hway⟩ := allocMachine_small 0x3000
  have hcall := mmKernelAllocPages_allocatesRange_iff bumpMalloc_allocator allocRoot_spans
    allocMachine_divides hsmall 1 (by decide) 0x6000 0x3000 (by decide)
  have hbump := mmKernelAllocPages_bump 1 0x20000 0x6000 0x3000 allocMachine_bumped
    allocMachine_divides (by decide)
  apply (hcall.and hbump).mono
  intro r t ht
  obtain ⟨hkept, k, hk, hbumped⟩ := ht
  have hfresh : FreshTables 0x20000 (fun _ => False) (linked t.log) :=
    hbumped.fresh (by decide) (Nat.le_trans hk (by decide))
  refine ⟨hfresh, (hkept hfresh).1 ⟨fun hrefused => ?_, fun _ _ => hway, fun _ _ => ?_⟩⟩
  · rcases hrefused.cause with hlong | hused
    · exact absurd hlong (by decide)
    · exact absurd hused (by decide)
  · unfold FrameFits
    decide

/-- Two free pages are refused. -/
theorem mmKernelAllocPages_refuses_two :
    Returns (mmKernelAllocPages bumpMalloc 2 0x20000 0x5000 0x400000) allocMachine fun r t =>
      FreshTables 0x20000 (fun _ => False) (linked t.log) ∧
      ¬ AllocatesRange 0x20000 2 0x5000 0x400000 allocMachine r t := by
  obtain ⟨hsmall, hway⟩ := allocMachine_small 0x400000
  have hcall := mmKernelAllocPages_outcome bumpMalloc_allocator allocRoot_spans 2 0x5000 0x400000
    allocMachine allocMachine_divides
  have hbump := mmKernelAllocPages_bump 2 0x20000 0x5000 0x400000 allocMachine_bumped
    allocMachine_divides (by decide)
  apply (hcall.and hbump).mono
  intro r t ht
  obtain ⟨hout, k, hk, hbumped⟩ := ht
  have hfresh : FreshTables 0x20000 (fun _ => False) (linked t.log) :=
    hbumped.fresh (by decide) (Nat.le_trans hk (by decide))
  refine ⟨hfresh, fun halloc => ?_⟩
  have hout' := hout hfresh hsmall fun _ _ => hway
  have hnot := ((hout'.allocatesRange_iff hsmall (by decide) (by decide)).mp halloc).1
  apply hnot
  refine ⟨allocMachine_ready.frames, fun i hi => ?_, Or.inl (by decide)⟩
  have hi' : i = 0 ∨ i = 1 := by
    have : (2 : BitVec 64).toNat = 2 := rfl
    omega
  rcases hi' with rfl | rfl
  · decide
  · decide

end FeralKernel
