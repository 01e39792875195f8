import FeralKernel.Paging.AllocPages
import Mathlib.Algebra.GroupWithZero.Nat

/-!
# Runs of page allocations

`MmKernelAllocPages` asks the frame bitmap whether its frames are free and never
marks them.  A call that maps a page therefore leaves the frame free for the next
one.  A run is recorded as the list of its calls with the states before and after
each, and what it means that a frame has one owner is stated of that list.
-/

namespace FeralKernel

open Verif.Program Verif.Bytes Verif

/-- The arguments of a call with page-aligned bases. -/
structure AllocCall where
  pages : BitVec 64
  baseAddr : Ptr
  baseVAddr : Ptr
  aligned : baseAddr.toNat % 4096 = 0 ∧ baseVAddr.toNat % 4096 = 0

/-- The virtual base that the call uses. -/
def AllocCall.vAddr (c : AllocCall) : Ptr := virtualBase c.baseAddr c.baseVAddr

/-- A call that has been made. -/
structure AllocStep where
  call : AllocCall
  before : Machine MmStatics
  status : FeralStatus
  after : Machine MmStatics

def allocAll (malloc : BitVec 64 → Kern MmStatics Ptr) (pml4 : Ptr) :
    List AllocCall → Kern MmStatics (List AllocStep)
  | [] => pure []
  | c :: rest => do
    let before ← get
    let (status, _) ← mmKernelAllocPages malloc c.pages pml4 c.baseAddr c.baseVAddr
    let after ← get
    let steps ← allocAll malloc pml4 rest
    pure ({ call := c, before, status, after } :: steps)

/-! ## One owner for each frame -/

/-- `MmLookupPhysFrame` reports the frame used. -/
def InUse (s : Machine MmStatics) (frame : Ptr) : Prop :=
  Returns (mmLookupPhysFrame frame) s fun r _ => r = (.success, some true)

namespace AllocStep

variable (pml4 : Ptr) (a : AllocStep)

/-- The step has mapped a page at the frame. -/
def Maps (frame : Ptr) : Prop :=
  ∃ v, translate a.before.mem (phys pml4) v = none ∧
    ∃ writable, translate a.after.mem (phys pml4) v = some { address := frame, writable }

/-- The frame of an entry made for the base of the call: its bits 12 to 51. -/
def frame : Ptr := frameBits a.call.baseAddr

/-- The frame is one of the physical range that the call names. -/
def Names (frame : Ptr) : Prop :=
  ∃ i, i < a.call.pages.toNat ∧ frame = pageAt a.call.baseAddr i

/-- The step is a call for one page that finds it free. -/
def Commits : Prop :=
  a.call.pages = 1 ∧ AllocReady pml4 a.call.pages a.call.baseAddr a.call.vAddr a.before

end AllocStep

/-- A frame that a successful call has mapped is reported used from then on, is mapped
by no other successful call, and makes every later call that names it a conflict. -/
structure FramesExclusive (pml4 : Ptr) (trace : List AllocStep) : Prop where
  reported : ∀ a ∈ trace, a.status = .success → ∀ f, a.Maps pml4 f → InUse a.after f
  stays : trace.Pairwise fun a b => a.status = .success → ∀ f, a.Maps pml4 f → InUse b.after f
  once : trace.Pairwise fun a b => a.status = .success → b.status = .success →
    ∀ f, a.Maps pml4 f → ¬ b.Maps pml4 f
  conflict : trace.Pairwise fun a b => a.status = .success →
    ∀ f, a.Maps pml4 f → b.Names f → b.status = .memoryPageConflict

/-- The calls that commit have their bases cut down to frames that are in use already, each
to another one.  For that the base must have a bit from 52 up. -/
structure CommitsElsewhere (pml4 : Ptr) (trace : List AllocStep) : Prop where
  used : ∀ a ∈ trace, a.Commits pml4 → InUse a.before a.frame
  apart : trace.Pairwise fun a b => a.Commits pml4 → b.Commits pml4 → a.frame ≠ b.frame

/-- The bitmap shares no byte with the tables or with the memory of the allocator. -/
def BitmapApart (pml4 : Ptr) (owned : Nat → Prop) (t : Machine MmStatics) : Prop :=
  ∀ location, ¬ t.statics.mmState.maxPAddr < location →
    ¬ owned (phys (t.statics.mmState.byteAddr location)) ∧
      OffTables pml4 t (phys (t.statics.mmState.byteAddr location))

/-! ## One step -/

section Step

variable {malloc : BitVec 64 → Kern MmStatics Ptr} {owned : Nat → Prop} {pml4 : Ptr}
  {mapped : PageMap} {s t : Machine MmStatics}

/-- What is known of a step of a run that ends in `t`. -/
structure StepSound (pml4 : Ptr) (owned : Nat → Prop) (t : Machine MmStatics) (a : AllocStep)
    (mapped : PageMap) : Prop where
  state : MapState pml4 a.before mapped
  outcome : AllocOutcome pml4 owned mapped a.call.pages a.call.baseAddr a.call.vAddr a.before
    a.after a.status
  extends_after : Extends MmStatics.mmState a.before a.after
  extends_end : Extends MmStatics.mmState a.after t

variable {a : AllocStep}

/-- A successful step that does not commit maps nothing. -/
theorem StepSound.not_maps (h : StepSound pml4 owned t a mapped) (hst : a.status = .success)
    (hno : ¬ a.Commits pml4) (f : Ptr) : ¬ a.Maps pml4 f := by
  intro hmaps
  obtain ⟨v, hbefore, w, hafter⟩ := hmaps
  have hout := h.outcome
  rw [hst] at hout
  cases hout with
  | ran hframes hpages hloop =>
    cases hloop with
    | none hn hu =>
      rw [hu.1, hbefore] at hafter
      cases hafter
    | one hn hc =>
      apply hno
      have hone : a.call.pages = 1 := BitVec.eq_of_toNat_eq hn
      exact ⟨hone, hframes, hpages, (h.state.translate_none _).mpr hc.unmapped⟩

/-- A step that commits succeeds with its page mapped. -/
theorem StepSound.committed (h : StepSound pml4 owned t a mapped) (hc : a.Commits pml4) :
    a.status = .success ∧
      Committed pml4 owned mapped a.call.baseAddr a.call.vAddr a.before a.after := by
  obtain ⟨hone, hready⟩ := hc
  have hn : a.call.pages.toNat = 1 := by
    rw [hone]
    rfl
  have hout := h.outcome
  generalize a.status = status at hout ⊢
  cases hout with
  | conflict hchecks _ => exact absurd ⟨hready.frames, hready.pages⟩ hchecks
  | ran _ _ hloop =>
    cases hloop with
    | none hn' _ => omega
    | used _ hf _ =>
      rw [(h.state.translate_none _).mp hready.unmapped] at hf
      cases hf
    | one _ hc => exact ⟨rfl, hc⟩
    | part hn' _ => omega

theorem StepSound.maps_of_commits (h : StepSound pml4 owned t a mapped)
    (hc : a.Commits pml4) : a.Maps pml4 a.frame :=
  ⟨a.call.vAddr, hc.2.unmapped, true, (h.committed hc).2.translate_eq⟩

/-- A successful step maps one frame at most, and commits to do so. -/
theorem StepSound.frame_of_maps (h : StepSound pml4 owned t a mapped)
    (hst : a.status = .success) {f : Ptr} (hmaps : a.Maps pml4 f) :
    a.Commits pml4 ∧ f = a.frame := by
  have hc : a.Commits pml4 := by
    by_contra hno
    exact h.not_maps hst hno f hmaps
  obtain ⟨v, hbefore, w, hafter⟩ := hmaps
  have hfree := (h.state.translate_none v).mp hbefore
  rw [(h.committed hc).2.state.translate_eq v, PageMap.find, List.find?_cons] at hafter
  refine ⟨hc, ?_⟩
  by_cases hsame : SamePage a.call.vAddr v
  · rw [decide_eq_true hsame] at hafter
    have hframe := congrArg Translation.address (Option.some.inj hafter)
    exact hframe.symm
  · rw [decide_eq_false hsame, ← PageMap.find, hfree] at hafter
    cases hafter

/-- A frame of the physical range of a step that commits was reported free. -/
theorem AllocStep.Commits.free (hc : a.Commits pml4) :
    a.before.statics.mmState.lookupFrame a.before.mem a.call.baseAddr = (.success, some false) := by
  have hfree := hc.2.frames 0 (by rw [hc.1]; decide)
  rw [pageAt_zero] at hfree
  exact hfree

theorem inUse_iff {s : Machine MmStatics} {f : Ptr}
    (hdiv : s.statics.mmState.pAllocInfo.Divides) :
    InUse s f ↔ s.statics.mmState.lookupFrame s.mem f = (.success, some true) := by
  rw [InUse, returns_mmLookupPhysFrame hdiv]

/-- A call that names a frame in use is refused. -/
theorem StepSound.conflict_of_inUse (h : StepSound pml4 owned t a mapped) {f : Ptr}
    (hdiv : a.before.statics.mmState.pAllocInfo.Divides) (hused : InUse a.before f) (hnames : a.Names f) : a.status = .memoryPageConflict := by
  obtain ⟨i, hi, rfl⟩ := hnames
  have hout := h.outcome
  generalize a.status = status at hout ⊢
  cases hout with
  | conflict _ _ => rfl
  | ran hframes _ _ =>
    rw [inUse_iff hdiv, hframes i hi] at hused
    cases hused

/-- Without a bit from 52 up the frame that a step commits is the one reported free. -/
theorem AllocStep.Commits.not_used (hc : a.Commits pml4)
    (hdiv : a.before.statics.mmState.pAllocInfo.Divides)
    (hsmall : a.call.baseAddr.toNat < 2 ^ 52) : ¬ InUse a.before a.frame := by
  have hframe : a.frame = a.call.baseAddr := by
    rw [AllocStep.frame, (frameBits_eq_pageAlign_iff _).mpr hsmall,
      pageAlign_of_aligned a.call.aligned.1]
  rw [inUse_iff hdiv, hframe, hc.free]
  simp

/-- Outside the tables and the memory of the allocator nothing has changed since `s`, up to
the step and in it. -/
structure StepQuiet (pml4 : Ptr) (owned : Nat → Prop) (s t : Machine MmStatics) (a : AllocStep) :
    Prop where
  view_before : a.before.statics.mmState = s.statics.mmState
  view_after : a.after.statics.mmState = s.statics.mmState
  before : ∀ x, ¬ owned x → OffTables pml4 t x → a.before.mem x = s.mem x
  after : ∀ x, ¬ owned x → OffTables pml4 t x → a.after.mem x = s.mem x

/-- A frame is reported as before where its byte of the bitmap is the same. -/
theorem lookupFrame_congr {mm : MemoryManagementState} {m m' : Mem} {f : Ptr}
    (h : ¬ mm.maxPAddr < f → m' (phys (mm.byteAddr f)) = m (phys (mm.byteAddr f))) :
    mm.lookupFrame m' f = mm.lookupFrame m f := by
  rw [MemoryManagementState.lookupFrame, MemoryManagementState.lookupFrame]
  by_cases hlt : mm.maxPAddr < f
  · rw [if_pos hlt, if_pos hlt]
  · rw [if_neg hlt, if_neg hlt, MemoryManagementState.frameBit, MemoryManagementState.frameBit,
      h hlt]

theorem StepQuiet.inUse (h : StepQuiet pml4 owned s t a)
    (hdiv : s.statics.mmState.pAllocInfo.Divides) (hapart : BitmapApart pml4 owned t)
    (hview : t.statics.mmState = s.statics.mmState) (f : Ptr) :
    (InUse a.before f ↔ InUse s f) ∧ (InUse a.after f ↔ InUse s f) := by
  have hbefore : a.before.statics.mmState.pAllocInfo.Divides := by
    rw [h.view_before]
    exact hdiv
  have hafter : a.after.statics.mmState.pAllocInfo.Divides := by
    rw [h.view_after]
    exact hdiv
  rw [BitmapApart, hview] at hapart
  rw [inUse_iff hbefore, inUse_iff hafter, inUse_iff hdiv, h.view_before, h.view_after,
    lookupFrame_congr fun hle => h.before _ (hapart f hle).1 (hapart f hle).2,
    lookupFrame_congr fun hle => h.after _ (hapart f hle).1 (hapart f hle).2]
  exact ⟨Iff.rfl, Iff.rfl⟩

theorem AllocOutcome.frame {pages : BitVec 64} {p v : Ptr} {status : FeralStatus}
    (h : AllocOutcome pml4 owned mapped pages p v s t status) {x : Nat} (hx : ¬ owned x)
    (hoff : OffTables pml4 t x) : t.mem x = s.mem x := by
  cases h with
  | conflict _ hu => rw [hu.1]
  | ran _ _ hloop =>
    cases hloop with
    | none _ hu => rw [hu.1]
    | used _ _ hu => rw [hu.1]
    | one _ hc => exact hc.frame x hx hoff
    | part _ hc => exact hc.frame x hx hoff

/-- A step leaves every frame reported as it was. -/
theorem StepSound.lookupFrame_after (h : StepSound pml4 owned t a mapped)
    (hapart : BitmapApart pml4 owned t) (f : Ptr) :
    a.after.statics.mmState.lookupFrame a.after.mem f =
      a.before.statics.mmState.lookupFrame a.before.mem f := by
  have hview : t.statics.mmState = a.before.statics.mmState :=
    h.extends_end.view_eq.trans h.extends_after.view_eq
  rw [BitmapApart, hview] at hapart
  rw [h.extends_after.view_eq]
  exact lookupFrame_congr fun hle =>
    h.outcome.frame (hapart f hle).1 ((hapart f hle).2.of_extends h.extends_end)

/-- A call leaves the tables of some map. -/
theorem AllocOutcome.mapState {pages : BitVec 64} {p v : Ptr} {status : FeralStatus}
    (h : AllocOutcome pml4 owned mapped pages p v s t status) (hs : MapState pml4 s mapped) :
    ∃ mapped', MapState pml4 t mapped' := by
  cases h with
  | conflict _ hu => exact ⟨_, hu.mapState hs⟩
  | ran _ _ hloop =>
    cases hloop with
    | none _ hu => exact ⟨_, hu.mapState hs⟩
    | used _ _ hu => exact ⟨_, hu.mapState hs⟩
    | one _ hc => exact ⟨_, hc.state⟩
    | part _ hc => exact ⟨_, hc.state⟩

end Step

/-! ## Runs -/

section Run

variable {malloc : BitVec 64 → Kern MmStatics Ptr} {owned : Nat → Prop} {pml4 : Ptr}

/-- Every step of a run starts from the tables of some map, and what is in neither the
tables nor the memory of the allocator stays as it was. -/
theorem allocAll_spec (hmalloc : TableAllocator malloc owned MmStatics.mmState)
    (hpml4 : Spans pml4 4096) (calls : List AllocCall) :
    ∀ s : Machine MmStatics, s.statics.mmState.pAllocInfo.Divides →
      Returns (allocAll malloc pml4 calls) s fun trace t =>
      Extends MmStatics.mmState s t ∧ trace.map AllocStep.call = calls ∧
      (FreshTables pml4 owned (linked t.log) → ∀ mapped, MapState pml4 s mapped →
        ∀ a ∈ trace, StepQuiet pml4 owned s t a ∧
          ∃ mapped', StepSound pml4 owned t a mapped') := by
  induction calls with
  | nil =>
    intro s _
    rw [allocAll, returns_pure]
    exact ⟨Extends.refl _ s, rfl, fun _ _ _ a ha => nomatch ha⟩
  | cons c rest ih =>
    intro s hdiv
    rw [allocAll, returns_bind, returns_get]
    have hcall := Returns.forall fun mapped =>
      mmKernelAllocPages_spec hmalloc hpml4 c.pages c.baseAddr c.baseVAddr s hdiv mapped
    apply hcall.bind
    intro r t ht
    have hext : Extends MmStatics.mmState s t := (ht []).1
    obtain ⟨status, result⟩ := r
    show Returns (do
      let after ← get
      let steps ← allocAll malloc pml4 rest
      pure ({ call := c, before := s, status, after } :: steps)) t _
    rw [returns_bind, returns_get]
    apply (ih t (hext.divides hdiv)).bind
    intro steps u hu
    obtain ⟨hext', hcalls, hsteps⟩ := hu
    rw [returns_pure]
    refine ⟨hext.trans hext', congrArg (c :: ·) hcalls, fun hfresh mapped hs a ha => ?_⟩
    have hout := (ht mapped).2 (hfresh.of_suffix hext'.suffix) hs
    have hframe : ∀ x, ¬ owned x → OffTables pml4 u x → t.mem x = s.mem x := fun x hx hoff =>
      hout.frame hx (hoff.of_extends hext')
    rcases List.mem_cons.mp ha with rfl | ha'
    · exact ⟨⟨rfl, hext.view_eq, fun _ _ _ => rfl, hframe⟩, mapped, hs, hout, hext, hext'⟩
    · obtain ⟨mapped', hs'⟩ := hout.mapState hs
      obtain ⟨hquiet, hsound⟩ := hsteps hfresh mapped' hs' a ha'
      refine ⟨⟨hquiet.view_before.trans hext.view_eq, hquiet.view_after.trans hext.view_eq,
        fun x hx hoff => ?_, fun x hx hoff => ?_⟩, hsound⟩
      · rw [hquiet.before x hx hoff, hframe x hx hoff]
      · rw [hquiet.after x hx hoff, hframe x hx hoff]

/-- In a run from a cleared root every frame that is mapped has one owner exactly when the
calls that commit end up at frames in use.  With bases below 2^52 that is when no call
commits: no call is for a single page that it finds free. -/
theorem allocAll_exclusive_iff (hmalloc : TableAllocator malloc owned MmStatics.mmState)
    (hpml4 : Spans pml4 4096) {s : Machine MmStatics}
    (hdiv : s.statics.mmState.pAllocInfo.Divides) (hlog : linked s.log = [])
    (hzero : ∀ x, phys pml4 ≤ x → x < phys pml4 + 4096 → s.mem x = 0)
    (calls : List AllocCall) :
    Returns (allocAll malloc pml4 calls) s fun trace t =>
      FreshTables pml4 owned (linked t.log) → BitmapApart pml4 owned t →
        (FramesExclusive pml4 trace ↔ CommitsElsewhere pml4 trace) ∧
        ((∀ c ∈ calls, c.baseAddr.toNat < 2 ^ 52) →
          (FramesExclusive pml4 trace ↔ ∀ a ∈ trace, ¬ a.Commits pml4)) := by
  apply (allocAll_spec hmalloc hpml4 calls s hdiv).mono
  intro trace t ht hfresh hapart
  obtain ⟨hext, hcalls, hsteps⟩ := ht
  have hsound := hsteps hfresh [] (mapState_empty hlog hzero)
  have hbits : ∀ a ∈ trace, ∀ f, (InUse a.before f ↔ InUse s f) ∧ (InUse a.after f ↔ InUse s f) :=
    fun a ha => (hsound a ha).1.inUse hdiv hapart hext.view_eq
  have hdivides : ∀ a ∈ trace, a.before.statics.mmState.pAllocInfo.Divides := by
    intro a ha
    rw [(hsound a ha).1.view_before]
    exact hdiv
  have hiff : FramesExclusive pml4 trace ↔ CommitsElsewhere pml4 trace := by
    constructor
    · intro hex
      constructor
      · intro a ha hc
        obtain ⟨mapped, hstep⟩ := (hsound a ha).2
        have hused := hex.reported a ha (hstep.committed hc).1 _ (hstep.maps_of_commits hc)
        exact (hbits a ha _).1.mpr ((hbits a ha _).2.mp hused)
      · refine hex.once.imp_of_mem fun {a b} ha hb honce hca hcb heq => ?_
        obtain ⟨_, hstepa⟩ := (hsound a ha).2
        obtain ⟨_, hstepb⟩ := (hsound b hb).2
        apply honce (hstepa.committed hca).1 (hstepb.committed hcb).1 _ (hstepa.maps_of_commits hca)
        rw [heq]
        exact hstepb.maps_of_commits hcb
    · intro helse
      -- what a successful step has mapped was in use from the beginning
      have hmapped : ∀ a ∈ trace, a.status = .success → ∀ f, a.Maps pml4 f →
          a.Commits pml4 ∧ f = a.frame ∧ InUse s f := by
        intro a ha hst f hf
        obtain ⟨_, hstep⟩ := (hsound a ha).2
        obtain ⟨hc, rfl⟩ := hstep.frame_of_maps hst hf
        exact ⟨hc, rfl, (hbits a ha _).1.mp (helse.used a ha hc)⟩
      refine ⟨?_, ?_, ?_, ?_⟩
      · intro a ha hst f hf
        exact (hbits a ha f).2.mpr (hmapped a ha hst f hf).2.2
      · apply List.pairwise_of_forall_mem_list
        intro a ha b hb hst f hf
        exact (hbits b hb f).2.mpr (hmapped a ha hst f hf).2.2
      · refine helse.apart.imp_of_mem fun {a b} ha hb hne hsta hstb f hfa hfb => ?_
        obtain ⟨hca, rfl, -⟩ := hmapped a ha hsta f hfa
        obtain ⟨hcb, heq, -⟩ := hmapped b hb hstb _ hfb
        exact hne hca hcb heq
      · apply List.pairwise_of_forall_mem_list
        intro a ha b hb hst f hf hnames
        obtain ⟨_, hstep⟩ := (hsound b hb).2
        exact hstep.conflict_of_inUse (hdivides b hb) ((hbits b hb f).1.mpr (hmapped a ha hst f hf).2.2) hnames
  refine ⟨hiff, fun hsmall => ?_⟩
  rw [hiff]
  constructor
  · intro helse a ha hc
    have hcall : a.call ∈ calls := hcalls ▸ List.mem_map_of_mem ha
    exact hc.not_used (hdivides a ha) (hsmall _ hcall) (helse.used a ha hc)
  · intro hno
    refine ⟨fun a ha hc => absurd hc (hno a ha), ?_⟩
    apply List.pairwise_of_forall_mem_list
    intro a ha b _ hc
    exact absurd hc (hno a ha)

end Run

/-! ## With the bump allocator -/

theorem allocAll_bump {pml4 : Ptr} (hpml4 : Spans pml4 4096) (calls : List AllocCall) : ∀ (n : Nat)
    (s : Machine MmStatics), Bumped n s → s.statics.mmState.pAllocInfo.Divides →
      n + 3 * (calls.map fun c => c.pages.toNat).sum < 2 ^ 32 →
      Returns (allocAll bumpMalloc pml4 calls) s fun _ t =>
        ∃ k, k ≤ n + 3 * (calls.map fun c => c.pages.toNat).sum ∧ Bumped k t := by
  induction calls with
  | nil =>
    intro n s h _ _
    rw [allocAll, returns_pure]
    exact ⟨n, by simp, h⟩
  | cons c rest ih =>
    intro n s h hdiv hn
    rw [List.map_cons, List.sum_cons] at hn ⊢
    rw [allocAll, returns_bind, returns_get]
    have hbump := mmKernelAllocPages_bump c.pages pml4 c.baseAddr c.baseVAddr h hdiv (by omega)
    have hspec := mmKernelAllocPages_spec bumpMalloc_allocator hpml4 c.pages c.baseAddr
      c.baseVAddr s hdiv []
    apply (hbump.and hspec).bind
    intro r t ht
    obtain ⟨⟨k, hk, ht⟩, hext, -⟩ := ht
    obtain ⟨status, result⟩ := r
    show Returns (do
      let after ← get
      let steps ← allocAll bumpMalloc pml4 rest
      pure ({ call := c, before := s, status, after } :: steps)) t _
    rw [returns_bind, returns_get]
    apply (ih k t ht (hext.divides hdiv) (by omega)).bind
    intro _ u hu
    obtain ⟨j, hj, hu⟩ := hu
    rw [returns_pure]
    exact ⟨j, by omega, hu⟩

theorem allocMachine_apart {k : Nat} {t : Machine MmStatics} (h : Bumped k t)
    (hmm : t.statics.mmState = allocMachine.statics.mmState) :
    BitmapApart 0x20000 (fun _ => False) t := by
  intro location hle
  rw [hmm] at hle ⊢
  refine ⟨fun hf => hf, ?_⟩
  have hsmall : location.toNat ≤ 0x10000 := by
    rw [BitVec.not_lt] at hle
    exact BitVec.le_def.mp hle
  have hspan : Spans 0x100000 4096 := by
    unfold Spans
    decide
  rw [byteAddr_eq rfl]
  show OffTables 0x20000 t (phys (0x100000 + BitVec.ofNat 64 (location.toNat / 32768)))
  rw [phys_add hspan (by omega)]
  have hroot : phys 0x20000 = 0x20000 := rfl
  have hbitmap : phys 0x100000 = 0x100000 := rfl
  intro a ha
  rw [tablePages, h.tables, List.mem_append] at ha
  rcases ha with ha | ha
  · obtain ⟨p, hp, rfl⟩ := List.mem_map.mp ha
    obtain ⟨j, -, rfl⟩ := mem_bumpPages hp
    have hpage := phys_bumpPage j
    omega
  · rw [List.mem_singleton] at ha
    omega

/-- A call for two pages maps one and fails, so that no successful call has mapped
anything. -/
theorem allocAll_exclusive_two_pages :
    Returns (allocAll bumpMalloc 0x20000 [⟨2, 0x5000, 0x400000, by decide⟩]) allocMachine
      fun trace t =>
        FreshTables 0x20000 (fun _ => False) (linked t.log) ∧ FramesExclusive 0x20000 trace := by
  have hiff := allocAll_exclusive_iff bumpMalloc_allocator allocRoot_spans allocMachine_divides rfl
    (fun _ _ _ => rfl) [⟨2, 0x5000, 0x400000, by decide⟩]
  have hspec := allocAll_spec bumpMalloc_allocator allocRoot_spans
    [⟨2, 0x5000, 0x400000, by decide⟩] allocMachine allocMachine_divides
  have hbump := allocAll_bump allocRoot_spans [⟨2, 0x5000, 0x400000, by decide⟩] 0 allocMachine
    allocMachine_bumped allocMachine_divides (by decide)
  apply ((hiff.and hspec).and hbump).mono
  intro trace t ht
  obtain ⟨⟨hiff, hext, hcalls, -⟩, k, hk, hbumped⟩ := ht
  have hfresh : FreshTables 0x20000 (fun _ => False) (linked t.log) :=
    hbumped.fresh (by decide) (Nat.le_trans hk (by decide))
  have hsmall : ∀ c ∈ ([⟨2, 0x5000, 0x400000, by decide⟩] : List AllocCall),
      c.baseAddr.toNat < 2 ^ 52 := by
    intro c hc
    rw [List.mem_singleton.mp hc]
    decide
  refine ⟨hfresh, ((hiff hfresh (allocMachine_apart hbumped hext.view_eq)).2 hsmall).mpr ?_⟩
  intro a ha hc
  have hcall : a.call ∈ trace.map AllocStep.call := List.mem_map_of_mem ha
  rw [hcalls, List.mem_singleton] at hcall
  have hone := hc.1
  rw [hcall] at hone
  exact absurd hone (by decide)

theorem allocMachine_ready_one : AllocReady 0x20000 1 0x5000 0x400000 allocMachine := by
  refine ⟨?_, ?_, ?_⟩
  · unfold FramesFree
    decide
  · unfold PagesFree
    decide
  · decide

/-- After a step that has mapped the frame `0x5000` at `0x400000`, a call for it at
`0x800000` finds everything free. -/
theorem ready_after_commit {a : AllocStep} {t : Machine MmStatics}
    (h : StepSound 0x20000 (fun _ => False) t a []) (hc : a.Commits 0x20000)
    (hcall : a.call = ⟨1, 0x5000, 0x400000, by decide⟩)
    (hapart : BitmapApart 0x20000 (fun _ => False) t) :
    AllocReady 0x20000 1 0x5000 0x800000 a.after := by
  have hstate := (h.committed hc).2.state
  have hframe := h.lookupFrame_after hapart a.call.baseAddr
  rw [hc.free] at hframe
  rw [hcall] at hstate hframe
  have hmapped : ¬ ∃ c ∈ ([(0x5000, 0x400000)] : PageMap), pagePath c.2 = pagePath 0x800000 := by
    decide
  have hfind : PageMap.find [(0x5000, 0x400000)] 0x800000 = none := by decide
  have hzero : ∀ i, i < (1 : BitVec 64).toNat → i = 0 := by decide
  refine ⟨fun i hi => ?_, fun i hi => ?_, ?_⟩
  · rw [hzero i hi, pageAt_zero]
    exact hframe
  · rw [hzero i hi, pageAt_zero, hstate.validated_eq allocRoot_spans (by decide),
      decide_eq_false fun hr => hmapped hr.1]
    simp
  · rw [hstate.translate_none]
    exact hfind

/-- A run of two calls, each sound for the map that the one before leaves. -/
theorem allocAll_two_steps (c d : AllocCall) :
    Returns (allocAll bumpMalloc 0x20000 [c, d]) allocMachine fun trace t =>
      Extends MmStatics.mmState allocMachine t ∧
      (FreshTables 0x20000 (fun _ => False) (linked t.log) →
        ∃ a b, trace = [a, b] ∧ a.before = allocMachine ∧ b.before = a.after ∧
          a.call = c ∧ b.call = d ∧ StepSound 0x20000 (fun _ => False) t a [] ∧
          ∀ mapped, MapState 0x20000 a.after mapped →
            StepSound 0x20000 (fun _ => False) t b mapped) := by
  simp only [allocAll, returns_bind, returns_get, returns_pure]
  apply (mmKernelAllocPages_spec bumpMalloc_allocator allocRoot_spans c.pages c.baseAddr
    c.baseVAddr allocMachine allocMachine_divides []).mono
  intro r1 t1 h1
  obtain ⟨hext1, hout1⟩ := h1
  have hdiv1 := hext1.divides allocMachine_divides
  apply (Returns.forall fun mapped => mmKernelAllocPages_spec bumpMalloc_allocator allocRoot_spans
    d.pages d.baseAddr d.baseVAddr t1 hdiv1 mapped).mono
  intro r2 t2 h2
  have hext2 : Extends MmStatics.mmState t1 t2 := (h2 []).1
  refine ⟨hext1.trans hext2, fun hfresh => ⟨_, _, rfl, rfl, rfl, rfl, rfl, ?_, fun mapped hs => ?_⟩⟩
  · have hs : MapState 0x20000 allocMachine [] := mapState_empty rfl fun _ _ _ => rfl
    exact ⟨hs, hout1 (hfresh.of_suffix hext2.suffix) hs, hext1, hext2⟩
  · exact ⟨hs, (h2 mapped).2 hfresh hs, hext2, Extends.refl _ _⟩

/-- Two calls name the frame `0x5000`, both succeed and both map it. -/
theorem allocAll_maps_frame_twice :
    Returns (allocAll bumpMalloc 0x20000
      [⟨1, 0x5000, 0x400000, by decide⟩, ⟨1, 0x5000, 0x800000, by decide⟩]) allocMachine
      fun trace t =>
        FreshTables 0x20000 (fun _ => False) (linked t.log) ∧
        BitmapApart 0x20000 (fun _ => False) t ∧
        (∃ a b, trace = [a, b] ∧ a.status = .success ∧ b.status = .success ∧
          a.Maps 0x20000 0x5000 ∧ b.Maps 0x20000 0x5000) ∧
        ¬ FramesExclusive 0x20000 trace := by
  have hrun := allocAll_two_steps ⟨1, 0x5000, 0x400000, by decide⟩ ⟨1, 0x5000, 0x800000, by decide⟩
  have hbump := allocAll_bump allocRoot_spans
    [⟨1, 0x5000, 0x400000, by decide⟩, ⟨1, 0x5000, 0x800000, by decide⟩] 0 allocMachine
    allocMachine_bumped allocMachine_divides (by decide)
  apply (hrun.and hbump).mono
  intro trace t ht
  obtain ⟨⟨hext, hsteps⟩, k, hk, hbumped⟩ := ht
  have hfresh : FreshTables 0x20000 (fun _ => False) (linked t.log) :=
    hbumped.fresh (by decide) (Nat.le_trans hk (by decide))
  have hapart := allocMachine_apart hbumped hext.view_eq
  obtain ⟨a, b, rfl, hbefore, hnext, hcalla, hcallb, ha, hb⟩ := hsteps hfresh
  have hca : a.Commits 0x20000 := by
    rw [AllocStep.Commits, hcalla, hbefore]
    exact ⟨rfl, allocMachine_ready_one⟩
  have hb' := hb _ (ha.committed hca).2.state
  have hcb : b.Commits 0x20000 := by
    rw [AllocStep.Commits, hcallb, hnext]
    exact ⟨rfl, ready_after_commit ha hca hcalla hapart⟩
  have hmapa := ha.maps_of_commits hca
  have hmapb := hb'.maps_of_commits hcb
  rw [AllocStep.frame, hcalla] at hmapa
  rw [AllocStep.frame, hcallb] at hmapb
  refine ⟨hfresh, hapart, ⟨a, b, rfl, (ha.committed hca).1, (hb'.committed hcb).1, hmapa, hmapb⟩,
    fun hex => ?_⟩
  obtain ⟨hpair, -⟩ := List.pairwise_cons.mp hex.once
  exact hpair b (List.mem_singleton.mpr rfl) (ha.committed hca).1 (hb'.committed hcb).1 _ hmapa hmapb

end FeralKernel
