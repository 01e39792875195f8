import FeralKernel.Mm.PhysFrame
import FeralKernel.Paging.Validate

/-!
# Allocating pages

`MmKernelAllocPages` of `kern/arch/x86_64/mm/paging.c`.  Its comment asks for a
transaction: either every page is mapped or nothing changes.  Two loops look
whether the frames and the pages of the range are free, and a third one maps.
The third loop maps the first page in every round, and no loop marks a frame.
-/

namespace FeralKernel

open Verif.Program Verif.Bytes Verif

variable {κ : Type}

/-! ## The code -/

/-- Page `i` of a range. -/
def pageAt (base : Ptr) (i : Nat) : Ptr := base + 4096 * BitVec.ofNat 64 i

theorem pageAt_zero (base : Ptr) : pageAt base 0 = base := by
  rw [pageAt, show BitVec.ofNat 64 0 = 0#64 from rfl, BitVec.mul_zero, BitVec.add_zero]

/-- The first loop: `.inl` is an early return. -/
def checkFrames (pages : BitVec 64) (pAddr : Ptr) : Kern MmStatics (FeralStatus ⊕ Unit) :=
  forCount (fun i _ => do
    let (status, pageStatus) ← mmLookupPhysFrame (pageAt pAddr i)
    if pageStatus.getD false = true ∨ status ≠ .success then pure (.inl .memoryPageConflict)
    else pure (.inr ())) pages.toNat 0 ()

def checkPages (pages : BitVec 64) (pml4 vAddr : Ptr) : Kern MmStatics (FeralStatus ⊕ Unit) :=
  forCount (fun i _ => do
    let (_, unavailable) ← x86ValidateVirtualAddress pml4 (pageAt vAddr i)
    if unavailable.getD false = true then pure (.inl .memoryPageConflict)
    else pure (.inr ())) pages.toNat 0 ()

/-- The third loop, whose body does not use the page's index. -/
def mapPages (malloc : BitVec 64 → Kern MmStatics Ptr) (pages : BitVec 64)
    (pml4 pAddr vAddr : Ptr) : Kern MmStatics (FeralStatus ⊕ Unit) :=
  forCount (fun _ _ => do
    let status ← x86MapAddress malloc pml4 pAddr vAddr
    if status ≠ .success then pure (.inl status)
    else pure (.inr ())) pages.toNat 0 ()

/-- The virtual base that is used when none is given. -/
def virtualBase (baseAddr baseVAddr : Ptr) : Ptr :=
  if baseVAddr = 0 then kernPhysToVirt baseAddr else baseVAddr

/-- The second component is what is written to `*Result`, if anything is. -/
def mmKernelAllocPages (malloc : BitVec 64 → Kern MmStatics Ptr) (pages : BitVec 64)
    (pml4 baseAddr baseVAddr : Ptr) : Kern MmStatics (FeralStatus × Option Ptr) := do
  -- a missing base is replaced by `NULL`, which it is already
  let pAddr := if baseAddr = 0 then 0 else baseAddr
  let vAddr := virtualBase pAddr baseVAddr
  let _levels := x86FindPageLevels pAddr
  match ← checkFrames pages pAddr with
  | .inl status => pure (status, none)
  | .inr () =>
    match ← checkPages pages pml4 vAddr with
    | .inl status => pure (status, none)
    | .inr () =>
      match ← mapPages malloc pages pml4 pAddr vAddr with
      | .inl status => pure (status, none)
      | .inr () => pure (.success, some vAddr)

/-! ## The checks -/

/-- Every frame of the range is one that `MmLookupPhysFrame` reports free. -/
def FramesFree (s : Machine MmStatics) (pages : BitVec 64) (pAddr : Ptr) : Prop :=
  ∀ i, i < pages.toNat →
    s.statics.mmState.lookupFrame s.mem (pageAt pAddr i) = (.success, some false)

/-- No page of the range is one that `x86ValidateVirtualAddress` reports used. -/
def PagesFree (s : Machine MmStatics) (pages : BitVec 64) (pml4 vAddr : Ptr) : Prop :=
  ∀ i, i < pages.toNat → (validated s.mem pml4 (pageAt vAddr i)).2 ≠ some true

/-- The two states differ in the record of the run only. -/
def Unwritten (s t : Machine MmStatics) : Prop := t.mem = s.mem ∧ SameSide s t

theorem Unwritten.refl (s : Machine MmStatics) : Unwritten s s := ⟨rfl, rfl, rfl⟩

/-- A frame is found free exactly when the code's test passes. -/
theorem lookupFrame_free_iff (mm : MemoryManagementState) (m : Mem) (location : Ptr) :
    mm.lookupFrame m location = (.success, some false) ↔
      ¬ ((mm.lookupFrame m location).2.getD false = true ∨
        (mm.lookupFrame m location).1 ≠ .success) := by
  rw [MemoryManagementState.lookupFrame]
  by_cases h : mm.maxPAddr < location
  · simp [h]
  · simp [h]

theorem checkFrames_spec (pages : BitVec 64) (pAddr : Ptr) (s : Machine MmStatics)
    (hdiv : s.statics.mmState.pAllocInfo.Divides) :
    Returns (checkFrames pages pAddr) s fun r t => Unwritten s t ∧
      (FramesFree s pages pAddr ∧ r = .inr () ∨
        ¬ FramesFree s pages pAddr ∧ r = .inl .memoryPageConflict) := by
  apply returns_forCount_check (Unwritten s)
    (fun i => s.statics.mmState.lookupFrame s.mem (pageAt pAddr i) = (.success, some false)) _
    pages.toNat (Unwritten.refl s)
  intro i t ht
  obtain ⟨hm, hside⟩ := ht
  rw [← hside.1] at hdiv
  rw [returns_bind, returns_mmLookupPhysFrame hdiv, hm, hside.1, lookupFrame_free_iff]
  have hkept : Unwritten s (if s.statics.mmState.maxPAddr < pageAt pAddr i then t
      else t.note (.read (s.statics.mmState.byteAddr (pageAt pAddr i)) 1)) := by
    split
    · exact ⟨hm, hside⟩
    · exact ⟨hm, hside⟩
  generalize s.statics.mmState.lookupFrame s.mem (pageAt pAddr i) = result
  obtain ⟨status, pageStatus⟩ := result
  show Returns (if pageStatus.getD false = true ∨ status ≠ .success then _ else _) _ _
  by_cases hused : pageStatus.getD false = true ∨ status ≠ .success
  · rw [if_pos hused, returns_pure]
    exact ⟨hkept, Or.inr ⟨not_not_intro hused, rfl⟩⟩
  · rw [if_neg hused, returns_pure]
    exact ⟨hkept, Or.inl ⟨hused, rfl⟩⟩

theorem checkPages_spec (pages : BitVec 64) (pml4 vAddr : Ptr) (s : Machine MmStatics) :
    Returns (checkPages pages pml4 vAddr) s fun r t => Unwritten s t ∧
      (PagesFree s pages pml4 vAddr ∧ r = .inr () ∨
        ¬ PagesFree s pages pml4 vAddr ∧ r = .inl .memoryPageConflict) := by
  apply returns_forCount_check (Unwritten s)
    (fun i => (validated s.mem pml4 (pageAt vAddr i)).2 ≠ some true) _ pages.toNat
    (Unwritten.refl s)
  intro i t ht
  obtain ⟨hm, hside⟩ := ht
  apply (x86ValidateVirtualAddress_spec pml4 (pageAt vAddr i) t).bind
  intro r u hu
  obtain ⟨hr, hm', hside'⟩ := hu
  have hkept : Unwritten s u := ⟨hm'.trans hm, hside.trans hside'⟩
  rw [hm] at hr
  rw [← hr]
  obtain ⟨status, unavailable⟩ := r
  show Returns (if unavailable.getD false = true then _ else _) u _
  by_cases hused : unavailable = some true
  · rw [if_pos (by rw [hused]; rfl), returns_pure]
    exact ⟨hkept, Or.inr ⟨not_not_intro hused, rfl⟩⟩
  · have hfree : ¬ unavailable.getD false = true := by
      cases unavailable with
      | none => simp
      | some used => simpa using hused
    rw [if_neg hfree, returns_pure]
    exact ⟨hkept, Or.inl ⟨hused, rfl⟩⟩

/-! ## The mapping loop -/

section Alloc

variable {malloc : BitVec 64 → Kern MmStatics Ptr} {owned : Nat → Prop} {view : MmStatics → κ}
  {pml4 : Ptr} {mapped : PageMap} {s t u : Machine MmStatics} {p v : Ptr}

/-- No table has been written or linked. -/
def Untouched (s t : Machine MmStatics) : Prop := t.mem = s.mem ∧ linked t.log = linked s.log

/-- The page of `v` was not mapped and now it is, at `p`. -/
structure Committed (pml4 : Ptr) (owned : Nat → Prop) (mapped : PageMap) (p v : Ptr)
    (s t : Machine MmStatics) : Prop where
  unmapped : mapped.find v = none
  state : MapState pml4 t ((p, v) :: mapped)
  frame : ∀ x, ¬ owned x → OffTables pml4 t x → t.mem x = s.mem x

/-- What `n` rounds of the third loop have done, by the status that the call returns
after them. -/
inductive MapPagesOutcome (pml4 : Ptr) (owned : Nat → Prop) (mapped : PageMap) (n : Nat)
    (p v : Ptr) (s t : Machine MmStatics) : FeralStatus → Prop where
  | none : n = 0 → Untouched s t → MapPagesOutcome pml4 owned mapped n p v s t .success
  | used : 0 < n → (mapped.find v).isSome → Untouched s t →
      MapPagesOutcome pml4 owned mapped n p v s t .memoryPageFailure
  | one : n = 1 → Committed pml4 owned mapped p v s t →
      MapPagesOutcome pml4 owned mapped n p v s t .success
  | part : 2 ≤ n → Committed pml4 owned mapped p v s t →
      MapPagesOutcome pml4 owned mapped n p v s t .memoryPageFailure

theorem Untouched.mapState (h : Untouched s t) (hs : MapState pml4 s mapped) :
    MapState pml4 t mapped :=
  hs.congr h.2 fun _ _ _ _ _ => by rw [h.1]

/-- The state before round `i`: the first round maps the page and there is no third. -/
def MapRound (pml4 : Ptr) (owned : Nat → Prop) (mapped : PageMap) (p v : Ptr)
    (s : Machine MmStatics) (i : Nat) (t : Machine MmStatics) : Prop :=
  i = 0 ∧ Untouched s t ∨ i = 1 ∧ Committed pml4 owned mapped p v s t

theorem MapRound.treeAt {i : Nat} (h : MapRound pml4 owned mapped p v s i t)
    (hs : MapState pml4 s mapped) : TreeAt pml4 t := by
  rcases h with ⟨-, hsame⟩ | ⟨-, hdone⟩
  · exact (hsame.mapState hs).tree
  · exact hdone.state.tree

/-- One round of the loop. -/
theorem MapRound.step {status : FeralStatus} {n i : Nat} (hi : i < n)
    (h : MapRound pml4 owned mapped p v s i t) (hs : MapState pml4 s mapped)
    (hext : Extends view t u) (hout : MapOutcome pml4 owned t u p v status) :
    (status = .success → MapRound pml4 owned mapped p v s (i + 1) u) ∧
      (status ≠ .success → MapPagesOutcome pml4 owned mapped n p v s u status) := by
  rcases h with ⟨rfl, hsame⟩ | ⟨rfl, hdone⟩
  · have ht := hsame.mapState hs
    cases hf : mapped.find v with
    | none =>
      have hleaf := ht.leaf v
      rw [hf] at hleaf
      obtain ⟨hst, hu, -⟩ := ht.step hout
      rw [PageMap.step, hf] at hst hu
      refine ⟨fun _ => Or.inr ⟨rfl, hf, hu, fun x hx hoff => ?_⟩, fun hne => absurd hst hne⟩
      rw [hout.frame x hx hoff, hsame.1]
    | some c =>
      have hleaf := ht.leaf v
      rw [hf] at hleaf
      obtain ⟨rfl, hm, hlog⟩ := hout.failed (by rw [hleaf]; rfl)
      refine ⟨fun hst => ?_, fun _ => .used hi (by rw [hf]; rfl) ?_⟩
      · cases hst
      · exact ⟨hm.trans hsame.1, hlog.trans hsame.2⟩
  · have hleaf := hdone.state.leaf v
    have hfind : (PageMap.find ((p, v) :: mapped) v).isSome :=
      PageMap.find_isSome.mpr ⟨(p, v), List.mem_cons_self .., SamePage.refl v⟩
    obtain ⟨rfl, hm, hlog⟩ := hout.failed (by rw [hleaf, Option.isSome_map]; exact hfind)
    refine ⟨fun hst => ?_, fun _ => .part (by omega) ⟨hdone.unmapped, ?_, ?_⟩⟩
    · cases hst
    · exact hdone.state.congr hlog fun _ _ _ _ _ => by rw [hm]
    · intro x hx hoff
      rw [hm]
      exact hdone.frame x hx (hoff.of_extends hext)

/-- The status with which the call ends when the third loop does. -/
def loopStatus : FeralStatus ⊕ Unit → FeralStatus
  | .inl status => status
  | .inr () => .success

theorem mapPages_spec (hmalloc : TableAllocator malloc owned view) (hpml4 : Spans pml4 4096)
    (pages : BitVec 64) (p v : Ptr) (s : Machine MmStatics) (mapped : PageMap) :
    Returns (mapPages malloc pages pml4 p v) s fun r t =>
      Extends view s t ∧
      (FreshTables pml4 owned (linked t.log) → MapState pml4 s mapped →
        MapPagesOutcome pml4 owned mapped pages.toNat p v s t (loopStatus r)) := by
  apply returns_forCount (fun i _ t => Extends view s t ∧
    (FreshTables pml4 owned (linked t.log) → MapState pml4 s mapped →
      MapRound pml4 owned mapped p v s i t)) pages.toNat _ _ pages.toNat 0 () s (by omega)
  · exact ⟨Extends.refl view s, fun _ _ => Or.inl ⟨rfl, rfl, rfl⟩⟩
  · intro i _ t hi ht
    obtain ⟨hext, hround⟩ := ht
    apply (x86MapAddress_spec hmalloc hpml4 p v).bind
    intro status u hu
    obtain ⟨hext', hout⟩ := hu
    have hstep : FreshTables pml4 owned (linked u.log) → MapState pml4 s mapped →
        (status = .success → MapRound pml4 owned mapped p v s (i + 1) u) ∧
        (status ≠ .success → MapPagesOutcome pml4 owned mapped pages.toNat p v s u status) := by
      intro hfresh hs
      have hr := hround (hfresh.of_suffix hext'.suffix) hs
      exact hr.step hi hs hext' (hout hfresh (hr.treeAt hs))
    by_cases hst : status = .success
    · rw [if_neg (not_not_intro hst), returns_pure]
      exact ⟨hext.trans hext', fun hfresh hs => (hstep hfresh hs).1 hst⟩
    · rw [if_pos hst, returns_pure]
      exact ⟨hext.trans hext', fun hfresh hs => (hstep hfresh hs).2 hst⟩
  · intro _ t ht
    obtain ⟨hext, hround⟩ := ht
    refine ⟨hext, fun hfresh hs => ?_⟩
    rcases hround hfresh hs with ⟨hn, hsame⟩ | ⟨hn, hdone⟩
    · exact .none hn hsame
    · exact .one hn hdone

/-! ## The whole call -/

/-- What a call has done, by its status: the checks have failed, or the third loop
has run. -/
inductive AllocOutcome (pml4 : Ptr) (owned : Nat → Prop) (mapped : PageMap) (pages : BitVec 64)
    (p v : Ptr) (s t : Machine MmStatics) : FeralStatus → Prop where
  | conflict : ¬ (FramesFree s pages p ∧ PagesFree s pages pml4 v) → Untouched s t →
      AllocOutcome pml4 owned mapped pages p v s t .memoryPageConflict
  | ran {status : FeralStatus} : FramesFree s pages p → PagesFree s pages pml4 v →
      MapPagesOutcome pml4 owned mapped pages.toNat p v s t status →
      AllocOutcome pml4 owned mapped pages p v s t status

theorem Unwritten.untouched (h : Unwritten s t) : Untouched s t := ⟨h.1, h.2.2⟩

theorem Unwritten.trans (h : Unwritten s t) (h' : Unwritten t u) : Unwritten s u :=
  ⟨h'.1.trans h.1, h.2.trans h'.2⟩

theorem Unwritten.pagesFree (h : Unwritten s t) (pages : BitVec 64) (pml4 v : Ptr) :
    PagesFree t pages pml4 v ↔ PagesFree s pages pml4 v := by
  rw [PagesFree, PagesFree, h.1]

/-- What the call returns when the third loop ends. -/
def loopResult (v : Ptr) : FeralStatus ⊕ Unit → FeralStatus × Option Ptr
  | .inl status => (status, none)
  | .inr () => (.success, some v)

theorem fst_loopResult (v : Ptr) (r : FeralStatus ⊕ Unit) : (loopResult v r).1 = loopStatus r := by
  cases r with
  | inl status => rfl
  | inr _ => rfl

/-- The checks write nothing, so a call is refused or it is a run of the third loop. -/
theorem mmKernelAllocPages_of_loop {pages : BitVec 64} {baseAddr baseVAddr : Ptr}
    {Q : FeralStatus × Option Ptr → Machine MmStatics → Prop}
    (hdiv : s.statics.mmState.pAllocInfo.Divides)
    (hconflict : ∀ t, Unwritten s t →
      ¬ (FramesFree s pages baseAddr ∧
        PagesFree s pages pml4 (virtualBase baseAddr baseVAddr)) →
      Q (.memoryPageConflict, none) t)
    (hloop : ∀ t, Unwritten s t → FramesFree s pages baseAddr →
      PagesFree s pages pml4 (virtualBase baseAddr baseVAddr) →
      Returns (mapPages malloc pages pml4 baseAddr (virtualBase baseAddr baseVAddr)) t
        fun r u => Q (loopResult (virtualBase baseAddr baseVAddr) r) u) :
    Returns (mmKernelAllocPages malloc pages pml4 baseAddr baseVAddr) s Q := by
  have hbase : (if baseAddr = 0 then 0 else baseAddr) = baseAddr := by
    split
    next h => exact h.symm
    next => rfl
  rw [mmKernelAllocPages, hbase]
  apply (checkFrames_spec pages baseAddr s hdiv).bind
  intro r1 t1 h1
  obtain ⟨hkept1, ⟨hframes, rfl⟩ | ⟨hframes, rfl⟩⟩ := h1
  · apply (checkPages_spec pages pml4 (virtualBase baseAddr baseVAddr) t1).bind
    intro r2 t2 h2
    obtain ⟨hkept, hpages⟩ := h2
    have hkept2 := hkept1.trans hkept
    rw [hkept1.pagesFree] at hpages
    rcases hpages with ⟨hpages, rfl⟩ | ⟨hpages, rfl⟩
    · apply (hloop t2 hkept2 hframes hpages).bind
      intro r3 t3 h3
      cases r3 with
      | inl status => exact returns_pure.mpr h3
      | inr _ => exact returns_pure.mpr h3
    · rw [returns_pure]
      exact hconflict t2 hkept2 fun h => hpages h.2
  · rw [returns_pure]
    exact hconflict t1 hkept1 fun h => hframes h.1

/-- The size of a frame stays. -/
theorem Extends.divides (h : Extends MmStatics.mmState s t)
    (hdiv : s.statics.mmState.pAllocInfo.Divides) : t.statics.mmState.pAllocInfo.Divides := by
  rw [h.view_eq]
  exact hdiv

/-- The loop starts after the checks, which have written nothing. -/
theorem MapPagesOutcome.of_unwritten {n : Nat} {status : FeralStatus} (h : Unwritten s t)
    (hout : MapPagesOutcome pml4 owned mapped n p v t u status) :
    MapPagesOutcome pml4 owned mapped n p v s u status := by
  have hsame : Untouched t u → Untouched s u := fun hu => ⟨hu.1.trans h.1, hu.2.trans h.2.2⟩
  have hdone : Committed pml4 owned mapped p v t u → Committed pml4 owned mapped p v s u :=
    fun hc => ⟨hc.unmapped, hc.state, fun x hx hoff => by rw [hc.frame x hx hoff, h.1]⟩
  cases hout with
  | none hn hu => exact .none hn (hsame hu)
  | used hn hf hu => exact .used hn hf (hsame hu)
  | one hn hc => exact .one hn (hdone hc)
  | part hn hc => exact .part hn (hdone hc)

theorem mmKernelAllocPages_spec (hmalloc : TableAllocator malloc owned view)
    (hpml4 : Spans pml4 4096) (pages : BitVec 64) (baseAddr baseVAddr : Ptr)
    (s : Machine MmStatics) (hdiv : s.statics.mmState.pAllocInfo.Divides) (mapped : PageMap) :
    Returns (mmKernelAllocPages malloc pages pml4 baseAddr baseVAddr) s fun r t =>
      Extends view s t ∧
      (FreshTables pml4 owned (linked t.log) → MapState pml4 s mapped →
        AllocOutcome pml4 owned mapped pages baseAddr (virtualBase baseAddr baseVAddr) s t r.1) := by
  apply mmKernelAllocPages_of_loop hdiv
  · intro t ht hused
    exact ⟨Extends.of_sameSide ht.2, fun _ _ => .conflict hused ht.untouched⟩
  · intro t ht hframes hpages
    apply (mapPages_spec hmalloc hpml4 pages baseAddr _ t mapped).mono
    intro r u hu
    obtain ⟨hext, hout⟩ := hu
    refine ⟨(Extends.of_sameSide ht.2).trans hext, fun hfresh hs => ?_⟩
    have hloop := hout hfresh (ht.untouched.mapState hs)
    rw [fst_loopResult]
    exact .ran hframes hpages (hloop.of_unwritten ht)

/-! ## The transaction -/

/-- The walk of every address and what is reported of every frame are the same. -/
structure Unchanged (pml4 : Ptr) (s t : Machine MmStatics) : Prop where
  walk : ∀ v, translate t.mem (phys pml4) v = translate s.mem (phys pml4) v
  frames : ∀ location, t.statics.mmState.lookupFrame t.mem location =
    s.statics.mmState.lookupFrame s.mem location

/-- The checks pass and the first page is not mapped, so that the third loop maps it. -/
structure AllocReady (pml4 : Ptr) (pages : BitVec 64) (p v : Ptr) (s : Machine MmStatics) :
    Prop where
  frames : FramesFree s pages p
  pages : PagesFree s pages pml4 v
  unmapped : translate s.mem (phys pml4) v = none

theorem MapState.translate_none (h : MapState pml4 s mapped) (v : Ptr) :
    translate s.mem (phys pml4) v = none ↔ mapped.find v = none := by
  rw [h.translate_eq v, Option.map_eq_none_iff]

theorem Committed.translate_eq (h : Committed pml4 owned mapped p v s t) :
    translate t.mem (phys pml4) v = some { address := frameBits p, writable := true } := by
  have hfind : PageMap.find ((p, v) :: mapped) v = some (p, v) := by
    rw [PageMap.find, List.find?_cons, decide_eq_true (SamePage.refl v)]
  rw [h.state.translate_eq v, hfind]
  rfl

/-- A failed call has changed nothing, unless it has mapped the first of several pages. -/
theorem AllocOutcome.transaction_iff {pages : BitVec 64} {status : FeralStatus}
    (h : AllocOutcome pml4 owned mapped pages p v s t status) (hs : MapState pml4 s mapped)
    (hview : t.statics.mmState = s.statics.mmState) :
    (status ≠ .success → Unchanged pml4 s t) ↔
      ¬ (2 ≤ pages.toNat ∧ AllocReady pml4 pages p v s) := by
  have hsame : Untouched s t → Unchanged pml4 s t := by
    intro hu
    constructor
    · intro w
      rw [hu.1]
    · intro location
      rw [hu.1, hview]
  cases h with
  | conflict hchecks hu =>
    constructor
    · intro _ hready
      exact hchecks ⟨hready.2.frames, hready.2.pages⟩
    · intro _ _
      exact hsame hu
  | ran hframes hpages hloop =>
    cases hloop with
    | none hn hu =>
      constructor
      · intro _ hready
        omega
      · intro _ _
        exact hsame hu
    | used hn hf hu =>
      constructor
      · intro _ hready
        rw [(hs.translate_none v).mp hready.2.unmapped] at hf
        cases hf
      · intro _ _
        exact hsame hu
    | one hn hc =>
      constructor
      · intro _ hready
        omega
      · intro _ hne
        exact absurd rfl hne
    | part hn hc =>
      have hnone := (hs.translate_none v).mpr hc.unmapped
      constructor
      · intro hun _
        have hwalk := (hun (by simp)).walk v
        rw [hc.translate_eq, hnone] at hwalk
        cases hwalk
      · intro hready
        exact absurd ⟨hn, hframes, hpages, hnone⟩ hready

/-- The two states have the same tables linked, with the same contents.  The rest of
memory, the bitmap with it, and the static variables may differ. -/
structure SameTables (pml4 : Ptr) (s t : Machine MmStatics) : Prop where
  tables : linked t.log = linked s.log
  mem : ∀ a ∈ tablePages pml4 (linked s.log), ∀ x, a ≤ x → x < a + 4096 → t.mem x = s.mem x

/-- `MmKernelAllocPages` is a transaction in a state exactly when it is not about to
map the first of several pages. -/
theorem mmKernelAllocPages_transaction_iff
    (hmalloc : TableAllocator malloc owned MmStatics.mmState) (hpml4 : Spans pml4 4096)
    (hlog : linked s.log = [])
    (hzero : ∀ x, phys pml4 ≤ x → x < phys pml4 + 4096 → s.mem x = 0)
    (calls : List (Ptr × Ptr)) :
    Returns (mapAll malloc pml4 calls) s fun _ t => ∀ u, SameTables pml4 t u →
      u.statics.mmState.pAllocInfo.Divides →
      ∀ (pages : BitVec 64) (baseAddr baseVAddr : Ptr),
        Returns (mmKernelAllocPages malloc pages pml4 baseAddr baseVAddr) u fun r w =>
          FreshTables pml4 owned (linked w.log) →
            ((r.1 ≠ .success → Unchanged pml4 u w) ↔
              ¬ (2 ≤ pages.toNat ∧
                AllocReady pml4 pages baseAddr (virtualBase baseAddr baseVAddr) u)) := by
  apply (mapAll_spec hmalloc hpml4 calls s []).mono
  intro _ t ht u hu hdiv pages baseAddr baseVAddr
  apply (mmKernelAllocPages_spec hmalloc hpml4 pages baseAddr baseVAddr u hdiv
    (PageMap.run [] calls).2).mono
  intro r w hw hfresh
  obtain ⟨hext, hout⟩ := hw
  have hfresh' : FreshTables pml4 owned (linked t.log) := by
    rw [← hu.tables]
    exact hfresh.of_suffix hext.suffix
  obtain ⟨-, hstate⟩ := ht.2 hfresh' (mapState_empty hlog hzero)
  have hstate' := hstate.congr hu.tables hu.mem
  exact (hout hfresh hstate').transaction_iff hstate' hext.view_eq

end Alloc

/-! ## With the bump allocator -/

theorem Bumped.of_unwritten {n : Nat} {s t : Machine MmStatics} (h : Bumped n s)
    (hu : Unwritten s t) : Bumped n t := by
  constructor
  · rw [hu.2.1]
    exact h.count
  · rw [hu.2.2]
    exact h.tables

theorem mapPages_bump (pages : BitVec 64) (pml4 p v : Ptr) {n : Nat} {s : Machine MmStatics}
    (h : Bumped n s) (hn : n + 3 * pages.toNat < 2 ^ 32) :
    Returns (mapPages bumpMalloc pages pml4 p v) s fun _ t =>
      ∃ k, k ≤ n + 3 * pages.toNat ∧ Bumped k t := by
  apply returns_forCount (fun i _ t => ∃ k, k ≤ n + 3 * i ∧ Bumped k t) pages.toNat _ _
    pages.toNat 0 () s (by omega)
  · exact ⟨n, by omega, h⟩
  · intro i _ t hi ht
    obtain ⟨k, hk, ht⟩ := ht
    apply (x86MapAddress_bump ht (by omega) pml4 p v).bind
    intro status u hu
    obtain ⟨j, hj, hu⟩ := hu
    by_cases hst : status = .success
    · rw [if_neg (not_not_intro hst), returns_pure]
      exact ⟨j, by omega, hu⟩
    · rw [if_pos hst, returns_pure]
      exact ⟨j, by omega, hu⟩
  · intro _ t ht
    exact ht

theorem mmKernelAllocPages_bump (pages : BitVec 64) (pml4 baseAddr baseVAddr : Ptr) {n : Nat}
    {s : Machine MmStatics} (h : Bumped n s) (hdiv : s.statics.mmState.pAllocInfo.Divides)
    (hn : n + 3 * pages.toNat < 2 ^ 32) :
    Returns (mmKernelAllocPages bumpMalloc pages pml4 baseAddr baseVAddr) s fun _ t =>
      ∃ k, k ≤ n + 3 * pages.toNat ∧ Bumped k t := by
  apply mmKernelAllocPages_of_loop hdiv
  · intro t ht _
    exact ⟨n, by omega, h.of_unwritten ht⟩
  · intro t ht _ _
    exact mapPages_bump pages pml4 _ _ (h.of_unwritten ht) hn

/-- A manager of 64 KiB with its bitmap at 1 MiB, in cleared memory. -/
def allocMachine : Machine MmStatics :=
  { coldMachine with statics := { coldMachine.statics with mmState :=
      { pAllocInfo := { frameSize := 4096, memoryAreaRangeCount := 0, ranges := 0 }
        bitmaskUsedFrames := 0x100000
        maxPAddr := 0x10000 } } }

theorem allocMachine_bumped : Bumped 0 allocMachine := ⟨rfl, rfl⟩

theorem allocMachine_divides : allocMachine.statics.mmState.pAllocInfo.Divides :=
  divides_of_frameSize rfl

theorem allocRoot_spans : Spans 0x20000 4096 := by
  unfold Spans
  decide

/-- A call for one page after a mapping is a transaction. -/
theorem mmKernelAllocPages_transaction_one :
    Returns (mapAll bumpMalloc 0x20000 [(0x5000, 0x1000)]) allocMachine fun _ t =>
      Returns (mmKernelAllocPages bumpMalloc 1 0x20000 0x6000 0x3000) t fun r w =>
        FreshTables 0x20000 (fun _ => False) (linked w.log) ∧
        (r.1 ≠ .success → Unchanged 0x20000 t w) := by
  have htrans := mmKernelAllocPages_transaction_iff bumpMalloc_allocator allocRoot_spans
    (s := allocMachine) rfl (fun _ _ _ => rfl) [(0x5000, 0x1000)]
  have hbump := mapAll_bump 0x20000 [(0x5000, 0x1000)] 0 allocMachine allocMachine_bumped
    (by decide)
  have hspec := mapAll_spec bumpMalloc_allocator allocRoot_spans [(0x5000, 0x1000)] allocMachine []
  apply (htrans.and (hbump.and hspec)).mono
  intro _ t ht
  obtain ⟨hiff, ⟨k, hk, hbumped⟩, hext, -⟩ := ht
  have hdiv := hext.divides allocMachine_divides
  have hcall := hiff t ⟨rfl, fun _ _ _ _ _ => rfl⟩ hdiv 1 0x6000 0x3000
  have halloc := mmKernelAllocPages_bump 1 0x20000 0x6000 0x3000 hbumped hdiv
    (Nat.lt_of_le_of_lt (Nat.add_le_add_right hk _) (by decide))
  apply (hcall.and halloc).mono
  intro r w hw
  obtain ⟨hiff, j, hj, hbumped'⟩ := hw
  have hfresh : FreshTables 0x20000 (fun _ => False) (linked w.log) :=
    hbumped'.fresh (by decide) (Nat.le_trans hj (Nat.le_trans (Nat.add_le_add_right hk _) (by decide)))
  refine ⟨hfresh, (hiff hfresh).mpr ?_⟩
  exact fun h => absurd h.1 (by decide)

theorem allocMachine_ready : AllocReady 0x20000 2 0x5000 0x400000 allocMachine := by
  refine ⟨?_, ?_, ?_⟩
  · unfold FramesFree
    decide
  · unfold PagesFree
    decide
  · decide

/-- A call for two pages fails and leaves the first one mapped. -/
theorem mmKernelAllocPages_partial :
    Returns (mmKernelAllocPages bumpMalloc 2 0x20000 0x5000 0x400000) allocMachine fun r w =>
      FreshTables 0x20000 (fun _ => False) (linked w.log) ∧
      ¬ (r.1 ≠ .success → Unchanged 0x20000 allocMachine w) := by
  have hspec := mmKernelAllocPages_spec bumpMalloc_allocator allocRoot_spans 2 0x5000 0x400000
    allocMachine allocMachine_divides []
  have hbump := mmKernelAllocPages_bump 2 0x20000 0x5000 0x400000 allocMachine_bumped
    allocMachine_divides (by decide)
  apply (hspec.and hbump).mono
  intro r w hw
  obtain ⟨⟨hext, hout⟩, k, hk, hbumped⟩ := hw
  have hfresh : FreshTables 0x20000 (fun _ => False) (linked w.log) :=
    hbumped.fresh (by decide) (Nat.le_trans hk (by decide))
  have hstate : MapState 0x20000 allocMachine [] := mapState_empty rfl fun _ _ _ => rfl
  refine ⟨hfresh, fun htrans => ?_⟩
  exact ((hout hfresh hstate).transaction_iff hstate hext.view_eq).mp htrans
    ⟨by decide, allocMachine_ready⟩

end FeralKernel
