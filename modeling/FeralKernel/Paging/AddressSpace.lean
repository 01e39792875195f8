import FeralKernel.Paging.AllocRun
import FeralKernel.Paging.Unmap

/-!
# Any interleaving of the paging calls

`x86MapAddress`, `x86UnmapAddress` and `MmKernelAllocPages` work on one set of
tables.  A run is any list of calls to the three.  Its tables refine a map from
pages to frames, on which a call is one of the steps below, and what a page
translates to is read off the run itself.
-/

namespace FeralKernel

open Verif.Program Verif.Bytes Verif

/-! ## The calls -/

inductive PageCall where
  | map (physical virtual : Ptr)
  | unmap (virtual : Ptr)
  | alloc (pages : BitVec 64) (baseAddr baseVAddr : Ptr)

namespace PageCall

def run (malloc : BitVec 64 → Kern MmStatics Ptr) (pml4 : Ptr) :
    PageCall → Kern MmStatics FeralStatus
  | map physical virtual => x86MapAddress malloc pml4 physical virtual
  | unmap virtual => x86UnmapAddress pml4 virtual
  | alloc pages baseAddr baseVAddr => do
    let (status, _) ← mmKernelAllocPages malloc pages pml4 baseAddr baseVAddr
    pure status

/-- The call maps the page `c.2` at the frame `c.1` if it maps anything. -/
def Asks : PageCall → Ptr × Ptr → Prop
  | map physical virtual, c => c = (physical, virtual)
  | unmap _, _ => False
  | alloc _ baseAddr baseVAddr, c => c = (baseAddr, virtualBase baseAddr baseVAddr)

/-- The call unmaps the region that `v` is in. -/
def Drops : PageCall → Ptr → Prop
  | unmap virtual, v => pageIndex v 3 = pageIndex virtual 3
  | _, _ => False

end PageCall

def pageCalls (malloc : BitVec 64 → Kern MmStatics Ptr) (pml4 : Ptr) :
    List PageCall → Kern MmStatics (List FeralStatus)
  | [] => pure []
  | c :: rest => do
    let status ← c.run malloc pml4
    let statuses ← pageCalls malloc pml4 rest
    pure (status :: statuses)

/-! ## What a call does to the map -/

namespace PageMap

/-- One call.  A call of `MmKernelAllocPages` for two pages or more maps its first page and
then fails. -/
inductive Step (mapped : PageMap) : PageCall → FeralStatus → PageMap → Prop where
  | map {p v : Ptr} : mapped.find v = none → Step mapped (.map p v) .success ((p, v) :: mapped)
  | mapUsed {p v : Ptr} : (mapped.find v).isSome →
      Step mapped (.map p v) .memoryPageFailure mapped
  | unmap {v : Ptr} : (∃ c ∈ mapped, pageIndex c.2 3 = pageIndex v 3) →
      Step mapped (.unmap v) .success (mapped.dropRegion v)
  | unmapClear {v : Ptr} : (¬ ∃ c ∈ mapped, pageIndex c.2 3 = pageIndex v 3) →
      Step mapped (.unmap v) .memoryPageFailure mapped
  | allocConflict {n : BitVec 64} {p v : Ptr} :
      Step mapped (.alloc n p v) .memoryPageConflict mapped
  | allocNone {n : BitVec 64} {p v : Ptr} : n.toNat = 0 →
      Step mapped (.alloc n p v) .success mapped
  | allocUsed {n : BitVec 64} {p v : Ptr} : (mapped.find (virtualBase p v)).isSome →
      Step mapped (.alloc n p v) .memoryPageFailure mapped
  | allocOne {n : BitVec 64} {p v : Ptr} : n.toNat = 1 → mapped.find (virtualBase p v) = none →
      Step mapped (.alloc n p v) .success ((p, virtualBase p v) :: mapped)
  | allocPart {n : BitVec 64} {p v : Ptr} : 2 ≤ n.toNat →
      mapped.find (virtualBase p v) = none →
      Step mapped (.alloc n p v) .memoryPageFailure ((p, virtualBase p v) :: mapped)

/-- One call after the other. -/
inductive Steps : PageMap → List PageCall → List FeralStatus → PageMap → Prop where
  | nil {mapped : PageMap} : Steps mapped [] [] mapped
  | cons {mapped next last : PageMap} {call : PageCall} {status : FeralStatus}
      {calls : List PageCall} {statuses : List FeralStatus} :
      Step mapped call status next → Steps next calls statuses last →
      Steps mapped (call :: calls) (status :: statuses) last

variable {mapped next last : PageMap} {call : PageCall} {calls : List PageCall}
variable {status : FeralStatus} {statuses : List FeralStatus} {c : Ptr × Ptr}

theorem single_cons (h : mapped.Single) {p v : Ptr} (hfree : mapped.find v = none) :
    Single ((p, v) :: mapped) := by
  rw [find_eq_none] at hfree
  exact List.pairwise_cons.mpr ⟨fun d hd hsame => hfree d hd hsame.symm, h⟩

/-- No call maps a page twice. -/
theorem Step.single (hstep : Step mapped call status next) (h : mapped.Single) : next.Single := by
  cases hstep with
  | map hfree => exact single_cons h hfree
  | mapUsed _ => exact h
  | unmap _ => exact List.Pairwise.filter _ h
  | unmapClear _ => exact h
  | allocConflict => exact h
  | allocNone _ => exact h
  | allocUsed _ => exact h
  | allocOne _ hfree => exact single_cons h hfree
  | allocPart _ hfree => exact single_cons h hfree

/-- What is mapped stays mapped until its region is dropped. -/
theorem Step.keeps (hstep : Step mapped call status next) (hc : c ∈ mapped)
    (hdrop : ¬ call.Drops c.2) : c ∈ next := by
  cases hstep with
  | map _ => exact List.mem_cons_of_mem _ hc
  | mapUsed _ => exact hc
  | unmap _ => exact List.mem_filter.mpr ⟨hc, decide_eq_true hdrop⟩
  | unmapClear _ => exact hc
  | allocConflict => exact hc
  | allocNone _ => exact hc
  | allocUsed _ => exact hc
  | allocOne _ _ => exact List.mem_cons_of_mem _ hc
  | allocPart _ _ => exact List.mem_cons_of_mem _ hc

/-- What is mapped now was mapped before or has been asked for. -/
theorem Step.source (hstep : Step mapped call status next) (hc : c ∈ next) :
    c ∈ mapped ∧ ¬ call.Drops c.2 ∨ call.Asks c := by
  cases hstep with
  | map _ => exact (List.mem_cons.mp hc).symm.imp_left fun h => ⟨h, fun hd => hd⟩
  | mapUsed _ => exact Or.inl ⟨hc, fun hd => hd⟩
  | @unmap v _ =>
    obtain ⟨hmem, hne⟩ := List.mem_filter.mp hc
    have hother : pageIndex c.2 3 ≠ pageIndex v 3 := of_decide_eq_true hne
    exact Or.inl ⟨hmem, hother⟩
  | unmapClear hclear => exact Or.inl ⟨hc, fun hd => hclear ⟨c, hc, hd⟩⟩
  | allocConflict => exact Or.inl ⟨hc, fun hd => hd⟩
  | allocNone _ => exact Or.inl ⟨hc, fun hd => hd⟩
  | allocUsed _ => exact Or.inl ⟨hc, fun hd => hd⟩
  | allocOne _ _ => exact (List.mem_cons.mp hc).symm.imp_left fun h => ⟨h, fun hd => hd⟩
  | allocPart _ _ => exact (List.mem_cons.mp hc).symm.imp_left fun h => ⟨h, fun hd => hd⟩

theorem Steps.single (h : Steps mapped calls statuses last) (hs : mapped.Single) :
    last.Single := by
  induction h with
  | nil => exact hs
  | cons hstep _ ih => exact ih (hstep.single hs)

theorem Steps.keeps (h : Steps mapped calls statuses last) (hc : c ∈ mapped)
    (hdrop : ∀ d ∈ calls, ¬ d.Drops c.2) : c ∈ last := by
  induction h with
  | nil => exact hc
  | cons hstep _ ih =>
    exact ih (hstep.keeps hc (hdrop _ (List.mem_cons_self ..)))
      fun d hd => hdrop d (List.mem_cons_of_mem _ hd)

/-- What is mapped at the end was there at the start or has been asked for by a call of the
run, and no later call has dropped it. -/
theorem Steps.source (h : Steps mapped calls statuses last) (hc : c ∈ last) :
    (c ∈ mapped ∧ ∀ d ∈ calls, ¬ d.Drops c.2) ∨
      ∃ i call, calls[i]? = some call ∧ call.Asks c ∧ ∀ d ∈ calls.drop (i + 1), ¬ d.Drops c.2 := by
  induction h with
  | nil => exact Or.inl ⟨hc, fun d hd => by cases hd⟩
  | @cons _ _ _ call _ calls _ hstep _ ih =>
    rcases ih hc with ⟨hmem, hdrop⟩ | ⟨i, d, hi, hasks, hdrop⟩
    · rcases hstep.source hmem with ⟨hmem', hd⟩ | hasks
      · refine Or.inl ⟨hmem', fun d hmem => ?_⟩
        rcases List.mem_cons.mp hmem with rfl | hmem
        · exact hd
        · exact hdrop d hmem
      · exact Or.inr ⟨0, call, rfl, hasks, hdrop⟩
    · exact Or.inr ⟨i + 1, d, hi, hasks, hdrop⟩

/-- A mapping that has succeeded is there at the end if no later call has dropped it. -/
theorem Steps.mapped_of_success (h : Steps mapped calls statuses last) {i : Nat} {p v : Ptr}
    (hi : calls[i]? = some (.map p v)) (hst : statuses[i]? = some .success)
    (hdrop : ∀ d ∈ calls.drop (i + 1), ¬ d.Drops v) : (p, v) ∈ last := by
  induction h generalizing i with
  | nil => cases hi
  | cons hstep hrest ih =>
    cases i with
    | succ i => exact ih hi hst hdrop
    | zero =>
      cases hi
      cases hst
      cases hstep with
      | map _ => exact hrest.keeps (List.mem_cons_self ..) hdrop

end PageMap

/-! ## The tables refine the map -/

section Refine

variable {malloc : BitVec 64 → Kern MmStatics Ptr} {owned : Nat → Prop} {pml4 : Ptr}
  {mapped : PageMap} {s t : Machine MmStatics}

theorem PageMap.Step.of_alloc {pages : BitVec 64} {p v : Ptr} {status : FeralStatus}
    (h : AllocOutcome pml4 owned mapped pages p (virtualBase p v) s t status)
    (hs : MapState pml4 s mapped) :
    ∃ next, PageMap.Step mapped (.alloc pages p v) status next ∧ MapState pml4 t next := by
  cases h with
  | conflict _ hu => exact ⟨_, .allocConflict, hu.mapState hs⟩
  | ran _ _ hloop =>
    cases hloop with
    | none hn hu => exact ⟨_, .allocNone hn, hu.mapState hs⟩
    | used _ hused hu => exact ⟨_, .allocUsed hused, hu.mapState hs⟩
    | one hn hc => exact ⟨_, .allocOne hn hc.unmapped, hc.state⟩
    | part hn hc => exact ⟨_, .allocPart hn hc.unmapped, hc.state⟩

theorem PageCall.run_spec (hmalloc : TableAllocator malloc owned MmStatics.mmState)
    (hpml4 : Spans pml4 4096) (call : PageCall) (s : Machine MmStatics)
    (hdiv : s.statics.mmState.pAllocInfo.Divides) (mapped : PageMap) :
    Returns (call.run malloc pml4) s fun status t =>
      Extends MmStatics.mmState s t ∧
      (FreshTables pml4 owned (linked t.log) → MapState pml4 s mapped →
        ∃ next, PageMap.Step mapped call status next ∧ MapState pml4 t next) := by
  cases call with
  | map p v =>
    apply (x86MapAddress_spec hmalloc hpml4 p v).mono
    intro status t ht
    refine ⟨ht.1, fun hfresh hs => ⟨_, ?_, (hs.step (ht.2 hfresh hs.tree)).2.1⟩⟩
    obtain ⟨hst, -, -⟩ := hs.step (ht.2 hfresh hs.tree)
    rw [hst, PageMap.step]
    cases hfind : mapped.find v with
    | none => exact .map hfind
    | some c => exact .mapUsed (by rw [hfind]; rfl)
  | unmap v =>
    have hext : Returns (x86UnmapAddress pml4 v) s fun _ t => Extends MmStatics.mmState s t :=
      (x86UnmapAddress_spec pml4 v s).mono fun _ _ ht => Extends.of_sameSide ht.1
    by_cases hs : FreshTables pml4 owned (linked s.log) ∧ MapState pml4 s mapped
    · apply (hext.and (hs.2.unmap hs.1.apart hpml4 v)).mono
      intro status t ht
      obtain ⟨hext, hcase, hstate⟩ := ht
      refine ⟨hext, fun _ _ => ?_⟩
      rcases hcase with ⟨hregion, rfl⟩ | ⟨hregion, rfl, -⟩
      · exact ⟨_, .unmap hregion, hstate⟩
      · have hall : mapped.dropRegion v = mapped :=
          List.filter_eq_self.mpr fun c hc => decide_eq_true fun he => hregion ⟨c, hc, he⟩
        rw [hall] at hstate
        exact ⟨_, .unmapClear hregion, hstate⟩
    · apply hext.mono
      intro status t ht
      exact ⟨ht, fun hfresh hstate => absurd ⟨hfresh.of_suffix ht.suffix, hstate⟩ hs⟩
  | alloc pages p v =>
    apply (mmKernelAllocPages_spec hmalloc hpml4 pages p v s hdiv mapped).bind
    intro r t ht
    obtain ⟨status, result⟩ := r
    rw [returns_pure]
    exact ⟨ht.1, fun hfresh hs => PageMap.Step.of_alloc (ht.2 hfresh hs) hs⟩

theorem pageCalls_spec (hmalloc : TableAllocator malloc owned MmStatics.mmState)
    (hpml4 : Spans pml4 4096) (calls : List PageCall) :
    ∀ (s : Machine MmStatics), s.statics.mmState.pAllocInfo.Divides → ∀ mapped : PageMap,
      Returns (pageCalls malloc pml4 calls) s fun statuses t =>
        Extends MmStatics.mmState s t ∧
        (FreshTables pml4 owned (linked t.log) → MapState pml4 s mapped →
          ∃ last, PageMap.Steps mapped calls statuses last ∧ MapState pml4 t last) := by
  induction calls with
  | nil =>
    intro s _ mapped
    rw [pageCalls, returns_pure]
    exact ⟨Extends.refl _ s, fun _ hs => ⟨mapped, .nil, hs⟩⟩
  | cons call rest ih =>
    intro s hdiv mapped
    rw [pageCalls]
    apply (call.run_spec hmalloc hpml4 s hdiv mapped).bind
    intro status t ht
    obtain ⟨hext, hstep⟩ := ht
    -- the map after this call is known once the tables of the whole run are
    by_cases hs : FreshTables pml4 owned (linked t.log) ∧ MapState pml4 s mapped
    · obtain ⟨next, hnext, hstate⟩ := hstep hs.1 hs.2
      apply (ih t (hext.divides hdiv) next).bind
      intro statuses u hu
      rw [returns_pure]
      refine ⟨hext.trans hu.1, fun hfresh _ => ?_⟩
      obtain ⟨last, hsteps, hlast⟩ := hu.2 hfresh hstate
      exact ⟨last, .cons hnext hsteps, hlast⟩
    · apply (ih t (hext.divides hdiv) mapped).bind
      intro statuses u hu
      rw [returns_pure]
      exact ⟨hext.trans hu.1, fun hfresh hstate =>
        absurd ⟨hfresh.of_suffix hu.1.suffix, hstate⟩ hs⟩

/-- After any interleaving of the calls from a cleared root, the statuses and the
translations are those of a run on the map.  A page translates only to the frame that a
call has asked for, with no unmapping of its region since.  A mapping that has succeeded
translates until then.  The frame is what an entry holds of the physical address asked for,
which is all of it below 2^52. -/
theorem pageCalls_refine (hmalloc : TableAllocator malloc owned MmStatics.mmState)
    (hpml4 : Spans pml4 4096) {s : Machine MmStatics}
    (hdiv : s.statics.mmState.pAllocInfo.Divides) (hlog : linked s.log = [])
    (hzero : ∀ x, phys pml4 ≤ x → x < phys pml4 + 4096 → s.mem x = 0) (calls : List PageCall) :
    Returns (pageCalls malloc pml4 calls) s fun statuses t =>
      FreshTables pml4 owned (linked t.log) →
        (∃ last, PageMap.Steps [] calls statuses last ∧ ∀ v, translate t.mem (phys pml4) v =
          (last.find v).map fun c => { address := frameBits c.1, writable := true }) ∧
        (∀ v frame, translate t.mem (phys pml4) v = some frame →
          ∃ i call p w, calls[i]? = some call ∧ call.Asks (p, w) ∧ SamePage w v ∧
            frame = { address := frameBits p, writable := true } ∧
            ∀ d ∈ calls.drop (i + 1), ¬ d.Drops v) ∧
        ∀ i p v w, calls[i]? = some (.map p v) → statuses[i]? = some .success →
          (∀ d ∈ calls.drop (i + 1), ¬ d.Drops v) → SamePage v w →
            translate t.mem (phys pml4) w = some { address := frameBits p, writable := true } := by
  apply (pageCalls_spec hmalloc hpml4 calls s hdiv []).mono
  intro statuses t ht hfresh
  obtain ⟨last, hsteps, hstate⟩ := ht.2 hfresh (mapState_empty hlog hzero)
  have hsingle : last.Single := hsteps.single List.Pairwise.nil
  refine ⟨⟨last, hsteps, hstate.translate_eq⟩, fun v frame hv => ?_, fun i p v w hi hst hdrop hw => ?_⟩
  · rw [hstate.translate_eq v, Option.map_eq_some_iff] at hv
    obtain ⟨c, hc, rfl⟩ := hv
    have hmem := List.mem_of_find?_eq_some hc
    have hsame : SamePage c.2 v := by simpa using List.find?_some hc
    have hindex : pageIndex c.2 3 = pageIndex v 3 :=
      (List.cons.inj ((samePage_iff _ _).mp hsame).1).1
    have hdrops : ∀ d : PageCall, d.Drops v → d.Drops c.2 := by
      intro d hd
      cases d with
      | unmap w => exact hindex.trans hd
      | map _ _ => exact hd
      | alloc _ _ _ => exact hd
    rcases hsteps.source hmem with ⟨hnil, -⟩ | ⟨i, call, hi, hasks, hdrop⟩
    · cases hnil
    · exact ⟨i, call, c.1, c.2, hi, hasks, hsame, rfl, fun d hd hdv => hdrop d hd (hdrops d hdv)⟩
  · rw [hstate.translate_eq w, hsingle.find_eq (hsteps.mapped_of_success hi hst hdrop) hw]
    rfl

end Refine

/-! ## With the bump allocator -/

/-- The bound on the tables that a call can make. -/
def PageCall.tables : PageCall → Nat
  | .map _ _ => 3
  | .unmap _ => 0
  | .alloc pages _ _ => 3 * pages.toNat

theorem PageCall.run_bump (call : PageCall) (pml4 : Ptr) {n : Nat} {s : Machine MmStatics}
    (h : Bumped n s) (hdiv : s.statics.mmState.pAllocInfo.Divides)
    (hn : n + call.tables < 2 ^ 32) :
    Returns (call.run bumpMalloc pml4) s fun _ t => ∃ k, k ≤ n + call.tables ∧ Bumped k t := by
  cases call with
  | map p v => exact x86MapAddress_bump h hn pml4 p v
  | unmap v =>
    apply (x86UnmapAddress_spec pml4 v s).mono
    intro _ t ht
    exact ⟨n, Nat.le_refl n, by rw [ht.1.1]; exact h.count, by rw [ht.1.2]; exact h.tables⟩
  | alloc pages p v =>
    apply (mmKernelAllocPages_bump pages pml4 p v h hdiv hn).bind
    intro r t ht
    rw [returns_pure]
    exact ht

theorem pageCalls_bump {pml4 : Ptr} (hpml4 : Spans pml4 4096) (calls : List PageCall) :
    ∀ (n : Nat) (s : Machine MmStatics), Bumped n s → s.statics.mmState.pAllocInfo.Divides →
      n + (calls.map PageCall.tables).sum < 2 ^ 32 →
      Returns (pageCalls bumpMalloc pml4 calls) s fun _ t =>
        ∃ k, k ≤ n + (calls.map PageCall.tables).sum ∧ Bumped k t := by
  induction calls with
  | nil =>
    intro n s h _ _
    rw [pageCalls, returns_pure]
    exact ⟨n, by simp, h⟩
  | cons call rest ih =>
    intro n s h hdiv hn
    rw [List.map_cons, List.sum_cons] at hn ⊢
    rw [pageCalls]
    have hspec := call.run_spec bumpMalloc_allocator hpml4 s hdiv []
    apply ((call.run_bump pml4 h hdiv (by omega)).and hspec).bind
    intro _ t ht
    obtain ⟨⟨k, hk, ht⟩, hext, -⟩ := ht
    apply (ih k t ht (hext.divides hdiv) (by omega)).bind
    intro _ u hu
    obtain ⟨k', hk', hu⟩ := hu
    rw [returns_pure]
    exact ⟨k', by omega, hu⟩

/-- Two pages of one region are mapped, the region is unmapped, the first page is mapped
again and a third one is allocated. -/
theorem pageCalls_refine_bump :
    Returns (pageCalls bumpMalloc 0x20000
      [.map 0x5000 0x1000, .map 0x6000 0x2000, .unmap 0x2000, .map 0x7000 0x1000,
        .alloc 1 0x8000 0x3000]) allocMachine
      fun statuses t => FreshTables 0x20000 (fun _ => False) (linked t.log) ∧
        ∃ last, PageMap.Steps [] [.map 0x5000 0x1000, .map 0x6000 0x2000, .unmap 0x2000,
          .map 0x7000 0x1000, .alloc 1 0x8000 0x3000] statuses last ∧
          ∀ v, translate t.mem (phys 0x20000) v =
            (last.find v).map fun c => { address := frameBits c.1, writable := true } := by
  have hrefine := pageCalls_refine bumpMalloc_allocator allocRoot_spans allocMachine_divides rfl
    (fun _ _ _ => rfl) [.map 0x5000 0x1000, .map 0x6000 0x2000, .unmap 0x2000,
      .map 0x7000 0x1000, .alloc 1 0x8000 0x3000]
  have hbump := pageCalls_bump allocRoot_spans [.map 0x5000 0x1000, .map 0x6000 0x2000,
    .unmap 0x2000, .map 0x7000 0x1000, .alloc 1 0x8000 0x3000] 0 allocMachine
    allocMachine_bumped allocMachine_divides (by decide)
  apply (hrefine.and hbump).mono
  intro statuses t ht
  obtain ⟨hmain, k, hk, hbumped⟩ := ht
  have hk' : k ≤ 12 := hk
  have hfresh : FreshTables 0x20000 (fun _ => False) (linked t.log) :=
    hbumped.fresh (by decide) (by omega)
  exact ⟨hfresh, (hmain hfresh).1⟩

end FeralKernel
