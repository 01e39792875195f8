import FeralKernel.Mm.HeapRun
import FeralKernel.Paging.MapRun

/-!
# Page tables from the kernel heap

`x86MapAddress` with `MmKernelMalloc` as it is.  The heap hands out one address
for ever, so the three tables of the first mapping are one block.  If the block
is not page aligned, its entry loses the low bits of its address.  If it is, the
entry of the root and an entry of the block itself both name it.
-/

namespace FeralKernel

open Verif.Program Verif.Bytes Verif

/-- Every table obtained is read back from an entry of the tree, and no table
reached along another path meets it. -/
def TablesIntact (pml4 : Ptr) (t : Machine MmStatics) : Prop :=
  ∀ table ∈ linked t.log, ∃ q i e, q.length < 3 ∧
    Radix.lookup childTable (entries t.mem) (phys pml4) q i = some e ∧
    pageAlign e = kernVirtToPhys table ∧
    ∀ q' u, q'.length ≤ 3 → q' ≠ q ++ [i] →
      Radix.follow childTable (entries t.mem) (phys pml4) q' = some u → PagesApart (phys table) u

/-! ## Linking a block that may be linked already -/

section Link

variable {m : Mem} {slot a : Nat} {p : Ptr}

theorem read64_linkTable_root (hslot : slot + 8 ≤ phys p ∨ phys p + 4096 ≤ slot)
    (hzero : read64 m slot = 0) :
    read64 (linkTable m slot p) slot = PageMapEntry.linkTo (kernVirtToPhys p) := by
  rw [linkTable, read64_write64_same, read64_fill_outside (by omega), hzero]
  rfl

theorem read64_linkTable_self (hslot : phys p ≤ slot) (hslot' : slot + 8 ≤ phys p + 4096) :
    read64 (linkTable m slot p) slot = PageMapEntry.linkTo (kernVirtToPhys p) := by
  rw [linkTable, read64_write64_same, read64_fill_inside (by omega)]
  rfl

theorem read64_linkTable_outside (hblock : a + 8 ≤ phys p ∨ phys p + 4096 ≤ a)
    (hslot : a + 8 ≤ slot ∨ slot + 8 ≤ a) :
    read64 (linkTable m slot p) a = read64 m a := by
  rw [linkTable, read64_write64_outside (by omega), read64_fill_outside (by omega)]

theorem read64_linkTable_block (ha : phys p ≤ a) (ha' : a + 8 ≤ phys p + 4096)
    (hslot : a + 8 ≤ slot ∨ slot + 8 ≤ a) : read64 (linkTable m slot p) a = 0 := by
  rw [linkTable, read64_write64_outside (by omega), read64_fill_inside (by omega)]

end Link

/-! ## One level -/

/-- An arena at `b` and the block behind it that every call returns. -/
structure RealHeap (b area : Ptr) : Prop where
  arena : Spans b 128
  root : b + 32#64 ≠ 0
  node : b + 80#64 ≠ 0
  block : Spans (area + 1) 4096
  behind : phys b + 128 ≤ phys (area + 1)

/-- The arena is ready for a call. -/
structure HeapReady (b area : Ptr) (s : Machine MmStatics) : Prop where
  ready : ArenaReady b area s.mem
  arenas : s.statics.currentState.arenas = b

section Level

variable {b area table : Ptr} {level : BitVec 16} {s : Machine MmStatics}

theorem nextTable_heap (h : RealHeap b area) (hs : HeapReady b area s)
    (hslot : phys (PageMapEntry.slot table level) + 8 ≤ phys b ∨
      phys b + 128 ≤ phys (PageMapEntry.slot table level))
    (habsent : PageMapEntry.present (read64 s.mem (phys (PageMapEntry.slot table level))) = false) :
    Returns (nextTable mmKernelMalloc table level) s fun p t =>
      p = area + 1 ∧ HeapReady b area t ∧ linked t.log = (area + 1) :: linked s.log ∧
      ∃ m, (∀ x, x < phys b ∨ phys b + 128 ≤ x → m x = s.mem x) ∧
        t.mem = linkTable m (phys (PageMapEntry.slot table level)) (area + 1) := by
  have hread : HeapReady b area (s.note (.read (PageMapEntry.slot table level) 8)) :=
    ⟨hs.ready, hs.arenas⟩
  simp only [nextTable, returns_bind, returns_load64, habsent, Bool.false_eq_true, if_false]
  apply (mmKernelMalloc_spec hread.ready hread.arenas h.arena h.root h.node _).mono
  intro p t ht
  obtain ⟨rfl, hready, hframe, hside⟩ := ht
  apply (kiSetMemoryBytes_spec h.block (by decide)).mono
  intro _ u hu
  obtain ⟨-, hm, hside'⟩ := hu
  have hsize : setBytes PageMapEntry.tableSize = 4096 := rfl
  rw [hsize] at hm
  simp only [returns_store64, returns_record, returns_pure, Machine.note_mem, Machine.setMem_mem,
    read64_write64_same, write64_write64_same]
  refine ⟨trivial, ⟨?_, ?_⟩, ?_, t.mem, fun x hx => hframe x (by omega), ?_⟩
  · have hbehind := h.behind
    apply hready.congr
    intro x h1 h2 _
    show write64 u.mem _ _ x = t.mem x
    rw [write64_outside (by omega), hm, fill_outside (by omega)]
  · show u.statics.currentState.arenas = b
    rw [hside'.1, hside.1]
    exact hs.arenas
  · show (area + 1) :: linked u.log = _
    rw [hside'.2, hside.2]
    rfl
  · rw [linkTable, hm]
    rfl

end Level

/-! ## The first mapping -/

/-- The word at `r`, an entry of the root, and entry `i` of the block name the block. -/
structure SelfLinked (area : Ptr) (r : Nat) (i : Fin 512) (s : Machine MmStatics) : Prop where
  table : area + 1 ∈ linked s.log
  root : read64 s.mem r = PageMapEntry.linkTo (kernVirtToPhys (area + 1))
  self : read64 s.mem (phys (area + 1) + 8 * i.val) =
    PageMapEntry.linkTo (kernVirtToPhys (area + 1))

/-- The page of the root meets neither the arena nor the block. -/
structure RootApart (pml4 b area : Ptr) : Prop where
  spans : Spans pml4 4096
  arena : phys pml4 + 4096 ≤ phys b ∨ phys b + 128 ≤ phys pml4
  block : phys pml4 + 4096 ≤ phys (area + 1) ∨ phys (area + 1) + 4096 ≤ phys pml4

theorem HighPage.inWindow {p : Ptr} (h : HighPage p) : InWindow (kernVirtToPhys p) 4096 := by
  rw [InWindow, h.toNat_kernVirtToPhys]
  exact h.phys_lt

theorem HighPage.pageAlign_kernVirtToPhys {p : Ptr} (h : HighPage p) :
    pageAlign (kernVirtToPhys p) = kernVirtToPhys p := by
  apply pageAlign_of_aligned
  rw [h.toNat_kernVirtToPhys]
  exact h.phys_aligned

section First

variable {b area pml4 : Ptr} {s : Machine MmStatics}

/-- The first two levels get the same block, and its entry for the third table names it. -/
theorem firstLevels_heap (h : RealHeap b area) (hroot : RootApart pml4 b area)
    (hs : HeapReady b area s) (hzero : ∀ i : Fin 512, read64 s.mem (phys pml4 + 8 * i.val) = 0)
    (v : BitVec 64) {Q : FeralStatus → Machine MmStatics → Prop}
    {rest : Ptr → Kern MmStatics FeralStatus}
    (hrest : ∀ t, HeapReady b area t →
      SelfLinked area (phys pml4 + 8 * (pageIndex v 3).val) (pageIndex v 2) t →
      (∀ j, j ≠ pageIndex v 2 → read64 t.mem (phys (area + 1) + 8 * j.val) = 0) →
      Returns (rest (area + 1)) t Q) :
    Returns (do
      let pdp ← nextTable mmKernelMalloc pml4 (x86FindPageLevels v).2.level3
      let pd ← nextTable mmKernelMalloc pdp (x86FindPageLevels v).2.level2
      rest pd) s Q := by
  have hbehind := h.behind
  have harena := hroot.arena
  have hblock := hroot.block
  have h3 := (pageIndex v 3).isLt
  have h2 := (pageIndex v 2).isLt
  have hslot3 : phys (PageMapEntry.slot pml4 (x86FindPageLevels v).2.level3) =
      phys pml4 + 8 * (pageIndex v 3).val := phys_slot hroot.spans v 3
  have hslot2 : phys (PageMapEntry.slot (area + 1) (x86FindPageLevels v).2.level2) =
      phys (area + 1) + 8 * (pageIndex v 2).val := phys_slot h.block v 2
  apply (nextTable_heap h hs (by rw [hslot3]; omega) (by rw [hslot3, hzero]; rfl)).bind
  intro pdp t1 ht1
  obtain ⟨rfl, hs1, -, m1, hm1, hmem1⟩ := ht1
  rw [hslot3] at hmem1
  have hroot1 : read64 t1.mem (phys pml4 + 8 * (pageIndex v 3).val) =
      PageMapEntry.linkTo (kernVirtToPhys (area + 1)) := by
    rw [hmem1]
    apply read64_linkTable_root (by omega)
    rw [read64_congr fun x hx hx' => hm1 x (by omega), hzero]
  have hblock1 : ∀ j : Fin 512, read64 t1.mem (phys (area + 1) + 8 * j.val) = 0 := by
    intro j
    have hj := j.isLt
    rw [hmem1]
    exact read64_linkTable_block (by omega) (by omega) (by omega)
  apply (nextTable_heap h hs1 (by rw [hslot2]; omega) (by rw [hslot2, hblock1]; rfl)).bind
  intro pd t2 ht2
  obtain ⟨rfl, hs2, hlog2, m2, hm2, hmem2⟩ := ht2
  rw [hslot2] at hmem2
  apply hrest t2 hs2
  · refine ⟨by rw [hlog2]; exact List.mem_cons_self .., ?_, ?_⟩
    · rw [hmem2, read64_linkTable_outside (by omega) (by omega),
        read64_congr fun x hx hx' => hm2 x (by omega), hroot1]
    · rw [hmem2]
      exact read64_linkTable_self (by omega) (by omega)
  · intro j hj
    have hlt := j.isLt
    have hval : j.val ≠ (pageIndex v 2).val := fun hv => hj (Fin.ext hv)
    rw [hmem2]
    exact read64_linkTable_block (by omega) (by omega) (by omega)

/-- The third level finds its entry taken by the second, or gets the block once more. -/
theorem thirdLevel_heap (h : RealHeap b area) (hroot : RootApart pml4 b area)
    (hs : HeapReady b area s) (v : BitVec 64)
    (hself : SelfLinked area (phys pml4 + 8 * (pageIndex v 3).val) (pageIndex v 2) s)
    (hzero : ∀ j, j ≠ pageIndex v 2 → read64 s.mem (phys (area + 1) + 8 * j.val) = 0) :
    Returns (nextTable mmKernelMalloc (area + 1) (x86FindPageLevels v).2.level1) s fun pt t =>
      (pt = area + 1 ∨ pt = pageAlign (kernVirtToPhys (area + 1))) ∧
      SelfLinked area (phys pml4 + 8 * (pageIndex v 3).val) (pageIndex v 1) t := by
  have hbehind := h.behind
  have harena := hroot.arena
  have hblock := hroot.block
  have h3 := (pageIndex v 3).isLt
  have h1 := (pageIndex v 1).isLt
  have hslot1 : phys (PageMapEntry.slot (area + 1) (x86FindPageLevels v).2.level1) =
      phys (area + 1) + 8 * (pageIndex v 1).val := phys_slot h.block v 1
  by_cases hi : pageIndex v 1 = pageIndex v 2
  · rw [← hi] at hself
    have hpresent : PageMapEntry.present (read64 s.mem
        (phys (PageMapEntry.slot (area + 1) (x86FindPageLevels v).2.level1))) = true := by
      rw [hslot1, hself.self]
      exact PageMapEntry.present_linkTo _
    apply (nextTable_present hpresent).mono
    intro pt t ht
    obtain ⟨hpt, hm, hside⟩ := ht
    rw [hslot1, hself.self, PageMapEntry.pageAlign_linkTo] at hpt
    refine ⟨Or.inr hpt, ?_, ?_, ?_⟩
    · rw [hside.2]
      exact hself.table
    · rw [hm]
      exact hself.root
    · rw [hm]
      exact hself.self
  · apply (nextTable_heap h hs (by rw [hslot1]; omega) (by rw [hslot1, hzero _ hi]; rfl)).mono
    intro pt t ht
    obtain ⟨hpt, -, hlog, m, hm, hmem⟩ := ht
    rw [hslot1] at hmem
    refine ⟨Or.inl hpt, ?_, ?_, ?_⟩
    · rw [hlog]
      exact List.mem_cons_self ..
    · rw [hmem, read64_linkTable_outside (by omega) (by omega),
        read64_congr fun x hx hx' => hm x (by omega), hself.root]
    · rw [hmem]
      exact read64_linkTable_self (by omega) (by omega)

/-- The last write leaves the two entries alone when the block is page aligned. -/
theorem mapLeaf_heap (hroot : RootApart pml4 b area) {r : Nat} {i : Fin 512}
    (hr : phys pml4 ≤ r) (hr' : r + 8 ≤ phys pml4 + 4096) (hself : SelfLinked area r i s)
    {pt : Ptr} (hpt : pt = area + 1 ∨ pt = pageAlign (kernVirtToPhys (area + 1)))
    (physical : Ptr) (v : BitVec 64) :
    Returns (mapLeaf pt (x86FindPageLevels v).2.level0 physical) s fun _ t =>
      area + 1 ∈ linked t.log ∧ (HighPage (area + 1) → SelfLinked area r i t) := by
  have hblock := hroot.block
  have hi := i.isLt
  have h0 := (pageIndex v 0).isLt
  cases hraw : PageMapEntry.present (read64 s.mem
      (phys (PageMapEntry.slot pt (x86FindPageLevels v).2.level0))) with
  | true =>
    apply (mapLeaf_present hraw).mono
    intro _ t ht
    obtain ⟨-, hm, hside⟩ := ht
    have htable : area + 1 ∈ linked t.log := by
      rw [hside.2]
      exact hself.table
    exact ⟨htable, fun _ => ⟨htable, by rw [hm]; exact hself.root, by rw [hm]; exact hself.self⟩⟩
  | false =>
    apply (mapLeaf_absent hraw).mono
    intro _ t ht
    obtain ⟨-, hside, hm⟩ := ht
    have htable : area + 1 ∈ linked t.log := by
      rw [hside.2]
      exact hself.table
    refine ⟨htable, fun hpage => ?_⟩
    have hslot : phys (PageMapEntry.slot pt (x86FindPageLevels v).2.level0) =
        phys (area + 1) + 8 * (pageIndex v 0).val := by
      rcases hpt with rfl | rfl
      · exact phys_slot hpage.spans v 0
      · have hin := hpage.inWindow
        rw [hpage.pageAlign_kernVirtToPhys, ← hpage.toNat_kernVirtToPhys, ← hin.phys_eq]
        exact phys_slot (hin.spans.mono (by omega)) v 0
    rw [hslot] at hm hraw
    have hne : pageIndex v 0 ≠ i := by
      intro he
      rw [he, hself.self, PageMapEntry.present_linkTo] at hraw
      cases hraw
    have hval : (pageIndex v 0).val ≠ i.val := fun hv => hne (Fin.ext hv)
    refine ⟨htable, ?_, ?_⟩
    · rw [hm, read64_write64_outside (by omega), hself.root]
    · rw [hm, read64_write64_outside (by omega), hself.self]

/-- What the first mapping from a cleared root leaves behind. -/
theorem x86MapAddress_heap (h : RealHeap b area) (hroot : RootApart pml4 b area)
    (hs : HeapReady b area s) (hzero : ∀ i : Fin 512, read64 s.mem (phys pml4 + 8 * i.val) = 0)
    (physical v : Ptr) :
    Returns (x86MapAddress mmKernelMalloc pml4 physical v) s fun _ t =>
      area + 1 ∈ linked t.log ∧
      (HighPage (area + 1) →
        SelfLinked area (phys pml4 + 8 * (pageIndex v 3).val) (pageIndex v 1) t) := by
  have h3 := (pageIndex v 3).isLt
  rw [x86MapAddress_eq]
  apply firstLevels_heap h hroot hs hzero v
  intro t ht hself hclear
  apply (thirdLevel_heap h hroot ht v hself hclear).bind
  intro pt u hu
  exact mapLeaf_heap hroot (by omega) (by omega) hu.2 hu.1 physical v

/-- A block that names itself is reached along two paths. -/
theorem SelfLinked.not_intact {r : Nat} {i j : Fin 512} (hr : r = phys pml4 + 8 * j.val)
    (hpage : HighPage (area + 1)) (h : SelfLinked area r i s) : ¬ TablesIntact pml4 s := by
  intro hintact
  obtain ⟨q, k, e, -, hentry, -, hapart⟩ := hintact (area + 1) h.table
  have hself : ¬ PagesApart (phys (area + 1)) (phys (area + 1)) := by
    unfold PagesApart
    omega
  have hroot : entries s.mem (phys pml4) j =
      some (PageMapEntry.linkTo (kernVirtToPhys (area + 1))) :=
    entries_eq_some.mpr ⟨by rw [← hr]; exact h.root, PageMapEntry.present_linkTo _⟩
  have hblock : entries s.mem (phys (area + 1)) i =
      some (PageMapEntry.linkTo (kernVirtToPhys (area + 1))) :=
    entries_eq_some.mpr ⟨h.self, PageMapEntry.present_linkTo _⟩
  have hone : Radix.follow childTable (entries s.mem) (phys pml4) [j] = some (phys (area + 1)) := by
    simp only [Radix.follow, hroot, Option.bind_some, hpage.childTable_linkTo]
  have htwo : Radix.follow childTable (entries s.mem) (phys pml4) [j, i] =
      some (phys (area + 1)) := by
    simp only [Radix.follow, hroot, hblock, Option.bind_some, hpage.childTable_linkTo]
  -- one of the two paths is not the one that belongs to the block
  by_cases hq : [j] = q ++ [k]
  · apply hself (hapart [j, i] _ (by simp) _ htwo)
    intro hq'
    rw [← hq] at hq'
    simp at hq'
  · exact hself (hapart [j] _ (by simp) hq hone)

/-- An entry cannot hold a pointer that is not page aligned. -/
theorem not_intact_of_unaligned (htable : area + 1 ∈ linked s.log)
    (hodd : (kernVirtToPhys (area + 1)).toNat % 4096 ≠ 0) : ¬ TablesIntact pml4 s := by
  intro hintact
  obtain ⟨q, k, e, -, -, heq, -⟩ := hintact (area + 1) htable
  have hnat := congrArg BitVec.toNat heq
  rw [toNat_pageAlign] at hnat
  omega

end First

/-! ## Runs -/

/-- The heap set up with one arena, and then a run of mappings. -/
def realRun (heapArea : Ptr) (heapSize : BitVec 64) (pml4 : Ptr) (calls : List (Ptr × Ptr)) :
    Kern MmStatics (List FeralStatus) := do
  let _ ← mmCreateAllocatorState 1 heapArea heapSize
  mapAll mmKernelMalloc pml4 calls

/-- The heap holds a table behind its nodes, and the root lies outside the heap. -/
structure TableHeap (heapArea : Ptr) (heapSize : BitVec 64) (pml4 : Ptr) : Prop where
  fits : HeapFits heapArea heapSize
  room : 41 + 8 * (heapSize.toNat / 48) + 4096 ≤ heapSize.toNat
  root : Spans pml4 4096
  apart : phys pml4 + 4096 ≤ heapArea.toNat ∨ heapArea.toNat + setBytes heapSize ≤ phys pml4

section Run

variable {heapArea pml4 : Ptr} {heapSize : BitVec 64} {s : Machine MmStatics}

/-- The block that every call returns, as a number. -/
theorem TableHeap.toNat_block (h : TableHeap heapArea heapSize pml4) :
    (rootArea heapArea heapSize + 1).toNat =
      heapArea.toNat + 0xFFFFFF8000000000 + (41 + 8 * (heapSize.toNat / 48)) := by
  have hsize := h.fits.size
  rw [h.fits.toNat_block, toNat_kernPhysToVirt h.fits.window (by omega)]
  omega

theorem TableHeap.phys_block (h : TableHeap heapArea heapSize pml4) :
    phys (rootArea heapArea heapSize + 1) = heapArea.toNat + (41 + 8 * (heapSize.toNat / 48)) := by
  rw [phys, h.toNat_block, if_pos (by omega)]
  omega

theorem TableHeap.realHeap (h : TableHeap heapArea heapSize pml4) :
    RealHeap (kernPhysToVirt heapArea) (rootArea heapArea heapSize) := by
  have hsize := h.fits.size
  have hnodes := h.fits.nodes
  have hroom := h.room
  have hwindow := h.fits.window
  rw [InWindow] at hwindow
  refine ⟨h.fits.spans, h.fits.ne_zero (by omega), h.fits.ne_zero (by omega), ?_, ?_⟩
  · rw [Spans, h.toNat_block]
    omega
  · rw [h.phys_block, h.fits.phys]
    omega

theorem TableHeap.rootApart (h : TableHeap heapArea heapSize pml4) :
    RootApart pml4 (kernPhysToVirt heapArea) (rootArea heapArea heapSize) := by
  have hsize := h.fits.size
  have hroom := h.room
  have hapart := h.apart
  have hset := le_setBytes heapSize
  refine ⟨h.root, ?_, ?_⟩
  · rw [h.fits.phys]
    omega
  · rw [h.phys_block]
    omega

/-- The first mapping breaks the tables, whatever it maps. -/
theorem realRun_one (h : TableHeap heapArea heapSize pml4)
    (hzero : ∀ x, phys pml4 ≤ x → x < phys pml4 + 4096 → s.mem x = 0) (c : Ptr × Ptr) :
    Returns (realRun heapArea heapSize pml4 [c]) s fun _ t => ¬ TablesIntact pml4 t := by
  have hapart := h.apart
  rw [realRun]
  apply (mmCreateAllocatorState_spec h.fits).bind
  intro _ t ht
  obtain ⟨hready, hframe, hstat, -⟩ := ht
  have hheap : HeapReady (kernPhysToVirt heapArea) (rootArea heapArea heapSize) t :=
    ⟨hready, by rw [hstat]⟩
  have hclear : ∀ i : Fin 512, read64 t.mem (phys pml4 + 8 * i.val) = 0 := by
    intro i
    have hi := i.isLt
    apply read64_zero
    intro x h1 h2
    rw [hframe x (by omega)]
    exact hzero x (by omega) (by omega)
  rw [mapAll]
  apply (x86MapAddress_heap h.realHeap h.rootApart hheap hclear c.1 c.2).bind
  intro status u hu
  obtain ⟨htable, hself⟩ := hu
  rw [mapAll, returns_bind, returns_pure, returns_pure]
  by_cases haligned : (rootArea heapArea heapSize + 1).toNat % 4096 = 0
  · have hpage : HighPage (rootArea heapArea heapSize + 1) :=
      ⟨by rw [h.toNat_block]; omega, haligned⟩
    exact (hself hpage).not_intact rfl hpage
  · apply not_intact_of_unaligned htable
    rw [kernVirtToPhys, BitVec.toNat_sub, toNat_kernVirtOffset]
    omega

/-- With the heap as it is, the tables of a run are intact after each of its mappings
exactly when it makes none. -/
theorem realRun_intact_iff (h : TableHeap heapArea heapSize pml4) (hlog : linked s.log = [])
    (hzero : ∀ x, phys pml4 ≤ x → x < phys pml4 + 4096 → s.mem x = 0)
    (calls : List (Ptr × Ptr)) :
    (∀ made, made <+: calls →
      Returns (realRun heapArea heapSize pml4 made) s fun _ t => TablesIntact pml4 t) ↔
      calls = [] := by
  constructor
  · intro hall
    cases calls with
    | nil => rfl
    | cons c rest =>
      have hbroken := (hall [c] ⟨rest, rfl⟩).and (realRun_one h hzero c)
      obtain ⟨_, _, -, hintact, hnot⟩ := hbroken
      exact absurd hintact hnot
  · intro hnil made hmade
    rw [hnil, List.prefix_nil] at hmade
    rw [hmade, realRun]
    apply (mmCreateAllocatorState_spec h.fits).bind
    intro _ t ht
    rw [mapAll, returns_pure]
    intro table htable
    rw [ht.2.2.2, hlog] at htable
    cases htable

end Run

/-- The heap of 8 MiB at 4 MiB with the root at 64 KiB. -/
theorem tableHeap_eight_mebibytes : TableHeap 0x400000 0x800000 0x10000 where
  fits := heapFits_eight_mebibytes
  room := by decide
  root := by unfold Spans; decide
  apart := by decide

/-- Before the first mapping the tables are intact, and after it they are not. -/
theorem realRun_intact_until_first :
    (∀ made, made <+: [] → Returns (realRun 0x400000 0x800000 0x10000 made) coldMachine fun _ t =>
      TablesIntact 0x10000 t) ∧
    ¬ ∀ made, made <+: [(0x5000, 0x1000)] →
      Returns (realRun 0x400000 0x800000 0x10000 made) coldMachine fun _ t =>
        TablesIntact 0x10000 t := by
  have hiff := realRun_intact_iff (s := coldMachine) tableHeap_eight_mebibytes rfl
    (fun _ _ _ => rfl)
  refine ⟨(hiff []).mpr rfl, fun hall => ?_⟩
  exact absurd ((hiff [(0x5000, 0x1000)]).mp hall) (by simp)

/-- One mapping of the page of `0x1000`, and the tables are broken. -/
theorem realRun_breaks_tables :
    Returns (realRun 0x400000 0x800000 0x10000 [(0x5000, 0x1000)]) coldMachine fun _ t =>
      ¬ TablesIntact 0x10000 t :=
  realRun_one tableHeap_eight_mebibytes (fun _ _ _ => rfl) _

end FeralKernel
