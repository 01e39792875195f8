import FeralKernel.Lib.MemFuncs
import FeralKernel.Paging.PageMapEntry

/-!
# Mapping a page

`x86MapAddress` of `kern/arch/x86_64/mm/paging.c`.  The allocator is a parameter:
the page-table code needs blocks that are aligned, in the upper half and used by
nobody else, and what follows from that is stated of every such allocator.
-/

namespace FeralKernel

open Verif.Program Verif.Bytes Verif

variable {σ κ : Type}

/-! ## The code -/

def PageMapEntry.tableSize : BitVec 64 := 8 * 512

/-- The block that `x86MapAddress` repeats for each of the three upper levels: the
table that an entry names, which is made first where there is none. -/
def nextTable (malloc : BitVec 64 → Kern σ Ptr) (table : Ptr) (level : BitVec 16) :
    Kern σ Ptr := do
  let entry := PageMapEntry.slot table level
  let raw ← load64 entry
  if PageMapEntry.present raw then
    let raw ← load64 entry
    pure (pageAlign raw)
  else
    let next ← malloc PageMapEntry.tableSize
    let _ ← kiSetMemoryBytes next 0 PageMapEntry.tableSize
    let raw ← load64 entry
    store64 entry (raw ||| pageAlign (kernVirtToPhys next))
    let raw ← load64 entry
    store64 entry (PageMapEntry.setPresent raw)
    let raw ← load64 entry
    store64 entry (PageMapEntry.setWritable raw)
    record (.link entry next)
    pure next

/-- The last block: the entry of the page itself. -/
def mapLeaf (pt : Ptr) (level : BitVec 16) (physical : Ptr) : Kern σ FeralStatus := do
  let entry := PageMapEntry.slot pt level
  let raw ← load64 entry
  if PageMapEntry.present raw then pure .memoryPageFailure
  else
    let raw ← load64 entry
    store64 entry (raw ||| pageAlign physical)
    let raw ← load64 entry
    store64 entry (PageMapEntry.setPresent raw)
    let raw ← load64 entry
    store64 entry (PageMapEntry.setWritable raw)
    pure .success

def x86MapAddress (malloc : BitVec 64 → Kern σ Ptr) (pml4 physical virtual : Ptr) :
    Kern σ FeralStatus := do
  let (err, levels) := x86FindPageLevels virtual
  if err ≠ .success then pure err
  else
    let pdp ← nextTable malloc pml4 levels.level3
    let pd ← nextTable malloc pdp levels.level2
    let pt ← nextTable malloc pd levels.level1
    mapLeaf pt levels.level0 physical

/-- `x86FindPageLevels` never fails. -/
theorem x86MapAddress_eq (malloc : BitVec 64 → Kern σ Ptr) (pml4 physical virtual : Ptr) :
    x86MapAddress malloc pml4 physical virtual = (do
      let pdp ← nextTable malloc pml4 (x86FindPageLevels virtual).2.level3
      let pd ← nextTable malloc pdp (x86FindPageLevels virtual).2.level2
      let pt ← nextTable malloc pd (x86FindPageLevels virtual).2.level1
      mapLeaf pt (x86FindPageLevels virtual).2.level0 physical) := rfl

/-! ## Allocators of tables -/

/-- A page-aligned pointer of the upper half. -/
structure HighPage (p : Ptr) : Prop where
  high : 0xFFFFFF8000000000 ≤ p.toNat
  aligned : p.toNat % 4096 = 0

namespace HighPage

variable {p : Ptr}

theorem spans (h : HighPage p) : Spans p 4096 := by
  have hlt := p.isLt
  have hhigh := h.high
  have haligned := h.aligned
  unfold Spans
  omega

theorem phys_eq (h : HighPage p) : phys p = p.toNat - 0xFFFFFF8000000000 := by
  rw [phys, if_pos h.high]

theorem toNat_kernVirtToPhys (h : HighPage p) : (kernVirtToPhys p).toNat = phys p := by
  have hlt := p.isLt
  have hhigh := h.high
  rw [h.phys_eq, kernVirtToPhys, BitVec.toNat_sub, toNat_kernVirtOffset]
  omega

theorem phys_aligned (h : HighPage p) : phys p % 4096 = 0 := by
  have hhigh := h.high
  have haligned := h.aligned
  rw [h.phys_eq]
  omega

theorem phys_lt (h : HighPage p) : phys p + 4096 ≤ 0x8000000000 := by
  have hspans := h.spans
  have hhigh := h.high
  unfold Spans at hspans
  rw [h.phys_eq]
  omega

theorem childTable_linkTo (h : HighPage p) :
    childTable (PageMapEntry.linkTo (kernVirtToPhys p)) = phys p := by
  have haligned := h.phys_aligned
  have hlt := h.phys_lt
  rw [childTable, PageMapEntry.frameBits_linkTo, toNat_frameBits, h.toNat_kernVirtToPhys]
  omega

end HighPage

/-- An allocator of tables: it always returns a page-aligned pointer of the upper
half, it writes only the memory it owns, and it leaves alone what `view` shows of
the static variables. -/
structure TableAllocator (malloc : BitVec 64 → Kern σ Ptr) (owned : Nat → Prop) (view : σ → κ) :
    Prop where
  block : ∀ s, Returns (malloc PageMapEntry.tableSize) s fun p t =>
    HighPage p ∧ (∀ x, ¬ owned x → t.mem x = s.mem x) ∧
    view t.statics = view s.statics ∧ linked t.log = linked s.log

/-- Two pages of memory have no byte in common. -/
def PagesApart (a b : Nat) : Prop := a + 4096 ≤ b ∨ b + 4096 ≤ a

instance : Std.Symm PagesApart where
  symm _ _ h := h.symm

/-- The pages of the tables linked and of the root, newest first. -/
def tablePages (pml4 : Ptr) (tables : List Ptr) : List Nat := tables.map phys ++ [phys pml4]

/-- The blocks obtained for tables meet neither each other, nor the root, nor the
memory of the allocator. -/
structure FreshTables (pml4 : Ptr) (owned : Nat → Prop) (tables : List Ptr) : Prop where
  apart : (tablePages pml4 tables).Pairwise PagesApart
  unowned : ∀ a ∈ tablePages pml4 tables, ∀ x, a ≤ x → x < a + 4096 → ¬ owned x

theorem FreshTables.of_suffix {pml4 : Ptr} {owned : Nat → Prop} {tables tables' : List Ptr}
    (h : FreshTables pml4 owned tables') (hsuf : tables <:+ tables') :
    FreshTables pml4 owned tables := by
  have hsub : (tablePages pml4 tables).Sublist (tablePages pml4 tables') :=
    (hsuf.sublist.map phys).append (List.Sublist.refl _)
  exact ⟨h.apart.sublist hsub, fun a ha => h.unowned a (hsub.subset ha)⟩

/-! ## One level -/

section Level

variable {malloc : BitVec 64 → Kern σ Ptr} {owned : Nat → Prop} {view : σ → κ}
  {table : Ptr} {level : BitVec 16} {s : Machine σ}

theorem nextTable_present
    (h : PageMapEntry.present (read64 s.mem (phys (PageMapEntry.slot table level))) = true) :
    Returns (nextTable malloc table level) s fun p t =>
      p = pageAlign (read64 s.mem (phys (PageMapEntry.slot table level))) ∧
      t.mem = s.mem ∧ SameSide s t := by
  simp only [nextTable, returns_bind, returns_load64, Machine.note_mem, h, if_true, returns_pure]
  exact ⟨trivial, trivial, rfl, rfl⟩

/-- The memory after the block at `p` has been cleared and linked at address `a`. -/
def linkTable (m : Mem) (a : Nat) (p : Ptr) : Mem :=
  let cleared := fill m (phys p) 4096 0
  write64 cleared a (PageMapEntry.linkInto (read64 cleared a) (kernVirtToPhys p))

theorem nextTable_absent (hmalloc : TableAllocator malloc owned view)
    (h : PageMapEntry.present (read64 s.mem (phys (PageMapEntry.slot table level))) = false) :
    Returns (nextTable malloc table level) s fun p t =>
      (∃ u, malloc PageMapEntry.tableSize (s.note (.read (PageMapEntry.slot table level) 8)) =
        .ok (p, u)) ∧
      HighPage p ∧ view t.statics = view s.statics ∧ linked t.log = p :: linked s.log ∧
      ∃ m, (∀ x, ¬ owned x → m x = s.mem x) ∧
        t.mem = linkTable m (phys (PageMapEntry.slot table level)) p := by
  simp only [nextTable, returns_bind, returns_load64, h, Bool.false_eq_true, if_false]
  apply (hmalloc.block _).with_eq.mono
  intro p t ht
  obtain ⟨hcall, hpage, hframe, hview, hlog⟩ := ht
  apply (kiSetMemoryBytes_spec hpage.spans (by decide)).mono
  intro _ u hu
  obtain ⟨-, hm, hside⟩ := hu
  simp only [returns_store64, returns_record, returns_pure, Machine.note_mem, Machine.setMem_mem,
    read64_write64_same, write64_write64_same]
  refine ⟨⟨t, hcall⟩, hpage, ?_, ?_, t.mem, hframe, ?_⟩
  · exact (congrArg view hside.1).trans hview
  · show p :: linked u.log = p :: linked s.log
    rw [hside.2, hlog]
    rfl
  · have hsize : setBytes PageMapEntry.tableSize = 4096 := rfl
    rw [linkTable, hm, hsize]
    rfl

theorem mapLeaf_present {pt : Ptr} {physical : Ptr}
    (h : PageMapEntry.present (read64 s.mem (phys (PageMapEntry.slot pt level))) = true) :
    Returns (mapLeaf pt level physical) s fun status t =>
      status = .memoryPageFailure ∧ t.mem = s.mem ∧ SameSide s t := by
  simp only [mapLeaf, returns_bind, returns_load64, h, if_true, returns_pure]
  exact ⟨trivial, rfl, rfl, rfl⟩

theorem mapLeaf_absent {pt : Ptr} {physical : Ptr}
    (h : PageMapEntry.present (read64 s.mem (phys (PageMapEntry.slot pt level))) = false) :
    Returns (mapLeaf pt level physical) s fun status t =>
      status = .success ∧ SameSide s t ∧
      t.mem = write64 s.mem (phys (PageMapEntry.slot pt level)) (PageMapEntry.linkInto
        (read64 s.mem (phys (PageMapEntry.slot pt level))) physical) := by
  simp only [mapLeaf, returns_bind, returns_load64, returns_store64, Machine.note_mem,
    Machine.setMem_mem, h, Bool.false_eq_true, if_false, read64_write64_same,
    write64_write64_same, returns_pure]
  exact ⟨trivial, ⟨rfl, rfl⟩, rfl⟩

end Level

end FeralKernel
