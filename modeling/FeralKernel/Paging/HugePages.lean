import FeralKernel.Paging.MapAddress
import FeralKernel.Paging.PageTree

/-!
# Mapping below a huge page

The tables that the boot code makes map the first gigabyte with entries of 2 MiB
in `p2_table` (`create_page_tables` of `kern/arch/x86_64/boot/init.asm`).
`x86MapAddress` does not look at the bit that says so.  Below such an entry it
takes the data frame for a page table: it reads a word of data, and writes there
when bit 0 of that word is clear.
-/

namespace FeralKernel

open Verif.Program Verif.Bytes Verif

variable {σ κ : Type}

/-! ## Accesses to a block -/

/-- The event is an access to one of the `n` bytes from `a`. -/
def Event.Touches (a n : Nat) : Event → Prop
  | .read x k => phys x < a + n ∧ a < phys x + k
  | .write x k => phys x < a + n ∧ a < phys x + k
  | .link _ _ => False

/-! ## Addresses below a huge entry -/

/-- The 2 MiB frame that a huge entry of a page directory names. -/
def hugeFrame (e : BitVec 64) : BitVec 64 := e &&& 0xFFFFFFFFFFE00000

/-- The walk of `v` ends at the huge entry `e1` of a page directory.  The tables on the
way and the frame lie in memory that the kernel can reach. -/
structure CoveredByHuge (pml4 : Ptr) (m : Mem) (v : Ptr) (e3 e2 e1 : BitVec 64) : Prop where
  root : entries m (phys pml4) (pageIndex v 3) = some e3
  rootWindow : InWindow (pageAlign e3) 4096
  pointer : entries m (childTable e3) (pageIndex v 2) = some e2
  pointerSmall : PageMapEntry.huge e2 = false
  pointerWindow : InWindow (pageAlign e2) 4096
  directory : entries m (childTable e2) (pageIndex v 1) = some e1
  directoryHuge : PageMapEntry.huge e1 = true
  frameWindow : InWindow (hugeFrame e1) 0x200000

/-- The reads on the way to the huge entry, newest first: each of the three entries is read
for its bit 0 and once more for its address. -/
def wayReads (pml4 v : Ptr) (e3 e2 : BitVec 64) : List Event :=
  let levels := (x86FindPageLevels v).2
  let entry3 := PageMapEntry.slot pml4 levels.level3
  let entry2 := PageMapEntry.slot (pageAlign e3) levels.level2
  let entry1 := PageMapEntry.slot (pageAlign e2) levels.level1
  [.read entry1 8, .read entry1 8, .read entry2 8, .read entry2 8, .read entry3 8,
    .read entry3 8]

/-- The word of the data frame that `x86MapAddress` takes for the entry of `v`. -/
def strayWord (m : Mem) (v : Ptr) (e1 : BitVec 64) : BitVec 64 :=
  read64 m (childTable e1 + 8 * (pageIndex v 0).val)

theorem toNat_hugeFrame (e : BitVec 64) : (hugeFrame e).toNat = e.toNat / 0x200000 * 0x200000 := by
  have hmask : (0xFFFFFFFFFFE00000 : BitVec 64) = BitVec.allOnes 64 <<< 21 := by decide
  rw [hugeFrame, hmask]
  exact toNat_and_highBits e 21

section Walk

variable {malloc : BitVec 64 → Kern σ Ptr} {pml4 table p v : Ptr} {level : BitVec 16}
  {s : Machine σ} {e3 e2 e1 : BitVec 64}

/-- A level whose entry is present, with what it records. -/
theorem nextTable_reuse
    (h : PageMapEntry.present (read64 s.mem (phys (PageMapEntry.slot table level))) = true) :
    Returns (nextTable malloc table level) s fun p t =>
      p = pageAlign (read64 s.mem (phys (PageMapEntry.slot table level))) ∧ t.mem = s.mem ∧
      t.log = [.read (PageMapEntry.slot table level) 8, .read (PageMapEntry.slot table level) 8] ++
        s.log := by
  simp only [nextTable, returns_bind, returns_load64, Machine.note_mem, h, if_true, returns_pure]
  exact ⟨trivial, trivial, rfl⟩

/-- The last level, with the read that decides it. -/
theorem mapLeaf_reads (pt : Ptr) (level : BitVec 16) (physical : Ptr) (s : Machine σ) :
    Returns (mapLeaf pt level physical) s fun status t =>
      (∃ new, t.log = new ++ .read (PageMapEntry.slot pt level) 8 :: s.log) ∧
      (PageMapEntry.present (read64 s.mem (phys (PageMapEntry.slot pt level))) = true →
        status = .memoryPageFailure ∧ t.mem = s.mem) ∧
      (PageMapEntry.present (read64 s.mem (phys (PageMapEntry.slot pt level))) = false →
        status = .success) := by
  simp only [mapLeaf, returns_bind, returns_load64]
  cases h : PageMapEntry.present (read64 s.mem (phys (PageMapEntry.slot pt level))) with
  | true =>
    simp only [if_true, returns_pure]
    refine ⟨⟨[], rfl⟩, fun _ => ⟨trivial, rfl⟩, fun hc => ?_⟩
    cases hc
  | false =>
    simp only [Bool.false_eq_true, if_false, returns_bind, returns_load64, returns_store64,
      returns_pure]
    refine ⟨⟨[_, _, _, _, _, _], rfl⟩, fun hc => ?_, fun _ => trivial⟩
    cases hc

theorem InWindow.childTable_eq {e : BitVec 64} {n : Nat} (h : InWindow (pageAlign e) n) :
    phys (pageAlign e) = childTable e := by
  have hlt : (pageAlign e).toNat < 2 ^ 52 := by
    unfold InWindow at h
    omega
  rw [FeralKernel.childTable_eq hlt, h.phys_eq]

theorem CoveredByHuge.tableWindow {m : Mem} (h : CoveredByHuge pml4 m v e3 e2 e1) :
    InWindow (pageAlign e1) 4096 := by
  have hinside : (pageAlign e1).toNat + 4096 ≤ (hugeFrame e1).toNat + 0x200000 := by
    rw [toNat_hugeFrame, toNat_pageAlign]
    omega
  exact Nat.le_trans hinside h.frameWindow

theorem x86MapAddress_huge_spec (hpml4 : Spans pml4 4096) (malloc : BitVec 64 → Kern σ Ptr)
    (p : Ptr) (h : CoveredByHuge pml4 s.mem v e3 e2 e1) :
    Returns (x86MapAddress malloc pml4 p v) s fun status t =>
      (∃ new a, t.log = new ++ .read a 8 :: (wayReads pml4 v e3 e2 ++ s.log) ∧
        phys a = childTable e1 + 8 * (pageIndex v 0).val) ∧
      (PageMapEntry.present (strayWord s.mem v e1) = true →
        status = .memoryPageFailure ∧ t.mem = s.mem) ∧
      (PageMapEntry.present (strayWord s.mem v e1) = false → status = .success) := by
  obtain ⟨hraw3, hpresent3⟩ := entries_eq_some.mp h.root
  obtain ⟨hraw2, hpresent2⟩ := entries_eq_some.mp h.pointer
  obtain ⟨hraw1, hpresent1⟩ := entries_eq_some.mp h.directory
  have hspan : ∀ {e : BitVec 64}, InWindow (pageAlign e) 4096 → Spans (pageAlign e) 4096 :=
    fun hw => hw.spans.mono (by omega)
  have hslot3 : phys (PageMapEntry.slot pml4 (x86FindPageLevels v).2.level3) = _ :=
    phys_slot hpml4 v 3
  have hslot2 : phys (PageMapEntry.slot (pageAlign e3) (x86FindPageLevels v).2.level2) = _ :=
    phys_slot (hspan h.rootWindow) v 2
  have hslot1 : phys (PageMapEntry.slot (pageAlign e2) (x86FindPageLevels v).2.level1) = _ :=
    phys_slot (hspan h.pointerWindow) v 1
  have hslot0 : phys (PageMapEntry.slot (pageAlign e1) (x86FindPageLevels v).2.level0) = _ :=
    phys_slot (hspan h.tableWindow) v 0
  rw [h.rootWindow.childTable_eq] at hslot2
  rw [h.pointerWindow.childTable_eq] at hslot1
  rw [h.tableWindow.childTable_eq] at hslot0
  rw [x86MapAddress_eq]
  apply (nextTable_reuse (by rw [hslot3, hraw3]; exact hpresent3)).bind
  intro pdp t1 h1
  obtain ⟨rfl, hm1, hlog1⟩ := h1
  rw [hslot3, hraw3]
  apply (nextTable_reuse (by rw [hslot2, hm1, hraw2]; exact hpresent2)).bind
  intro pd t2 h2
  obtain ⟨rfl, hm2, hlog2⟩ := h2
  rw [hslot2, hm1, hraw2]
  apply (nextTable_reuse (by rw [hslot1, hm2, hm1, hraw1]; exact hpresent1)).bind
  intro pt t3 h3
  obtain ⟨rfl, hm3, hlog3⟩ := h3
  rw [hslot1, hm2, hm1, hraw1]
  apply (mapLeaf_reads (pageAlign e1) (x86FindPageLevels v).2.level0 p t3).mono
  intro status t ht
  obtain ⟨⟨new, hlog⟩, hfail, hdone⟩ := ht
  rw [hslot0, hm3, hm2, hm1] at hfail hdone
  rw [hlog3, hlog2, hlog1] at hlog
  exact ⟨⟨new, _, hlog, hslot0⟩, hfail, hdone⟩

/-! ## The claim of the code's comment -/

/-- The call says that the address is in use and leaves memory as it was. -/
def RefusesMapping (malloc : BitVec 64 → Kern σ Ptr) (pml4 p v : Ptr) (s : Machine σ) : Prop :=
  Returns (x86MapAddress malloc pml4 p v) s fun status t =>
    status = .memoryPageFailure ∧ t.mem = s.mem

/-- The call does that without taking the data frame for a table: behind the reads of the
entries on the way, which may lie in the frame themselves, it does not access the frame. -/
def LeavesFrameAlone (malloc : BitVec 64 → Kern σ Ptr) (pml4 p v : Ptr) (e3 e2 e1 : BitVec 64)
    (s : Machine σ) : Prop :=
  Returns (x86MapAddress malloc pml4 p v) s fun status t =>
    status = .memoryPageFailure ∧ t.mem = s.mem ∧
      ∃ new, t.log = new ++ (wayReads pml4 v e3 e2 ++ s.log) ∧
        ∀ e ∈ new, ¬ e.Touches (hugeFrame e1).toNat 0x200000

/-- Below a huge entry the data frame is always taken for a page table, and the call
refuses the address exactly when the word of data found there has bit 0 set. -/
theorem x86MapAddress_belowHuge (hpml4 : Spans pml4 4096) (malloc : BitVec 64 → Kern σ Ptr)
    (p : Ptr) (h : CoveredByHuge pml4 s.mem v e3 e2 e1) :
    ¬ LeavesFrameAlone malloc pml4 p v e3 e2 e1 s ∧
      (RefusesMapping malloc pml4 p v s ↔
        PageMapEntry.present (strayWord s.mem v e1) = true) := by
  have hspec := x86MapAddress_huge_spec hpml4 malloc p h
  constructor
  · intro hleaves
    obtain ⟨status, t, he, -, -, new', hlog', hoff⟩ := hleaves
    obtain ⟨⟨new, a, hlog, hphys⟩, -, -⟩ := hspec.of_eq he
    have hi := (pageIndex v 0).isLt
    have hnew : new' = new ++ [.read a 8] := by
      rw [hlog, List.append_cons, List.append_left_inj] at hlog'
      exact hlog'.symm
    apply hoff (.read a 8) (by rw [hnew]; simp)
    rw [Event.Touches, hphys, ← h.tableWindow.childTable_eq, h.tableWindow.phys_eq,
      toNat_hugeFrame, toNat_pageAlign]
    omega
  · constructor
    · intro hrefuses
      obtain ⟨status, t, he, hst, -⟩ := hrefuses
      obtain ⟨-, -, hdone⟩ := hspec.of_eq he
      by_contra habsent
      rw [hdone (by simpa using habsent)] at hst
      cases hst
    · intro hpresent
      apply hspec.mono
      intro status t ht
      exact ht.2.1 hpresent

end Walk

/-! ## The boot tables -/

/-- The entry that `create_page_tables` computes for `p2_table`: present, writable and
huge, at 2 MiB times the index. -/
def hugeEntry (ecx : Nat) : BitVec 32 := 0x200000 * BitVec.ofNat 32 ecx ||| 0b10000011

/-- The loop of `create_page_tables`.  It stores the low half of each entry. -/
def createPageTables (p2Table : Ptr) : Kern σ Unit :=
  forRange (fun ecx _ => store32 (p2Table + 8 * BitVec.ofNat 64 ecx) (hugeEntry ecx)) 512 0 ()

/-- The tables as they are in the image (`kern/arch/x86_64/boot/init64.asm`): the first and
the last entry of `p4_table` and `p3_table` are set and `p2_table` is clear. -/
structure BootTables (m : Mem) (p4Table p3Table p2Table : Ptr) : Prop where
  p4 : ∀ i : Fin 512, i.val = 0 ∨ i.val = 511 →
    read64 m (p4Table.toNat + 8 * i.val) = p3Table + 3
  p3 : ∀ i : Fin 512, i.val = 0 ∨ i.val = 511 →
    read64 m (p3Table.toNat + 8 * i.val) = p2Table + 3
  p2 : ∀ x, p2Table.toNat ≤ x → x < p2Table.toNat + 4096 → m x = 0
  aligned : p3Table.toNat % 4096 = 0 ∧ p2Table.toNat % 4096 = 0
  window : InWindow p4Table 4096 ∧ InWindow p3Table 4096 ∧ InWindow p2Table 4096
  apart : PagesApart p4Table.toNat p2Table.toNat ∧ PagesApart p3Table.toNat p2Table.toNat

/-- The loop fills `p2_table` and writes nothing else. -/
theorem createPageTables_spec {p2Table : Ptr} {s : Machine σ} (hwindow : InWindow p2Table 4096)
    (hclear : ∀ x, p2Table.toNat ≤ x → x < p2Table.toNat + 4096 → s.mem x = 0) :
    Returns (createPageTables p2Table) s fun _ t =>
      (∀ i, i < 512 → read64 t.mem (p2Table.toNat + 8 * i) = (hugeEntry i).setWidth 64) ∧
      ∀ x, x < p2Table.toNat ∨ p2Table.toNat + 4096 ≤ x → t.mem x = s.mem x := by
  have hspan : Spans p2Table 4096 := hwindow.spans.mono (by omega)
  -- after `i` rounds the first `i` entries are made and the rest is still clear
  apply (returns_forRange (fun i _ t =>
    (∀ j, j < i → read64 t.mem (p2Table.toNat + 8 * j) = (hugeEntry j).setWidth 64) ∧
    (∀ x, p2Table.toNat + 8 * i ≤ x → x < p2Table.toNat + 4096 → t.mem x = 0) ∧
    ∀ x, x < p2Table.toNat ∨ p2Table.toNat + 4096 ≤ x → t.mem x = s.mem x) 512 _ 512 0 () s rfl
    ⟨fun j hj => absurd hj (by omega), fun x h1 h2 => hclear x (by omega) h2,
      fun _ _ => rfl⟩).mono
  · intro _ t ht
    exact ⟨ht.1, ht.2.2⟩
  · intro i _ t hi ht
    obtain ⟨hdone, hrest, hout⟩ := ht
    have haddr : phys (p2Table + 8 * BitVec.ofNat 64 i) = p2Table.toNat + 8 * i := by
      have hoff : (8 : BitVec 64) * BitVec.ofNat 64 i = BitVec.ofNat 64 (8 * i) := by
        rw [BitVec.ofNat_mul]
        rfl
      rw [hoff, phys_add hspan (by omega), hwindow.phys_eq]
    rw [returns_store32, haddr]
    refine ⟨fun j hj => ?_, fun x h1 h2 => ?_, fun x hx => ?_⟩
    · show read64 (write32 t.mem _ _) _ = _
      by_cases hji : j = i
      · rw [hji, read64_write32_clear fun x h1 h2 => hrest x (by omega) (by omega)]
      · rw [read64_write32_outside (by omega), hdone j (by omega)]
    · show write32 t.mem _ _ x = _
      rw [write32_outside (by omega), hrest x (by omega) h2]
    · show write32 t.mem _ _ x = _
      rw [write32_outside (by omega), hout x hx]

theorem hugeEntry_flags (ecx : Nat) :
    PageMapEntry.present ((hugeEntry ecx).setWidth 64) = true ∧
      PageMapEntry.huge ((hugeEntry ecx).setWidth 64) = true := by
  constructor
  · rw [PageMapEntry.present, BitVec.getLsbD_setWidth, hugeEntry, BitVec.getLsbD_or]
    simp
  · rw [PageMapEntry.huge, BitVec.getLsbD_setWidth, hugeEntry, BitVec.getLsbD_or]
    simp

/-- A link of the boot tables. -/
theorem bootLink {table : Ptr} (haligned : table.toNat % 4096 = 0)
    (hwindow : InWindow table 4096) :
    pageAlign (table + 3) = table ∧ PageMapEntry.present (table + 3) = true ∧
      PageMapEntry.huge (table + 3) = false := by
  have hnat : (table + 3).toNat = table.toNat + 3 := by
    have hlt : table.toNat + 4096 ≤ 2 ^ 64 := Nat.le_trans hwindow (by decide)
    rw [BitVec.toNat_add, show (3 : BitVec 64).toNat = 3 from rfl]
    omega
  refine ⟨?_, ?_, ?_⟩
  · apply BitVec.eq_of_toNat_eq
    rw [toNat_pageAlign, hnat]
    omega
  · rw [PageMapEntry.present, BitVec.getLsbD, hnat, Nat.testBit_zero]
    simp only [decide_eq_true_eq]
    omega
  · rw [PageMapEntry.huge, BitVec.getLsbD, hnat, Nat.testBit_eq_decide_div_mod_eq]
    simp only [decide_eq_false_iff_not]
    omega

theorem bootLink_child {table : Ptr} (halign : pageAlign (table + 3) = table)
    (hwindow : InWindow table 4096) : childTable (table + 3) = table.toNat := by
  rw [← InWindow.childTable_eq (n := 4096) (by rw [halign]; exact hwindow), halign,
    hwindow.phys_eq]

/-- After `create_page_tables` every address of the first gigabyte of either half is
covered by a huge entry. -/
theorem createPageTables_covers {p4Table p3Table p2Table : Ptr} {s : Machine σ}
    (h : BootTables s.mem p4Table p3Table p2Table) :
    Returns (createPageTables p2Table) s fun _ t =>
      ∀ v : Ptr, (pageIndex v 3).val = 0 ∨ (pageIndex v 3).val = 511 →
        (pageIndex v 2).val = 0 ∨ (pageIndex v 2).val = 511 →
        CoveredByHuge p4Table t.mem v (p3Table + 3) (p2Table + 3)
          ((hugeEntry (pageIndex v 1).val).setWidth 64) := by
  obtain ⟨hwin4, hwin3, hwin2⟩ := h.window
  obtain ⟨halign3, hpresent3, hhuge3⟩ := bootLink h.aligned.1 hwin3
  obtain ⟨halign2, hpresent2, hhuge2⟩ := bootLink h.aligned.2 hwin2
  apply (createPageTables_spec hwin2 h.p2).mono
  intro _ t ht v hv3 hv2
  obtain ⟨hfilled, hout⟩ := ht
  -- the loop has not written the two tables above
  have hkept : ∀ {a : Nat} (i : Fin 512), PagesApart a p2Table.toNat →
      read64 t.mem (a + 8 * i.val) = read64 s.mem (a + 8 * i.val) := by
    intro a i hapart
    have hi := i.isLt
    unfold PagesApart at hapart
    exact read64_congr fun x h1 h2 => hout x (by omega)
  have hchild3 : childTable (p3Table + 3) = p3Table.toNat := bootLink_child halign3 hwin3
  have hchild2 : childTable (p2Table + 3) = p2Table.toNat := bootLink_child halign2 hwin2
  refine ⟨?_, ?_, ?_, hhuge2, ?_, ?_, (hugeEntry_flags _).2, ?_⟩
  · rw [hwin4.phys_eq, entries_eq_some, hkept _ h.apart.1, h.p4 _ hv3]
    exact ⟨rfl, hpresent3⟩
  · rw [halign3]
    exact hwin3
  · rw [hchild3, entries_eq_some, hkept _ h.apart.2, h.p3 _ hv2]
    exact ⟨rfl, hpresent2⟩
  · rw [halign2]
    exact hwin2
  · rw [hchild2, entries_eq_some, hfilled _ (pageIndex v 1).isLt]
    exact ⟨rfl, (hugeEntry_flags _).1⟩
  · have hlt := (hugeEntry (pageIndex v 1).val).isLt
    have hsmall : (hugeFrame ((hugeEntry (pageIndex v 1).val).setWidth 64)).toNat + 0x200000 ≤
        2 ^ 33 := by
      rw [toNat_hugeFrame, BitVec.toNat_setWidth]
      omega
    exact Nat.le_trans hsmall (by decide)

/-- The boot tables at 64 KiB, in memory that is clear otherwise. -/
def bootMachine : Machine Unit :=
  { mem := write64 (write64 (write64 (write64 (fun _ => 0) 0x10000 0x11003) 0x10FF8 0x11003)
      0x11000 0x12003) 0x11FF8 0x12003
    log := []
    statics := () }

theorem bootMachine_tables : BootTables bootMachine.mem 0x10000 0x11000 0x12000 := by
  refine ⟨?_, ?_, ?_, by decide, ?_, ?_⟩
  · intro i hi
    rcases hi with hi | hi
    · rw [hi]
      decide
    · rw [hi]
      decide
  · intro i hi
    rcases hi with hi | hi
    · rw [hi]
      decide
    · rw [hi]
      decide
  · intro x h1 h2
    have h1' : 0x12000 ≤ x := h1
    show write64 (write64 (write64 (write64 (fun _ => 0) 0x10000 0x11003) 0x10FF8 0x11003)
      0x11000 0x12003) 0x11FF8 0x12003 x = 0
    rw [write64_outside (by omega), write64_outside (by omega), write64_outside (by omega),
      write64_outside (by omega)]
  · unfold InWindow
    decide
  · unfold PagesApart
    decide

/-- A malloc that is never called. -/
def noMalloc (_ : BitVec 64) : Kern Unit Ptr := stop .hang

/-- In the state that `create_page_tables` leaves, the theorem decides the mapping of
page 5. -/
theorem bootMachine_belowHuge :
    Returns (createPageTables 0x12000) bootMachine fun _ t =>
      ¬ LeavesFrameAlone noMalloc 0x10000 0x7000 0x5000 0x11003 0x12003
        ((hugeEntry 0).setWidth 64) t ∧
      (RefusesMapping noMalloc 0x10000 0x7000 0x5000 t ↔
        PageMapEntry.present (strayWord t.mem 0x5000 ((hugeEntry 0).setWidth 64)) = true) := by
  apply (createPageTables_covers bootMachine_tables).mono
  intro _ t ht
  have hspan : Spans 0x10000 4096 := by unfold Spans; decide
  exact x86MapAddress_belowHuge hspan noMalloc 0x7000 (ht 0x5000 (Or.inl rfl) (Or.inl rfl))

/-- Page 5 lies in the huge page that maps the first 2 MiB.  Mapping it succeeds, since
the data word at `0x28` is zero. -/
theorem bootMachine_maps_below_huge :
    Returns (createPageTables 0x12000) bootMachine fun _ t =>
      CoveredByHuge 0x10000 t.mem 0x5000 0x11003 0x12003 ((hugeEntry 0).setWidth 64) ∧
      ¬ RefusesMapping noMalloc 0x10000 0x7000 0x5000 t ∧
      ¬ LeavesFrameAlone noMalloc 0x10000 0x7000 0x5000 0x11003 0x12003
        ((hugeEntry 0).setWidth 64) t := by
  have hclear := bootMachine_tables.p2
  have hwindow := bootMachine_tables.window.2.2
  apply ((createPageTables_covers bootMachine_tables).and
    (createPageTables_spec hwindow hclear)).mono
  intro _ t ht
  obtain ⟨hcovers, -, hout⟩ := ht
  have hspan : Spans 0x10000 4096 := by unfold Spans; decide
  have hcovered : CoveredByHuge 0x10000 t.mem 0x5000 0x11003 0x12003
      ((hugeEntry 0).setWidth 64) := hcovers 0x5000 (Or.inl rfl) (Or.inl rfl)
  have hword : strayWord t.mem 0x5000 ((hugeEntry 0).setWidth 64) = 0 := by
    have hchild : childTable ((hugeEntry 0).setWidth 64) = 0 := by decide
    rw [strayWord, hchild]
    have hread : read64 t.mem (0 + 8 * (pageIndex 0x5000 0).val) =
        read64 bootMachine.mem (0 + 8 * (pageIndex 0x5000 0).val) := by
      apply read64_congr
      intro x h1 h2
      have h2' : x < 48 := h2
      have hbelow : x < 0x12000 := by omega
      exact hout x (Or.inl hbelow)
    rw [hread]
    decide
  have hspec := x86MapAddress_huge_spec hspan noMalloc 0x7000 hcovered
  have hrefuses : ¬ RefusesMapping noMalloc 0x10000 0x7000 0x5000 t := by
    intro hrefuses
    obtain ⟨status, u, he, hst, -⟩ := hrefuses
    obtain ⟨-, -, hdone⟩ := hspec.of_eq he
    rw [hword] at hdone
    rw [hdone rfl] at hst
    cases hst
  refine ⟨hcovered, hrefuses, fun hleaves => hrefuses ?_⟩
  apply Returns.mono hleaves
  intro status u hu
  exact ⟨hu.1, hu.2.1⟩

end FeralKernel
