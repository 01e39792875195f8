import FeralKernel.Paging.Validate

/-!
# Tables through the upper half

Entries hold physical addresses and pointers are virtual.  `x86UnmapAddress` takes
the address out of an entry with `KERN_PHYS_TO_VIRT`, which still works when the low
half is unmapped.  `x86MapAddress` and `x86ValidateVirtualAddress` use the physical
address as it is, so every table below the root that they find there is reached
through the low half.  Only tables that `x86MapAddress` has just made are not, and what
it stores for them is their address if the entry held no other before.
-/

namespace FeralKernel

open Verif.Program Verif.Bytes Verif

variable {σ κ : Type}

/-! ## The tables of a walk -/

/-- The image in the upper half of the table that the entry at `parent` names. -/
def windowImage (m : Mem) (parent : Ptr) : Ptr :=
  kernPhysToVirt (pageAlign (read64 m (phys parent)))

/-- The tables below the root that a walk dereferences, each with the image that it
should be used through. -/
abbrev Walk : Type := List (Ptr × Ptr)

def ThroughWindow (walk : Walk) : Prop := ∀ c ∈ walk, c.2 = c.1

/-- The last table of a walk. -/
def Walk.last (walk : Walk) : Ptr := (walk.getLast?.map Prod.snd).getD 0

/-- The part of `x86MapAddress` that goes down to the last table.  The image of a table is
that of the entry above it when the table is first used. -/
def mapWalk (malloc : BitVec 64 → Kern σ Ptr) (pml4 v : Ptr) : Kern σ Walk := do
  let levels := (x86FindPageLevels v).2
  let pdp ← nextTable malloc pml4 levels.level3
  let s3 ← get
  let pd ← nextTable malloc pdp levels.level2
  let s2 ← get
  let pt ← nextTable malloc pd levels.level1
  let s1 ← get
  pure [(windowImage s3.mem (PageMapEntry.slot pml4 levels.level3), pdp),
    (windowImage s2.mem (PageMapEntry.slot pdp levels.level2), pd),
    (windowImage s1.mem (PageMapEntry.slot pd levels.level1), pt)]

/-- The walk is the code's own. -/
theorem x86MapAddress_eq_mapWalk (malloc : BitVec 64 → Kern σ Ptr) (pml4 p v : Ptr) :
    x86MapAddress malloc pml4 p v = (do
      let walk ← mapWalk malloc pml4 v
      mapLeaf walk.last (x86FindPageLevels v).2.level0 p) := by
  rw [x86MapAddress_eq, mapWalk]
  simp only [bind_assoc, pure_bind]
  simp only [get_bind]
  rfl

/-- The tables that `x86ValidateVirtualAddress` dereferences below the root. -/
def validateWalk (m : Mem) (pml4 v : Ptr) : Walk :=
  let levels := (x86FindPageLevels v).2
  let e3 := read64 m (phys (PageMapEntry.slot pml4 levels.level3))
  let pdp := pageAlign e3
  let e2 := read64 m (phys (PageMapEntry.slot pdp levels.level2))
  let pd := pageAlign e2
  let e1 := read64 m (phys (PageMapEntry.slot pd levels.level1))
  -- the source has `PDP` here and not `PD`
  let pt := pageAlign (read64 m (phys (PageMapEntry.slot pdp levels.level1)))
  if pml4 = 0 then []
  else if PageMapEntry.present e3 then
    (windowImage m (PageMapEntry.slot pml4 levels.level3), pdp) ::
      if PageMapEntry.present e2 then
        (windowImage m (PageMapEntry.slot pdp levels.level2), pd) ::
          if PageMapEntry.present e1 then
            [(windowImage m (PageMapEntry.slot pd levels.level1), pt)]
          else []
      else []
  else []

/-- The reads between the two states are of entries of the root and of the tables of the
walk, with at least one of each table of the walk. -/
def ReadsTables (pml4 : Ptr) (walk : Walk) (s t : Machine σ) : Prop :=
  ∃ reads, t.log = entryReads reads ++ s.log ∧
    (∀ c ∈ reads, c.1 = pml4 ∨ c.1 ∈ walk.map Prod.snd) ∧
    ∀ c ∈ walk, c.2 ∈ reads.map Prod.fst

/-- `validateWalk` is what `x86ValidateVirtualAddress` dereferences. -/
theorem x86ValidateVirtualAddress_reads (pml4 v : Ptr) (s : Machine σ) :
    Returns (x86ValidateVirtualAddress pml4 v) s fun _ t =>
      ReadsTables pml4 (validateWalk s.mem pml4 v) s t := by
  apply (x86ValidateVirtualAddress_run pml4 v s).mono
  intro _ t ht
  obtain ⟨-, -, -, hlog⟩ := ht
  refine ⟨validateReads s.mem pml4 v, hlog, ?_⟩
  -- the tables of both lists go on just as far as entries are present
  simp only [validateReads, validateWalk]
  split_ifs <;> simp

/-! ## What is reached through the window -/

theorem kernPhysToVirt_ne (x : Ptr) : kernPhysToVirt x ≠ x := by
  intro h
  have hnat := congrArg BitVec.toNat h
  have hx := x.isLt
  rw [kernPhysToVirt, BitVec.toNat_add, toNat_kernVirtOffset] at hnat
  omega

theorem throughWindow_validateWalk (m : Mem) (pml4 v : Ptr) :
    ThroughWindow (validateWalk m pml4 v) ↔ pml4 = 0 ∨ PageMapEntry.present
      (read64 m (phys (PageMapEntry.slot pml4 (x86FindPageLevels v).2.level3))) = false := by
  rw [validateWalk]
  by_cases hnull : pml4 = 0
  · rw [if_pos hnull]
    exact ⟨fun _ => Or.inl hnull, fun _ c hc => nomatch hc⟩
  · rw [if_neg hnull, or_iff_right hnull]
    cases h3 : PageMapEntry.present
        (read64 m (phys (PageMapEntry.slot pml4 (x86FindPageLevels v).2.level3))) with
    | false => exact ⟨fun _ => rfl, fun _ c hc => nomatch hc⟩
    | true =>
      constructor
      · intro hthrough
        exact absurd (hthrough _ (List.mem_cons_self ..)).symm (kernPhysToVirt_ne _)
      · intro hfalse
        cases hfalse

section Map

variable {malloc : BitVec 64 → Kern σ Ptr} {owned : Nat → Prop} {view : σ → κ}
  {pml4 table p : Ptr} {s t : Machine σ}

/-- The page at `a` belongs to nobody else. -/
def PageUnowned (owned : Nat → Prop) (a : Nat) : Prop := ∀ x, a ≤ x → x < a + 4096 → ¬ owned x

/-- A table that was made from an entry that held `raw`: its address has been ORed into the
entry, and it is clear. -/
structure MadeTable (raw : BitVec 64) (m : Mem) (parent p : Ptr) : Prop where
  high : HighPage p
  image : windowImage m parent = kernPhysToVirt (pageAlign raw ||| kernVirtToPhys p)
  clear : ∀ i : Fin 512, read64 m (phys p + 8 * i.val) = 0

theorem kernPhysToVirt_eq_iff {x p : Ptr} : kernPhysToVirt x = p ↔ x = kernVirtToPhys p := by
  rw [kernPhysToVirt, kernVirtToPhys]
  constructor
  · intro h
    rw [← h, BitVec.add_sub_cancel]
  · intro h
    rw [h, BitVec.sub_add_cancel]

/-- It is used through the window when the address that it was ORed with has no bit of its
own. -/
theorem MadeTable.image_eq_iff {raw : BitVec 64} {m : Mem} {parent p : Ptr}
    (h : MadeTable raw m parent p) :
    p = windowImage m parent ↔ pageAlign raw ||| kernVirtToPhys p = kernVirtToPhys p := by
  rw [h.image, eq_comm, kernPhysToVirt_eq_iff]

theorem MadeTable.image_eq {m : Mem} {parent p : Ptr} (h : MadeTable 0 m parent p) :
    p = windowImage m parent := by
  rw [h.image_eq_iff, show pageAlign 0 = 0#64 from rfl, BitVec.zero_or]

theorem FreshTables.newest {tables : List Ptr} (h : FreshTables pml4 owned (p :: tables)) {a : Nat}
    (ha : a ∈ tablePages pml4 tables) : PagesApart (phys p) a ∧ PageUnowned owned a := by
  constructor
  · exact (List.pairwise_cons.mp h.apart).1 a ha
  · exact h.unowned a (List.mem_cons_of_mem _ ha)

/-- One level, whose entry is not present. -/
theorem nextTable_made (hmalloc : TableAllocator malloc owned view) (pml4 v : Ptr) (k : Nat) :
    Returns (nextTable malloc table (((v >>> (12 + 9 * k)) &&& 0x1FF).setWidth 16)) s fun p t =>
      Extends view s t ∧
      (Spans table 4096 → entries s.mem (phys table) (pageIndex v k) = none →
        phys table ∈ tablePages pml4 (linked s.log) → FreshTables pml4 owned (linked t.log) →
        linked t.log = p :: linked s.log ∧
        (∃ u, malloc PageMapEntry.tableSize (s.note (.read (PageMapEntry.slot table
          (((v >>> (12 + 9 * k)) &&& 0x1FF).setWidth 16)) 8)) = .ok (p, u)) ∧
        MadeTable (read64 s.mem (phys table + 8 * (pageIndex v k).val)) t.mem
          (PageMapEntry.slot table (((v >>> (12 + 9 * k)) &&& 0x1FF).setWidth 16)) p) := by
  cases hraw : PageMapEntry.present (read64 s.mem
      (phys (PageMapEntry.slot table (((v >>> (12 + 9 * k)) &&& 0x1FF).setWidth 16)))) with
  | true =>
    apply (nextTable_present hraw).mono
    intro p t ht
    refine ⟨Extends.of_sameSide ht.2.2, fun hspan hnone => ?_⟩
    rw [phys_slot hspan, entries_eq_none.mp hnone] at hraw
    cases hraw
  | false =>
    apply (nextTable_absent hmalloc hraw).mono
    intro p t ht
    obtain ⟨hcall, hpage, hview, hlog, m, hframe, hm⟩ := ht
    refine ⟨⟨by rw [hlog]; exact List.suffix_cons _ _, hview⟩, fun hspan _ htable hfresh => ?_⟩
    rw [hlog] at hfresh
    obtain ⟨hapart, hunowned⟩ := hfresh.newest htable
    have hslot := phys_slot hspan v k
    have hnew : NewTable [phys table] s.mem m p := by
      refine ⟨hpage, fun u hu => ?_, fun u hu x h1 h2 => ?_⟩
      · rw [List.mem_singleton.mp hu]
        exact hapart
      · rw [List.mem_singleton.mp hu] at h1 h2
        exact hframe x (hunowned x h1 h2)
    have haligned : (kernVirtToPhys p).toNat % 4096 = 0 := by
      rw [hpage.toNat_kernVirtToPhys]
      exact hpage.phys_aligned
    rw [hslot] at hm
    refine ⟨hlog, hcall, hpage, ?_, fun i => ?_⟩
    · rw [windowImage, hslot, hm, hnew.read_slot (List.mem_singleton.mpr rfl),
        PageMapEntry.pageAlign_linkInto, pageAlign_of_aligned haligned]
    · rw [hm]
      exact hnew.read_new (List.mem_singleton.mpr rfl) i

/-- The root has no entry for `v`, and what is left over in its slot in the place of an
address are bits of the block that the allocator is about to return. -/
structure RootFree (malloc : BitVec 64 → Kern σ Ptr) (pml4 v : Ptr) (s : Machine σ) : Prop where
  absent : entries s.mem (phys pml4) (pageIndex v 3) = none
  block : Returns (malloc PageMapEntry.tableSize)
    (s.note (.read (PageMapEntry.slot pml4 (x86FindPageLevels v).2.level3) 8)) fun p _ =>
      pageAlign (read64 s.mem (phys pml4 + 8 * (pageIndex v 3).val)) ||| kernVirtToPhys p =
        kernVirtToPhys p

/-- Where the root has no entry, the walk makes its tables and uses them through the
window if the address stored for the first one is its own.  Where the root has one, the
first table is used as it is stored. -/
theorem throughWindow_mapWalk (hmalloc : TableAllocator malloc owned view)
    (hpml4 : Spans pml4 4096) (v : Ptr) :
    Returns (mapWalk malloc pml4 v) s fun walk t =>
      FreshTables pml4 owned (linked t.log) →
        (ThroughWindow walk ↔ RootFree malloc pml4 v s) := by
  rw [mapWalk]
  cases hroot : entries s.mem (phys pml4) (pageIndex v 3) with
  | some e3 =>
    obtain ⟨hraw, hpresent⟩ := entries_eq_some.mp hroot
    have hslot : phys (PageMapEntry.slot pml4 (x86FindPageLevels v).2.level3) = _ :=
      phys_slot hpml4 v 3
    apply (nextTable_present (by rw [hslot, hraw]; exact hpresent)).bind
    intro pdp t3 h3
    obtain ⟨hpdp, hm3, -⟩ := h3
    rw [returns_bind, returns_get]
    apply (nextTable_made hmalloc pml4 v 2).bind
    intro pd t2 _
    rw [returns_bind, returns_get]
    apply (nextTable_made hmalloc pml4 v 1).bind
    intro pt t1 _
    rw [returns_bind, returns_get, returns_pure]
    intro _
    constructor
    · intro hthrough
      have hfirst := hthrough _ (List.mem_cons_self ..)
      rw [windowImage, hm3, ← hpdp] at hfirst
      exact absurd hfirst.symm (kernPhysToVirt_ne pdp)
    · intro hfree
      rw [hfree.absent] at hroot
      cases hroot
  | none =>
    apply (nextTable_made hmalloc pml4 v 3).bind
    intro pdp t3 h3
    obtain ⟨-, hmade3⟩ := h3
    rw [returns_bind, returns_get]
    apply (nextTable_made hmalloc pml4 v 2).bind
    intro pd t2 h2
    obtain ⟨hext2, hmade2⟩ := h2
    rw [returns_bind, returns_get]
    apply (nextTable_made hmalloc pml4 v 1).bind
    intro pt t1 h1
    obtain ⟨hext1, hmade1⟩ := h1
    rw [returns_bind, returns_get, returns_pure]
    intro hfresh1
    have hfresh2 := hfresh1.of_suffix hext1.suffix
    have hfresh3 := hfresh2.of_suffix hext2.suffix
    have hmem : ∀ (q : Ptr) (tables : List Ptr), phys q ∈ tablePages pml4 (q :: tables) :=
      fun q tables => List.mem_cons_self ..
    have hclear : ∀ {raw : BitVec 64} {m : Mem} {parent p : Ptr} (_ : MadeTable raw m parent p)
        (i : Fin 512), entries m (phys p) i = none := by
      intro raw m parent p h i
      rw [entries_eq_none, h.clear i]
      rfl
    obtain ⟨hlog3, ⟨u, hcall⟩, hpdp⟩ := hmade3 hpml4 hroot
      (List.mem_append.mpr (Or.inr (List.mem_singleton.mpr rfl))) hfresh3
    obtain ⟨hlog2, -, hpd⟩ := hmade2 hpdp.high.spans (hclear hpdp _) (by rw [hlog3]; exact hmem _ _)
      hfresh2
    obtain ⟨-, -, hpt⟩ := hmade1 hpd.high.spans (hclear hpd _) (by rw [hlog2]; exact hmem _ _)
      hfresh1
    rw [hpdp.clear] at hpd
    rw [hpd.clear] at hpt
    constructor
    · intro hthrough
      exact ⟨hroot, _, _, hcall, hpdp.image_eq_iff.mp (hthrough _ (List.mem_cons_self ..))⟩
    · intro hfree c hc
      rcases List.mem_cons.mp hc with rfl | hc
      · exact hpdp.image_eq_iff.mpr (hfree.block.of_eq hcall)
      · rcases List.mem_cons.mp hc with rfl | hc
        · exact hpd.image_eq
        · rw [List.mem_singleton.mp hc]
          exact hpt.image_eq

/-- Both walkers reach every table below the root through the upper half exactly when the
root has no entry for the address, and none of another address that would be mixed with the
new one. -/
theorem walkers_throughWindow_iff (hmalloc : TableAllocator malloc owned view)
    (hpml4 : Spans pml4 4096) (v : Ptr) :
    Returns (mapWalk malloc pml4 v) s fun walk t =>
      FreshTables pml4 owned (linked t.log) →
        (ThroughWindow walk ∧ ThroughWindow (validateWalk s.mem pml4 v) ↔
          RootFree malloc pml4 v s) := by
  apply (throughWindow_mapWalk hmalloc hpml4 v).mono
  intro walk t hmap hfresh
  rw [hmap hfresh, throughWindow_validateWalk, and_iff_left_iff_imp]
  intro hfree
  have hslot : phys (PageMapEntry.slot pml4 (x86FindPageLevels v).2.level3) = _ :=
    phys_slot hpml4 v 3
  rw [hslot]
  exact Or.inr (entries_eq_none.mp hfree.absent)

end Map

/-! ## With the bump allocator -/

theorem mapWalk_bump {n : Nat} {s : Machine MmStatics} (h : Bumped n s) (hn : n + 3 < 2 ^ 32)
    (pml4 v : Ptr) :
    Returns (mapWalk bumpMalloc pml4 v) s fun _ t => ∃ k, k ≤ n + 3 ∧ Bumped k t := by
  rw [mapWalk]
  apply (nextTable_bump h (by omega) _ _).bind
  intro _ t1 h1
  obtain ⟨k1, hk1, h1⟩ := h1
  rw [returns_bind, returns_get]
  apply (nextTable_bump h1 (by omega) _ _).bind
  intro _ t2 h2
  obtain ⟨k2, hk2, h2⟩ := h2
  rw [returns_bind, returns_get]
  apply (nextTable_bump h2 (by omega) _ _).bind
  intro _ t3 h3
  obtain ⟨k3, hk3, h3⟩ := h3
  rw [returns_bind, returns_get, returns_pure]
  exact ⟨k3, by omega, h3⟩

/-- From a cleared root the tables are made, and used through the upper half. -/
theorem walkers_throughWindow_bump :
    Returns (mapWalk bumpMalloc 0x10000 0x1000) coldMachine fun walk t =>
      FreshTables 0x10000 (fun _ => False) (linked t.log) ∧
      ThroughWindow walk ∧ ThroughWindow (validateWalk coldMachine.mem 0x10000 0x1000) := by
  have hspan : Spans 0x10000 4096 := by unfold Spans; decide
  have hiff := walkers_throughWindow_iff bumpMalloc_allocator hspan (s := coldMachine) 0x1000
  have hbump := mapWalk_bump coldMachine_bumped (by decide) 0x10000 0x1000
  apply (hiff.and hbump).mono
  intro walk t ht
  obtain ⟨hiff, k, hk, hbumped⟩ := ht
  have hfresh : FreshTables 0x10000 (fun _ => False) (linked t.log) :=
    hbumped.fresh (by decide) (by omega)
  exact ⟨hfresh, (hiff hfresh).mpr ⟨rfl, _, _, rfl, rfl⟩⟩

/-- With page `0x1000` mapped, both walkers use the physical address of a table on their
way to it. -/
theorem walkers_use_low_half :
    Returns (mapAll bumpMalloc 0x10000 [(0x5000, 0x1000)]) coldMachine fun _ s =>
      Returns (mapWalk bumpMalloc 0x10000 0x1000) s fun walk t =>
        FreshTables 0x10000 (fun _ => False) (linked t.log) ∧
        ¬ ThroughWindow walk ∧ ¬ ThroughWindow (validateWalk s.mem 0x10000 0x1000) := by
  have hspan : Spans 0x10000 4096 := by unfold Spans; decide
  have hspec := mapAll_spec bumpMalloc_allocator hspan [(0x5000, 0x1000)] coldMachine []
  have hfresh := mapAll_bump_fresh 0x10000 (by decide) [(0x5000, 0x1000)] (by decide)
  have hbump := mapAll_bump 0x10000 [(0x5000, 0x1000)] 0 coldMachine coldMachine_bumped (by decide)
  apply ((hspec.and hfresh).and hbump).mono
  intro _ s hs
  obtain ⟨⟨hrun, hfresh⟩, k, hk, hbumped⟩ := hs
  obtain ⟨-, hstate⟩ := hrun.2 hfresh (mapState_empty rfl fun _ _ _ => rfl)
  have hpresent : PageMapEntry.present
      (read64 s.mem (phys 0x10000 + 8 * (pageIndex 0x1000 3).val)) = true :=
    (hstate.present_iff (q := []) (by simp) rfl _).mpr
      ⟨(0x5000, 0x1000), List.mem_cons_self .., by decide⟩
  have hmap := throughWindow_mapWalk bumpMalloc_allocator hspan (s := s) 0x1000
  have hlen : k + 3 < 2 ^ 32 := by
    have hk' : k ≤ 3 := hk
    omega
  apply (hmap.and (mapWalk_bump hbumped hlen 0x10000 0x1000)).mono
  intro walk t ht
  obtain ⟨hiff, j, hj, hbumped'⟩ := ht
  have hfresh' : FreshTables 0x10000 (fun _ => False) (linked t.log) := by
    have hk' : k ≤ 3 := hk
    exact hbumped'.fresh (by decide) (by omega)
  refine ⟨hfresh', fun hthrough => ?_, fun hthrough => ?_⟩
  · have hnone := entries_eq_none.mp ((hiff hfresh').mp hthrough).absent
    rw [hpresent] at hnone
    cases hnone
  · rcases (throughWindow_validateWalk _ _ _).mp hthrough with hnull | habsent
    · exact absurd hnull (by decide)
    · have hslot : phys (PageMapEntry.slot 0x10000 (x86FindPageLevels 0x1000).2.level3) = _ :=
        phys_slot hspan 0x1000 3
      rw [hslot, hpresent] at habsent
      cases habsent

end FeralKernel
