import FeralKernel.Paging.Validate

/-!
# Unmapping a page

`x86UnmapAddress` of `kern/arch/x86_64/mm/paging.c`.  At every level it means to
stop at a huge entry and to go down through any other present one.  The mask of
its first test has both bits, so every present entry passes for a huge one: the
call clears the entry of the root and says that it has succeeded, and with that
entry go all the pages that share it.
-/

namespace FeralKernel

open Verif.Program Verif.Bytes Verif

variable {σ κ : Type}

/-! ## The code -/

namespace PageMapEntry

def x86PageFlagPresent : BitVec 64 := 1 <<< 0

def x86PageHuge : BitVec 64 := 1 <<< 7

end PageMapEntry

open PageMapEntry in
/-- The block that `x86UnmapAddress` repeats for each of the three upper levels.
`.inl` is an early return. -/
def unmapTable (table : Ptr) (level : BitVec 16) : Kern σ (FeralStatus ⊕ Ptr) := do
  let entry := slot table level
  let raw ← load64 entry
  if raw &&& (x86PageFlagPresent ||| x86PageHuge) ≠ 0 then
    store64 entry 0
    pure (.inl .success)
  else
    let raw ← load64 entry
    if raw &&& x86PageFlagPresent ≠ 0 then
      let raw ← load64 entry
      pure (.inr (kernPhysToVirt (pageAlign raw)))
    else pure (.inl .memoryPageFailure)

open PageMapEntry in
/-- The last block: the entry of the page itself. -/
def unmapLeaf (pt : Ptr) (level : BitVec 16) : Kern σ FeralStatus := do
  let entry := slot pt level
  let raw ← load64 entry
  if raw &&& (x86PageFlagPresent ||| x86PageHuge) ≠ 0 then
    store64 entry 0
    pure .success
  else
    let raw ← load64 entry
    if raw &&& x86PageFlagPresent ≠ 0 then
      store64 entry 0
      pure .success
    else pure .memoryPageFailure

def x86UnmapAddress (pml4 virtual : Ptr) : Kern σ FeralStatus := do
  let (err, levels) := x86FindPageLevels virtual
  if err ≠ .success then pure err
  else
    match ← unmapTable pml4 levels.level3 with
    | .inl status => pure status
    | .inr pdp =>
      match ← unmapTable pdp levels.level2 with
      | .inl status => pure status
      | .inr pd =>
        match ← unmapTable pd levels.level1 with
        | .inl status => pure status
        | .inr pt => unmapLeaf pt levels.level0

/-! ## What a call does -/

/-- The first test of an entry. -/
def PageMapEntry.PassesForHuge (raw : BitVec 64) : Prop :=
  raw &&& (PageMapEntry.x86PageFlagPresent ||| PageMapEntry.x86PageHuge) ≠ 0

open PageMapEntry in
/-- A word without the bits of the first test is without the bit of the second. -/
theorem PageMapEntry.flag_eq_zero {raw : BitVec 64}
    (h : raw &&& (x86PageFlagPresent ||| x86PageHuge) = 0) : raw &&& x86PageFlagPresent = 0 := by
  have hflag : x86PageFlagPresent = (x86PageFlagPresent ||| x86PageHuge) &&& x86PageFlagPresent := by
    decide
  rw [hflag, ← BitVec.and_assoc, h]
  rfl

open PageMapEntry in
/-- Every present entry passes the first test. -/
theorem PageMapEntry.mask_of_present {raw : BitVec 64} (h : present raw = true) :
    PassesForHuge raw := by
  intro hzero
  have hbit : (raw &&& x86PageFlagPresent).getLsbD 0 = true := by
    rw [BitVec.getLsbD_and, show raw.getLsbD 0 = true from h]
    rfl
  rw [flag_eq_zero hzero] at hbit
  cases hbit

/-- No level is ever left for the one below it. -/
theorem unmapTable_spec (table : Ptr) (level : BitVec 16) (s : Machine σ) :
    Returns (unmapTable table level) s fun r t => SameSide s t ∧
      (PageMapEntry.PassesForHuge (read64 s.mem (phys (PageMapEntry.slot table level))) ∧
          r = .inl .success ∧ t.mem = write64 s.mem (phys (PageMapEntry.slot table level)) 0 ∨
        ¬ PageMapEntry.PassesForHuge (read64 s.mem (phys (PageMapEntry.slot table level))) ∧
          r = .inl .memoryPageFailure ∧ t.mem = s.mem) := by
  unfold PageMapEntry.PassesForHuge
  simp only [unmapTable, returns_bind, returns_load64]
  generalize hraw : read64 s.mem (phys (PageMapEntry.slot table level)) = raw
  by_cases h : raw &&& (PageMapEntry.x86PageFlagPresent ||| PageMapEntry.x86PageHuge) ≠ 0
  · simp only [if_pos h, returns_bind, returns_store64, returns_pure]
    exact ⟨⟨rfl, rfl⟩, Or.inl ⟨h, trivial, rfl⟩⟩
  · have hflag : ¬ raw &&& PageMapEntry.x86PageFlagPresent ≠ 0 := by
      intro hne
      exact hne (PageMapEntry.flag_eq_zero (Decidable.not_not.mp h))
    simp only [if_neg h, returns_bind, returns_load64, Machine.note_mem, hraw, if_neg hflag,
      returns_pure]
    exact ⟨⟨rfl, rfl⟩, Or.inr ⟨h, trivial, trivial⟩⟩

/-- The entry of the root that a virtual address selects. -/
def rootSlot (pml4 virtual : Ptr) : Ptr :=
  PageMapEntry.slot pml4 (x86FindPageLevels virtual).2.level3

/-- The call is over at the root, in every state. -/
theorem x86UnmapAddress_spec (pml4 v : Ptr) (s : Machine σ) :
    Returns (x86UnmapAddress pml4 v) s fun status t => SameSide s t ∧
      (PageMapEntry.PassesForHuge (read64 s.mem (phys (rootSlot pml4 v))) ∧
          status = .success ∧ t.mem = write64 s.mem (phys (rootSlot pml4 v)) 0 ∨
        ¬ PageMapEntry.PassesForHuge (read64 s.mem (phys (rootSlot pml4 v))) ∧
          status = .memoryPageFailure ∧ t.mem = s.mem) := by
  apply (unmapTable_spec pml4 (x86FindPageLevels v).2.level3 s).bind
  intro r t ht
  obtain ⟨hside, ⟨h, rfl, hm⟩ | ⟨h, rfl, hm⟩⟩ := ht
  · exact returns_pure.mpr ⟨hside, Or.inl ⟨h, rfl, hm⟩⟩
  · exact returns_pure.mpr ⟨hside, Or.inr ⟨h, rfl, hm⟩⟩

/-! ## What is left of the tree -/

section Tree

variable {pml4 : Ptr} {s t : Machine σ} {mapped : PageMap}

theorem PageTree.pruned {root : Nat} {pages : List Nat} {m : Mem} (h : PageTree root pages m)
    (hpages : pages.Pairwise PagesApart) {a : Nat} (ha : a ∈ pages) (i : Fin 512) :
    Radix.Pruned childTable 3 (entries m) (entries (write64 m (a + 8 * i.val) 0)) root a i := by
  constructor
  · rw [entries_eq_none, read64_write64_same]
    rfl
  · intro u j hu hne
    have hslot := slots_apart hpages (h.reached u hu) ha hne
    exact entries_congr (read64_write64_outside (by omega))

/-- The entry that the call looks at passes for a huge one when a page below it is
mapped. -/
theorem MapState.passesForHuge_iff (h : MapState pml4 s mapped) (hpml4 : Spans pml4 4096)
    (v : Ptr) :
    PageMapEntry.PassesForHuge (read64 s.mem (phys (rootSlot pml4 v))) ↔
      ∃ c ∈ mapped, pageIndex c.2 3 = pageIndex v 3 := by
  have hslot : phys (rootSlot pml4 v) = phys pml4 + 8 * (pageIndex v 3).val :=
    phys_slot hpml4 v 3
  have hroot : Radix.follow childTable (entries s.mem) (phys pml4) [] = some (phys pml4) := rfl
  have hpresent := h.present_iff (by simp) hroot (pageIndex v 3)
  have hpre : ∀ c : Ptr × Ptr, ([] ++ [pageIndex v 3] <+: pagePath c.2) ↔
      pageIndex c.2 3 = pageIndex v 3 := by
    intro c
    simp [pagePath, eq_comm]
  simp only [hpre] at hpresent
  rw [hslot, ← hpresent]
  constructor
  · intro hraw
    by_contra habsent
    -- an entry that is not present is clear, and a clear one passes no test
    have hclear := h.tree.clear (phys pml4) (h.tree.reached _ ⟨[], by simp, rfl⟩) (pageIndex v 3)
      (entries_eq_none.mpr (by simpa using habsent))
    rw [hclear] at hraw
    exact hraw rfl
  · exact PageMapEntry.mask_of_present

theorem PageTree.prune {root : Nat} {pages : List Nat} {m : Mem} (h : PageTree root pages m)
    (hpages : pages.Pairwise PagesApart) {a : Nat} (ha : a ∈ pages) (i : Fin 512)
    (path : List (Fin 512)) (hlen : path.length < 3)
    (hpath : Radix.follow childTable (entries m) root path = some a) :
    PageTree root pages (write64 m (a + 8 * i.val) 0) := by
  have hpruned := h.pruned hpages ha i
  have hfollow := hpruned.follow h.unshared (by omega) hpath
  have hold : ∀ q u, q.length ≤ 3 →
      Radix.follow childTable (entries (write64 m (a + 8 * i.val) 0)) root q = some u →
      Radix.follow childTable (entries m) root q = some u := by
    intro q u hq hqu
    rw [hfollow q hq] at hqu
    by_cases hpq : path ++ [i] <+: q
    · rw [if_pos hpq] at hqu
      cases hqu
    · rw [if_neg hpq] at hqu
      exact hqu
  have hentry : ∀ u j e, Radix.Reached childTable 3 (entries m) root u →
      entries (write64 m (a + 8 * i.val) 0) u j = some e → entries m u j = some e := by
    intro u j e hu he
    by_cases hslot : u = a ∧ j = i
    · rw [hslot.1, hslot.2, hpruned.entry] at he
      cases he
    · rw [hpruned.frame u j hu (by
        by_cases hua : u = a
        · exact Or.inr fun hj => hslot ⟨hua, hj⟩
        · exact Or.inl hua)] at he
      exact he
  refine ⟨hpruned.unshared h.unshared (by omega) hpath, ?_, ?_, ?_, ?_⟩
  · intro u hu
    obtain ⟨q, hq, hqu⟩ := hu
    exact h.reached u ⟨q, hq, hold q u hq hqu⟩
  · intro u hu j hj
    by_cases hslot : u = a ∧ j = i
    · rw [hslot.1, hslot.2, read64_write64_same]
    · have hapart := slots_apart (j := j) (i := i) hpages hu ha (by
        by_cases hua : u = a
        · exact Or.inr fun hj => hslot ⟨hua, hj⟩
        · exact Or.inl hua)
      have hread : read64 (write64 m (a + 8 * i.val) 0) (u + 8 * j.val) =
          read64 m (u + 8 * j.val) := read64_write64_outside (by omega)
      rw [entries_congr hread] at hj
      rw [hread]
      exact h.clear u hu j hj
  · intro q u j e hq hqu he
    have hqu' := hold q u (by omega) hqu
    exact h.links q u j e hq hqu' (hentry u j e ⟨q, by omega, hqu'⟩ he)
  · intro q u j e hq hqu he
    have hqu' := hold q u (by omega) hqu
    exact h.leaves q u j e hq hqu' (hentry u j e ⟨q, by omega, hqu'⟩ he)

/-- The pages that do not share the root's entry with `v`. -/
def PageMap.dropRegion (mapped : PageMap) (v : Ptr) : PageMap :=
  mapped.filter fun c => pageIndex c.2 3 ≠ pageIndex v 3

theorem PageMap.find_dropRegion (mapped : PageMap) (v w : Ptr) :
    (mapped.dropRegion v).find w =
      if pageIndex w 3 = pageIndex v 3 then none else mapped.find w := by
  have hindex : ∀ c : Ptr × Ptr, SamePage c.2 w → pageIndex c.2 3 = pageIndex w 3 := by
    intro c hc
    have hpath := ((samePage_iff _ _).mp hc).1
    exact (List.cons.inj hpath).1
  by_cases hw : pageIndex w 3 = pageIndex v 3
  · rw [if_pos hw, PageMap.find_eq_none]
    intro c hc hsame
    rw [dropRegion, List.mem_filter] at hc
    exact absurd ((hindex c hsame).trans hw) (by simpa using hc.2)
  · rw [if_neg hw, PageMap.find, PageMap.find, dropRegion, List.find?_filter]
    apply congrArg (fun f => List.find? f mapped)
    funext c
    by_cases hc : SamePage c.2 w
    · have hne : pageIndex c.2 3 ≠ pageIndex v 3 := by
        rw [hindex c hc]
        exact hw
      rw [decide_eq_true hc, decide_eq_true hne]
      rfl
    · rw [decide_eq_false hc]
      exact decide_eq_false fun hboth => absurd hboth.2 Bool.false_ne_true

/-- Clearing the entry of the root drops its pages from the map. -/
theorem MapState.dropRegion (h : MapState pml4 s mapped)
    (hapart : (tablePages pml4 (linked s.log)).Pairwise PagesApart) (hpml4 : Spans pml4 4096)
    {v : Ptr} (hlog : linked t.log = linked s.log)
    (hm : t.mem = write64 s.mem (phys (rootSlot pml4 v)) 0) :
    MapState pml4 t (mapped.dropRegion v) := by
  have hslot : phys (rootSlot pml4 v) = phys pml4 + 8 * (pageIndex v 3).val :=
    phys_slot hpml4 v 3
  have hroot : phys pml4 ∈ tablePages pml4 (linked s.log) :=
    h.tree.reached _ ⟨[], by simp, rfl⟩
  have hpruned := h.tree.pruned hapart hroot (pageIndex v 3)
  rw [hslot] at hm
  refine ⟨?_, fun w => ?_, fun q hq => ?_⟩
  · rw [TreeAt, hlog, hm]
    exact h.tree.prune hapart hroot (pageIndex v 3) [] (by simp) rfl
  · have hpre : ([] ++ [pageIndex v 3] <+: pagePath w) ↔ pageIndex w 3 = pageIndex v 3 := by
      simp [pagePath, eq_comm]
    rw [leafEntry, hm, hpruned.lookup h.tree.unshared (p := []) (by simp) rfl (pagePath w) rfl]
    simp only [hpre]
    rw [PageMap.find_dropRegion]
    by_cases hw : pageIndex w 3 = pageIndex v 3
    · rw [if_pos hw, if_pos hw]
      rfl
    · rw [if_neg hw, if_neg hw]
      exact h.leaf w
  · rw [hm, hpruned.follow h.tree.unshared (p := []) (by simp) rfl q hq]
    have hreach := h.reach q hq
    cases q with
    | nil => simp [Radix.follow]
    | cons i q =>
      have hhead : ([] ++ [pageIndex v 3] <+: i :: q) ↔ pageIndex v 3 = i := by simp
      have hpath : ∀ c : Ptr × Ptr, i :: q <+: pagePath c.2 → pageIndex c.2 3 = i := by
        intro c hc
        exact ((List.cons_prefix_cons.mp hc).1).symm
      simp only [hhead]
      by_cases hi : pageIndex v 3 = i
      · rw [if_pos hi]
        constructor
        · intro hnone
          cases hnone
        · intro hc
          rcases hc with hc | ⟨c, hc, hpre⟩
          · cases hc
          · rw [PageMap.dropRegion, List.mem_filter] at hc
            exact absurd ((hpath c hpre).trans hi.symm) (by simpa using hc.2)
      · rw [if_neg hi, hreach]
        constructor
        · intro hc
          rcases hc with hc | ⟨c, hc, hpre⟩
          · exact Or.inl hc
          · refine Or.inr ⟨c, List.mem_filter.mpr ⟨hc, ?_⟩, hpre⟩
            rw [hpath c hpre]
            simpa using fun he => hi he.symm
        · intro hc
          rcases hc with hc | ⟨c, hc, hpre⟩
          · exact Or.inl hc
          · exact Or.inr ⟨c, (List.mem_filter.mp hc).1, hpre⟩

/-- A call on the tables of a map: it fails when no page of the region of `v` is
mapped, and drops them all when one is. -/
theorem MapState.unmap (h : MapState pml4 s mapped)
    (hapart : (tablePages pml4 (linked s.log)).Pairwise PagesApart) (hpml4 : Spans pml4 4096)
    (v : Ptr) :
    Returns (x86UnmapAddress pml4 v) s fun status t =>
      ((∃ c ∈ mapped, pageIndex c.2 3 = pageIndex v 3) ∧ status = .success ∨
        (¬ ∃ c ∈ mapped, pageIndex c.2 3 = pageIndex v 3) ∧ status = .memoryPageFailure ∧
          t.mem = s.mem) ∧
      MapState pml4 t (mapped.dropRegion v) := by
  apply (x86UnmapAddress_spec pml4 v s).mono
  intro status t ht
  rw [h.passesForHuge_iff hpml4 v] at ht
  obtain ⟨hside, ⟨hregion, hst, hm⟩ | ⟨hregion, hst, hm⟩⟩ := ht
  · exact ⟨Or.inl ⟨hregion, hst⟩, h.dropRegion hapart hpml4 hside.2 hm⟩
  · have hall : mapped.dropRegion v = mapped := by
      apply List.filter_eq_self.mpr
      intro c hc
      exact decide_eq_true fun he => hregion ⟨c, hc, he⟩
    rw [hall]
    exact ⟨Or.inr ⟨hregion, hst, hm⟩, h.congr hside.2 fun _ _ _ _ _ => by rw [hm]⟩

end Tree

/-! ## Removing one page -/

/-- The call removes the page of `v` and nothing else: it succeeds exactly when `v`
translates, and changes nothing when it does not. -/
def RemovesOnePage (pml4 : Ptr) (s : Machine σ) (v : Ptr) : Prop :=
  Returns (x86UnmapAddress pml4 v) s fun status t =>
    (status = .success ↔ (translate s.mem (phys pml4) v).isSome) ∧
    (status = .success → translate t.mem (phys pml4) v = none ∧
      ∀ w, ¬ SamePage v w → translate t.mem (phys pml4) w = translate s.mem (phys pml4) w) ∧
    (translate s.mem (phys pml4) v = none → status = .memoryPageFailure ∧ t.mem = s.mem)

/-- Every page that translates in the 512 GiB around `v` is the page of `v`. -/
def AloneInRegion (pml4 : Ptr) (s : Machine σ) (v : Ptr) : Prop :=
  ∀ w, (translate s.mem (phys pml4) w).isSome → pageIndex w 3 = pageIndex v 3 → SamePage v w

section Runs

variable {malloc : BitVec 64 → Kern σ Ptr} {owned : Nat → Prop} {view : σ → κ} {pml4 : Ptr}
  {s : Machine σ} {mapped : PageMap}

theorem MapState.aloneInRegion_iff (h : MapState pml4 s mapped) (v : Ptr) :
    AloneInRegion pml4 s v ↔
      ∀ c ∈ mapped, pageIndex c.2 3 = pageIndex v 3 → SamePage v c.2 := by
  constructor
  · intro halone c hc hi
    exact halone c.2 ((h.translate_isSome c.2).mpr ⟨c, hc, SamePage.refl _⟩) hi
  · intro hall w hw hi
    obtain ⟨c, hc, hsame⟩ := (h.translate_isSome w).mp hw
    have hpath := ((samePage_iff _ _).mp hsame).1
    have hindex : pageIndex c.2 3 = pageIndex w 3 := (List.cons.inj hpath).1
    exact (hall c hc (hindex.trans hi)).trans hsame

theorem MapState.removesOnePage_iff (h : MapState pml4 s mapped)
    (hapart : (tablePages pml4 (linked s.log)).Pairwise PagesApart) (hpml4 : Spans pml4 4096)
    (v : Ptr) : RemovesOnePage pml4 s v ↔ AloneInRegion pml4 s v := by
  have hcall := h.unmap hapart hpml4 v
  have hindex : ∀ {w w' : Ptr}, SamePage w w' → pageIndex w 3 = pageIndex w' 3 := by
    intro w w' hsame
    exact (List.cons.inj ((samePage_iff _ _).mp hsame).1).1
  constructor
  · intro hone
    obtain ⟨status, t, he, hst, hsucc, -⟩ := hone
    obtain ⟨hcase, ht⟩ := hcall.of_eq he
    intro w hw hi
    by_contra hne
    obtain ⟨c, hc, hsame⟩ := (h.translate_isSome w).mp hw
    have hstatus : status = .success := by
      rcases hcase with hcase | hcase
      · exact hcase.2
      · exact absurd ⟨c, hc, (hindex hsame).trans hi⟩ hcase.1
    have hother := (hsucc hstatus).2 w hne
    rw [ht.translate_eq w, PageMap.find_dropRegion, if_pos hi] at hother
    rw [← hother] at hw
    cases hw
  · intro halone
    apply hcall.mono
    intro status t ht
    obtain ⟨hcase, ht⟩ := ht
    have hmapped : (translate s.mem (phys pml4) v).isSome ↔
        ∃ c ∈ mapped, pageIndex c.2 3 = pageIndex v 3 := by
      rw [h.translate_isSome v]
      constructor
      · intro hc
        obtain ⟨c, hc, hsame⟩ := hc
        exact ⟨c, hc, hindex hsame⟩
      · intro hc
        obtain ⟨c, hc, hi⟩ := hc
        exact ⟨c, hc, ((h.aloneInRegion_iff v).mp halone c hc hi).symm⟩
    refine ⟨?_, fun _ => ⟨?_, fun w hw => ?_⟩, fun hnone => ?_⟩
    · rw [hmapped]
      rcases hcase with ⟨hregion, rfl⟩ | ⟨hregion, rfl, -⟩
      · exact ⟨fun _ => hregion, fun _ => rfl⟩
      · exact ⟨(fun hst => nomatch hst), fun hc => absurd hc hregion⟩
    · rw [ht.translate_eq v, PageMap.find_dropRegion, if_pos rfl]
      rfl
    · rw [ht.translate_eq w, h.translate_eq w, PageMap.find_dropRegion]
      by_cases hi : pageIndex w 3 = pageIndex v 3
      · have hfree : mapped.find w = none := by
          rw [← Option.not_isSome_iff_eq_none, PageMap.find_isSome, ← h.translate_isSome w]
          exact fun hsome => hw (halone w hsome hi)
        rw [if_pos hi, hfree]
      · rw [if_neg hi]
    · rcases hcase with ⟨hregion, -⟩ | ⟨-, hst, hm⟩
      · rw [← hmapped, hnone] at hregion
        cases hregion
      · exact ⟨hst, hm⟩

/-- After a run of mappings from a cleared root, unmapping removes one page exactly
when no other page of its region is mapped. -/
theorem mapAll_removesOnePage_iff (hmalloc : TableAllocator malloc owned view)
    (hpml4 : Spans pml4 4096) (hlog : linked s.log = [])
    (hzero : ∀ x, phys pml4 ≤ x → x < phys pml4 + 4096 → s.mem x = 0)
    (calls : List (Ptr × Ptr)) :
    Returns (mapAll malloc pml4 calls) s fun _ t =>
      FreshTables pml4 owned (linked t.log) →
        ∀ v, (RemovesOnePage pml4 t v ↔ AloneInRegion pml4 t v) := by
  apply (mapAll_spec hmalloc hpml4 calls s []).mono
  intro _ t ht hfresh v
  obtain ⟨-, hstate⟩ := ht.2 hfresh (mapState_empty hlog hzero)
  exact hstate.removesOnePage_iff hfresh.apart hpml4 v

end Runs

/-- With one page mapped in the first 512 GiB and one above them, unmapping the first
one leaves the second. -/
theorem mapAll_removesOnePage_bump :
    Returns (mapAll bumpMalloc 0x10000 [(0x5000, 0x1000), (0x6000, 0x8000001000)]) coldMachine
      fun _ t =>
        FreshTables 0x10000 (fun _ => False) (linked t.log) ∧ RemovesOnePage 0x10000 t 0x1000 := by
  have hspan : Spans 0x10000 4096 := by unfold Spans; decide
  have hremoves := mapAll_removesOnePage_iff bumpMalloc_allocator hspan (s := coldMachine) rfl
    (fun _ _ _ => rfl) [(0x5000, 0x1000), (0x6000, 0x8000001000)]
  have hspec := mapAll_spec bumpMalloc_allocator hspan
    [(0x5000, 0x1000), (0x6000, 0x8000001000)] coldMachine []
  have hfresh := mapAll_bump_fresh 0x10000 (by decide)
    [(0x5000, 0x1000), (0x6000, 0x8000001000)] (by decide)
  apply ((hremoves.and hspec).and hfresh).mono
  intro _ t ht
  obtain ⟨⟨hiff, hrun⟩, hfresh⟩ := ht
  obtain ⟨-, hstate⟩ := hrun.2 hfresh (mapState_empty rfl fun _ _ _ => rfl)
  refine ⟨hfresh, (hiff hfresh 0x1000).mpr ((hstate.aloneInRegion_iff _).mpr ?_)⟩
  intro c hc hi
  rcases List.mem_cons.mp hc with rfl | hc'
  · exact absurd hi (by decide)
  · rw [List.mem_singleton.mp hc']
    rfl

/-- Two neighbouring pages are mapped, and unmapping the first one drops both. -/
theorem unmap_drops_neighbour :
    Returns (mapAll bumpMalloc 0x10000 [(0x5000, 0x1000), (0x6000, 0x2000)]) coldMachine
      fun _ t =>
        FreshTables 0x10000 (fun _ => False) (linked t.log) ∧
        ¬ RemovesOnePage 0x10000 t 0x1000 := by
  have hspan : Spans 0x10000 4096 := by unfold Spans; decide
  have hspec := mapAll_spec bumpMalloc_allocator hspan
    [(0x5000, 0x1000), (0x6000, 0x2000)] coldMachine []
  have hfresh := mapAll_bump_fresh 0x10000 (by decide)
    [(0x5000, 0x1000), (0x6000, 0x2000)] (by decide)
  apply (hspec.and hfresh).mono
  intro _ t ht
  obtain ⟨hrun, hfresh⟩ := ht
  obtain ⟨-, hstate⟩ := hrun.2 hfresh (mapState_empty rfl fun _ _ _ => rfl)
  refine ⟨hfresh, fun hone => ?_⟩
  have halone := (hstate.removesOnePage_iff hfresh.apart hspan _).mp hone
  have hsame := (hstate.aloneInRegion_iff _).mp halone (0x6000, 0x2000) (List.mem_cons_self ..) rfl
  exact absurd hsame (by decide)

end FeralKernel
