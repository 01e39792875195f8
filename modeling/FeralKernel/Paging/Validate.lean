import FeralKernel.Paging.MapRun

/-!
# Looking before mapping

`x86ValidateVirtualAddress` of `kern/arch/x86_64/mm/paging.c` walks the same four
levels as `x86MapAddress`, to say whether a virtual address is in use.  At the
third level it tests the entry of `PD` and then takes the address of the last
table from the entry of `PDP` with the same index.  That is another entry, and
the last level is read from a table that belongs to other addresses, or from
physical address zero.
-/

namespace FeralKernel

open Verif.Program Verif.Bytes Verif

variable {σ κ : Type}

/-! ## The code -/

/-- The second component is what is written to `*Result`, if anything is. -/
def x86ValidateVirtualAddress (pml4 address : Ptr) : Kern σ (FeralStatus × Option Bool) := do
  if pml4 = 0 then pure (.memoryPageFailure, none)
  else
    let (err, levels) := x86FindPageLevels address
    if err ≠ .success then pure (err, none)
    else
      let raw ← load64 (PageMapEntry.slot pml4 levels.level3)
      if PageMapEntry.present raw then
        let raw ← load64 (PageMapEntry.slot pml4 levels.level3)
        let pdp := pageAlign raw
        let raw ← load64 (PageMapEntry.slot pdp levels.level2)
        if PageMapEntry.present raw then
          let raw ← load64 (PageMapEntry.slot pdp levels.level2)
          let pd := pageAlign raw
          let raw ← load64 (PageMapEntry.slot pd levels.level1)
          if PageMapEntry.present raw then
            -- the source has `PDP` here and not `PD`
            let raw ← load64 (PageMapEntry.slot pdp levels.level1)
            let pt := pageAlign raw
            let raw ← load64 (PageMapEntry.slot pt levels.level0)
            if PageMapEntry.present raw then pure (.success, some true)
            else pure (.success, some false)
          else pure (.success, some false)
        else pure (.success, some false)
      else pure (.success, some false)

/-! ## What it reports -/

/-- The result as a function of memory. -/
def validated (m : Mem) (pml4 address : Ptr) : FeralStatus × Option Bool :=
  if pml4 = 0 then (.memoryPageFailure, none)
  else
    let levels := (x86FindPageLevels address).2
    let e3 := read64 m (phys (PageMapEntry.slot pml4 levels.level3))
    let e2 := read64 m (phys (PageMapEntry.slot (pageAlign e3) levels.level2))
    let e1 := read64 m (phys (PageMapEntry.slot (pageAlign e2) levels.level1))
    let stray := read64 m (phys (PageMapEntry.slot (pageAlign e3) levels.level1))
    let e0 := read64 m (phys (PageMapEntry.slot (pageAlign stray) levels.level0))
    (.success, some (PageMapEntry.present e3 && PageMapEntry.present e2 &&
      PageMapEntry.present e1 && PageMapEntry.present e0))

/-- The entries that the call reads, the newest first. -/
def validateReads (m : Mem) (pml4 address : Ptr) : List (Ptr × BitVec 16) :=
  let levels := (x86FindPageLevels address).2
  let e3 := read64 m (phys (PageMapEntry.slot pml4 levels.level3))
  let pdp := pageAlign e3
  let e2 := read64 m (phys (PageMapEntry.slot pdp levels.level2))
  let pd := pageAlign e2
  let e1 := read64 m (phys (PageMapEntry.slot pd levels.level1))
  let pt := pageAlign (read64 m (phys (PageMapEntry.slot pdp levels.level1)))
  if pml4 = 0 then []
  else if PageMapEntry.present e3 then
    if PageMapEntry.present e2 then
      if PageMapEntry.present e1 then
        [(pt, levels.level0), (pdp, levels.level1), (pd, levels.level1), (pdp, levels.level2),
          (pdp, levels.level2), (pml4, levels.level3), (pml4, levels.level3)]
      else [(pd, levels.level1), (pdp, levels.level2), (pdp, levels.level2),
        (pml4, levels.level3), (pml4, levels.level3)]
    else [(pdp, levels.level2), (pml4, levels.level3), (pml4, levels.level3)]
  else [(pml4, levels.level3)]

/-- The reads of the entries of some tables, newest first. -/
def entryReads (entries : List (Ptr × BitVec 16)) : List Event :=
  entries.map fun c => .read (PageMapEntry.slot c.1 c.2) 8

theorem linked_entryReads (entries : List (Ptr × BitVec 16)) (log : List Event) :
    linked (entryReads entries ++ log) = linked log := by
  induction entries with
  | nil => rfl
  | cons c entries ih => exact ih

theorem x86ValidateVirtualAddress_run (pml4 v : Ptr) (s : Machine σ) :
    Returns (x86ValidateVirtualAddress pml4 v) s fun r t =>
      r = validated s.mem pml4 v ∧ t.mem = s.mem ∧ t.statics = s.statics ∧
      t.log = entryReads (validateReads s.mem pml4 v) ++ s.log := by
  have hfind : x86FindPageLevels v = (.success, (x86FindPageLevels v).2) := rfl
  rw [x86ValidateVirtualAddress, validated, validateReads]
  by_cases hne : pml4 = 0
  · simp only [if_pos hne, returns_pure]
    exact ⟨trivial, trivial, trivial, rfl⟩
  · simp only [if_neg hne]
    rw [hfind]
    generalize (x86FindPageLevels v).2 = levels
    simp only [ne_eq, not_true_eq_false, if_false, returns_bind, returns_load64]
    generalize he3 : read64 s.mem (phys (PageMapEntry.slot pml4 levels.level3)) = e3
    by_cases h3 : PageMapEntry.present e3 = true
    · simp only [h3, if_true, returns_bind, returns_load64, Machine.note_mem, he3]
      generalize he2 : read64 s.mem (phys (PageMapEntry.slot (pageAlign e3) levels.level2)) = e2
      by_cases h2 : PageMapEntry.present e2 = true
      · simp only [h2, if_true, returns_bind, returns_load64, Machine.note_mem, he2]
        generalize read64 s.mem (phys (PageMapEntry.slot (pageAlign e2) levels.level1)) = e1
        by_cases h1 : PageMapEntry.present e1 = true
        · simp only [h1, if_true, returns_bind, returns_load64, Machine.note_mem]
          by_cases h0 : PageMapEntry.present (read64 s.mem (phys (PageMapEntry.slot (pageAlign
              (read64 s.mem (phys (PageMapEntry.slot (pageAlign e3) levels.level1))))
              levels.level0))) = true
          · simp only [h0, if_true, returns_pure]
            exact ⟨rfl, rfl, rfl, rfl⟩
          · simp only [h0, Bool.false_eq_true, if_false, returns_pure]
            exact ⟨rfl, rfl, rfl, rfl⟩
        · simp only [h1, Bool.false_eq_true, if_false, returns_pure]
          exact ⟨rfl, rfl, rfl, rfl⟩
      · simp only [h2, Bool.false_eq_true, if_false, returns_pure]
        exact ⟨rfl, rfl, rfl, rfl⟩
    · simp only [h3, Bool.false_eq_true, if_false, returns_pure]
      exact ⟨rfl, rfl, rfl, rfl⟩

/-- The call reads memory and changes nothing. -/
theorem x86ValidateVirtualAddress_spec (pml4 v : Ptr) (s : Machine σ) :
    Returns (x86ValidateVirtualAddress pml4 v) s fun r t =>
      r = validated s.mem pml4 v ∧ t.mem = s.mem ∧ SameSide s t := by
  apply (x86ValidateVirtualAddress_run pml4 v s).mono
  intro r t ht
  obtain ⟨hr, hm, hstat, hlog⟩ := ht
  refine ⟨hr, hm, hstat, ?_⟩
  rw [hlog, linked_entryReads]

/-- The entry that is looked at last is present.  Level 0 of the address selects it in
the table below its slots of levels 3 and 1 where there is one, and from physical
address zero up where the second of these slots is clear. -/
def StrayPresent (mapped : PageMap) (m : Mem) (v : BitVec 64) : Prop :=
  (∃ c ∈ mapped, pagePath c.2 = [pageIndex v 3, pageIndex v 1, pageIndex v 0]) ∨
    (∀ c ∈ mapped, ¬ [pageIndex v 3, pageIndex v 1] <+: pagePath c.2) ∧
      PageMapEntry.present (read64 m (8 * (pageIndex v 0).val)) = true

instance (mapped : PageMap) (m : Mem) (v : BitVec 64) : Decidable (StrayPresent mapped m v) :=
  @instDecidableOr _ _ (List.decidableBEx _ _)
    (@instDecidableAnd _ _ (List.decidableBAll _ _) (instDecidableEqBool _ _))

/-- What is reported of an address: in use when the table of its page exists and
the stray entry is present. -/
def ReportedUsed (mapped : PageMap) (m : Mem) (v : BitVec 64) : Prop :=
  (∃ c ∈ mapped, pagePath c.2 = pagePath v) ∧ StrayPresent mapped m v

instance (mapped : PageMap) (m : Mem) (v : BitVec 64) : Decidable (ReportedUsed mapped m v) :=
  @instDecidableAnd _ _ (List.decidableBEx _ _) inferInstance

theorem prefix_three_full {a b c : Fin 512} {v : BitVec 64} :
    [a, b, c] <+: pagePath v ↔ pagePath v = [a, b, c] := by
  constructor
  · intro h
    exact (h.eq_of_length rfl).symm
  · intro h
    exact ⟨[], h.symm⟩

section Tables

variable {pml4 : Ptr} {s : Machine σ} {mapped : PageMap}

/-- An entry of a reached table is present when a mapped page lies below it. -/
theorem MapState.present_iff (h : MapState pml4 s mapped) {q : List (Fin 512)} {t : Nat}
    (hq : q.length < 3)
    (hfollow : Radix.follow childTable (entries s.mem) (phys pml4) q = some t) (i : Fin 512) :
    PageMapEntry.present (read64 s.mem (t + 8 * i.val)) = true ↔
      ∃ c ∈ mapped, q ++ [i] <+: pagePath c.2 := by
  have hreach := h.reach (q ++ [i]) (by simp; omega)
  rw [Radix.follow_snoc, Radix.lookup_of_follow hfollow, Option.isSome_map] at hreach
  have hsome : (entries s.mem t i).isSome ↔
      PageMapEntry.present (read64 s.mem (t + 8 * i.val)) = true := by
    rw [entries]
    by_cases hp : PageMapEntry.present (read64 s.mem (t + 8 * i.val)) = true
    · simp [hp]
    · simp [hp]
  rw [← hsome, hreach]
  simp

theorem MapState.not_present_iff (h : MapState pml4 s mapped) {q : List (Fin 512)} {t : Nat}
    (hq : q.length < 3)
    (hfollow : Radix.follow childTable (entries s.mem) (phys pml4) q = some t) (i : Fin 512) :
    PageMapEntry.present (read64 s.mem (t + 8 * i.val)) = false ↔
      ∀ c ∈ mapped, ¬ q ++ [i] <+: pagePath c.2 := by
  rw [← Bool.not_eq_true, h.present_iff hq hfollow i]
  simp

/-- An address with an absent entry on its way is reported free. -/
theorem MapState.reports_free (h : MapState pml4 s mapped) {q : List (Fin 512)} {t : Nat}
    {i : Fin 512} {v : BitVec 64} (hq : q.length < 3)
    (hfollow : Radix.follow childTable (entries s.mem) (phys pml4) q = some t)
    (hway : q ++ [i] <+: pagePath v)
    (habsent : PageMapEntry.present (read64 s.mem (t + 8 * i.val)) = false) :
    decide (ReportedUsed mapped s.mem v) = false := by
  apply decide_eq_false
  intro hr
  obtain ⟨⟨c, hc, hpath⟩, -⟩ := hr
  apply (h.not_present_iff hq hfollow i).mp habsent c hc
  rw [hpath]
  exact hway

/-- The entry that is looked at last, once the walk has come to the third level. -/
theorem MapState.stray_present_iff (h : MapState pml4 s mapped) {v : BitVec 64} {pdp : Ptr}
    (hpdp : Radix.follow childTable (entries s.mem) (phys pml4) [pageIndex v 3] =
      some (phys pdp)) :
    let raw := read64 s.mem (phys pdp + 8 * (pageIndex v 1).val)
    Spans (pageAlign raw) 4096 ∧
      (PageMapEntry.present (read64 s.mem (phys (pageAlign raw) + 8 * (pageIndex v 0).val)) = true ↔
        StrayPresent mapped s.mem v) := by
  intro raw
  have hentry := h.present_iff (by simp) hpdp (pageIndex v 1)
  cases hraw : PageMapEntry.present raw with
  | true =>
    have hmem := hentry.mp hraw
    obtain ⟨hspans', hfollow⟩ := h.tree.child (by simp) hpdp (entries_eq_some.mpr ⟨rfl, hraw⟩)
    refine ⟨hspans', ?_⟩
    rw [h.present_iff (by simp) hfollow (pageIndex v 0), StrayPresent]
    constructor
    · intro hc
      obtain ⟨c, hc, hpath⟩ := hc
      exact Or.inl ⟨c, hc, prefix_three_full.mp hpath⟩
    · intro hc
      rcases hc with ⟨c, hc, hpath⟩ | ⟨hnone, -⟩
      · exact ⟨c, hc, prefix_three_full.mpr hpath⟩
      · obtain ⟨c, hc, hpath⟩ := hmem
        exact absurd hpath (hnone c hc)
  | false =>
    have hnone := (h.not_present_iff (by simp) hpdp (pageIndex v 1)).mp hraw
    have hzero : raw = 0 :=
      h.tree.clear _ (h.tree.reached _ ⟨_, by simp, hpdp⟩) _ (entries_eq_none.mpr hraw)
    have halign : pageAlign raw = 0 := by
      rw [hzero]
      rfl
    have hphys : phys 0 + 8 * (pageIndex v 0).val = 8 * (pageIndex v 0).val :=
      Nat.zero_add _
    rw [halign, hphys, StrayPresent]
    refine ⟨by unfold Spans; decide, ?_⟩
    constructor
    · intro hp
      exact Or.inr ⟨hnone, hp⟩
    · intro hp
      rcases hp with ⟨c, hc, hpath⟩ | ⟨-, hp⟩
      · apply absurd _ (hnone c hc)
        rw [hpath]
        exact ⟨[pageIndex v 0], rfl⟩
      · exact hp

theorem MapState.validated_eq (h : MapState pml4 s mapped) (hpml4 : Spans pml4 4096)
    (hne : pml4 ≠ 0) (v : BitVec 64) :
    validated s.mem pml4 v = (.success, some (decide (ReportedUsed mapped s.mem v))) := by
  have hfollow0 : Radix.follow childTable (entries s.mem) (phys pml4) [] = some (phys pml4) := rfl
  have hslot3 : phys (PageMapEntry.slot pml4 (x86FindPageLevels v).2.level3) =
      phys pml4 + 8 * (pageIndex v 3).val := phys_slot hpml4 v 3
  rw [validated, if_neg hne]
  simp only [hslot3]
  cases h3 : PageMapEntry.present (read64 s.mem (phys pml4 + 8 * (pageIndex v 3).val)) with
  | false =>
    rw [h.reports_free (by simp) hfollow0 (by simp [pagePath]) h3]
    rfl
  | true =>
    obtain ⟨hspans3, hfollow3⟩ :=
      h.tree.child (by simp) hfollow0 (entries_eq_some.mpr ⟨rfl, h3⟩)
    generalize pageAlign (read64 s.mem (phys pml4 + 8 * (pageIndex v 3).val)) = pdp at *
    rw [List.nil_append] at hfollow3
    have hslot2 : phys (PageMapEntry.slot pdp (x86FindPageLevels v).2.level2) = _ :=
      phys_slot hspans3 v 2
    simp only [hslot2]
    cases h2 : PageMapEntry.present (read64 s.mem (phys pdp + 8 * (pageIndex v 2).val)) with
    | false =>
      rw [h.reports_free (by simp) hfollow3 (by simp [pagePath]) h2]
      rfl
    | true =>
      obtain ⟨hspans2, hfollow2⟩ :=
        h.tree.child (by simp) hfollow3 (entries_eq_some.mpr ⟨rfl, h2⟩)
      generalize pageAlign (read64 s.mem (phys pdp + 8 * (pageIndex v 2).val)) = pd at *
      have hslot1 : phys (PageMapEntry.slot pd (x86FindPageLevels v).2.level1) = _ :=
        phys_slot hspans2 v 1
      simp only [hslot1]
      cases h1 : PageMapEntry.present (read64 s.mem (phys pd + 8 * (pageIndex v 1).val)) with
      | false =>
        rw [h.reports_free (by simp) hfollow2 (by simp [pagePath]) h1]
        rfl
      | true =>
        obtain ⟨c, hc, hpath⟩ := (h.present_iff (by simp) hfollow2 (pageIndex v 1)).mp h1
        have htable : ∃ c ∈ mapped, pagePath c.2 = pagePath v :=
          ⟨c, hc, prefix_three_full.mp hpath⟩
        obtain ⟨hspans1, hstray⟩ := h.stray_present_iff hfollow3
        have hslotStray : phys (PageMapEntry.slot pdp (x86FindPageLevels v).2.level1) = _ :=
          phys_slot hspans3 v 1
        have hslot0 : phys (PageMapEntry.slot (pageAlign (read64 s.mem
            (phys pdp + 8 * (pageIndex v 1).val))) (x86FindPageLevels v).2.level0) = _ :=
          phys_slot hspans1 v 0
        rw [hslotStray, hslot0, Bool.true_and, Bool.true_and, Bool.true_and,
          Bool.eq_iff_iff.mpr (hstray.trans (decide_eq_true_iff).symm)]
        simp only [ReportedUsed, htable, true_and]

end Tables

/-! ## Agreement with the walk -/

section Agreement

variable {malloc : BitVec 64 → Kern σ Ptr} {owned : Nat → Prop} {view : σ → κ} {pml4 : Ptr}

/-- What is reported of `v` is whether the walk finds it, and whether a mapping of
it that follows would fail. -/
def WalkersAgree (malloc : BitVec 64 → Kern σ Ptr) (owned : Nat → Prop) (pml4 : Ptr)
    (t : Machine σ) (v : BitVec 64) : Prop :=
  Returns (x86ValidateVirtualAddress pml4 v) t fun r u =>
    ∃ used, r = (.success, some used) ∧
      (used = true ↔ (translate t.mem (phys pml4) v).isSome) ∧
      ∀ p, Returns (x86MapAddress malloc pml4 p v) u fun status w =>
        FreshTables pml4 owned (linked w.log) → (used = false ↔ status = .success)

/-- No mapped page has its entry in the table of `v`, or the stray entry is present
exactly when the page of `v` is mapped. -/
def SlipHarmless (mapped : PageMap) (m : Mem) (v : BitVec 64) : Prop :=
  (∀ c ∈ mapped, pagePath c.2 ≠ pagePath v) ∨
    (StrayPresent mapped m v ↔ ∃ c ∈ mapped, SamePage c.2 v)

theorem slipHarmless_iff (mapped : PageMap) (m : Mem) (v : BitVec 64) :
    SlipHarmless mapped m v ↔ (ReportedUsed mapped m v ↔ ∃ c ∈ mapped, SamePage c.2 v) := by
  have hpath : (∃ c ∈ mapped, SamePage c.2 v) → ∃ c ∈ mapped, pagePath c.2 = pagePath v := by
    intro hc
    obtain ⟨c, hc, hsame⟩ := hc
    exact ⟨c, hc, ((samePage_iff _ _).mp hsame).1⟩
  rw [SlipHarmless, ReportedUsed]
  by_cases htable : ∃ c ∈ mapped, pagePath c.2 = pagePath v
  · have hsome : ¬ ∀ c ∈ mapped, pagePath c.2 ≠ pagePath v := by
      obtain ⟨c, hc, heq⟩ := htable
      exact fun hall => hall c hc heq
    rw [or_iff_right hsome, and_iff_right htable]
  · have hunmapped : ¬ ∃ c ∈ mapped, SamePage c.2 v := fun hc => htable (hpath hc)
    have hall : ∀ c ∈ mapped, pagePath c.2 ≠ pagePath v := fun c hc heq => htable ⟨c, hc, heq⟩
    constructor
    · intro _
      exact ⟨fun hr => absurd hr.1 htable, fun hc => absurd hc hunmapped⟩
    · intro _
      exact Or.inl hall

theorem MapState.translate_isSome {t : Machine σ} {mapped : PageMap} (h : MapState pml4 t mapped)
    (v : BitVec 64) :
    (translate t.mem (phys pml4) v).isSome ↔ ∃ c ∈ mapped, SamePage c.2 v := by
  rw [h.translate_eq v, Option.isSome_map, PageMap.find_isSome]

theorem MapState.walkersAgree_iff {t : Machine σ} {mapped : PageMap} (h : MapState pml4 t mapped)
    (hmalloc : TableAllocator malloc owned view) (hpml4 : Spans pml4 4096) (v : BitVec 64) :
    WalkersAgree malloc owned pml4 t v ↔ pml4 ≠ 0 ∧ SlipHarmless mapped t.mem v := by
  have hspec := x86ValidateVirtualAddress_spec pml4 v t
  by_cases hne : pml4 = 0
  · have hnull : validated t.mem pml4 v = (.memoryPageFailure, none) := by
      rw [validated, if_pos hne]
    constructor
    · intro hw
      obtain ⟨r, u, he, used, hused, -⟩ := hw
      obtain ⟨hr, -⟩ := hspec.of_eq he
      rw [hused, hnull] at hr
      cases hr
    · intro hw
      exact absurd hne hw.1
  · rw [slipHarmless_iff, ← h.translate_isSome v, and_iff_right hne]
    rw [h.validated_eq hpml4 hne v] at hspec
    constructor
    · intro hw
      obtain ⟨r, u, he, used, hused, hwalk, -⟩ := hw
      obtain ⟨hr, -⟩ := hspec.of_eq he
      rw [hused] at hr
      have hdecide : used = decide (ReportedUsed mapped t.mem v) := by
        simpa using hr
      rw [← hwalk, hdecide, decide_eq_true_iff]
    · intro hw
      apply hspec.mono
      intro r u hu
      obtain ⟨hr, hm, hside⟩ := hu
      refine ⟨_, hr, ?_, fun p => ?_⟩
      · rw [decide_eq_true_iff]
        exact hw
      · have hu : MapState pml4 u mapped := h.congr hside.2 fun _ _ _ _ _ => by rw [hm]
        apply (x86MapAddress_spec hmalloc hpml4 p v).mono
        intro status w hspec' hfresh
        obtain ⟨hst, -⟩ := hu.step (hspec'.2 hfresh hu.tree)
        rw [decide_eq_false_iff_not, hw, h.translate_isSome v, ← PageMap.find_isSome, hst,
          PageMap.step]
        by_cases hf : (mapped.find v).isSome
        · simp [hf]
        · simp [hf]

/-- After a run of mappings from a cleared root the two walkers agree on an address
exactly when the slip at the third level does no harm there. -/
theorem mapAll_walkersAgree_iff (hmalloc : TableAllocator malloc owned view)
    (hpml4 : Spans pml4 4096) {s : Machine σ} (hlog : linked s.log = [])
    (hzero : ∀ x, phys pml4 ≤ x → x < phys pml4 + 4096 → s.mem x = 0)
    (calls : List (Ptr × Ptr)) :
    Returns (mapAll malloc pml4 calls) s fun _ t =>
      FreshTables pml4 owned (linked t.log) → ∀ v,
        (WalkersAgree malloc owned pml4 t v ↔
          pml4 ≠ 0 ∧ SlipHarmless (PageMap.run [] calls).2 t.mem v) := by
  apply (mapAll_spec hmalloc hpml4 calls s []).mono
  intro _ t ht hfresh v
  obtain ⟨-, hstate⟩ := ht.2 hfresh (mapState_empty hlog hzero)
  exact hstate.walkersAgree_iff hmalloc hpml4 v

end Agreement

/-- With page zero mapped, the walkers agree on it and on an address whose tables do
not exist. -/
theorem mapAll_walkersAgree_bump :
    Returns (mapAll bumpMalloc 0x10000 [(0x5000, 0)]) coldMachine fun _ t =>
      FreshTables 0x10000 (fun _ => False) (linked t.log) ∧
      WalkersAgree bumpMalloc (fun _ => False) 0x10000 t 0 ∧
      WalkersAgree bumpMalloc (fun _ => False) 0x10000 t 0x40000000 := by
  have hspan : Spans 0x10000 4096 := by unfold Spans; decide
  have hagree := mapAll_walkersAgree_iff bumpMalloc_allocator hspan (s := coldMachine) rfl
    (fun _ _ _ => rfl) [(0x5000, 0)]
  have hfresh := mapAll_bump_fresh 0x10000 (by decide) [(0x5000, 0)] (by decide)
  apply (hagree.and hfresh).mono
  intro _ t ht
  obtain ⟨hiff, hfresh⟩ := ht
  have hrun : (PageMap.run [] [(0x5000, 0)]).2 = [(0x5000, 0)] := rfl
  rw [hrun] at hiff
  have hmapped : ∃ c ∈ ([(0x5000, 0)] : PageMap), pagePath c.2 =
      [pageIndex 0 3, pageIndex 0 1, pageIndex 0 0] := ⟨_, List.mem_singleton.mpr rfl, rfl⟩
  have hpage : ∃ c ∈ ([(0x5000, 0)] : PageMap), SamePage c.2 0 :=
    ⟨_, List.mem_singleton.mpr rfl, rfl⟩
  have hother : ∀ c ∈ ([(0x5000, 0)] : PageMap), pagePath c.2 ≠ pagePath 0x40000000 := by
    intro c hc
    rw [List.mem_singleton.mp hc]
    decide
  refine ⟨hfresh, (hiff hfresh 0).mpr ⟨by decide, Or.inr ?_⟩,
    (hiff hfresh 0x40000000).mpr ⟨by decide, Or.inl hother⟩⟩
  exact ⟨fun _ => hpage, fun _ => Or.inl hmapped⟩

/-- The page of `0x200000` is mapped, and reported free. -/
theorem walkers_disagree :
    Returns (mapAll bumpMalloc 0x10000 [(0x5000, 0x200000), (0x6000, 0x40200000)]) coldMachine
      fun _ t =>
        FreshTables 0x10000 (fun _ => False) (linked t.log) ∧
        ¬ WalkersAgree bumpMalloc (fun _ => False) 0x10000 t 0x200000 := by
  have hspan : Spans 0x10000 4096 := by unfold Spans; decide
  have hspec := mapAll_spec bumpMalloc_allocator hspan
    [(0x5000, 0x200000), (0x6000, 0x40200000)] coldMachine []
  have hfresh := mapAll_bump_fresh 0x10000 (by decide)
    [(0x5000, 0x200000), (0x6000, 0x40200000)] (by decide)
  apply (hspec.and hfresh).mono
  intro _ t ht
  obtain ⟨hrun, hfresh⟩ := ht
  obtain ⟨-, hstate⟩ := hrun.2 hfresh (mapState_empty rfl fun _ _ _ => rfl)
  refine ⟨hfresh, fun hagree => ?_⟩
  obtain ⟨-, hharm⟩ := (hstate.walkersAgree_iff bumpMalloc_allocator hspan _).mp hagree
  have hreported := (slipHarmless_iff _ _ _).mp hharm
  have hrun : (PageMap.run [] [(0x5000, 0x200000), (0x6000, 0x40200000)]).2 =
      [(0x6000, 0x40200000), (0x5000, 0x200000)] := rfl
  rw [hrun] at hreported
  obtain ⟨-, hstray⟩ := hreported.mpr ⟨(0x5000, 0x200000), by simp, rfl⟩
  -- the slot that the slip leads to names a table, whose entry is clear
  rcases hstray with ⟨c, hc, hpath⟩ | ⟨hnone, -⟩
  · rcases List.mem_cons.mp hc with rfl | hc'
    · exact absurd hpath (by decide)
    · rw [List.mem_singleton.mp hc'] at hpath
      exact absurd hpath (by decide)
  · exact hnone (0x6000, 0x40200000) (by simp) (by decide)

end FeralKernel
