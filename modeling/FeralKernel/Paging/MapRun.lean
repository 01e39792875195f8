import FeralKernel.Mm.State
import FeralKernel.Paging.PageTree

/-!
# Runs of mappings

`x86MapAddress` goes down three levels and writes the last entry.  `Descended`
is what one level does to the tables, `MapEffect` what the whole call does to tables that
may hold anything, and `MapOutcome` what it does to a tree.  They hold under the
assumption that the tables a run has linked are fresh, which is an assumption on
the run's final list of tables: the lists of the states before it are its suffixes.
-/

namespace FeralKernel

open Verif.Program Verif.Bytes Verif

variable {σ κ : Type}

/-! ## One level -/

/-- The tables linked in `s` hold a tree below `pml4`. -/
def TreeAt (pml4 : Ptr) (s : Machine σ) : Prop :=
  PageTree (phys pml4) (tablePages pml4 (linked s.log)) s.mem

/-- The byte is in none of the tables. -/
def OffTables (pml4 : Ptr) (s : Machine σ) (x : Nat) : Prop :=
  ∀ a ∈ tablePages pml4 (linked s.log), x < a ∨ a + 4096 ≤ x

/-- The tables that are reached below `pml4` are the root and tables linked in `s`. -/
def TablesAt (pml4 : Ptr) (s : Machine σ) : Prop :=
  TablesIn (phys pml4) (tablePages pml4 (linked s.log)) s.mem

/-- From `s` to `t` the walk to `v` has gone down from `path` through slot `i` to the
table at `p`, which was made if it was not there. -/
structure Descended (pml4 : Ptr) (owned : Nat → Prop) (s t : Machine σ) (v : BitVec 64)
    (path : List (Fin 512)) (i : Fin 512) (p : Ptr) : Prop where
  tables : TablesAt pml4 t
  tree : TreeAt pml4 s → TreeAt pml4 t
  noHuge : NoHuge (phys pml4) s.mem → NoHuge (phys pml4) t.mem
  way : WayClear (phys pml4) t.mem v
  spans : Spans p 4096
  follow : Radix.follow childTable (entries t.mem) (phys pml4) (path ++ [i]) = some (phys p)
  lookup : ∀ q j, q.length = 3 →
    Radix.lookup childTable (entries t.mem) (phys pml4) q j =
      Radix.lookup childTable (entries s.mem) (phys pml4) q j
  keeps : ∀ q j e, q.length ≤ 3 →
    Radix.lookup childTable (entries s.mem) (phys pml4) q j = some e →
      Radix.lookup childTable (entries t.mem) (phys pml4) q j = some e
  reach : ∀ q, q.length ≤ 3 →
    ((Radix.follow childTable (entries t.mem) (phys pml4) q).isSome ↔
      (Radix.follow childTable (entries s.mem) (phys pml4) q).isSome ∨ q = path ++ [i])
  clear : Radix.follow childTable (entries s.mem) (phys pml4) (path ++ [i]) = none →
    ∀ j : Fin 512, read64 t.mem (phys p + 8 * j.val) = 0
  kept : (Radix.follow childTable (entries s.mem) (phys pml4) (path ++ [i])).isSome →
    t.mem = s.mem ∧ linked t.log = linked s.log
  frame : ∀ x, ¬ owned x → OffTables pml4 t x → t.mem x = s.mem x

/-- What a step that may link tables does whatever the allocator returns. -/
structure Extends (view : σ → κ) (s t : Machine σ) : Prop where
  suffix : linked s.log <:+ linked t.log
  view_eq : view t.statics = view s.statics

theorem Extends.refl (view : σ → κ) (s : Machine σ) : Extends view s s :=
  ⟨List.suffix_refl _, rfl⟩

theorem Extends.trans {view : σ → κ} {s t u : Machine σ} (h : Extends view s t)
    (h' : Extends view t u) : Extends view s u :=
  ⟨h.suffix.trans h'.suffix, h'.view_eq.trans h.view_eq⟩

theorem Extends.of_sameSide {view : σ → κ} {s t : Machine σ} (h : SameSide s t) :
    Extends view s t :=
  ⟨⟨[], h.2.symm⟩, congrArg view h.1⟩

section Level

variable {malloc : BitVec 64 → Kern σ Ptr} {owned : Nat → Prop} {view : σ → κ}
  {pml4 table p : Ptr} {s t : Machine σ} {v : BitVec 64} {path : List (Fin 512)} {i : Fin 512}

/-- The table was there. -/
theorem Descended.of_present (htables : TablesAt pml4 s) (hway : WayClear (phys pml4) s.mem v)
    (hpre : path ++ [i] <+: pagePath v)
    (hpath : Radix.follow childTable (entries s.mem) (phys pml4) path = some (phys table))
    (hraw : PageMapEntry.present (read64 s.mem (phys table + 8 * i.val)) = true)
    (hp : p = pageAlign (read64 s.mem (phys table + 8 * i.val))) (hm : t.mem = s.mem)
    (hlog : linked t.log = linked s.log) : Descended pml4 owned s t v path i p := by
  have hentry : entries s.mem (phys table) i = some (read64 s.mem (phys table + 8 * i.val)) :=
    entries_eq_some.mpr ⟨rfl, hraw⟩
  obtain ⟨hspans, hchild⟩ := (hway.link path i _ hpre hpath).child
  have hfollow : Radix.follow childTable (entries s.mem) (phys pml4) (path ++ [i]) =
      some (phys p) := by
    rw [Radix.follow_snoc, Radix.lookup_of_follow hpath, hentry, Option.map_some, hchild, hp]
  refine ⟨?_, ?_, ?_, ?_, by rw [hp]; exact hspans, ?_, ?_, ?_, ?_, ?_, fun _ => ⟨hm, hlog⟩, ?_⟩
  · rw [TablesAt, hm, hlog]
    exact htables
  · intro htree
    rw [TreeAt, hm, hlog]
    exact htree
  · rw [hm]
    exact id
  · rw [hm]
    exact hway
  · rw [hm]
    exact hfollow
  · intro q j _
    rw [hm]
  · intro q j e _ he
    rw [hm]
    exact he
  · intro q _
    rw [hm]
    constructor
    · exact Or.inl
    · intro hq
      rcases hq with hq | rfl
      · exact hq
      · rw [hfollow]
        rfl
  · intro hnone
    rw [hfollow] at hnone
    cases hnone
  · intro x _ _
    rw [hm]

/-- The entry at which the walk links the table that the allocator has returned: `m` is the
memory that the allocator left. -/
theorem LinkSite.of_way (htables : TablesAt pml4 s) (hway : WayClear (phys pml4) s.mem v)
    (hpre : path ++ [i] <+: pagePath v)
    (hpath : Radix.follow childTable (entries s.mem) (phys pml4) path = some (phys table))
    (hraw : PageMapEntry.present (read64 s.mem (phys table + 8 * i.val)) = false)
    (hpage : HighPage p) (hfresh : FreshTables pml4 owned (p :: linked s.log)) {m : Mem}
    (hframe : ∀ x, ¬ owned x → m x = s.mem x) :
    LinkSite (phys pml4) (tablePages pml4 (linked s.log)) s.mem m path (phys table) i p := by
  have hold : FreshTables pml4 owned (linked s.log) := hfresh.of_suffix (List.suffix_cons _ _)
  have hfree : entries s.mem (phys table) i = none := entries_eq_none.mpr hraw
  exact
    { tables := htables
      apart := hold.apart
      new :=
        { page := hpage
          apart := (List.pairwise_cons.mp hfresh.apart).1
          same := fun u hu x h1 h2 => hframe x (hold.unowned u hu x h1 h2) }
      short := length_of_snoc_pagePath hpre
      follow := hpath
      free := hfree
      clear := ((hway.link path i _ hpre hpath).2 hraw).1
      sole := hway.sole path i _ (hpre.trans (List.prefix_append _ _)) hpath hfree }

/-- The table has been made. -/
theorem Descended.of_link {m : Mem}
    (h : LinkSite (phys pml4) (tablePages pml4 (linked s.log)) s.mem m path (phys table) i p)
    (hway : WayClear (phys pml4) s.mem v) (hpre : path ++ [i] <+: pagePath v)
    (hlog : linked t.log = p :: linked s.log) (hframe : ∀ x, ¬ owned x → m x = s.mem x)
    (hm : t.mem = linkTable m (phys table + 8 * i.val) p) :
    Descended pml4 owned s t v path i p := by
  have hshort := h.short
  have hpages : tablePages pml4 (linked t.log) = phys p :: tablePages pml4 (linked s.log) := by
    rw [hlog]
    rfl
  have hsmall := ((hway.link path i _ hpre h.follow).2 (entries_eq_none.mp h.free)).2
  have hnone : Radix.follow childTable (entries s.mem) (phys pml4) (path ++ [i]) = none :=
    Radix.follow_none_of_free h.follow h.free (List.prefix_refl _)
  refine ⟨?_, ?_, ?_, ?_, h.new.page.spans, ?_, ?_, ?_, ?_, ?_, ?_, ?_⟩
  · rw [TablesAt, hpages, hm]
    exact h.tablesIn
  · intro htree
    rw [TreeAt, hpages, hm]
    exact htree.graft h
  · intro hnoHuge
    rw [hm]
    exact h.noHuge hnoHuge hsmall
  · rw [hm]
    exact h.wayClear hway hpre
  · rw [hm, h.follow_eq (by simp; omega), if_pos rfl]
  · intro q j hq
    rw [hm]
    exact h.grafted.lookup h.sole h.short h.follow q hq j
  · intro q j e hq he
    rw [hm]
    exact h.grafted.keeps h.sole h.short h.follow hq he
  · intro q hq
    rw [hm, h.follow_eq hq]
    by_cases hqp : q = path ++ [i]
    · simp [hqp]
    · simp [hqp]
  · intro _ j
    rw [hm]
    exact h.new.read_new h.mem_pages j
  · intro hsome
    rw [hnone] at hsome
    cases hsome
  · intro x hx hoff
    have hi := i.isLt
    have hoffp := hoff (phys p) (by rw [hpages]; exact List.mem_cons_self ..)
    have hofft := hoff (phys table) (by rw [hpages]; exact List.mem_cons_of_mem _ h.mem_pages)
    rw [hm, linkTable, write64_outside (by omega), fill_outside (by omega), hframe x hx]

theorem nextTable_spec (hmalloc : TableAllocator malloc owned view) (pml4 : Ptr) (v : BitVec 64)
    (k : Nat) (path : List (Fin 512)) (hpre : path ++ [pageIndex v k] <+: pagePath v) :
    Returns (nextTable malloc table (((v >>> (12 + 9 * k)) &&& 0x1FF).setWidth 16)) s fun p t =>
      Extends view s t ∧
      (FreshTables pml4 owned (linked t.log) → TablesAt pml4 s →
        WayClear (phys pml4) s.mem v → Spans table 4096 →
        Radix.follow childTable (entries s.mem) (phys pml4) path = some (phys table) →
        Descended pml4 owned s t v path (pageIndex v k) p) := by
  cases hraw : PageMapEntry.present (read64 s.mem
      (phys (PageMapEntry.slot table (((v >>> (12 + 9 * k)) &&& 0x1FF).setWidth 16)))) with
  | true =>
    apply (nextTable_present hraw).mono
    intro p t ht
    obtain ⟨hp, hm, hside⟩ := ht
    refine ⟨Extends.of_sameSide hside, fun _ htables hway hspan hpath => ?_⟩
    rw [phys_slot hspan] at hraw hp
    exact Descended.of_present htables hway hpre hpath hraw hp hm hside.2
  | false =>
    apply (nextTable_absent hmalloc hraw).mono
    intro p t ht
    obtain ⟨-, hpage, hview, hlog, m, hframe, hm⟩ := ht
    refine ⟨⟨by rw [hlog]; exact List.suffix_cons _ _, hview⟩,
      fun hfresh htables hway hspan hpath => ?_⟩
    rw [phys_slot hspan] at hraw hm
    rw [hlog] at hfresh
    have hsite := LinkSite.of_way htables hway hpre hpath hraw hpage hfresh hframe
    exact Descended.of_link hsite hway hpre hlog hframe hm

end Level

/-! ## One call -/

/-- What a call of `x86MapAddress` that returned `status` has done to the tree. -/
structure MapOutcome (pml4 : Ptr) (owned : Nat → Prop) (s t : Machine σ)
    (physical virtual : Ptr) (status : FeralStatus) : Prop where
  tree : TreeAt pml4 t
  failed : (leafEntry s.mem (phys pml4) virtual).isSome →
    status = .memoryPageFailure ∧ t.mem = s.mem ∧ linked t.log = linked s.log
  mapped : leafEntry s.mem (phys pml4) virtual = none →
    status = .success ∧
    (∀ w, leafEntry t.mem (phys pml4) w = if SamePage virtual w
      then some (PageMapEntry.linkTo physical) else leafEntry s.mem (phys pml4) w) ∧
    ∀ q, q.length ≤ 3 →
      ((Radix.follow childTable (entries t.mem) (phys pml4) q).isSome ↔
        (Radix.follow childTable (entries s.mem) (phys pml4) q).isSome ∨
          q ≠ [] ∧ q <+: pagePath virtual)
  frame : ∀ x, ¬ owned x → OffTables pml4 t x → t.mem x = s.mem x

/-- What the slot of the page of `v` holds, zero when its table is not there. -/
def leafWord (m : Mem) (root : Nat) (v : BitVec 64) : BitVec 64 :=
  match Radix.follow childTable (entries m) root (pagePath v) with
  | some t => read64 m (t + 8 * (pageIndex v 0).val)
  | none => 0#64

/-- What the call has done to tables that may hold anything, when the way to the address
was clear.  The new frame is ORed into what the slot of the page held. -/
structure MapEffect (pml4 : Ptr) (owned : Nat → Prop) (s t : Machine σ)
    (physical virtual : Ptr) (status : FeralStatus) : Prop where
  tables : TablesAt pml4 t
  tree : TreeAt pml4 s → TreeAt pml4 t
  noHuge : NoHuge (phys pml4) s.mem → NoHuge (phys pml4) t.mem
  way : WayClear (phys pml4) t.mem virtual
  keeps : ∀ q j e, q.length ≤ 3 →
    Radix.lookup childTable (entries s.mem) (phys pml4) q j = some e →
      Radix.lookup childTable (entries t.mem) (phys pml4) q j = some e
  failed : (leafEntry s.mem (phys pml4) virtual).isSome →
    status = .memoryPageFailure ∧ t.mem = s.mem ∧ linked t.log = linked s.log
  mapped : leafEntry s.mem (phys pml4) virtual = none →
    status = .success ∧
    (∀ w, leafEntry t.mem (phys pml4) w = if SamePage virtual w
      then some (PageMapEntry.linkInto (leafWord s.mem (phys pml4) virtual) physical)
      else leafEntry s.mem (phys pml4) w) ∧
    ∀ q, q.length ≤ 3 →
      ((Radix.follow childTable (entries t.mem) (phys pml4) q).isSome ↔
        (Radix.follow childTable (entries s.mem) (phys pml4) q).isSome ∨
          q ≠ [] ∧ q <+: pagePath virtual)
  frame : ∀ x, ¬ owned x → OffTables pml4 t x → t.mem x = s.mem x

/-- In a tree the slot of a page that is not mapped is zero. -/
theorem PageTree.leafWord_eq {root : Nat} {pages : List Nat} {m : Mem}
    (h : PageTree root pages m) {v : BitVec 64} (hnone : leafEntry m root v = none) :
    leafWord m root v = 0 := by
  rw [leafEntry, Radix.lookup] at hnone
  rw [leafWord]
  cases hf : Radix.follow childTable (entries m) root (pagePath v) with
  | none => rfl
  | some t =>
    rw [hf] at hnone
    exact h.clear t (h.reached t ⟨pagePath v, Nat.le_refl 3, hf⟩) _ hnone

theorem MapEffect.outcome {pml4 : Ptr} {owned : Nat → Prop} {s t : Machine σ}
    {physical virtual : Ptr} {status : FeralStatus}
    (h : MapEffect pml4 owned s t physical virtual status) (htree : TreeAt pml4 s) :
    MapOutcome pml4 owned s t physical virtual status := by
  refine ⟨h.tree htree, h.failed, fun hnone => ?_, h.frame⟩
  have hmapped := h.mapped hnone
  rw [PageTree.leafWord_eq htree hnone] at hmapped
  exact hmapped

theorem OffTables.of_extends {view : σ → κ} {pml4 : Ptr} {s t : Machine σ} {x : Nat}
    (h : Extends view s t) (hoff : OffTables pml4 t x) : OffTables pml4 s x := by
  intro a ha
  apply hoff a
  rw [tablePages, List.mem_append] at ha ⊢
  rcases ha with ha | ha
  · exact Or.inl ((h.suffix.sublist.map phys).subset ha)
  · exact Or.inr ha

/-- The state in which the last entry is looked at: three levels down, with no
value changed. -/
structure AtLeaf (pml4 : Ptr) (owned : Nat → Prop) (s t : Machine σ) (v : BitVec 64) (pt : Ptr) :
    Prop where
  tables : TablesAt pml4 t
  tree : TreeAt pml4 s → TreeAt pml4 t
  noHuge : NoHuge (phys pml4) s.mem → NoHuge (phys pml4) t.mem
  way : WayClear (phys pml4) t.mem v
  spans : Spans pt 4096
  follow : Radix.follow childTable (entries t.mem) (phys pml4) (pagePath v) = some (phys pt)
  lookup : ∀ q j, q.length = 3 →
    Radix.lookup childTable (entries t.mem) (phys pml4) q j =
      Radix.lookup childTable (entries s.mem) (phys pml4) q j
  keeps : ∀ q j e, q.length ≤ 3 →
    Radix.lookup childTable (entries s.mem) (phys pml4) q j = some e →
      Radix.lookup childTable (entries t.mem) (phys pml4) q j = some e
  reach : ∀ q, q.length ≤ 3 →
    ((Radix.follow childTable (entries t.mem) (phys pml4) q).isSome ↔
      (Radix.follow childTable (entries s.mem) (phys pml4) q).isSome ∨
        q ≠ [] ∧ q <+: pagePath v)
  word : read64 t.mem (phys pt + 8 * (pageIndex v 0).val) = leafWord s.mem (phys pml4) v
  kept : (Radix.follow childTable (entries s.mem) (phys pml4) (pagePath v)).isSome →
    t.mem = s.mem ∧ linked t.log = linked s.log
  frame : ∀ x, ¬ owned x → OffTables pml4 t x → t.mem x = s.mem x

/-- A reached path has its prefixes reached. -/
theorem follow_isSome_mono {m : Mem} {root : Nat} {p q : List (Fin 512)} (h : p <+: q)
    (hq : (Radix.follow childTable (entries m) root q).isSome) :
    (Radix.follow childTable (entries m) root p).isSome := by
  cases hp : Radix.follow childTable (entries m) root p with
  | some t => rfl
  | none =>
    rw [Radix.follow_none_append hp h] at hq
    cases hq

theorem prefix_three_iff {a b c : Fin 512} {q : List (Fin 512)} :
    q ≠ [] ∧ q <+: [a, b, c] ↔ q = [a] ∨ q = [a, b] ∨ q = [a, b, c] := by
  match q with
  | [] => simp
  | [x] => simp
  | [x, y] => simp
  | [x, y, z] => simp
  | x :: y :: z :: w :: rest => simp

section Call

variable {malloc : BitVec 64 → Kern σ Ptr} {owned : Nat → Prop} {view : σ → κ} {pml4 : Ptr}
  {s t1 t2 t3 : Machine σ} {v : BitVec 64} {pdp pd pt : Ptr}

theorem Descended.atLeaf (e12 : Extends view t1 t2) (e23 : Extends view t2 t3)
    (d1 : Descended pml4 owned s t1 v [] (pageIndex v 3) pdp)
    (d2 : Descended pml4 owned t1 t2 v [pageIndex v 3] (pageIndex v 2) pd)
    (d3 : Descended pml4 owned t2 t3 v [pageIndex v 3, pageIndex v 2] (pageIndex v 1) pt) :
    AtLeaf pml4 owned s t3 v pt := by
  have hkept : (Radix.follow childTable (entries s.mem) (phys pml4) (pagePath v)).isSome →
      t3.mem = s.mem ∧ linked t3.log = linked s.log := by
    intro hsome
    have h1 := d1.kept (follow_isSome_mono (q := pagePath v) (by simp [pagePath]) hsome)
    have h2 := d2.kept (by
      rw [h1.1]
      exact follow_isSome_mono (q := pagePath v) (by simp [pagePath]) hsome)
    have h3 := d3.kept (by
      rw [h2.1, h1.1]
      exact hsome)
    exact ⟨by rw [h3.1, h2.1, h1.1], by rw [h3.2, h2.2, h1.2]⟩
  refine ⟨d3.tables, d3.tree ∘ d2.tree ∘ d1.tree, d3.noHuge ∘ d2.noHuge ∘ d1.noHuge, d3.way,
    d3.spans, d3.follow, ?_, ?_, ?_, ?_, hkept, ?_⟩
  · intro q j hq
    rw [d3.lookup q j hq, d2.lookup q j hq, d1.lookup q j hq]
  · intro q j e hq he
    exact d3.keeps q j e hq (d2.keeps q j e hq (d1.keeps q j e hq he))
  · intro q hq
    rw [d3.reach q hq, d2.reach q hq, d1.reach q hq, pagePath, prefix_three_iff]
    simp only [List.nil_append, List.cons_append, or_assoc]
  · -- the slot is an old one, or it is in a table that has just been made
    rw [leafWord]
    cases hf : Radix.follow childTable (entries s.mem) (phys pml4) (pagePath v) with
    | some u =>
      have hmem := (hkept (by rw [hf]; rfl)).1
      have hpt : Radix.follow childTable (entries t3.mem) (phys pml4) (pagePath v) =
          some (phys pt) := d3.follow
      rw [hmem, hf] at hpt
      rw [hmem, Option.some.inj hpt]
    | none =>
      apply d3.clear
      rw [← Option.not_isSome_iff_eq_none]
      intro hsome
      rw [d2.reach _ (by simp), d1.reach _ (by simp)] at hsome
      rcases hsome with (hsome | heq) | heq
      · rw [show [pageIndex v 3, pageIndex v 2] ++ [pageIndex v 1] = pagePath v from rfl,
          hf] at hsome
        cases hsome
      · simp at heq
      · simp at heq
  · intro x hx hoff
    have hoff2 := hoff.of_extends e23
    rw [d3.frame x hx hoff, d2.frame x hx hoff2, d1.frame x hx (hoff2.of_extends e12)]

/-- Going down to the last table. -/
theorem descend_spec (hmalloc : TableAllocator malloc owned view) (hpml4 : Spans pml4 4096)
    {Q : FeralStatus → Machine σ → Prop} {rest : Ptr → Kern σ FeralStatus}
    (hrest : ∀ pt t, Extends view s t →
      (FreshTables pml4 owned (linked t.log) → TablesAt pml4 s →
        WayClear (phys pml4) s.mem v → AtLeaf pml4 owned s t v pt) →
      Returns (rest pt) t Q) :
    Returns (do
      let pdp ← nextTable malloc pml4 (x86FindPageLevels v).2.level3
      let pd ← nextTable malloc pdp (x86FindPageLevels v).2.level2
      let pt ← nextTable malloc pd (x86FindPageLevels v).2.level1
      rest pt) s Q := by
  apply (nextTable_spec hmalloc pml4 v 3 [] (by simp [pagePath])).bind
  intro pdp t1 h1
  obtain ⟨e1, d1⟩ := h1
  apply (nextTable_spec hmalloc pml4 v 2 [pageIndex v 3] (by simp [pagePath])).bind
  intro pd t2 h2
  obtain ⟨e2, d2⟩ := h2
  apply (nextTable_spec hmalloc pml4 v 1 [pageIndex v 3, pageIndex v 2]
    (by simp [pagePath])).bind
  intro pt t3 h3
  obtain ⟨e3, d3⟩ := h3
  apply hrest pt t3 ((e1.trans e2).trans e3)
  intro hfresh htables hway
  have hfresh2 := hfresh.of_suffix e3.suffix
  have d1' := d1 (hfresh2.of_suffix e2.suffix) htables hway hpml4 rfl
  have d2' := d2 hfresh2 d1'.tables d1'.way d1'.spans d1'.follow
  have d3' := d3 hfresh d2'.tables d2'.way d2'.spans d2'.follow
  exact Descended.atLeaf e2 e3 d1' d2' d3'

/-- The last entry before and after, seen from the state before the call. -/
theorem AtLeaf.leafEntry_eq (h : AtLeaf pml4 owned s t3 v pt) :
    leafEntry s.mem (phys pml4) v = entries t3.mem (phys pt) (pageIndex v 0) := by
  rw [leafEntry, ← h.lookup _ _ rfl, Radix.lookup_of_follow h.follow]

theorem AtLeaf.effect_failed (h : AtLeaf pml4 owned s t3 v pt) {t : Machine σ} {physical : Ptr}
    (hpresent : PageMapEntry.present (read64 t3.mem (phys pt + 8 * (pageIndex v 0).val)) = true)
    (hm : t.mem = t3.mem) (hside : SameSide t3 t) :
    MapEffect pml4 owned s t physical v .memoryPageFailure := by
  have hlog := hside.2
  have hsome : (leafEntry s.mem (phys pml4) v).isSome := by
    rw [h.leafEntry_eq, entries_eq_some.mpr ⟨rfl, hpresent⟩]
    rfl
  have hpath : (Radix.follow childTable (entries s.mem) (phys pml4) (pagePath v)).isSome := by
    rw [leafEntry, Radix.lookup] at hsome
    cases hf : Radix.follow childTable (entries s.mem) (phys pml4) (pagePath v) with
    | some u => rfl
    | none =>
      rw [hf] at hsome
      cases hsome
  obtain ⟨hkm, hkl⟩ := h.kept hpath
  refine ⟨?_, ?_, ?_, ?_, ?_, fun _ => ⟨rfl, ?_, ?_⟩, fun hnone => ?_, fun x _ _ => ?_⟩
  · rw [TablesAt, hm, hlog]
    exact h.tables
  · rw [TreeAt, TreeAt, hm, hlog]
    exact h.tree
  · rw [hm]
    exact h.noHuge
  · rw [hm]
    exact h.way
  · rw [hm]
    exact h.keeps
  · rw [hm, hkm]
  · rw [hlog, hkl]
  · rw [hnone] at hsome
    cases hsome
  · rw [hm, hkm]

theorem AtLeaf.effect_mapped (h : AtLeaf pml4 owned s t3 v pt) {t : Machine σ} {physical : Ptr}
    (hfresh : FreshTables pml4 owned (linked t3.log))
    (habsent : PageMapEntry.present (read64 t3.mem (phys pt + 8 * (pageIndex v 0).val)) = false)
    (hm : t.mem = write64 t3.mem (phys pt + 8 * (pageIndex v 0).val)
      (PageMapEntry.linkInto (read64 t3.mem (phys pt + 8 * (pageIndex v 0).val)) physical))
    (hside : SameSide t3 t) : MapEffect pml4 owned s t physical v .success := by
  have hlog := hside.2
  have hfree : entries t3.mem (phys pt) (pageIndex v 0) = none := entries_eq_none.mpr habsent
  have hsite : LeafSite (phys pml4) (tablePages pml4 (linked t3.log)) t3.mem (phys pt) v :=
    { tables := h.tables
      apart := hfresh.apart
      follow := h.follow
      free := hfree
      sole := h.way.sole (pagePath v) (pageIndex v 0) _ (List.prefix_refl _) h.follow hfree }
  have hpresent := PageMapEntry.present_linkInto
    (read64 t3.mem (phys pt + 8 * (pageIndex v 0).val)) physical
  have hplant := hsite.planted hpresent
  have hnone : leafEntry s.mem (phys pml4) v = none := by
    rw [h.leafEntry_eq, hfree]
  refine ⟨?_, fun htree => ?_, fun hnoHuge => ?_, ?_, fun q j e hq he => ?_, fun hsome => ?_,
    fun _ => ⟨rfl, fun w => ?_, fun q hq => ?_⟩, fun x hx hoff => ?_⟩
  · rw [TablesAt, hm, hlog]
    exact hsite.tablesIn hpresent
  · have hzero : read64 t3.mem (phys pt + 8 * (pageIndex v 0).val) = 0#64 := by
      rw [h.word]
      exact PageTree.leafWord_eq htree hnone
    rw [TreeAt, hm, hlog, hzero]
    exact PageTree.plant (h.tree htree) hsite physical
  · rw [hm]
    exact hsite.noHuge hpresent (h.noHuge hnoHuge)
  · rw [hm]
    exact hsite.wayClear hpresent h.way
  · rw [hm]
    exact hplant.keeps hsite.sole rfl hfree hq (h.keeps q j e hq he)
  · rw [hnone] at hsome
    cases hsome
  · rw [leafEntry, leafEntry, hm, hplant.lookup hsite.sole rfl h.follow _ rfl,
      h.lookup _ _ rfl, ← h.word]
    by_cases hw : SamePage v w
    · obtain ⟨hp, hi⟩ := (samePage_iff v w).mp hw
      rw [if_pos ⟨hp.symm, hi.symm⟩, if_pos hw]
    · have hw' : ¬ (pagePath w = pagePath v ∧ pageIndex w 0 = pageIndex v 0) := by
        intro hboth
        exact hw ((samePage_iff v w).mpr ⟨hboth.1.symm, hboth.2.symm⟩)
      rw [if_neg hw', if_neg hw]
  · rw [hm, hsite.follow_eq hpresent hq]
    exact h.reach q hq
  · have hi := (pageIndex v 0).isLt
    have hoff3 : OffTables pml4 t3 x := by
      rw [OffTables, ← hlog]
      exact hoff
    have hpage := hoff3 _ hsite.mem_pages
    rw [hm, write64_outside (by omega)]
    exact h.frame x hx hoff3

/-- One call on tables that may hold anything. -/
theorem x86MapAddress_effect (hmalloc : TableAllocator malloc owned view)
    (hpml4 : Spans pml4 4096) (physical virtual : Ptr) :
    Returns (x86MapAddress malloc pml4 physical virtual) s fun status t =>
      Extends view s t ∧
      (FreshTables pml4 owned (linked t.log) → TablesAt pml4 s →
        WayClear (phys pml4) s.mem virtual → MapEffect pml4 owned s t physical virtual status) := by
  rw [x86MapAddress_eq]
  apply descend_spec (v := virtual) hmalloc hpml4
  intro pt u hext hleaf
  cases hraw : PageMapEntry.present (read64 u.mem
      (phys (PageMapEntry.slot pt (x86FindPageLevels virtual).2.level0))) with
  | true =>
    apply (mapLeaf_present hraw).mono
    intro status t ht
    obtain ⟨rfl, hm, hside⟩ := ht
    refine ⟨hext.trans (Extends.of_sameSide hside), fun hfresh htables hway => ?_⟩
    rw [hside.2] at hfresh
    have h := hleaf hfresh htables hway
    have hslot := phys_slot h.spans virtual 0
    exact h.effect_failed (hslot ▸ hraw) hm hside
  | false =>
    apply (mapLeaf_absent hraw).mono
    intro status t ht
    obtain ⟨rfl, hside, hm⟩ := ht
    refine ⟨hext.trans (Extends.of_sameSide hside), fun hfresh htables hway => ?_⟩
    rw [hside.2] at hfresh
    have h := hleaf hfresh htables hway
    have hslot := phys_slot h.spans virtual 0
    exact h.effect_mapped hfresh (hslot ▸ hraw) (hslot ▸ hm) hside

/-- One call on a tree. -/
theorem x86MapAddress_spec (hmalloc : TableAllocator malloc owned view) (hpml4 : Spans pml4 4096)
    (physical virtual : Ptr) :
    Returns (x86MapAddress malloc pml4 physical virtual) s fun status t =>
      Extends view s t ∧
      (FreshTables pml4 owned (linked t.log) → TreeAt pml4 s →
        MapOutcome pml4 owned s t physical virtual status) := by
  apply (x86MapAddress_effect hmalloc hpml4 physical virtual).mono
  intro status t ht
  refine ⟨ht.1, fun hfresh htree => ?_⟩
  exact (ht.2 hfresh htree.reached (PageTree.wayClear htree virtual)).outcome htree

end Call

/-! ## The map that a run builds -/

/-- The pages mapped so far, as pairs of a physical and a virtual address with the
newest first. -/
abbrev PageMap : Type := List (Ptr × Ptr)

namespace PageMap

/-- The first mapping of the page of `v`. -/
def find (mapped : PageMap) (v : Ptr) : Option (Ptr × Ptr) :=
  List.find? (fun c => decide (SamePage c.2 v)) mapped

def step (mapped : PageMap) (c : Ptr × Ptr) : FeralStatus × PageMap :=
  if (mapped.find c.2).isSome then (.memoryPageFailure, mapped) else (.success, c :: mapped)

def run (mapped : PageMap) : List (Ptr × Ptr) → List FeralStatus × PageMap
  | [] => ([], mapped)
  | c :: rest =>
    let next := step mapped c
    let tail := run next.2 rest
    (next.1 :: tail.1, tail.2)

theorem find_eq_none {mapped : PageMap} {v : Ptr} :
    mapped.find v = none ↔ ∀ c ∈ mapped, ¬ SamePage c.2 v := by
  rw [find, List.find?_eq_none]
  simp

theorem find_isSome {mapped : PageMap} {v : Ptr} :
    (mapped.find v).isSome ↔ ∃ c ∈ mapped, SamePage c.2 v := by
  rw [find, List.find?_isSome]
  simp

/-- No page is mapped twice. -/
def Single (mapped : PageMap) : Prop := mapped.Pairwise fun a b => ¬ SamePage a.2 b.2

theorem Single.find_eq {mapped : PageMap} (h : mapped.Single) {c : Ptr × Ptr} (hc : c ∈ mapped)
    {v : Ptr} (hv : SamePage c.2 v) : mapped.find v = some c := by
  induction mapped with
  | nil => cases hc
  | cons d rest ih =>
    obtain ⟨hd, hrest⟩ := List.pairwise_cons.mp h
    rw [find, List.find?_cons]
    rcases List.mem_cons.mp hc with rfl | hc'
    · rw [decide_eq_true hv]
    · have hne : ¬ SamePage d.2 v := fun hdv => hd c hc' (hdv.trans hv.symm)
      rw [decide_eq_false hne]
      exact ih hrest hc'

theorem Single.step {mapped : PageMap} (h : mapped.Single) (c : Ptr × Ptr) :
    (PageMap.step mapped c).2.Single := by
  rw [PageMap.step]
  by_cases hf : (mapped.find c.2).isSome
  · rw [if_pos hf]
    exact h
  · rw [if_neg hf]
    apply List.pairwise_cons.mpr
    have hnone : mapped.find c.2 = none := by simpa using hf
    refine ⟨fun d hd hsame => ?_, h⟩
    exact find_eq_none.mp hnone d hd hsame.symm

theorem Single.run {mapped : PageMap} (h : mapped.Single) (calls : List (Ptr × Ptr)) :
    (PageMap.run mapped calls).2.Single := by
  induction calls generalizing mapped with
  | nil => exact h
  | cons c rest ih => exact ih (h.step c)

/-- A run has mapped what it started from and what its successful calls asked for. -/
theorem mem_run {mapped : PageMap} {calls : List (Ptr × Ptr)} {c : Ptr × Ptr} :
    c ∈ (run mapped calls).2 ↔
      c ∈ mapped ∨ (c, FeralStatus.success) ∈ calls.zip (run mapped calls).1 := by
  induction calls generalizing mapped with
  | nil => simp [run]
  | cons d rest ih =>
    rw [run, List.zip_cons_cons, List.mem_cons, ih]
    by_cases hf : (mapped.find d.2).isSome
    · simp [step, hf]
    · simp [step, hf, or_assoc, or_left_comm]

end PageMap

/-- The tables hold exactly the pages of `mapped`. -/
structure MapState (pml4 : Ptr) (t : Machine σ) (mapped : PageMap) : Prop where
  tree : TreeAt pml4 t
  leaf : ∀ w, leafEntry t.mem (phys pml4) w =
    (mapped.find w).map fun c => PageMapEntry.linkTo c.1
  reach : ∀ q, q.length ≤ 3 →
    ((Radix.follow childTable (entries t.mem) (phys pml4) q).isSome ↔
      q = [] ∨ ∃ c ∈ mapped, q <+: pagePath c.2)

theorem mapState_empty {pml4 : Ptr} {s : Machine σ} (hlog : linked s.log = [])
    (hzero : ∀ x, phys pml4 ≤ x → x < phys pml4 + 4096 → s.mem x = 0) : MapState pml4 s [] := by
  have hnone : ∀ i, entries s.mem (phys pml4) i = none := by
    intro i
    have hi := i.isLt
    rw [entries_eq_none, read64_zero fun x h1 h2 => hzero x (by omega) (by omega)]
    rfl
  refine ⟨?_, fun w => ?_, fun q _ => ?_⟩
  · rw [TreeAt, hlog]
    exact pageTree_empty hzero
  · exact Radix.lookup_empty hnone _ _
  · by_cases hq : q = []
    · subst hq
      simp [Radix.follow]
    · rw [Radix.follow_empty hnone hq]
      simp [hq]

/-- Memory outside the tables does not matter. -/
theorem MapState.congr {pml4 : Ptr} {s t : Machine σ} {mapped : PageMap}
    (h : MapState pml4 s mapped) (hlog : linked t.log = linked s.log)
    (hm : ∀ a ∈ tablePages pml4 (linked s.log), ∀ x, a ≤ x → x < a + 4096 → t.mem x = s.mem x) :
    MapState pml4 t mapped := by
  have hfollow := h.tree.follow_congr hm
  refine ⟨?_, fun w => ?_, fun q hq => ?_⟩
  · rw [TreeAt, hlog]
    exact PageTree.congr h.tree hm
  · rw [← h.leaf w]
    apply Radix.lookup_congr _ _ (show (pagePath w).length ≤ 3 from Nat.le_refl 3)
    intro a i ha
    exact entries_congr_page (hm a (h.tree.reached a ha)) i
  · rw [hfollow q hq]
    exact h.reach q hq

/-- One call does to the tables what it does to the map. -/
theorem MapState.step {pml4 : Ptr} {owned : Nat → Prop} {s t : Machine σ} {mapped : PageMap}
    {p v : Ptr} {status : FeralStatus} (h : MapState pml4 s mapped)
    (hout : MapOutcome pml4 owned s t p v status) :
    status = (mapped.step (p, v)).1 ∧ MapState pml4 t (mapped.step (p, v)).2 ∧
      (status ≠ .success → t.mem = s.mem) := by
  have hleaf := h.leaf v
  rw [PageMap.step]
  cases hf : mapped.find v with
  | some c =>
    rw [hf] at hleaf
    obtain ⟨hst, hm, hlog⟩ := hout.failed (by rw [hleaf]; rfl)
    rw [if_pos (by rfl)]
    refine ⟨hst, ⟨?_, fun w => ?_, fun q hq => ?_⟩, fun _ => hm⟩
    · exact hout.tree
    · rw [hm]
      exact h.leaf w
    · rw [hm]
      exact h.reach q hq
  | none =>
    rw [hf] at hleaf
    obtain ⟨hst, hvalue, hreach⟩ := hout.mapped hleaf
    rw [if_neg (by simp)]
    refine ⟨hst, ⟨hout.tree, fun w => ?_, fun q hq => ?_⟩, fun hne => absurd hst hne⟩
    · rw [hvalue w, h.leaf w, PageMap.find, PageMap.find, List.find?_cons]
      by_cases hw : SamePage v w
      · rw [if_pos hw, decide_eq_true hw]
        rfl
      · rw [if_neg hw, decide_eq_false hw]
    · rw [hreach q hq, h.reach q hq]
      by_cases hq' : q = []
      · simp [hq']
      · simp [hq', or_comm]

/-! ## Runs -/

def mapAll (malloc : BitVec 64 → Kern σ Ptr) (pml4 : Ptr) :
    List (Ptr × Ptr) → Kern σ (List FeralStatus)
  | [] => pure []
  | (p, v) :: rest => do
    let status ← x86MapAddress malloc pml4 p v
    let statuses ← mapAll malloc pml4 rest
    pure (status :: statuses)

section Run

variable {malloc : BitVec 64 → Kern σ Ptr} {owned : Nat → Prop} {view : σ → κ} {pml4 : Ptr}

theorem mapAll_spec (hmalloc : TableAllocator malloc owned view) (hpml4 : Spans pml4 4096)
    (calls : List (Ptr × Ptr)) : ∀ (s : Machine σ) (mapped : PageMap),
    Returns (mapAll malloc pml4 calls) s fun statuses t =>
      Extends view s t ∧
      (FreshTables pml4 owned (linked t.log) → MapState pml4 s mapped →
        statuses = (mapped.run calls).1 ∧ MapState pml4 t (mapped.run calls).2) := by
  induction calls with
  | nil =>
    intro s mapped
    rw [mapAll, returns_pure]
    exact ⟨Extends.refl view s, fun _ h => ⟨rfl, h⟩⟩
  | cons c rest ih =>
    intro s mapped
    obtain ⟨p, v⟩ := c
    rw [mapAll]
    apply (x86MapAddress_spec hmalloc hpml4 p v).bind
    intro status t ht
    obtain ⟨hext, hout⟩ := ht
    apply (ih t (mapped.step (p, v)).2).bind
    intro statuses u hu
    obtain ⟨hext', hrest⟩ := hu
    rw [returns_pure]
    refine ⟨hext.trans hext', fun hfresh h => ?_⟩
    obtain ⟨hst, h', -⟩ := h.step (hout (hfresh.of_suffix hext'.suffix) h.tree)
    obtain ⟨hsts, h''⟩ := hrest hfresh h'
    exact ⟨by rw [hst, hsts]; rfl, h''⟩

/-- The walk, read off the map. -/
theorem MapState.translate_eq {t : Machine σ} {mapped : PageMap} (h : MapState pml4 t mapped)
    (v : Ptr) : translate t.mem (phys pml4) v =
      (mapped.find v).map fun c => { address := frameBits c.1, writable := true } := by
  rw [h.tree.translate_eq v, h.leaf v]
  cases mapped.find v with
  | none => rfl
  | some c => simp only [Option.map_some, PageMapEntry.frameBits_linkTo]

/-- A run of mappings from a cleared root refines the map from pages to frames.
Its statuses are those of the map.  A call after it succeeds exactly when no
successful call of the run used its page, and changes nothing when it fails.
The walk of an address gives the frame that a successful call mapped there, as far as an
entry holds it: the physical address is cut down to bits 12 to 51. -/
theorem mapAll_refines (hmalloc : TableAllocator malloc owned view) (hpml4 : Spans pml4 4096)
    {s : Machine σ} (hlog : linked s.log = [])
    (hzero : ∀ x, phys pml4 ≤ x → x < phys pml4 + 4096 → s.mem x = 0)
    (calls : List (Ptr × Ptr)) :
    Returns (mapAll malloc pml4 calls) s fun statuses t =>
      FreshTables pml4 owned (linked t.log) →
        statuses = (PageMap.run [] calls).1 ∧
        (∀ p v, Returns (x86MapAddress malloc pml4 p v) t fun status u =>
          FreshTables pml4 owned (linked u.log) →
            (status = .success ↔
              ∀ c, (c, FeralStatus.success) ∈ calls.zip statuses → ¬ SamePage c.2 v) ∧
            (status ≠ .success → status = .memoryPageFailure ∧ u.mem = t.mem)) ∧
        ∀ v,
          (∀ c, (c, FeralStatus.success) ∈ calls.zip statuses → SamePage c.2 v →
            translate t.mem (phys pml4) v =
              some { address := frameBits c.1, writable := true } ∧
            (c.1.toNat < 2 ^ 52 → translate t.mem (phys pml4) v =
              some { address := pageAlign c.1, writable := true })) ∧
          ((∀ c, (c, FeralStatus.success) ∈ calls.zip statuses → ¬ SamePage c.2 v) →
            translate t.mem (phys pml4) v = none) := by
  apply (mapAll_spec hmalloc hpml4 calls s []).mono
  intro statuses t ht hfresh
  obtain ⟨hst, hstate⟩ := ht.2 hfresh (mapState_empty hlog hzero)
  have hsingle : (PageMap.run [] calls).2.Single := PageMap.Single.run List.Pairwise.nil calls
  have hmem : ∀ c, c ∈ (PageMap.run [] calls).2 ↔
      (c, FeralStatus.success) ∈ calls.zip statuses := by
    intro c
    rw [PageMap.mem_run, ← hst]
    simp
  have hfind : ∀ v, PageMap.find (PageMap.run [] calls).2 v = none ↔
      ∀ c, (c, FeralStatus.success) ∈ calls.zip statuses → ¬ SamePage c.2 v := by
    intro v
    rw [PageMap.find_eq_none]
    simp only [hmem]
  refine ⟨hst, fun p v => ?_, fun v => ⟨fun c hc hv => ?_, fun hnone => ?_⟩⟩
  · apply (x86MapAddress_spec hmalloc hpml4 p v).mono
    intro status u hu hfresh'
    obtain ⟨hs, -, hfail⟩ := hstate.step (hu.2 hfresh' hstate.tree)
    rw [← hfind v]
    rw [PageMap.step] at hs
    cases hf : PageMap.find (PageMap.run [] calls).2 v with
    | none =>
      rw [hf, if_neg (by simp)] at hs
      exact ⟨⟨fun _ => rfl, fun _ => hs⟩, fun hne => absurd hs hne⟩
    | some c =>
      rw [hf, if_pos (by rfl)] at hs
      have hne : status ≠ .success := by
        rw [hs]
        simp
      exact ⟨⟨fun hsucc => absurd hsucc hne, fun hc => nomatch hc⟩, fun _ => ⟨hs, hfail hne⟩⟩
  · have hwalk : translate t.mem (phys pml4) v =
        some { address := frameBits c.1, writable := true } := by
      rw [hstate.translate_eq v, hsingle.find_eq ((hmem c).mpr hc) hv]
      rfl
    refine ⟨hwalk, fun hlt => ?_⟩
    rw [hwalk, (frameBits_eq_pageAlign_iff c.1).mpr hlt]
  · rw [hstate.translate_eq v, (hfind v).mpr hnone]
    rfl

end Run

/-! ## A bump allocator

An allocator that gives out the 65536 pages from 2 MiB up in order, with its
count kept where the kernel keeps its arenas.  It shows that the assumption on
allocators can be met. -/

def bumpPage (n : Nat) : Ptr := kernPhysToVirt (BitVec.ofNat 64 (0x200000 + 4096 * (n % 65536)))

def bumpMalloc (_ : BitVec 64) : Kern MmStatics Ptr := do
  let statics ← getStatics
  setStatics { statics with currentState := { arenas := statics.currentState.arenas + 1 } }
  pure (bumpPage statics.currentState.arenas.toNat)

/-- The first `n` pages, the newest first. -/
def bumpPages : Nat → List Ptr
  | 0 => []
  | n + 1 => bumpPage n :: bumpPages n

/-- Where page `n` lies in physical memory. -/
theorem bumpPage_window (n : Nat) :
    (BitVec.ofNat 64 (0x200000 + 4096 * (n % 65536))).toNat = 0x200000 + 4096 * (n % 65536) ∧
      InWindow (BitVec.ofNat 64 (0x200000 + 4096 * (n % 65536))) 4096 := by
  have hnat : (BitVec.ofNat 64 (0x200000 + 4096 * (n % 65536))).toNat =
      0x200000 + 4096 * (n % 65536) := by
    rw [BitVec.toNat_ofNat]
    omega
  refine ⟨hnat, ?_⟩
  rw [InWindow, hnat]
  omega

theorem phys_bumpPage (n : Nat) : phys (bumpPage n) = 0x200000 + 4096 * (n % 65536) := by
  obtain ⟨hnat, hwin⟩ := bumpPage_window n
  rw [bumpPage, phys_kernPhysToVirt hwin (by omega), hnat]

theorem bumpPage_high (n : Nat) : HighPage (bumpPage n) := by
  obtain ⟨hnat, hwin⟩ := bumpPage_window n
  have hvirt := toNat_kernPhysToVirt hwin (by omega)
  rw [hnat] at hvirt
  constructor
  · rw [bumpPage, hvirt]
    omega
  · rw [bumpPage, hvirt]
    omega

theorem bumpMalloc_allocator :
    TableAllocator bumpMalloc (fun _ => False) MmStatics.mmState := by
  constructor
  intro s
  simp only [bumpMalloc, returns_bind, returns_getStatics, returns_setStatics, returns_pure]
  exact ⟨bumpPage_high _, fun _ _ => trivial, trivial, trivial⟩

theorem mem_bumpPages {p : Ptr} {n : Nat} (h : p ∈ bumpPages n) : ∃ k, k < n ∧ p = bumpPage k := by
  induction n with
  | zero => cases h
  | succ n ih =>
    rcases List.mem_cons.mp h with rfl | h'
    · exact ⟨n, by omega, rfl⟩
    · obtain ⟨k, hk, rfl⟩ := ih h'
      exact ⟨k, by omega, rfl⟩

theorem bumpPages_fresh {pml4 : Ptr} (hpml4 : phys pml4 + 4096 ≤ 0x200000) {n : Nat}
    (hn : n ≤ 65536) : FreshTables pml4 (fun _ => False) (bumpPages n) := by
  refine ⟨?_, fun _ _ _ _ _ h => h⟩
  induction n with
  | zero => exact List.pairwise_singleton _ _
  | succ n ih =>
    have hpage := phys_bumpPage n
    show List.Pairwise PagesApart (phys (bumpPage n) :: tablePages pml4 (bumpPages n))
    apply List.pairwise_cons.mpr
    refine ⟨fun a ha => ?_, ih (by omega)⟩
    rw [tablePages, List.mem_append] at ha
    rcases ha with ha | ha
    · obtain ⟨p, hp, rfl⟩ := List.mem_map.mp ha
      obtain ⟨k, hk, rfl⟩ := mem_bumpPages hp
      have hk' := phys_bumpPage k
      unfold PagesApart
      omega
    · rw [List.mem_singleton] at ha
      unfold PagesApart
      omega

/-- The allocator has given out `n` pages and they are the tables linked. -/
structure Bumped (n : Nat) (s : Machine MmStatics) : Prop where
  count : s.statics.currentState.arenas = BitVec.ofNat 64 n
  tables : linked s.log = bumpPages n

theorem Bumped.fresh {n : Nat} {s : Machine MmStatics} (h : Bumped n s) {pml4 : Ptr}
    (hpml4 : phys pml4 + 4096 ≤ 0x200000) (hn : n ≤ 65536) :
    FreshTables pml4 (fun _ => False) (linked s.log) := by
  rw [h.tables]
  exact bumpPages_fresh hpml4 hn

theorem nextTable_bump {n : Nat} {s : Machine MmStatics} (h : Bumped n s) (hn : n < 2 ^ 32)
    (table : Ptr) (level : BitVec 16) :
    Returns (nextTable bumpMalloc table level) s fun _ t => ∃ k, k ≤ n + 1 ∧ Bumped k t := by
  cases hraw : PageMapEntry.present (read64 s.mem (phys (PageMapEntry.slot table level))) with
  | true =>
    apply (nextTable_present hraw).mono
    intro _ t ht
    exact ⟨n, by omega, by rw [ht.2.2.1]; exact h.count, by rw [ht.2.2.2]; exact h.tables⟩
  | false =>
    simp only [nextTable, bumpMalloc, returns_bind, returns_load64, hraw, Bool.false_eq_true,
      if_false, returns_getStatics, returns_setStatics, returns_pure, Machine.note_statics]
    apply (kiSetMemoryBytes_spec (bumpPage_high _).spans (by decide)).mono
    intro _ u hu
    obtain ⟨-, -, hside⟩ := hu
    simp only [returns_store64, returns_record]
    refine ⟨n + 1, by omega, ?_, ?_⟩
    · show u.statics.currentState.arenas = _
      rw [hside.1]
      show s.statics.currentState.arenas + 1 = _
      rw [h.count, BitVec.ofNat_add]
      rfl
    · show bumpPage s.statics.currentState.arenas.toNat :: linked u.log = _
      rw [hside.2, h.count, BitVec.toNat_ofNat, Nat.mod_eq_of_lt (by omega)]
      show bumpPage n :: linked s.log = _
      rw [h.tables]
      rfl

theorem x86MapAddress_bump {n : Nat} {s : Machine MmStatics} (h : Bumped n s)
    (hn : n + 3 < 2 ^ 32) (pml4 p v : Ptr) :
    Returns (x86MapAddress bumpMalloc pml4 p v) s fun _ t => ∃ k, k ≤ n + 3 ∧ Bumped k t := by
  rw [x86MapAddress_eq]
  apply (nextTable_bump h (by omega) _ _).bind
  intro _ t1 h1
  obtain ⟨k1, hk1, h1⟩ := h1
  apply (nextTable_bump h1 (by omega) _ _).bind
  intro _ t2 h2
  obtain ⟨k2, hk2, h2⟩ := h2
  apply (nextTable_bump h2 (by omega) _ _).bind
  intro pt t3 h3
  obtain ⟨k3, hk3, h3⟩ := h3
  cases hraw : PageMapEntry.present (read64 t3.mem
      (phys (PageMapEntry.slot pt (x86FindPageLevels v).2.level0))) with
  | true =>
    apply (mapLeaf_present hraw).mono
    intro _ t ht
    exact ⟨k3, by omega, by rw [ht.2.2.1]; exact h3.count, by rw [ht.2.2.2]; exact h3.tables⟩
  | false =>
    apply (mapLeaf_absent hraw).mono
    intro _ t ht
    exact ⟨k3, by omega, by rw [ht.2.1.1]; exact h3.count, by rw [ht.2.1.2]; exact h3.tables⟩

theorem mapAll_bump (pml4 : Ptr) (calls : List (Ptr × Ptr)) : ∀ (n : Nat) (s : Machine MmStatics),
    Bumped n s → n + 3 * calls.length < 2 ^ 32 →
      Returns (mapAll bumpMalloc pml4 calls) s fun _ t =>
        ∃ k, k ≤ n + 3 * calls.length ∧ Bumped k t := by
  induction calls with
  | nil =>
    intro n s h _
    rw [mapAll, returns_pure]
    exact ⟨n, by simp, h⟩
  | cons c rest ih =>
    intro n s h hn
    rw [List.length_cons] at hn ⊢
    obtain ⟨p, v⟩ := c
    rw [mapAll]
    apply (x86MapAddress_bump h (by omega) pml4 p v).bind
    intro _ t ht
    obtain ⟨k, hk, ht⟩ := ht
    apply (ih k t ht (by omega)).bind
    intro _ u hu
    obtain ⟨k', hk', hu⟩ := hu
    rw [returns_pure]
    exact ⟨k', by omega, hu⟩

theorem coldMachine_bumped : Bumped 0 coldMachine := ⟨rfl, rfl⟩

/-- From cleared memory the tables of a short enough run are fresh. -/
theorem mapAll_bump_fresh (pml4 : Ptr) (hpml4 : phys pml4 + 4096 ≤ 0x200000)
    (calls : List (Ptr × Ptr)) (hlen : 3 * calls.length ≤ 65536) :
    Returns (mapAll bumpMalloc pml4 calls) coldMachine fun _ t =>
      FreshTables pml4 (fun _ => False) (linked t.log) := by
  have hbump := mapAll_bump pml4 calls 0 coldMachine coldMachine_bumped (by omega)
  apply hbump.mono
  intro _ t ht
  obtain ⟨k, hk, hbumped⟩ := ht
  exact hbumped.fresh hpml4 (by omega)

/-- From cleared memory with the root at 64 KiB, the page of `0x1000` is mapped
once: a second mapping at `0x1FFF` fails and the walk keeps the first frame. -/
theorem mapAll_refines_bump :
    Returns (mapAll bumpMalloc 0x10000 [(0x5000, 0x1000), (0x6000, 0x1FFF)]) coldMachine
      fun statuses t =>
        FreshTables 0x10000 (fun _ => False) (linked t.log) ∧
        statuses = [.success, .memoryPageFailure] ∧
        translate t.mem (phys 0x10000) 0x1234 = some { address := 0x5000, writable := true } := by
  have hspan : Spans 0x10000 4096 := by unfold Spans; decide
  have hrefines := mapAll_refines bumpMalloc_allocator hspan (s := coldMachine) rfl
    (fun _ _ _ => rfl) [(0x5000, 0x1000), (0x6000, 0x1FFF)]
  have hfresh := mapAll_bump_fresh 0x10000 (by decide)
    [(0x5000, 0x1000), (0x6000, 0x1FFF)] (by decide)
  apply (hrefines.and hfresh).mono
  intro statuses t ht
  obtain ⟨hmain, hfresh⟩ := ht
  obtain ⟨hst, -, hwalk⟩ := hmain hfresh
  have hst' : statuses = [.success, .memoryPageFailure] := by
    rw [hst]
    decide
  refine ⟨hfresh, hst', ?_⟩
  rw [((hwalk 0x1234).1 (0x5000, 0x1000) (by rw [hst']; simp) (by decide)).2 (by decide)]
  rfl

/-- A physical address with bit 52 set is taken, and the page is walked to another frame. -/
theorem mapAll_cuts_frame :
    Returns (mapAll bumpMalloc 0x10000 [(0x0010000000005000, 0x1000)]) coldMachine
      fun statuses t =>
        FreshTables 0x10000 (fun _ => False) (linked t.log) ∧
        statuses = [.success] ∧
        translate t.mem (phys 0x10000) 0x1000 = some { address := 0x5000, writable := true } ∧
        pageAlign 0x0010000000005000 ≠ 0x5000 := by
  have hspan : Spans 0x10000 4096 := by unfold Spans; decide
  have hspec := mapAll_spec bumpMalloc_allocator hspan [(0x0010000000005000, 0x1000)]
    coldMachine []
  have hfresh := mapAll_bump_fresh 0x10000 (by decide) [(0x0010000000005000, 0x1000)] (by decide)
  apply (hspec.and hfresh).mono
  intro statuses t ht
  obtain ⟨hrun, hfresh⟩ := ht
  obtain ⟨hst, hstate⟩ := hrun.2 hfresh (mapState_empty rfl fun _ _ _ => rfl)
  have hfind : PageMap.find (PageMap.run [] [(0x0010000000005000, 0x1000)]).2 0x1000 =
      some (0x0010000000005000, 0x1000) := by decide
  refine ⟨hfresh, by rw [hst]; decide, ?_, by decide⟩
  rw [hstate.translate_eq, hfind]
  rfl

end FeralKernel
