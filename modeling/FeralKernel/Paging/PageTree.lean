import FeralKernel.Paging.Tables

/-!
# The tree that the tables hold

`PageTree` is the invariant.  It says that the tables that have been linked hold
a radix tree without sharing, that an entry which is not present is zero, and
that a present one is what the three updates of an entry write.

Every way in such a tree is clear, so that linking a table and writing a last entry do to it
what they should, and it is such a tree again afterwards.
-/

namespace FeralKernel

open Verif.Program Verif.Bytes Verif

/-- The tables at `pages` hold a tree below `root`. -/
structure PageTree (root : Nat) (pages : List Nat) (m : Mem) : Prop where
  unshared : Radix.Unshared childTable 3 (entries m) root
  reached : ∀ t, Radix.Reached childTable 3 (entries m) root t → t ∈ pages
  clear : ∀ t ∈ pages, ∀ i : Fin 512, entries m t i = none → read64 m (t + 8 * i.val) = 0
  links : ∀ p t i e, p.length < 3 → Radix.follow childTable (entries m) root p = some t →
    entries m t i = some e →
      ∃ a, e = PageMapEntry.linkTo a ∧ a.toNat % 4096 = 0 ∧ a.toNat + 4096 ≤ 0x8000000000
  leaves : ∀ p t i e, p.length = 3 → Radix.follow childTable (entries m) root p = some t →
    entries m t i = some e → ∃ a, e = PageMapEntry.linkTo a

theorem PageTree.follow_congr {root : Nat} {pages : List Nat} {m m' : Mem}
    (h : PageTree root pages m)
    (hm : ∀ t ∈ pages, ∀ x, t ≤ x → x < t + 4096 → m' x = m x) (p : List (Fin 512))
    (hp : p.length ≤ 3) :
    Radix.follow childTable (entries m') root p = Radix.follow childTable (entries m) root p := by
  apply Radix.follow_congr _ p hp
  intro t i ht
  exact entries_congr_page (hm t (h.reached t ht)) i

/-- Memory outside the tables does not matter. -/
theorem PageTree.congr {root : Nat} {pages : List Nat} {m m' : Mem} (h : PageTree root pages m)
    (hm : ∀ t ∈ pages, ∀ x, t ≤ x → x < t + 4096 → m' x = m x) : PageTree root pages m' := by
  have hfollow := h.follow_congr hm
  have hentry : ∀ t ∈ pages, ∀ i, entries m' t i = entries m t i := fun t ht i =>
    entries_congr_page (hm t ht) i
  refine ⟨?_, ?_, ?_, ?_, ?_⟩
  · intro p q t hp hq hpt hqt
    rw [hfollow p hp] at hpt
    rw [hfollow q hq] at hqt
    exact h.unshared p q t hp hq hpt hqt
  · intro t ht
    obtain ⟨p, hp, hpt⟩ := ht
    rw [hfollow p hp] at hpt
    exact h.reached t ⟨p, hp, hpt⟩
  · intro t ht i hi
    have hlt := i.isLt
    rw [hentry t ht i] at hi
    have hread : read64 m' (t + 8 * i.val) = read64 m (t + 8 * i.val) :=
      read64_congr fun x h1 h2 => hm t ht x (by omega) (by omega)
    rw [hread]
    exact h.clear t ht i hi
  · intro p t i e hp hpt hi
    rw [hfollow p (by omega)] at hpt
    rw [hentry t (h.reached t ⟨p, by omega, hpt⟩) i] at hi
    exact h.links p t i e hp hpt hi
  · intro p t i e hp hpt hi
    rw [hfollow p (by omega)] at hpt
    rw [hentry t (h.reached t ⟨p, by omega, hpt⟩) i] at hi
    exact h.leaves p t i e hp hpt hi

/-- A cleared root alone is the empty tree. -/
theorem pageTree_empty {root : Nat} {m : Mem}
    (hzero : ∀ x, root ≤ x → x < root + 4096 → m x = 0) : PageTree root [root] m := by
  have hread : ∀ i : Fin 512, read64 m (root + 8 * i.val) = 0 := fun i =>
    read64_zero fun x h1 h2 => hzero x (by omega) (by have := i.isLt; omega)
  have hnone : ∀ i, entries m root i = none := by
    intro i
    rw [entries_eq_none, hread i]
    rfl
  have hroot : ∀ p t, Radix.follow childTable (entries m) root p = some t → t = root := by
    intro p t hp
    cases p with
    | nil => exact (Option.some.inj hp).symm
    | cons i p =>
      rw [Radix.follow_empty hnone (by simp)] at hp
      cases hp
  refine ⟨Radix.unshared_empty hnone, ?_, ?_, ?_, ?_⟩
  · intro t ht
    obtain ⟨p, -, hp⟩ := ht
    rw [hroot p t hp]
    exact List.mem_singleton.mpr rfl
  · intro t ht i _
    rw [List.mem_singleton] at ht
    rw [ht]
    exact hread i
  · intro p t i e _ hp he
    rw [hroot p t hp, hnone i] at he
    cases he
  · intro p t i e _ hp he
    rw [hroot p t hp, hnone i] at he
    cases he

/-- A link names a table that the code reaches. -/
theorem PageTree.plainLink {root : Nat} {pages : List Nat} {m : Mem} (h : PageTree root pages m)
    {q : List (Fin 512)} {t : Nat} (hq : q.length < 3)
    (hfollow : Radix.follow childTable (entries m) root q = some t) (i : Fin 512) :
    PlainLink (read64 m (t + 8 * i.val)) := by
  cases he : entries m t i with
  | none =>
    rw [h.clear t (h.reached t ⟨q, by omega, hfollow⟩) i he]
    exact plainLink_zero
  | some e =>
    obtain ⟨a, rfl, haligned, hwindow⟩ := h.links q t i e hq hfollow he
    rw [(entries_eq_some.mp he).1]
    constructor
    · rw [PageMapEntry.pageAlign_linkTo, pageAlign_of_aligned haligned]
      omega
    · intro habsent
      rw [PageMapEntry.present_linkTo] at habsent
      cases habsent

theorem PageTree.wayClear {root : Nat} {pages : List Nat} {m : Mem} (h : PageTree root pages m)
    (v : BitVec 64) : WayClear root m v := by
  constructor
  · intro q i t hq hfollow
    exact h.plainLink (length_of_snoc_pagePath hq) hfollow i
  · intro q i t hq hfollow _
    exact h.unshared.sole (length_of_snoc_wayPath hq) hfollow

theorem PageTree.noHuge {root : Nat} {pages : List Nat} {m : Mem} (h : PageTree root pages m) :
    NoHuge root m := by
  intro q t i e _ hq hfollow he
  obtain ⟨a, rfl, -, -⟩ := h.links q t i e hq hfollow he
  exact PageMapEntry.huge_linkTo a

/-- The table that a link names is followed through the link's own address. -/
theorem PageTree.child {root : Nat} {pages : List Nat} {m : Mem} (h : PageTree root pages m)
    {q : List (Fin 512)} {t : Nat} {i : Fin 512} {e : BitVec 64} (hq : q.length < 3)
    (hfollow : Radix.follow childTable (entries m) root q = some t)
    (he : entries m t i = some e) :
    Spans (pageAlign e) 4096 ∧
      Radix.follow childTable (entries m) root (q ++ [i]) = some (phys (pageAlign e)) := by
  have hplain := h.plainLink hq hfollow i
  rw [(entries_eq_some.mp he).1] at hplain
  obtain ⟨hspans, hchild⟩ := hplain.child
  refine ⟨hspans, ?_⟩
  rw [Radix.follow_snoc, Radix.lookup_of_follow hfollow, he, Option.map_some, hchild]

/-! ## Linking a table and writing an entry -/

section Write

variable {root t : Nat} {pages : List Nat} {m m' : Mem} {path : List (Fin 512)} {i : Fin 512}
  {p : Ptr}

theorem PageTree.graft (htree : PageTree root pages m)
    (h : LinkSite root pages m m' path t i p) :
    PageTree root (phys p :: pages) (linkTable m' (t + 8 * i.val) p) := by
  have hword : read64 m (t + 8 * i.val) = 0#64 := htree.clear t h.mem_pages i h.free
  refine ⟨h.grafted.unshared htree.unshared h.short h.follow, h.tablesIn, ?_, ?_, ?_⟩
  · intro u hu j hj
    rcases List.mem_cons.mp hu with rfl | hu'
    · exact h.new.read_new h.mem_pages j
    · by_cases hslot : u = t ∧ j = i
      · obtain ⟨rfl, rfl⟩ := hslot
        rw [h.grafted.entry] at hj
        cases hj
      · have hread := h.new.read_other h.apart h.mem_pages hu' (not_and_or.mp hslot)
        rw [entries_congr hread] at hj
        rw [hread]
        exact htree.clear u hu' j hj
  · intro q u j e hq hqu he
    obtain ⟨hqu', hcase⟩ := h.entry_cases (by omega) hqu he
    rcases hcase with ⟨-, rfl⟩ | he'
    · refine ⟨kernVirtToPhys p, by rw [hword]; rfl, ?_, ?_⟩
      · rw [h.new.page.toNat_kernVirtToPhys]
        exact h.new.page.phys_aligned
      · rw [h.new.page.toNat_kernVirtToPhys]
        exact h.new.page.phys_lt
    · exact htree.links q u j e hq hqu' he'
  · intro q u j e hq hqu he
    have hshort := h.short
    obtain ⟨hqu', hcase⟩ := h.entry_cases (by omega) hqu he
    rcases hcase with ⟨rfl, -⟩ | he'
    · omega
    · exact htree.leaves q u j e hq hqu' he'

theorem PageTree.plant {v : BitVec 64} (htree : PageTree root pages m)
    (h : LeafSite root pages m t v) (a : BitVec 64) :
    PageTree root pages (write64 m (t + 8 * (pageIndex v 0).val) (PageMapEntry.linkTo a)) := by
  have hpresent := PageMapEntry.present_linkTo a
  have hplant := h.planted hpresent
  refine ⟨hplant.unshared htree.unshared rfl h.follow, h.tablesIn hpresent, ?_, ?_, ?_⟩
  · intro u hu j hj
    by_cases hslot : u = t ∧ j = pageIndex v 0
    · obtain ⟨rfl, rfl⟩ := hslot
      rw [hplant.entry] at hj
      cases hj
    · have hread := h.read_other (e := PageMapEntry.linkTo a) hu (not_and_or.mp hslot)
      rw [entries_congr hread] at hj
      rw [hread]
      exact htree.clear u hu j hj
  · intro q u j e hq hqu he
    rw [h.follow_eq hpresent (by omega)] at hqu
    rcases h.entry_cases hpresent (by omega) hqu he with ⟨rfl, -⟩ | he'
    · exact absurd hq (by simp [pagePath])
    · exact htree.links q u j e hq hqu he'
  · intro q u j e hq hqu he
    rw [h.follow_eq hpresent (by omega)] at hqu
    rcases h.entry_cases hpresent (by omega) hqu he with ⟨-, rfl⟩ | he'
    · exact ⟨a, rfl⟩
    · exact htree.leaves q u j e hq hqu he'

end Write

/-! ## The walk -/

/-- In such a tree the walk goes to the leaf, and every level allows writing. -/
theorem PageTree.translate_eq {root : Nat} {pages : List Nat} {m : Mem}
    (h : PageTree root pages m) (v : BitVec 64) :
    translate m root v =
      (leafEntry m root v).map fun e => { address := frameBits e, writable := true } := by
  have hlink : ∀ q i e, q.length < 3 → Radix.lookup childTable (entries m) root q i = some e →
      PageMapEntry.writable e = true := by
    intro q i e hq he
    rw [Radix.lookup, Option.bind_eq_some_iff] at he
    obtain ⟨t, ht, he⟩ := he
    obtain ⟨a, rfl, -, -⟩ := h.links q t i e hq ht he
    exact PageMapEntry.writable_linkTo a
  rw [h.noHuge.translate_eq v]
  cases hleaf : leafEntry m root v with
  | none => simp
  | some e0 =>
    obtain ⟨e3, e2, e1, h3, h2, h1⟩ := lookup_of_leafEntry hleaf
    have hw0 : PageMapEntry.writable e0 = true := by
      rw [leafEntry, Radix.lookup, Option.bind_eq_some_iff] at hleaf
      obtain ⟨t, ht, he⟩ := hleaf
      obtain ⟨a, rfl⟩ := h.leaves _ t _ e0 rfl ht he
      exact PageMapEntry.writable_linkTo a
    rw [h3, h2, h1]
    simp [hlink _ _ _ (by simp) h3, hlink _ _ _ (by simp) h2, hlink _ _ _ (by simp) h1, hw0]

end FeralKernel
