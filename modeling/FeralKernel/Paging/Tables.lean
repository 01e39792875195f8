import FeralKernel.Paging.MapAddress
import Mathlib.Data.List.Pairwise

/-!
# Writing to the tables

What the two kinds of write in `x86MapAddress` do to tables that hold anything: linking a
cleared table is a graft and writing the last entry is a planting, in the sense of the radix
library.  Both are proved on memory alone, from the pages being apart.

The code ORs the new address into the entry and takes `PAGE_ALIGN` of an entry for an
address.  So a link goes where it should only if the entry held no address before, and
is followed as the processor follows it only if bits 52 to 63 are clear.  `WayClear` says
this of the entries on the way to an address.
-/

namespace FeralKernel

open Verif.Program Verif.Bytes Verif

theorem entries_eq_none {m : Mem} {t : Nat} {i : Fin 512} :
    entries m t i = none ↔ PageMapEntry.present (read64 m (t + 8 * i.val)) = false := by
  unfold entries
  by_cases h : PageMapEntry.present (read64 m (t + 8 * i.val)) = true
  · simp [h]
  · simp [h]

theorem entries_eq_some {m : Mem} {t : Nat} {i : Fin 512} {e : BitVec 64} :
    entries m t i = some e ↔
      read64 m (t + 8 * i.val) = e ∧ PageMapEntry.present e = true := by
  unfold entries
  by_cases h : PageMapEntry.present (read64 m (t + 8 * i.val)) = true
  · simp only [h, if_true, Option.some.injEq]
    constructor
    · intro he
      exact ⟨he, he ▸ h⟩
    · intro he
      exact he.1
  · simp only [h, Bool.false_eq_true, if_false]
    constructor
    · intro he
      cases he
    · intro he
      exact absurd (he.1 ▸ he.2) h

theorem entries_congr {m m' : Mem} {t : Nat} {i : Fin 512}
    (h : read64 m' (t + 8 * i.val) = read64 m (t + 8 * i.val)) :
    entries m' t i = entries m t i := by
  unfold entries
  rw [h]

/-- A memory that agrees on the pages holds the same entries. -/
theorem entries_congr_page {m m' : Mem} {t : Nat}
    (h : ∀ x, t ≤ x → x < t + 4096 → m' x = m x) (i : Fin 512) :
    entries m' t i = entries m t i := by
  have hi := i.isLt
  exact entries_congr (read64_congr fun x h1 h2 => h x (by omega) (by omega))

/-! ## The tables of a root -/

/-- The tables that are reached below `root` are among those at `pages`. -/
def TablesIn (root : Nat) (pages : List Nat) (m : Mem) : Prop :=
  ∀ t, Radix.Reached childTable 3 (entries m) root t → t ∈ pages

/-- No entry of the second or third level is that of a huge page. -/
def NoHuge (root : Nat) (m : Mem) : Prop :=
  ∀ q t i e, q ≠ [] → q.length < 3 → Radix.follow childTable (entries m) root q = some t →
    entries m t i = some e → PageMapEntry.huge e = false

/-- The leaf of a virtual address. -/
def leafEntry (m : Mem) (root : Nat) (v : BitVec 64) : Option (BitVec 64) :=
  Radix.lookup childTable (entries m) root (pagePath v) (pageIndex v 0)

/-- Without huge pages the walk goes through four entries. -/
theorem NoHuge.translate_eq {root : Nat} {m : Mem} (h : NoHuge root m) (v : BitVec 64) :
    translate m root v = (do
      let e3 ← Radix.lookup childTable (entries m) root [] (pageIndex v 3)
      let e2 ← Radix.lookup childTable (entries m) root [pageIndex v 3] (pageIndex v 2)
      let e1 ← Radix.lookup childTable (entries m) root [pageIndex v 3, pageIndex v 2]
        (pageIndex v 1)
      let e0 ← leafEntry m root v
      pure { address := frameBits e0
             writable := PageMapEntry.writable e3 && PageMapEntry.writable e2 &&
               PageMapEntry.writable e1 && PageMapEntry.writable e0 }) := by
  rw [translate, leafEntry, pagePath]
  simp only [Radix.lookup, Radix.follow, Option.bind_eq_bind, Option.bind_some]
  cases h3 : entries m root (pageIndex v 3) with
  | none => rfl
  | some e3 =>
    have f3 : Radix.follow childTable (entries m) root [pageIndex v 3] = some (childTable e3) := by
      simp only [Radix.follow, h3, Option.bind_some]
    simp only [Option.bind_some]
    cases h2 : entries m (childTable e3) (pageIndex v 2) with
    | none => rfl
    | some e2 =>
      have f2 : Radix.follow childTable (entries m) root [pageIndex v 3, pageIndex v 2] =
          some (childTable e2) := by
        simp only [Radix.follow, h3, h2, Option.bind_some]
      simp only [Option.bind_some, h _ _ _ e2 (by simp) (by simp) f3 h2, Bool.false_eq_true,
        if_false]
      cases h1 : entries m (childTable e2) (pageIndex v 1) with
      | none => rfl
      | some e1 =>
        simp only [Option.bind_some, h _ _ _ e1 (by simp) (by simp) f2 h1, Bool.false_eq_true,
          if_false]

/-- The entries above a leaf are present. -/
theorem lookup_of_leafEntry {m : Mem} {root : Nat} {v e0 : BitVec 64}
    (h : leafEntry m root v = some e0) : ∃ e3 e2 e1,
      Radix.lookup childTable (entries m) root [] (pageIndex v 3) = some e3 ∧
      Radix.lookup childTable (entries m) root [pageIndex v 3] (pageIndex v 2) = some e2 ∧
      Radix.lookup childTable (entries m) root [pageIndex v 3, pageIndex v 2] (pageIndex v 1) =
        some e1 := by
  rw [leafEntry, pagePath] at h
  simp only [Radix.lookup, Radix.follow, Option.bind_some, Option.bind_eq_some_iff] at h ⊢
  obtain ⟨_, ⟨e3, h3, e2, h2, e1, h1, -⟩, -⟩ := h
  exact ⟨e3, e2, e1, h3, ⟨_, ⟨e3, h3, rfl⟩, h2⟩, ⟨_, ⟨e3, h3, e2, h2, rfl⟩, h1⟩⟩

theorem NoHuge.address_eq {root : Nat} {m : Mem} (h : NoHuge root m) (v : BitVec 64) :
    (translate m root v).map Translation.address = (leafEntry m root v).map frameBits := by
  rw [h.translate_eq v]
  cases hleaf : leafEntry m root v with
  | none => simp
  | some e0 =>
    obtain ⟨e3, e2, e1, h3, h2, h1⟩ := lookup_of_leafEntry hleaf
    rw [h3, h2, h1]
    rfl

theorem NoHuge.translate_none {root : Nat} {m : Mem} (h : NoHuge root m) (v : BitVec 64) :
    translate m root v = none ↔ leafEntry m root v = none := by
  rw [← Option.map_eq_none_iff (f := Translation.address), h.address_eq, Option.map_eq_none_iff]

/-- An address is walked as before when its leaf is the same and no entry has gone. -/
theorem NoHuge.translate_congr {root : Nat} {m m' : Mem} (h : NoHuge root m)
    (h' : NoHuge root m') {v : BitVec 64} (hleaf : leafEntry m' root v = leafEntry m root v)
    (hkeeps : ∀ q j e, q.length ≤ 3 → Radix.lookup childTable (entries m) root q j = some e →
      Radix.lookup childTable (entries m') root q j = some e) :
    translate m' root v = translate m root v := by
  cases hv : leafEntry m root v with
  | none => rw [(h.translate_none v).mpr hv, (h'.translate_none v).mpr (hleaf.trans hv)]
  | some e0 =>
    obtain ⟨e3, e2, e1, h3, h2, h1⟩ := lookup_of_leafEntry hv
    rw [h.translate_eq v, h'.translate_eq v, hleaf, h3, h2, h1, hkeeps _ _ _ (by simp) h3,
      hkeeps _ _ _ (by simp) h2, hkeeps _ _ _ (by simp) h1]

/-! ## The way to an address -/

/-- The slots on the way to a page, the last one with them. -/
def wayPath (v : BitVec 64) : List (Fin 512) := pagePath v ++ [pageIndex v 0]

/-- An entry above the last level that the code takes for what it is: `PAGE_ALIGN` of it is
the address that the processor follows, and if it is not present it holds neither an address
nor the bit of a huge page. -/
def PlainLink (raw : BitVec 64) : Prop :=
  (pageAlign raw).toNat < 2 ^ 52 ∧
    (PageMapEntry.present raw = false → pageAlign raw = 0#64 ∧ PageMapEntry.huge raw = false)

/-- The entries on the way to `v` are plain links, and the table in which the way ends is
reached on it only. -/
structure WayClear (root : Nat) (m : Mem) (v : BitVec 64) : Prop where
  link : ∀ q i t, q ++ [i] <+: pagePath v →
    Radix.follow childTable (entries m) root q = some t → PlainLink (read64 m (t + 8 * i.val))
  sole : ∀ q i t, q ++ [i] <+: wayPath v →
    Radix.follow childTable (entries m) root q = some t → entries m t i = none →
      Radix.Sole childTable 3 (entries m) root q t

theorem plainLink_zero : PlainLink 0 := ⟨by decide, fun _ => ⟨rfl, rfl⟩⟩

/-- The table that a plain link names, at the pointer that the code makes of it. -/
theorem PlainLink.child {raw : BitVec 64} (h : PlainLink raw) :
    Spans (pageAlign raw) 4096 ∧ childTable raw = phys (pageAlign raw) := by
  have hlt := h.1
  constructor
  · unfold Spans
    omega
  · rw [childTable_eq hlt, phys, if_neg (by omega)]

theorem length_of_snoc_pagePath {q : List (Fin 512)} {i : Fin 512} {v : BitVec 64}
    (h : q ++ [i] <+: pagePath v) : q.length < 3 := by
  have hle := h.length_le
  rw [List.length_append, List.length_singleton] at hle
  exact hle

theorem length_of_snoc_wayPath {q : List (Fin 512)} {i : Fin 512} {v : BitVec 64}
    (h : q ++ [i] <+: wayPath v) : q.length ≤ 3 := by
  have hle := h.length_le
  rw [List.length_append, List.length_singleton] at hle
  exact Nat.le_of_succ_le_succ hle

/-! ## Linking a table -/

/-- The slots of two tables, or two slots of one, do not meet. -/
theorem slots_apart {pages : List Nat} (hpages : pages.Pairwise PagesApart) {u t : Nat}
    (hu : u ∈ pages) (ht : t ∈ pages) {j i : Fin 512} (hne : u ≠ t ∨ j ≠ i) :
    u + 8 * j.val + 8 ≤ t + 8 * i.val ∨ t + 8 * i.val + 8 ≤ u + 8 * j.val := by
  have hi := i.isLt
  have hj := j.isLt
  by_cases hut : u = t
  · rcases hne with hne | hne
    · exact absurd hut hne
    · have hval : j.val ≠ i.val := fun hv => hne (Fin.ext hv)
      omega
  · have hapart := hpages.forall hu ht hut
    unfold PagesApart at hapart
    omega

/-- A table for which the allocator has just been asked: its page is apart from
the others and the allocator has not touched them. -/
structure NewTable (pages : List Nat) (m m' : Mem) (p : Ptr) : Prop where
  page : HighPage p
  apart : ∀ u ∈ pages, PagesApart (phys p) u
  same : ∀ u ∈ pages, ∀ x, u ≤ x → x < u + 4096 → m' x = m x

section New

variable {t : Nat} {pages : List Nat} {m m' : Mem} {i : Fin 512} {p : Ptr}

theorem NewTable.read_fill (h : NewTable pages m m' p) {u : Nat} (hu : u ∈ pages) (j : Fin 512) :
    read64 (fill m' (phys p) 4096 0) (u + 8 * j.val) = read64 m (u + 8 * j.val) := by
  have hj := j.isLt
  have hapart := h.apart u hu
  unfold PagesApart at hapart
  rw [read64_fill_outside (by omega)]
  exact read64_congr fun x h1 h2 => h.same u hu x (by omega) (by omega)

theorem NewTable.read_other (h : NewTable pages m m' p) (hpages : pages.Pairwise PagesApart)
    (ht : t ∈ pages) {u : Nat} (hu : u ∈ pages) {j : Fin 512} (hne : u ≠ t ∨ j ≠ i) :
    read64 (linkTable m' (t + 8 * i.val) p) (u + 8 * j.val) = read64 m (u + 8 * j.val) := by
  have hslot := slots_apart hpages hu ht hne
  rw [linkTable, read64_write64_outside (by omega), h.read_fill hu j]

theorem NewTable.read_slot (h : NewTable pages m m' p) (ht : t ∈ pages) :
    read64 (linkTable m' (t + 8 * i.val) p) (t + 8 * i.val) =
      PageMapEntry.linkInto (read64 m (t + 8 * i.val)) (kernVirtToPhys p) := by
  rw [linkTable, read64_write64_same, h.read_fill ht i]

theorem NewTable.read_new (h : NewTable pages m m' p) (ht : t ∈ pages) (j : Fin 512) :
    read64 (linkTable m' (t + 8 * i.val) p) (phys p + 8 * j.val) = 0 := by
  have hi := i.isLt
  have hj := j.isLt
  have hapart := h.apart t ht
  unfold PagesApart at hapart
  rw [linkTable, read64_write64_outside (by omega), read64_fill_inside (by omega)]

end New

/-- The entry at which the new table `p` is linked: slot `i` of the table `t` at the end of
`path`, where nothing is present and no address is left over. -/
structure LinkSite (root : Nat) (pages : List Nat) (m m' : Mem) (path : List (Fin 512)) (t : Nat)
    (i : Fin 512) (p : Ptr) : Prop where
  tables : TablesIn root pages m
  apart : pages.Pairwise PagesApart
  new : NewTable pages m m' p
  short : path.length < 3
  follow : Radix.follow childTable (entries m) root path = some t
  free : entries m t i = none
  clear : pageAlign (read64 m (t + 8 * i.val)) = 0#64
  sole : Radix.Sole childTable 3 (entries m) root path t

namespace LinkSite

variable {root t : Nat} {pages : List Nat} {m m' : Mem} {path : List (Fin 512)} {i : Fin 512}
  {p : Ptr}

theorem mem_pages (h : LinkSite root pages m m' path t i p) : t ∈ pages :=
  h.tables t ⟨path, by have := h.short; omega, h.follow⟩

theorem childTable_entry (h : LinkSite root pages m m' path t i p) :
    childTable (PageMapEntry.linkInto (read64 m (t + 8 * i.val)) (kernVirtToPhys p)) = phys p := by
  have haligned := h.new.page.phys_aligned
  have hlt := h.new.page.phys_lt
  have hphys := h.new.page.toNat_kernVirtToPhys
  have halign : pageAlign (PageMapEntry.linkInto (read64 m (t + 8 * i.val)) (kernVirtToPhys p)) =
      kernVirtToPhys p := by
    rw [PageMapEntry.pageAlign_linkInto, h.clear, BitVec.zero_or, pageAlign_of_aligned (by omega)]
  rw [childTable_eq (by rw [halign]; omega), halign, hphys]

theorem grafted (h : LinkSite root pages m m' path t i p) :
    Radix.Grafted childTable 3 (entries m) (entries (linkTable m' (t + 8 * i.val) p)) root t i
      (PageMapEntry.linkInto (read64 m (t + 8 * i.val)) (kernVirtToPhys p)) := by
  refine ⟨h.free, ?_, ?_, ?_, ?_⟩
  · intro hreached
    rw [h.childTable_entry] at hreached
    have hself := h.new.apart _ (h.tables _ hreached)
    unfold PagesApart at hself
    omega
  · rw [entries_eq_some]
    exact ⟨h.new.read_slot h.mem_pages, PageMapEntry.present_linkInto _ _⟩
  · intro j
    rw [h.childTable_entry, entries_eq_none, h.new.read_new h.mem_pages j]
    rfl
  · intro u j hu hne
    exact entries_congr (h.new.read_other h.apart h.mem_pages (h.tables u hu) hne)

theorem follow_eq (h : LinkSite root pages m m' path t i p) {q : List (Fin 512)}
    (hq : q.length ≤ 3) :
    Radix.follow childTable (entries (linkTable m' (t + 8 * i.val) p)) root q =
      if q = path ++ [i] then some (phys p) else Radix.follow childTable (entries m) root q := by
  rw [h.grafted.follow h.sole h.short h.follow q hq, h.childTable_entry]

theorem entries_new (h : LinkSite root pages m m' path t i p) (j : Fin 512) :
    entries (linkTable m' (t + 8 * i.val) p) (phys p) j = none := by
  rw [← h.childTable_entry]
  exact h.grafted.empty j

/-- A present entry of a table reached now is the new link or an old entry. -/
theorem entry_cases (h : LinkSite root pages m m' path t i p) {q : List (Fin 512)} {u : Nat}
    {j : Fin 512} {e : BitVec 64} (hq : q.length ≤ 3)
    (hqu : Radix.follow childTable (entries (linkTable m' (t + 8 * i.val) p)) root q = some u)
    (he : entries (linkTable m' (t + 8 * i.val) p) u j = some e) :
    Radix.follow childTable (entries m) root q = some u ∧
      (q = path ∧ e = PageMapEntry.linkInto (read64 m (t + 8 * i.val)) (kernVirtToPhys p) ∨
        entries m u j = some e) := by
  rw [h.follow_eq hq] at hqu
  by_cases hqp : q = path ++ [i]
  · rw [if_pos hqp] at hqu
    rw [← Option.some.inj hqu, h.entries_new] at he
    cases he
  · rw [if_neg hqp] at hqu
    refine ⟨hqu, ?_⟩
    by_cases hslot : u = t ∧ j = i
    · obtain ⟨rfl, rfl⟩ := hslot
      left
      rw [h.grafted.entry] at he
      exact ⟨h.sole q hq hqu, (Option.some.inj he).symm⟩
    · right
      rw [← he]
      exact (h.grafted.frame u j ⟨q, hq, hqu⟩ (not_and_or.mp hslot)).symm

theorem tablesIn (h : LinkSite root pages m m' path t i p) :
    TablesIn root (phys p :: pages) (linkTable m' (t + 8 * i.val) p) := by
  intro u hu
  obtain ⟨q, hq, hqu⟩ := hu
  rw [h.follow_eq hq] at hqu
  by_cases hqp : q = path ++ [i]
  · rw [if_pos hqp] at hqu
    rw [← Option.some.inj hqu]
    exact List.mem_cons_self ..
  · rw [if_neg hqp] at hqu
    exact List.mem_cons_of_mem _ (h.tables u ⟨q, hq, hqu⟩)

theorem noHuge (h : LinkSite root pages m m' path t i p) (hm : NoHuge root m)
    (hword : PageMapEntry.huge (read64 m (t + 8 * i.val)) = false) :
    NoHuge root (linkTable m' (t + 8 * i.val) p) := by
  intro q u j e hne hq hqu he
  obtain ⟨hqu', ⟨-, rfl⟩ | he'⟩ := h.entry_cases (by omega) hqu he
  · rw [PageMapEntry.huge_linkInto, hword]
  · exact hm q u j e hne hq hqu' he'

/-- The way goes on through the new table, which is clear. -/
theorem wayClear (h : LinkSite root pages m m' path t i p) {v : BitVec 64}
    (hway : WayClear root m v) (hpath : path ++ [i] <+: pagePath v) :
    WayClear root (linkTable m' (t + 8 * i.val) p) v := by
  have hpath' : path ++ [i] <+: wayPath v := hpath.trans (List.prefix_append _ _)
  constructor
  · intro q j u hq hqu
    have hq3 := length_of_snoc_pagePath hq
    rw [h.follow_eq (by omega)] at hqu
    by_cases hqp : q = path ++ [i]
    · rw [if_pos hqp] at hqu
      rw [← Option.some.inj hqu, h.new.read_new h.mem_pages j]
      exact plainLink_zero
    · rw [if_neg hqp] at hqu
      have hu : u ∈ pages := h.tables u ⟨q, by omega, hqu⟩
      by_cases hqpath : q = path
      · have hji := Radix.prefix_snoc_inj hpath hq hqpath
        rw [hqpath, h.follow] at hqu
        rw [← Option.some.inj hqu, hji, h.new.read_slot h.mem_pages]
        constructor
        · have hlt := h.new.page.phys_lt
          have hphys := h.new.page.toNat_kernVirtToPhys
          rw [PageMapEntry.pageAlign_linkInto, h.clear, BitVec.zero_or, toNat_pageAlign]
          omega
        · intro habsent
          rw [PageMapEntry.present_linkInto] at habsent
          cases habsent
      · have hne : u ≠ t := fun hut => hqpath (h.sole q (by omega) (hut ▸ hqu))
        rw [h.new.read_other h.apart h.mem_pages hu (Or.inl hne)]
        exact hway.link q j u hq hqu
  · intro q j u hq hqu hnone
    have hq3 := length_of_snoc_wayPath hq
    rw [h.follow_eq hq3] at hqu
    by_cases hqp : q = path ++ [i]
    · rw [if_pos hqp] at hqu
      rw [← Option.some.inj hqu, hqp, ← h.childTable_entry]
      exact h.grafted.sole h.sole h.short h.follow
    · -- elsewhere on the way nothing is absent any more
      rw [if_neg hqp] at hqu
      have hfilled := Radix.filled_on_way hpath' h.follow h.free (by rw [h.grafted.entry]; simp)
        (h.grafted.frame u j ⟨q, hq3, hqu⟩) hq hqu
      exact absurd hnone hfilled

end LinkSite

/-! ## Writing the last entry -/

/-- The entry of the page of `v`: nothing is present there, and its table is reached on the
way to `v` only. -/
structure LeafSite (root : Nat) (pages : List Nat) (m : Mem) (t : Nat) (v : BitVec 64) : Prop where
  tables : TablesIn root pages m
  apart : pages.Pairwise PagesApart
  follow : Radix.follow childTable (entries m) root (pagePath v) = some t
  free : entries m t (pageIndex v 0) = none
  sole : Radix.Sole childTable 3 (entries m) root (pagePath v) t

namespace LeafSite

variable {root t : Nat} {pages : List Nat} {m : Mem} {v e : BitVec 64}

theorem mem_pages (h : LeafSite root pages m t v) : t ∈ pages :=
  h.tables t ⟨pagePath v, Nat.le_refl 3, h.follow⟩

/-- Another slot is as it was. -/
theorem read_other (h : LeafSite root pages m t v) {u : Nat} (hu : u ∈ pages) {j : Fin 512}
    (hne : u ≠ t ∨ j ≠ pageIndex v 0) :
    read64 (write64 m (t + 8 * (pageIndex v 0).val) e) (u + 8 * j.val) =
      read64 m (u + 8 * j.val) := by
  have hslot := slots_apart h.apart hu h.mem_pages hne
  exact read64_write64_outside (by omega)

theorem planted (h : LeafSite root pages m t v) (he : PageMapEntry.present e = true) :
    Radix.Planted childTable 3 (entries m)
      (entries (write64 m (t + 8 * (pageIndex v 0).val) e)) root t (pageIndex v 0) e := by
  constructor
  · rw [entries_eq_some]
    exact ⟨read64_write64_same _ _ _, he⟩
  · intro u j hu hne
    exact entries_congr (h.read_other (h.tables u hu) hne)

theorem follow_eq (h : LeafSite root pages m t v) (he : PageMapEntry.present e = true)
    {q : List (Fin 512)} (hq : q.length ≤ 3) :
    Radix.follow childTable (entries (write64 m (t + 8 * (pageIndex v 0).val) e)) root q =
      Radix.follow childTable (entries m) root q :=
  (h.planted he).follow h.sole rfl q hq

/-- A present entry is the new one or an old one. -/
theorem entry_cases (h : LeafSite root pages m t v) (he : PageMapEntry.present e = true)
    {q : List (Fin 512)} {u : Nat} {j : Fin 512} {e' : BitVec 64} (hq : q.length ≤ 3)
    (hqu : Radix.follow childTable (entries m) root q = some u)
    (he' : entries (write64 m (t + 8 * (pageIndex v 0).val) e) u j = some e') :
    q = pagePath v ∧ e' = e ∨ entries m u j = some e' := by
  by_cases hslot : u = t ∧ j = pageIndex v 0
  · obtain ⟨rfl, rfl⟩ := hslot
    rw [(h.planted he).entry] at he'
    exact Or.inl ⟨h.sole q hq hqu, (Option.some.inj he').symm⟩
  · rw [(h.planted he).frame u j ⟨q, hq, hqu⟩ (not_and_or.mp hslot)] at he'
    exact Or.inr he'

theorem tablesIn (h : LeafSite root pages m t v) (he : PageMapEntry.present e = true) :
    TablesIn root pages (write64 m (t + 8 * (pageIndex v 0).val) e) := by
  intro u hu
  obtain ⟨q, hq, hqu⟩ := hu
  rw [h.follow_eq he hq] at hqu
  exact h.tables u ⟨q, hq, hqu⟩

theorem noHuge (h : LeafSite root pages m t v) (he : PageMapEntry.present e = true)
    (hm : NoHuge root m) : NoHuge root (write64 m (t + 8 * (pageIndex v 0).val) e) := by
  intro q u j e' hne hq hqu he'
  rw [h.follow_eq he (by omega)] at hqu
  rcases h.entry_cases he (by omega) hqu he' with ⟨rfl, -⟩ | hold
  · exact absurd hq (by simp [pagePath])
  · exact hm q u j e' hne hq hqu hold

/-- No entry on the way to the page is absent now. -/
theorem wayClear (h : LeafSite root pages m t v) (he : PageMapEntry.present e = true)
    (hway : WayClear root m v) :
    WayClear root (write64 m (t + 8 * (pageIndex v 0).val) e) v := by
  constructor
  · intro q j u hq hqu
    have hq3 := length_of_snoc_pagePath hq
    rw [h.follow_eq he (by omega)] at hqu
    have hne : u ≠ t := h.sole.ne_of_length (by omega) hqu (by simp [pagePath]; omega)
    rw [h.read_other (h.tables u ⟨q, by omega, hqu⟩) (Or.inl hne)]
    exact hway.link q j u hq hqu
  · intro q j u hq hqu hnone
    have hq3 := length_of_snoc_wayPath hq
    have hlast : pagePath v ++ [pageIndex v 0] <+: wayPath v := List.prefix_refl _
    rw [h.follow_eq he hq3] at hqu
    have hfilled := Radix.filled_on_way hlast h.follow h.free (by rw [(h.planted he).entry]; simp)
      ((h.planted he).frame u j ⟨q, hq3, hqu⟩) hq hqu
    exact absurd hnone hfilled

end LeafSite

end FeralKernel
