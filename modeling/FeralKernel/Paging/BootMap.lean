import FeralKernel.Paging.HugePages
import FeralKernel.Paging.Unmap

/-!
# The address space at boot

What the tables of `kern/arch/x86_64/boot/init64.asm` translate once
`create_page_tables` has filled `p2_table`, and what is left of it when
`KiStartupProcessorMachineDependent` has unmapped address 0
(`kern/arch/x86_64/archstart.c`).

The first and the last entry of `p4_table` name the same table, and so do those of
`p3_table`.  So the first gigabyte of memory shows four times, and the two images
that the kernel uses are the ones that `phys` describes.
-/

namespace FeralKernel

open Verif.Program Verif.Bytes Verif

variable {σ : Type}

/-! ## The tables -/

/-- Three pages that the kernel can reach. -/
structure TableLayout (p4Table p3Table p2Table : Ptr) : Prop where
  aligned : p3Table.toNat % 4096 = 0 ∧ p2Table.toNat % 4096 = 0
  window : InWindow p4Table 4096 ∧ InWindow p3Table 4096 ∧ InWindow p2Table 4096
  apart : PagesApart p4Table.toNat p3Table.toNat ∧ PagesApart p4Table.toNat p2Table.toNat

/-- The tables as they are in the image, where the 510 entries between the first and the
last one are zero. -/
structure ImageTables (m : Mem) (p4Table p3Table p2Table : Ptr) : Prop
    extends BootTables m p4Table p3Table p2Table where
  p4Clear : ∀ i : Fin 512, i.val ≠ 0 → i.val ≠ 511 → read64 m (p4Table.toNat + 8 * i.val) = 0
  p3Clear : ∀ i : Fin 512, i.val ≠ 0 → i.val ≠ 511 → read64 m (p3Table.toNat + 8 * i.val) = 0
  rootApart : PagesApart p4Table.toNat p3Table.toNat

/-- The slots of `p4_table` that lead anywhere.  `low` says that the lower half is
still mapped. -/
def RootSlot (low : Bool) (i : Fin 512) : Prop := i.val = 511 ∨ low = true ∧ i.val = 0

instance (low : Bool) (i : Fin 512) : Decidable (RootSlot low i) :=
  inferInstanceAs (Decidable (_ ∨ _ ∧ _))

/-- The slots of `p3_table` that lead to `p2_table`. -/
def PointerSlot (i : Fin 512) : Prop := i.val = 0 ∨ i.val = 511

instance (i : Fin 512) : Decidable (PointerSlot i) := inferInstanceAs (Decidable (_ ∨ _))

/-- The entries of the three tables while the kernel runs. -/
structure BootMap (low : Bool) (m : Mem) (p4Table p3Table p2Table : Ptr) : Prop where
  root : ∀ i, entries m p4Table.toNat i = if RootSlot low i then some (p3Table + 3) else none
  pointer : ∀ i, entries m p3Table.toNat i =
    if PointerSlot i then some (p2Table + 3) else none
  directory : ∀ i : Fin 512, entries m p2Table.toNat i = some ((hugeEntry i.val).setWidth 64)

/-- What the processor makes of an address in these tables. -/
def bootTranslation (low : Bool) (v : Ptr) : Option Translation :=
  if RootSlot low (pageIndex v 3) ∧ PointerSlot (pageIndex v 2) then
    some { address := v &&& 0x3FFFF000, writable := true }
  else none

/-! ## Fields of an address -/

theorem toNat_hugeEntry {i : Nat} (hi : i < 512) :
    ((hugeEntry i).setWidth 64 : BitVec 64).toNat = i * 0x200000 + 0x83 := by
  have hshift : (0x200000 * BitVec.ofNat 32 i : BitVec 32).toNat = i <<< 21 := by
    rw [BitVec.toNat_mul, BitVec.toNat_ofNat, Nat.shiftLeft_eq,
      show (0x200000 : BitVec 32).toNat = 0x200000 from rfl]
    omega
  have hor : (hugeEntry i).toNat = i <<< 21 + 0x83 := by
    rw [hugeEntry, BitVec.toNat_or, hshift]
    exact (Nat.shiftLeft_add_eq_or_of_lt (by decide) i).symm
  rw [BitVec.toNat_setWidth, hor, Nat.shiftLeft_eq]
  omega

theorem writable_hugeEntry {i : Nat} (hi : i < 512) :
    PageMapEntry.writable ((hugeEntry i).setWidth 64) = true := by
  rw [PageMapEntry.writable, BitVec.getLsbD, toNat_hugeEntry hi,
    Nat.testBit_eq_decide_div_mod_eq]
  simp only [decide_eq_true_eq]
  omega

theorem writable_bootLink {table : Ptr} (haligned : table.toNat % 4096 = 0)
    (hwindow : InWindow table 4096) : PageMapEntry.writable (table + 3) = true := by
  have hnat : (table + 3).toNat = table.toNat + 3 := by
    have hlt : table.toNat + 4096 ≤ 2 ^ 64 := Nat.le_trans hwindow (by decide)
    rw [BitVec.toNat_add, show (3 : BitVec 64).toNat = 3 from rfl]
    omega
  rw [PageMapEntry.writable, BitVec.getLsbD, hnat, Nat.testBit_eq_decide_div_mod_eq]
  simp only [decide_eq_true_eq]
  omega

/-- The frame of the huge entry and the rest of the address make up the address within
its gigabyte. -/
theorem hugeEntry_frame (v : Ptr) :
    (((hugeEntry (pageIndex v 1).val).setWidth 64 &&& 0x000FFFFFFFE00000 : BitVec 64) |||
      (v &&& 0x1FF000)) = v &&& 0x3FFFF000 := by
  have hi := (pageIndex v 1).isLt
  have hmask : (0x000FFFFFFFE00000 : BitVec 64) = 0xFFFFFFFFFFE00000 &&& 0x000FFFFFFFFFFFFF := by
    decide
  have hframe := toNat_hugeFrame ((hugeEntry (pageIndex v 1).val).setWidth 64)
  rw [toNat_hugeEntry hi, hugeFrame] at hframe
  have hrest : (v &&& 0x1FF000).toNat = v.toNat / 4096 * 4096 % 2 ^ 21 :=
    toNat_and_pageBits v _ 21 (by decide) (by decide)
  have hwhole : (v &&& 0x3FFFF000).toNat = v.toNat / 4096 * 4096 % 2 ^ 30 :=
    toNat_and_pageBits v _ 30 (by decide) (by decide)
  have hsplit : ((pageIndex v 1).val * 0x200000 + 0x83) / 0x200000 * 0x200000 =
      (pageIndex v 1).val <<< 21 := by
    rw [Nat.shiftLeft_eq]
    omega
  have hindex : (pageIndex v 1).val = v.toNat / 2 ^ 21 % 512 := rfl
  have hsum : (pageIndex v 1).val <<< 21 + v.toNat / 4096 * 4096 % 2 ^ 21 =
      v.toNat / 4096 * 4096 % 2 ^ 30 := by
    have hshift := Nat.shiftLeft_eq (pageIndex v 1).val 21
    omega
  have hlt : v.toNat / 4096 * 4096 % 2 ^ 21 < 2 ^ 21 := Nat.mod_lt _ (Nat.two_pow_pos 21)
  apply BitVec.eq_of_toNat_eq
  rw [BitVec.toNat_or, hmask, ← BitVec.and_assoc, BitVec.toNat_and, hframe,
    show (0x000FFFFFFFFFFFFF : BitVec 64).toNat = 2 ^ 52 - 1 from rfl,
    Nat.and_two_pow_sub_one_eq_mod, hrest, hwhole, Nat.mod_eq_of_lt (by omega), hsplit]
  exact (Nat.shiftLeft_add_eq_or_of_lt hlt _).symm.trans hsum

/-! ## The walk -/

section Walk

variable {low : Bool} {m m' : Mem} {p4Table p3Table p2Table : Ptr} {s : Machine σ}

theorem ImageTables.layout (h : ImageTables m p4Table p3Table p2Table) :
    TableLayout p4Table p3Table p2Table :=
  ⟨h.aligned, h.window, h.rootApart, h.apart.1⟩

theorem BootMap.translate_eq (h : BootMap low m p4Table p3Table p2Table)
    (hl : TableLayout p4Table p3Table p2Table) (v : Ptr) :
    translate m p4Table.toNat v = bootTranslation low v := by
  obtain ⟨-, hwin3, hwin2⟩ := hl.window
  obtain ⟨halign3, -, -⟩ := bootLink hl.aligned.1 hwin3
  obtain ⟨halign2, -, hhuge2⟩ := bootLink hl.aligned.2 hwin2
  have hwrite3 := writable_bootLink hl.aligned.1 hwin3
  have hwrite2 := writable_bootLink hl.aligned.2 hwin2
  have hchild3 : childTable (p3Table + 3) = p3Table.toNat := bootLink_child halign3 hwin3
  have hchild2 : childTable (p2Table + 3) = p2Table.toNat := bootLink_child halign2 hwin2
  have hi := (pageIndex v 1).isLt
  rw [translate, h.root, bootTranslation]
  by_cases h3 : RootSlot low (pageIndex v 3)
  · simp only [if_pos h3, Option.bind_eq_bind, Option.bind_some, hchild3, h.pointer]
    by_cases h2 : PointerSlot (pageIndex v 2)
    · simp only [if_pos h2, Option.bind_some, hhuge2, Bool.false_eq_true, if_false, hchild2,
        h.directory, (hugeEntry_flags _).2, if_true, hwrite3, hwrite2, writable_hugeEntry hi,
        Bool.and_self, hugeEntry_frame, if_pos (And.intro h3 h2)]
      rfl
    · rw [if_neg h2, if_neg fun h => h2 h.2]
      rfl
  · rw [if_neg h3, if_neg fun h => h3 h.1]
    rfl

/-- The pages of the tables are as they were. -/
def KeepsBootTables (p4Table p3Table p2Table : Ptr) (m m' : Mem) : Prop :=
  ∀ table ∈ [p4Table, p3Table, p2Table], ∀ x, table.toNat ≤ x → x < table.toNat + 4096 →
    m' x = m x

/-- Other memory does not matter. -/
theorem BootMap.congr (h : BootMap low m p4Table p3Table p2Table)
    (hm : KeepsBootTables p4Table p3Table p2Table m m') : BootMap low m' p4Table p3Table p2Table := by
  refine ⟨fun i => ?_, fun i => ?_, fun i => ?_⟩
  · rw [entries_congr_page (hm p4Table (by simp)) i]
    exact h.root i
  · rw [entries_congr_page (hm p3Table (by simp)) i]
    exact h.pointer i
  · rw [entries_congr_page (hm p2Table (by simp)) i]
    exact h.directory i

/-- The boot code makes the whole map. -/
theorem createPageTables_bootMap (h : ImageTables s.mem p4Table p3Table p2Table) :
    Returns (createPageTables p2Table) s fun _ t => BootMap true t.mem p4Table p3Table p2Table := by
  obtain ⟨-, hwin3, hwin2⟩ := h.window
  obtain ⟨-, hpresent3, -⟩ := bootLink h.aligned.1 hwin3
  obtain ⟨-, hpresent2, -⟩ := bootLink h.aligned.2 hwin2
  apply (createPageTables_spec hwin2 h.p2).mono
  intro _ t ht
  obtain ⟨hfilled, hout⟩ := ht
  -- the loop has not written the two tables above
  have hkept : ∀ {a : Nat} (i : Fin 512), PagesApart a p2Table.toNat →
      read64 t.mem (a + 8 * i.val) = read64 s.mem (a + 8 * i.val) := by
    intro a i hapart
    have hi := i.isLt
    unfold PagesApart at hapart
    exact read64_congr fun x h1 h2 => hout x (by omega)
  refine ⟨fun i => ?_, fun i => ?_, fun i => ?_⟩
  · by_cases hi : RootSlot true i
    · have hends : i.val = 0 ∨ i.val = 511 := hi.symm.imp_left fun h => h.2
      rw [if_pos hi, entries_eq_some, hkept i h.apart.1, h.p4 i hends]
      exact ⟨rfl, hpresent3⟩
    · have h0 : i.val ≠ 0 := fun h0 => hi (Or.inr ⟨rfl, h0⟩)
      have h511 : i.val ≠ 511 := fun h511 => hi (Or.inl h511)
      rw [if_neg hi, entries_eq_none, hkept i h.apart.1, h.p4Clear i h0 h511]
      rfl
  · by_cases hi : PointerSlot i
    · rw [if_pos hi, entries_eq_some, hkept i h.apart.2, h.p3 i hi]
      exact ⟨rfl, hpresent2⟩
    · have h0 : i.val ≠ 0 := fun h0 => hi (Or.inl h0)
      have h511 : i.val ≠ 511 := fun h511 => hi (Or.inr h511)
      rw [if_neg hi, entries_eq_none, hkept i h.apart.2, h.p3Clear i h0 h511]
      rfl
  · rw [entries_eq_some, hfilled _ i.isLt]
    exact ⟨rfl, (hugeEntry_flags _).1⟩

/-! ## The two images that the kernel uses -/

/-- Below 1 GiB the map agrees with `phys`, in the lower half while that is mapped. -/
theorem bootTranslation_phys {v : Ptr} (hv : phys v < 2 ^ 30) :
    bootTranslation low v =
      if 0xFFFFFF8000000000 ≤ v.toNat ∨ low = true then
        some { address := pageAlign (BitVec.ofNat 64 (phys v)), writable := true }
      else none := by
  have hlt := v.isLt
  have h3 : (pageIndex v 3).val = v.toNat / 2 ^ 39 % 512 := rfl
  have h2 : (pageIndex v 2).val = v.toNat / 2 ^ 30 % 512 := rfl
  have hpointer : PointerSlot (pageIndex v 2) := by
    unfold phys at hv
    unfold PointerSlot
    split at hv <;> omega
  have hroot : RootSlot low (pageIndex v 3) ↔ 0xFFFFFF8000000000 ≤ v.toNat ∨ low = true := by
    unfold phys at hv
    unfold RootSlot
    split at hv
    · constructor
      · exact fun _ => Or.inl (by omega)
      · exact fun _ => Or.inl (by omega)
    · constructor
      · rintro (h511 | ⟨hlow, -⟩)
        · omega
        · exact Or.inr hlow
      · rintro (hhigh | hlow)
        · omega
        · exact Or.inr ⟨hlow, by omega⟩
  have haddress : v &&& 0x3FFFF000 = pageAlign (BitVec.ofNat 64 (phys v)) := by
    apply BitVec.eq_of_toNat_eq
    rw [toNat_and_pageBits v _ 30 (by decide) (by decide), toNat_pageAlign, BitVec.toNat_ofNat]
    unfold phys at hv ⊢
    split <;> split at hv <;> omega
  rw [bootTranslation, haddress]
  by_cases hc : 0xFFFFFF8000000000 ≤ v.toNat ∨ low = true
  · rw [if_pos hc, if_pos ⟨hroot.mpr hc, hpointer⟩]
  · rw [if_neg hc, if_neg fun h => hc (hroot.mp h.1)]

/-- After `create_page_tables` an address translates exactly when both of its upper levels
select the first or the last entry, to the byte at its place in the first gigabyte.  So the
processor reads and writes the byte that `phys` says, from either half. -/
theorem createPageTables_translate (h : ImageTables s.mem p4Table p3Table p2Table) :
    Returns (createPageTables p2Table) s fun _ t =>
      (∀ v : Ptr, translate t.mem p4Table.toNat v =
        if PointerSlot (pageIndex v 3) ∧ PointerSlot (pageIndex v 2) then
          some { address := v &&& 0x3FFFF000, writable := true }
        else none) ∧
      ∀ v : Ptr, phys v < 2 ^ 30 → translate t.mem p4Table.toNat v =
        some { address := pageAlign (BitVec.ofNat 64 (phys v)), writable := true } := by
  apply (createPageTables_bootMap h).mono
  intro _ t ht
  have hroot : ∀ i, RootSlot true i ↔ PointerSlot i := by
    intro i
    rw [RootSlot, PointerSlot, and_iff_right rfl]
    exact Or.comm
  refine ⟨fun v => ?_, fun v hv => ?_⟩
  · rw [ht.translate_eq h.layout, bootTranslation]
    simp only [hroot]
  · rw [ht.translate_eq h.layout, bootTranslation_phys hv, if_pos (Or.inr rfl)]

/-! ## Without the lower half -/

/-- The first entry of the root is cleared. -/
theorem BootMap.dropLow (h : BootMap true m p4Table p3Table p2Table)
    (hl : TableLayout p4Table p3Table p2Table) :
    BootMap false (write64 m p4Table.toNat 0) p4Table p3Table p2Table := by
  have hkept : ∀ {a : Nat} (i : Fin 512), PagesApart p4Table.toNat a →
      entries (write64 m p4Table.toNat 0) a i = entries m a i := by
    intro a i hapart
    have hi := i.isLt
    unfold PagesApart at hapart
    exact entries_congr (read64_write64_outside (by omega))
  refine ⟨fun i => ?_, fun i => ?_, fun i => ?_⟩
  · by_cases hi : i.val = 0
    · have hslot : p4Table.toNat + 8 * i.val = p4Table.toNat := by omega
      have hno : ¬ RootSlot false i := by
        unfold RootSlot
        simp [hi]
      rw [if_neg hno, entries_eq_none, hslot, read64_write64_same]
      rfl
    · have hread : read64 (write64 m p4Table.toNat 0) (p4Table.toNat + 8 * i.val) =
          read64 m (p4Table.toNat + 8 * i.val) := read64_write64_outside (by omega)
      have hsame : RootSlot true i ↔ RootSlot false i := by
        unfold RootSlot
        simp [hi]
      rw [entries_congr hread, h.root i]
      simp only [hsame]
  · rw [hkept i hl.apart.1]
    exact h.pointer i
  · rw [hkept i hl.apart.2]
    exact h.directory i

theorem unmapTable_records (table : Ptr) (level : BitVec 16) (s : Machine σ) :
    Returns (unmapTable table level) s fun _ t =>
      Records (fun e => e = .read (PageMapEntry.slot table level) 8 ∨
        e = .write (PageMapEntry.slot table level) 8) s t := by
  have hread := fun {u : Machine σ} (h : Records (fun e =>
      e = .read (PageMapEntry.slot table level) 8 ∨
        e = .write (PageMapEntry.slot table level) 8) s u) =>
    h.note (u := u.note (.read (PageMapEntry.slot table level) 8)) (Or.inl rfl) rfl
  have hstart := Records.refl (fun e => e = .read (PageMapEntry.slot table level) 8 ∨
    e = .write (PageMapEntry.slot table level) 8) s
  rw [unmapTable, returns_bind, returns_load64]
  split
  · rw [returns_bind, returns_store64, returns_pure]
    exact (hread hstart).note (Or.inr rfl) rfl
  · rw [returns_bind, returns_load64]
    split
    · rw [returns_bind, returns_load64, returns_pure]
      exact hread (hread (hread hstart))
    · rw [returns_pure]
      exact hread (hread hstart)

/-- What `x86UnmapAddress` accesses: the entry of the root and nothing else. -/
theorem x86UnmapAddress_records (pml4 v : Ptr) (s : Machine σ) :
    Returns (x86UnmapAddress pml4 v) s fun _ t =>
      Records (fun e => e = .read (rootSlot pml4 v) 8 ∨ e = .write (rootSlot pml4 v) 8) s t := by
  have htable : Returns (unmapTable pml4 (x86FindPageLevels v).2.level3) s fun r t =>
      (∃ status, r = .inl status) ∧
      Records (fun e => e = .read (rootSlot pml4 v) 8 ∨ e = .write (rootSlot pml4 v) 8) s t := by
    apply ((unmapTable_spec pml4 (x86FindPageLevels v).2.level3 s).and
      (unmapTable_records pml4 (x86FindPageLevels v).2.level3 s)).mono
    intro r t ht
    obtain ⟨⟨-, ⟨-, rfl, -⟩ | ⟨-, rfl, -⟩⟩, hrec⟩ := ht
    · exact ⟨⟨_, rfl⟩, hrec⟩
    · exact ⟨⟨_, rfl⟩, hrec⟩
  apply htable.bind
  intro r t ht
  obtain ⟨⟨status, rfl⟩, hrec⟩ := ht
  exact returns_pure.mpr hrec

theorem RootSlot.passesForHuge (h : BootMap low m p4Table p3Table p2Table) {i : Fin 512}
    (hi : RootSlot low i) :
    PageMapEntry.PassesForHuge (read64 m (p4Table.toNat + 8 * i.val)) := by
  have hentry := h.root i
  rw [if_pos hi, entries_eq_some] at hentry
  rw [hentry.1]
  exact PageMapEntry.mask_of_present hentry.2

/-- Unmapping an address of the lower half takes the whole half away. -/
theorem BootMap.unmapLow (h : BootMap true s.mem p4Table p3Table p2Table)
    (hl : TableLayout p4Table p3Table p2Table) {root : Ptr} (hroot : phys root = p4Table.toNat)
    (hspan : Spans root 4096) {v : Ptr} (hv : (pageIndex v 3).val = 0) :
    Returns (x86UnmapAddress root v) s fun status t => status = .success ∧ SameSide s t ∧
      t.mem = write64 s.mem p4Table.toNat 0 ∧ BootMap false t.mem p4Table p3Table p2Table := by
  have hslot : phys (rootSlot root v) = p4Table.toNat + 8 * (pageIndex v 3).val := by
    rw [← hroot]
    exact phys_slot hspan v 3
  have hpasses := RootSlot.passesForHuge h (Or.inr ⟨rfl, hv⟩)
  rw [← hslot] at hpasses
  apply (x86UnmapAddress_spec root v s).mono
  intro status t ht
  obtain ⟨hside, ⟨-, hst, hm⟩ | ⟨hno, -, -⟩⟩ := ht
  · rw [hslot, hv, Nat.mul_zero, Nat.add_zero] at hm
    refine ⟨hst, hside, hm, ?_⟩
    rw [hm]
    exact h.dropLow hl
  · exact absurd hpasses hno

/-- The boot code fills the tables, other code that leaves them alone runs, and then address
0 is unmapped.  The lower half is gone and every other address is where it was. -/
theorem createPageTables_unmapLow (h : ImageTables s.mem p4Table p3Table p2Table) {root : Ptr}
    (hroot : phys root = p4Table.toNat) (hspan : Spans root 4096) :
    Returns (createPageTables p2Table) s fun _ t =>
      ∀ u : Machine σ, KeepsBootTables p4Table p3Table p2Table t.mem u.mem →
        Returns (x86UnmapAddress root 0) u fun status w => status = .success ∧
          (∀ v, translate w.mem p4Table.toNat v =
            if (pageIndex v 3).val = 0 then none else translate t.mem p4Table.toNat v) ∧
          ∀ x, x < p4Table.toNat ∨ p4Table.toNat + 8 ≤ x → w.mem x = u.mem x := by
  apply (createPageTables_bootMap h).mono
  intro _ t ht u hu
  apply ((ht.congr hu).unmapLow h.layout hroot hspan (v := 0) rfl).mono
  intro status w hw
  obtain ⟨hst, -, hm, hmap⟩ := hw
  refine ⟨hst, fun v => ?_, fun x hx => ?_⟩
  · rw [hmap.translate_eq h.layout, ht.translate_eq h.layout, bootTranslation, bootTranslation]
    by_cases hv : (pageIndex v 3).val = 0
    · have hno : ¬ RootSlot false (pageIndex v 3) := by
        unfold RootSlot
        simp [hv]
      rw [if_pos hv, if_neg fun hboth => hno hboth.1]
    · have hsame : RootSlot false (pageIndex v 3) ↔ RootSlot true (pageIndex v 3) := by
        unfold RootSlot
        simp [hv]
      rw [if_neg hv]
      simp only [hsame]
  · rw [hm]
    exact write64_outside hx

/-- The access is to an address that does not translate. -/
def Event.Faults (m : Mem) (root : Nat) : Event → Prop
  | .read a _ => translate m root a = none
  | .write a _ => translate m root a = none
  | .link _ _ => False

/-- An entry of a table that is used through its physical address. -/
theorem BootMap.lowSlot_faults (h : BootMap false m p4Table p3Table p2Table)
    (hl : TableLayout p4Table p3Table p2Table) {table : Ptr} (hwindow : InWindow table 4096)
    (v : Ptr) (k : Nat) :
    translate m p4Table.toNat
      (PageMapEntry.slot table (((v >>> (12 + 9 * k)) &&& 0x1FF).setWidth 16)) = none := by
  have hi : v.toNat / 2 ^ (12 + 9 * k) % 512 < 512 := Nat.mod_lt _ (by decide)
  unfold InWindow at hwindow
  have hslot : (PageMapEntry.slot table (((v >>> (12 + 9 * k)) &&& 0x1FF).setWidth 16)).toNat =
      table.toNat + 8 * (v.toNat / 2 ^ (12 + 9 * k) % 512) := by
    rw [PageMapEntry.slot, BitVec.toNat_add, BitVec.toNat_mul, toNat_level,
      show (8 : BitVec 64).toNat = 8 from rfl]
    omega
  generalize PageMapEntry.slot table (((v >>> (12 + 9 * k)) &&& 0x1FF).setWidth 16) = a at hslot ⊢
  have hroot : ¬ RootSlot false (pageIndex a 3) := by
    have hindex : (pageIndex a 3).val = a.toNat / 2 ^ 39 % 512 := rfl
    unfold RootSlot
    simp only [Bool.false_eq_true, false_and, or_false]
    omega
  rw [h.translate_eq hl, bootTranslation, if_neg fun hboth => hroot hboth.1]

/-- The run from `s` to `t` has accessed an address that does not translate. -/
def HasFaulted (root : Nat) (s t : Machine σ) : Prop :=
  ∃ new, t.log = new ++ s.log ∧ ∃ e ∈ new, e.Faults s.mem root

/-- `get_initial_p4_table` gives the image of `p4_table` in the upper half, and the kernel is
in the first gigabyte. -/
structure InitialRoot (root p4Table : Ptr) : Prop where
  image : root.toNat = p4Table.toNat + 0xFFFFFF8000000000
  gigabyte : p4Table.toNat + 4096 ≤ 2 ^ 30

section Initial

variable {root : Ptr} (hroot : InitialRoot root p4Table)
include hroot

theorem InitialRoot.phys_eq : phys root = p4Table.toNat := by
  have himage := hroot.image
  unfold phys
  rw [if_pos (by omega)]
  omega

theorem InitialRoot.spans : Spans root 4096 := by
  have himage := hroot.image
  have hgigabyte := hroot.gigabyte
  unfold Spans
  omega

theorem InitialRoot.ne_zero : root ≠ 0 := by
  have himage := hroot.image
  rintro rfl
  rw [show (0 : BitVec 64).toNat = 0 from rfl] at himage
  omega

theorem InitialRoot.phys_slot (v : Ptr) :
    phys (rootSlot root v) = p4Table.toNat + 8 * (pageIndex v 3).val :=
  hroot.phys_eq ▸ FeralKernel.phys_slot hroot.spans v 3

/-- The entry of the root is in the upper half and in the first gigabyte. -/
theorem InitialRoot.rootSlot_translates (h : BootMap low m p4Table p3Table p2Table)
    (hl : TableLayout p4Table p3Table p2Table) (v : Ptr) :
    translate m p4Table.toNat (rootSlot root v) ≠ none := by
  have himage := hroot.image
  have hgigabyte := hroot.gigabyte
  have hi := (pageIndex v 3).isLt
  have hsmall : phys (rootSlot root v) < 2 ^ 30 := by
    rw [hroot.phys_slot v]
    omega
  have hhigh : 0xFFFFFF8000000000 ≤ (rootSlot root v).toNat := by
    have hlevel := toNat_level v 39
    have hnat : (rootSlot root v).toNat = root.toNat + 8 * (v.toNat / 2 ^ 39 % 512) := by
      rw [rootSlot, PageMapEntry.slot, BitVec.toNat_add, BitVec.toNat_mul, x86FindPageLevels,
        hlevel, show (8 : BitVec 64).toNat = 8 from rfl]
      omega
    omega
  rw [h.translate_eq hl, bootTranslation_phys hsmall, if_pos (Or.inl hhigh)]
  exact Option.some_ne_none _

theorem InitialRoot.read_rootSlot (h : BootMap low m p4Table p3Table p2Table) {v : Ptr}
    (hv : (pageIndex v 3).val = 511) : read64 m (phys (rootSlot root v)) = p3Table + 3 := by
  have hslot : RootSlot low (pageIndex v 3) := Or.inl hv
  have hentry := h.root (pageIndex v 3)
  rw [if_pos hslot, entries_eq_some] at hentry
  rw [hroot.phys_slot v]
  exact hentry.1

theorem x86UnmapAddress_translated (h : BootMap low s.mem p4Table p3Table p2Table)
    (hl : TableLayout p4Table p3Table p2Table) (v : Ptr) :
    Returns (x86UnmapAddress root v) s fun _ t =>
      Records (fun e => ¬ e.Faults s.mem p4Table.toNat) s t := by
  have hmapped := hroot.rootSlot_translates h hl v
  apply (x86UnmapAddress_records root v s).mono
  intro _ t ht
  apply ht.mono
  rintro e (rfl | rfl)
  · exact hmapped
  · exact hmapped

theorem x86ValidateVirtualAddress_faults (h : BootMap false s.mem p4Table p3Table p2Table)
    (hl : TableLayout p4Table p3Table p2Table) {v : Ptr} (hv : (pageIndex v 3).val = 511) :
    Returns (x86ValidateVirtualAddress root v) s fun _ t => HasFaulted p4Table.toNat s t := by
  obtain ⟨halign3, hpresent3, -⟩ := bootLink hl.aligned.1 hl.window.2.1
  have hread : read64 s.mem (phys (PageMapEntry.slot root (x86FindPageLevels v).2.level3)) =
      p3Table + 3 := hroot.read_rootSlot h hv
  apply (x86ValidateVirtualAddress_run root v s).mono
  intro _ t ht
  refine ⟨_, ht.2.2.2, .read (PageMapEntry.slot p3Table (x86FindPageLevels v).2.level2) 8, ?_,
    h.lowSlot_faults hl hl.window.2.1 v 2⟩
  rw [entryReads, List.mem_map]
  refine ⟨(p3Table, (x86FindPageLevels v).2.level2), ?_, rfl⟩
  rw [validateReads]
  simp only [if_neg hroot.ne_zero, hread, hpresent3, if_true, halign3]
  split
  · split <;> simp
  · simp

theorem x86MapAddress_faults (h : BootMap false s.mem p4Table p3Table p2Table)
    (hl : TableLayout p4Table p3Table p2Table) (malloc : BitVec 64 → Kern σ Ptr) (p : Ptr) {v : Ptr}
    (hv : (translate s.mem p4Table.toNat v).isSome) :
    Returns (x86MapAddress malloc root p v) s fun _ t => HasFaulted p4Table.toNat s t := by
  obtain ⟨-, hwin3, hwin2⟩ := hl.window
  obtain ⟨halign3, hpresent3, -⟩ := bootLink hl.aligned.1 hwin3
  obtain ⟨halign2, hpresent2, -⟩ := bootLink hl.aligned.2 hwin2
  rw [h.translate_eq hl, bootTranslation] at hv
  have hslots : RootSlot false (pageIndex v 3) ∧ PointerSlot (pageIndex v 2) := by
    by_contra hno
    rw [if_neg hno] at hv
    cases hv
  have hv3 : (pageIndex v 3).val = 511 := by
    have hroot3 := hslots.1
    unfold RootSlot at hroot3
    simpa using hroot3
  have hread3 : read64 s.mem (phys (PageMapEntry.slot root (x86FindPageLevels v).2.level3)) =
      p3Table + 3 := hroot.read_rootSlot h hv3
  have hslot2 : phys (PageMapEntry.slot p3Table (x86FindPageLevels v).2.level2) =
      p3Table.toNat + 8 * (pageIndex v 2).val :=
    hwin3.phys_eq ▸ FeralKernel.phys_slot (hwin3.spans.mono (by omega)) v 2
  have hslot1 : phys (PageMapEntry.slot p2Table (x86FindPageLevels v).2.level1) =
      p2Table.toNat + 8 * (pageIndex v 1).val :=
    hwin2.phys_eq ▸ FeralKernel.phys_slot (hwin2.spans.mono (by omega)) v 1
  have hentry2 := h.pointer (pageIndex v 2)
  rw [if_pos hslots.2, entries_eq_some, ← hslot2] at hentry2
  have hentry1 := h.directory (pageIndex v 1)
  rw [entries_eq_some, ← hslot1] at hentry1
  -- all three tables are there, so none is made on the way
  rw [x86MapAddress_eq]
  apply (nextTable_reuse (by rw [hread3]; exact hpresent3)).bind
  intro pdp t1 h1
  obtain ⟨rfl, hm1, hlog1⟩ := h1
  rw [hread3, halign3]
  apply (nextTable_reuse (by rw [hm1, hentry2.1]; exact hpresent2)).bind
  intro pd t2 h2
  obtain ⟨rfl, hm2, hlog2⟩ := h2
  rw [hm1, hentry2.1, halign2]
  apply (nextTable_reuse (by rw [hm2, hm1, hentry1.1]; exact hentry1.2)).bind
  intro pt t3 h3
  obtain ⟨-, -, hlog3⟩ := h3
  apply (mapLeaf_reads pt (x86FindPageLevels v).2.level0 p t3).mono
  intro _ t ht
  obtain ⟨⟨new, hlog⟩, -, -⟩ := ht
  rw [hlog3, hlog2, hlog1, ← List.cons_append, ← List.append_assoc, ← List.append_assoc,
    ← List.append_assoc] at hlog
  exact ⟨_, hlog, .read (PageMapEntry.slot p3Table (x86FindPageLevels v).2.level2) 8, by simp,
    h.lowSlot_faults hl hwin3 v 2⟩

/-- When the lower half has been unmapped, `x86UnmapAddress` still finds every entry that it
looks at.  The two walkers that take the physical address of a table for a pointer read
through addresses that do not translate: `x86ValidateVirtualAddress` for every address of
the kernel's half, and `x86MapAddress` for every address there that is in use. -/
theorem walkers_fault (h : BootMap false s.mem p4Table p3Table p2Table)
    (hl : TableLayout p4Table p3Table p2Table) :
    (∀ v, Returns (x86UnmapAddress root v) s fun _ t =>
      Records (fun e => ¬ e.Faults s.mem p4Table.toNat) s t) ∧
    (∀ v, (pageIndex v 3).val = 511 →
      Returns (x86ValidateVirtualAddress root v) s fun _ t => HasFaulted p4Table.toNat s t) ∧
    ∀ (malloc : BitVec 64 → Kern σ Ptr) (p v : Ptr), (translate s.mem p4Table.toNat v).isSome →
      Returns (x86MapAddress malloc root p v) s fun _ t => HasFaulted p4Table.toNat s t :=
  ⟨x86UnmapAddress_translated hroot h hl,
    fun _ hv => x86ValidateVirtualAddress_faults hroot h hl hv,
    fun malloc p _ hv => x86MapAddress_faults hroot h hl malloc p hv⟩

end Initial

end Walk

/-! ## With the tables at 64 KiB -/

theorem bootMachine_image : ImageTables bootMachine.mem 0x10000 0x11000 0x12000 := by
  refine ⟨bootMachine_tables, fun i h0 h511 => ?_, fun i h0 h511 => ?_, ?_⟩
  · have hi := i.isLt
    show read64 (write64 (write64 (write64 (write64 (fun _ => 0) 0x10000 0x11003) 0x10FF8 0x11003)
      0x11000 0x12003) 0x11FF8 0x12003) (0x10000 + 8 * i.val) = 0
    rw [read64_write64_outside (by omega), read64_write64_outside (by omega),
      read64_write64_outside (by omega), read64_write64_outside (by omega)]
    exact read64_zero fun _ _ _ => rfl
  · have hi := i.isLt
    show read64 (write64 (write64 (write64 (write64 (fun _ => 0) 0x10000 0x11003) 0x10FF8 0x11003)
      0x11000 0x12003) 0x11FF8 0x12003) (0x11000 + 8 * i.val) = 0
    rw [read64_write64_outside (by omega), read64_write64_outside (by omega),
      read64_write64_outside (by omega), read64_write64_outside (by omega)]
    exact read64_zero fun _ _ _ => rfl
  · unfold PagesApart
    decide

theorem bootMachine_root : InitialRoot 0xFFFFFF8000010000 0x10000 := ⟨rfl, by decide⟩

/-- The video memory shows at its physical address and in the upper half. -/
theorem bootMachine_translates :
    Returns (createPageTables 0x12000) bootMachine fun _ t =>
      translate t.mem 0x10000 0xB8123 = some { address := 0xB8000, writable := true } ∧
      translate t.mem 0x10000 0xFFFFFF80000B8123 =
        some { address := 0xB8000, writable := true } := by
  apply (createPageTables_translate bootMachine_image).mono
  intro _ t ht
  exact ⟨ht.2 0xB8123 (by decide), ht.2 0xFFFFFF80000B8123 (by decide)⟩

theorem bootMachine_unmapLow :
    Returns (createPageTables 0x12000) bootMachine fun _ t =>
      Returns (x86UnmapAddress 0xFFFFFF8000010000 0) t fun _ w =>
        translate w.mem 0x10000 0xB8123 = none ∧
        translate w.mem 0x10000 0xFFFFFF80000B8123 =
          translate t.mem 0x10000 0xFFFFFF80000B8123 := by
  apply (createPageTables_unmapLow bootMachine_image bootMachine_root.phys_eq
    bootMachine_root.spans).mono
  intro _ t ht
  apply (ht t fun _ _ _ _ _ => rfl).mono
  intro _ w hw
  exact ⟨hw.2.1 0xB8123, hw.2.1 0xFFFFFF80000B8123⟩

theorem bootMachine_walkers_fault :
    Returns (createPageTables 0x12000) bootMachine fun _ t =>
      Returns (x86UnmapAddress 0xFFFFFF8000010000 0) t fun _ w =>
        Returns (x86ValidateVirtualAddress 0xFFFFFF8000010000 0xFFFFFF80000B8123) w
          fun _ u => HasFaulted 0x10000 w u := by
  apply (createPageTables_bootMap bootMachine_image).mono
  intro _ t ht
  apply (ht.unmapLow bootMachine_image.layout bootMachine_root.phys_eq bootMachine_root.spans
    (v := 0) rfl).mono
  intro _ w hw
  exact (walkers_fault bootMachine_root hw.2.2.2 bootMachine_image.layout).2.1 _ rfl

end FeralKernel
